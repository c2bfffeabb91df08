import TrioScore.Proofs.Delivery
import TrioScore.Proofs.Smf.Decoded

/-!
# Recovery from a failed writer

When the writer fails on the score of a piece, it is asked once more, for the emergency phrase at
the tempo and in the meter of that piece. The file of the phrase begins as the file of the piece
would have: with the same header and the same conductor, byte for byte.

Here delivery is written a second time, with its attempt and its recovery in full and with every
call of the writer counted. The two agree on every writer and everything that is handed in.
-/

namespace TrioScore

/-- What is handed in: a document, or a piece that was not repaired. -/
inductive Submission where
  | document (value : Json)
  | piece (written : Piece)

namespace Submission

def toJson : Submission → Json
  | document value => value
  | piece written => written.toJson

/-- The tempo and the meter that are handed in. A piece is asked for its own. -/
def tempoAndMeter : Submission → Except Fault (ℤ × Meter)
  | document value => Delivery.tempoAndMeter value
  | piece written => do
    let timeSignature ← Repair.timeSignature (.text written.timeSignature)
    return (Repair.tempo (.ofInt written.tempo), ← Meter.parse timeSignature)

theorem tempoAndMeter_eq (submission : Submission) :
    submission.tempoAndMeter = Delivery.tempoAndMeter submission.toJson := by
  cases submission <;> rfl

end Submission

/-- What may fail, with the number of calls of the writer so far. -/
abbrev Counted (α : Type) := ExceptT Fault (StateM ℕ) α

def Exporter.write (exporter : Exporter) (score : Score) : Counted Bytes :=
  ExceptT.mk fun call => (exporter call score, call + 1)

theorem Exporter.run_write (exporter : Exporter) (score : Score) (call : ℕ) :
    (exporter.write score).run.run call = (exporter call score, call + 1) := rfl

namespace Delivery

/-- The file of what is handed in, with no way out of a fault. -/
def attempt (exporter : Exporter) (provider : Text) (submission : Submission) :
    Counted Delivery := do
  let (piece, score) ← MonadExcept.ofExcept submission.toJson.score
  let bytes ← exporter.write score
  return ⟨some piece, bytes, provider, false, []⟩

/-- The emergency phrase after a fault. -/
def recover (exporter : Exporter) (provider : Text) (submission : Submission) (fault : Fault) :
    Counted Delivery := do
  let (tempo, meter) ← MonadExcept.ofExcept submission.tempoAndMeter
  let bytes ← exporter.write (Score.emergency tempo meter)
  return ⟨none, bytes, provider, true, [warning fault]⟩

/-- Delivery with its calls counted. -/
def counted (exporter : Exporter) (provider : Text) (submission : Submission) : Counted Delivery :=
  tryCatch (attempt exporter provider submission) (recover exporter provider submission)

section Runs
variable {exporter : Exporter} {provider : Text} {submission : Submission}

theorem run_attempt (call : ℕ) : (attempt exporter provider submission).run.run call =
    match submission.toJson.score with
    | .ok (piece, score) => ((fun bytes => ⟨some piece, bytes, provider, false, []⟩) <$>
        exporter call score, call + 1)
    | .error fault => (.error fault, call) := by
  rw [attempt, run_run_bind, run_run_ofExcept]
  cases submission.toJson.score with
  | error fault => rfl
  | ok rendered =>
    dsimp only
    rw [run_run_bind, Exporter.run_write]
    cases exporter call rendered.2 <;> rfl

/-- The emergency phrase takes one call, if the tempo and the meter can be read. -/
theorem run_recover (fault : Fault) (call : ℕ) :
    (recover exporter provider submission fault).run.run call =
      (emergency exporter call provider submission.toJson fault,
        match tempoAndMeter submission.toJson with
        | .ok _ => call + 1
        | .error _ => call) := by
  rw [recover, run_run_bind, run_run_ofExcept, Submission.tempoAndMeter_eq, emergency]
  cases tempoAndMeter submission.toJson with
  | error fault => rfl
  | ok best =>
    dsimp only
    rw [run_run_bind, Exporter.run_write, ok_bind]
    cases exporter call (Score.emergency best.1 best.2) <;> rfl

/-- Counting calls leaves what is delivered as it is. -/
theorem run_counted_fst : ((counted exporter provider submission).run.run 0).1 =
    (deliver exporter provider submission.toJson).2 := by
  rw [counted, run_run_tryCatch, run_attempt, deliver]
  cases submission.toJson.score with
  | error fault =>
    dsimp only
    rw [run_recover]
  | ok rendered =>
    dsimp only
    cases exporter 0 rendered.2 with
    | error fault =>
      dsimp only [Functor.map, Except.map]
      rw [run_recover]
    | ok bytes => rfl

/-- After a fault of its first call the writer is called once more, for the emergency phrase. -/
theorem run_counted_of_first_fault {piece : Piece} {score : Score} {best : ℤ × Meter}
    {fault : Fault} (hscore : submission.toJson.score = .ok (piece, score))
    (hbest : tempoAndMeter submission.toJson = .ok best)
    (hfault : exporter 0 score = .error fault) :
    (counted exporter provider submission).run.run 0 =
      (emergency exporter 1 provider submission.toJson fault, 2) := by
  rw [counted, run_run_tryCatch, run_attempt, hscore]
  dsimp only
  rw [hfault]
  dsimp only [Functor.map, Except.map]
  rw [run_recover, hbest]

end Runs

theorem emergency_of_best {document : Json} {tempo : ℤ} {meter : Meter}
    (h : tempoAndMeter document = .ok (tempo, meter)) (exporter : Exporter) (call : ℕ)
    (provider : Text) (fault : Fault) : emergency exporter call provider document fault =
      (fun phrase => ⟨none, phrase, provider, true, [warning fault]⟩) <$>
        exporter call (Score.emergency tempo meter) := by
  rw [emergency, h, ok_bind]
  dsimp only
  cases exporter call (Score.emergency tempo meter) <;> rfl

theorem tempoAndMeter_of_repair {document : Json} {piece : Piece} {meter : Meter}
    (h : Piece.repair document = .ok piece) (hmeter : Meter.parse piece.timeSignature = .ok meter) :
    tempoAndMeter document = .ok (piece.tempo, meter) := by
  obtain ⟨fields, timeSignature, rfl, ht, rfl⟩ := Piece.repair_eq_ok h
  have hparse : Meter.parse timeSignature = .ok meter := hmeter
  rw [tempoAndMeter, ht, ok_bind, hparse]
  rfl

end Delivery

namespace Smf
open Reader

/-- The file begins with the header of this division and with this conductor: so do its bytes, and
so do the chunks that are read from it. -/
structure LedBy (division : ℕ) (conductor file : Bytes) : Prop where
  bytes : Chunk.bytes ⟨headerTag, headerPayload division⟩ ++ Chunk.bytes ⟨trackTag, conductor⟩ <+:
    file
  chunks : ∃ tracks, chunks? file =
    some (⟨headerTag, headerPayload division⟩ :: ⟨trackTag, conductor⟩ :: tracks)

theorem ledBy_of_ofScore {score : Score} (h : score.Regular) {division : ℕ}
    (hd : division ≤ 65535) {first file : Bytes}
    (hfirst : conductor score.tempo score.meter >>= payload = .ok first)
    (hfile : ofScore division score = .ok file) : LedBy division first file := by
  obtain ⟨ps, hps⟩ := exists_payloads h hd
  obtain ⟨hshort, rfl⟩ := (ofScore_eq_ok_iff hd hps).mp hfile
  obtain ⟨_, rest, rfl, hsame, -⟩ := exists_of_payloads hps
  obtain rfl := Except.ok.inj (hsame.symm.trans hfirst)
  refine ⟨?_, rest.map (⟨trackTag, ·⟩), chunks?_fileChunks division hshort⟩
  rw [fileChunks, List.map_cons, List.flatMap_cons, List.flatMap_cons, ← List.append_assoc]
  exact List.prefix_append _ _

/-- A tempo and a meter make one conductor, for the files of all scores that have them. -/
theorem exists_conductor {tempo : ℤ} (ht : 40 ≤ tempo ∧ tempo ≤ 220) {meter : Meter}
    (hm : meter.InRange) {division : ℕ} (hd : division ≤ 65535) : ∃ first,
      (∃ last, events? 0 none first = some (conductorEvents tempo meter ++ [(last, .endOfTrack)])) ∧
      ∀ score : Score, score.Regular → score.tempo = tempo → score.meter = meter →
        ∀ file, ofScore division score = .ok file → LedBy division first file := by
  obtain ⟨messages, hmessages, -, hwritable⟩ := conductor_eq_ok (by omega : 1 ≤ tempo) hm 0
  obtain ⟨first, hpayload, -⟩ := payload_eq_ok hwritable
  have hfirst : conductor tempo meter >>= payload = .ok first := by
    rw [hmessages, ok_bind, hpayload]
  refine ⟨first, events?_conductor ht hm hfirst, ?_⟩
  rintro score hregular rfl rfl file hfile
  exact ledBy_of_ofScore hregular hd hfirst hfile

end Smf

/-- When the first call of the writer fails, for any document or piece that can be repaired, there
is a second call and no third. Its fault stands; and what it gives is delivered with one warning, of
the first fault. The file of the phrase then begins as the file of the piece, with a conductor that
has the tempo and the meter of the piece. -/
theorem deliver_of_first_fault {submission : Submission} {piece : Piece}
    (h : Piece.repair submission.toJson = .ok piece) (provider : Text) {division : ℕ}
    (hd : division ≤ 65535) :
    ∃ score meter, Score.ofPiece piece = .ok score ∧
      Meter.parse piece.timeSignature = .ok meter ∧
      ∀ (exporter : Exporter) (fault : Fault), exporter 0 score = .error fault →
        (Delivery.counted exporter provider submission).run.run 0 =
          ((deliver exporter provider submission.toJson).2, 2) ∧
        (∀ second, exporter 1 (Score.emergency piece.tempo meter) = .error second →
          (deliver exporter provider submission.toJson).2 = .error second) ∧
        (∀ phrase, exporter 1 (Score.emergency piece.tempo meter) = .ok phrase →
          (deliver exporter provider submission.toJson).2 =
            .ok ⟨none, phrase, provider, true, [Delivery.warning fault]⟩) ∧
        (exporter 1 (Score.emergency piece.tempo meter) =
            Smf.ofScore division (Score.emergency piece.tempo meter) →
          ∃ phrase, (deliver exporter provider submission.toJson).2 =
              .ok ⟨none, phrase, provider, true, [Delivery.warning fault]⟩ ∧
            ∀ file, Smf.ofScore division score = .ok file →
              ∃ conductor, Smf.LedBy division conductor file ∧
                Smf.LedBy division conductor phrase ∧
                ∃ last, Smf.Reader.events? 0 none conductor =
                  some (Smf.conductorEvents piece.tempo meter ++ [(last, .endOfTrack)])) := by
  obtain ⟨score, hscore, hregular, htempo, htext⟩ := Score.exists_regular_ofPiece h
  have hmeter : Meter.parse piece.timeSignature = .ok score.meter := by
    rw [htext]
    exact Meter.parse_toText hregular.meter
  have hpiece : submission.toJson.score = .ok (piece, score) := by
    rw [Json.score, h, ok_bind, hscore]
    rfl
  have hbest := Delivery.tempoAndMeter_of_repair h hmeter
  refine ⟨score, score.meter, hscore, hmeter, fun exporter fault hfault => ?_⟩
  have hrun : (Delivery.counted exporter provider submission).run.run 0 =
      (Delivery.emergency exporter 1 provider submission.toJson fault, 2) :=
    Delivery.run_counted_of_first_fault hpiece hbest hfault
  have hdelivered : (deliver exporter provider submission.toJson).2 =
      (fun phrase => ⟨none, phrase, provider, true, [Delivery.warning fault]⟩) <$>
        exporter 1 (Score.emergency piece.tempo score.meter) := by
    rw [← Delivery.run_counted_fst, hrun, Delivery.emergency_of_best hbest]
  refine ⟨?_, fun second hsecond => ?_, fun phrase hphrase => ?_, fun hworks => ?_⟩
  · rw [hrun, hdelivered, Delivery.emergency_of_best hbest]
  · rw [hdelivered, hsecond]
    rfl
  · rw [hdelivered, hphrase]
    rfl
  · have htempo' : 40 ≤ piece.tempo ∧ piece.tempo ≤ 220 := htempo ▸ hregular.tempo_mem
    obtain ⟨phrase, hphrase⟩ := Score.ofScore_emergency_eq_ok (by omega : 1 ≤ piece.tempo)
      hregular.meter hd
    obtain ⟨conductor, hread, hled⟩ := Smf.exists_conductor htempo' hregular.meter hd
    refine ⟨phrase, by rw [hdelivered, hworks, hphrase]; rfl, fun file hfile => ⟨conductor,
      hled score hregular htempo rfl file hfile, ?_, hread⟩⟩
    exact hled _ (Score.emergency_regular htempo' hregular.meter) rfl rfl phrase hphrase

/-- A document of one measure in 1/4, at the greatest division and with a writer who fails once. -/
theorem deliver_oneMeasure_of_first_fault :
    ∃ piece score file phrase conductor, Piece.repair .oneMeasure = .ok piece ∧
      Score.ofPiece piece = .ok score ∧ Smf.ofScore 65535 score = .ok file ∧
      (deliver (.failing 1 (.outside "OSError" "disk full") (.standard 65535)) "input"
        .oneMeasure).2 = .ok ⟨none, phrase, "input", true,
          ["emergency fallback: OSError: disk full"]⟩ ∧
      Smf.LedBy 65535 conductor file ∧ Smf.LedBy 65535 conductor phrase := by
  obtain ⟨piece, hpiece, hshort⟩ := Json.payloads_oneMeasure
  have hsubmitted : Piece.repair (Submission.document .oneMeasure).toJson = .ok piece := hpiece
  obtain ⟨score, meter, hscore, -, hrecovered⟩ :=
    deliver_of_first_fault hsubmitted "input" (by decide : 65535 ≤ 65535)
  obtain ⟨_, hregular⟩ := Score.exists_regular_ofPiece hpiece
  obtain rfl := Except.ok.inj (hregular.1.symm.trans hscore)
  obtain ⟨ps, hps⟩ := Smf.exists_payloads hregular.2.1 (by decide : 65535 ≤ 65535)
  have hfile := (Smf.ofScore_eq_ok_iff (by decide) hps).mpr
    ⟨hshort 65535 (by simp) _ ps hscore hps, rfl⟩
  obtain ⟨-, -, -, hworks⟩ := hrecovered
    (.failing 1 (.outside "OSError" "disk full") (.standard 65535)) _ rfl
  obtain ⟨phrase, hphrase, hled⟩ := hworks rfl
  obtain ⟨conductor, hled, hled', -⟩ := hled _ hfile
  exact ⟨piece, _, _, phrase, conductor, hpiece, hscore, hfile, hphrase, hled, hled'⟩

end TrioScore
