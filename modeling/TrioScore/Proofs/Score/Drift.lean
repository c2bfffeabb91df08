import TrioScore.Proofs.Meter.Pulses
import TrioScore.Proofs.Piece.Repaired
import TrioScore.Proofs.Score.Measure
import TrioScore.Score.Rendering

/-!
# The bass against the harmony

The harmony has a quarter on every pulse of a measure. Up to three pulses the bass has the same;
from four pulses on it has two half notes, whatever the measure holds. So the two stay together in
measures of up to four pulses, and in longer ones the bass gets ahead of the barline.
-/

namespace TrioScore

/-- The measures of a piece in the order they are played. -/
def Piece.measureList (piece : Piece) : List (Section × ℤ) :=
  piece.sections.flatMap fun s => s.measureIndices.map (s, ·)

namespace Score
open Binary64

/-- The score with a list of measures more. -/
def appendMeasures (key : Key) (pulses : ℤ) (score : Score) (measures : List (Section × ℤ)) :
    Except Fault Score :=
  measures.foldlM (fun score m => score.appendMeasure key pulses m.1 m.2) score

theorem foldlM_appendSection (key : Key) (pulses : ℤ) (score : Score) (sections : List Section) :
    sections.foldlM (appendSection key pulses) score = appendMeasures key pulses score
      (sections.flatMap fun s => s.measureIndices.map (s, ·)) := by
  induction sections generalizing score with
  | nil => rfl
  | cons s sections ih =>
    have hs : appendSection key pulses score s =
        appendMeasures key pulses score (s.measureIndices.map (s, ·)) := by
      rw [appendMeasures, List.foldlM_map]
      rfl
    rw [List.foldlM_cons, List.flatMap_cons, appendMeasures, List.foldlM_append, hs]
    exact congrArg _ (funext ih)

theorem ofPiece_eq {piece : Piece} {meter : Meter} {p : ℕ}
    (hm : Meter.parse piece.timeSignature = .ok meter)
    (hp : Meter.pulses (.real meter.quarterBeats) = .ok p) :
    ofPiece piece =
      appendMeasures (Key.named piece.key) p (empty piece.tempo meter) piece.measureList := by
  rw [Piece.measureList, ← foldlM_appendSection, ofPiece, hm, ok_bind, hp]
  rfl

/-- Where harmony and bass are after `n` measures of `p` pulses. -/
structure After (p n : ℕ) (score : Score) : Prop where
  harmony : score.harmony.cursor = steps 1 (n * p)
  bass : score.bass.cursor = if p ≤ 3 then steps 1 (n * p) else steps 2 (2 * n)

theorem after_empty (p : ℕ) (tempo : ℤ) (meter : Meter) : After p 0 (empty tempo meter) := by
  constructor
  · rw [Nat.zero_mul, steps_zero]
    rfl
  · rw [Nat.zero_mul, steps_zero, steps_zero, ite_self]
    rfl

theorem beats_quarter : NoteLength.quarter.beats = ofRat (1 : ℕ) := by
  rw [NoteLength.beats]
  norm_num [NoteLength.sixteenths, Rat.mkRat_eq_div]

theorem beats_half : NoteLength.half.beats = ofRat (2 : ℕ) := by
  rw [NoteLength.beats]
  norm_num [NoteLength.sixteenths, Rat.mkRat_eq_div]

theorem After.appendParts {p n : ℕ} {score : Score} (h : After p n score) {key : Key} {s : Section}
    {measure : ℤ} (hk : key.scale.isEmpty = false) {notes : Parts}
    (hn : Measure.parts key p s measure = .ok notes) :
    After p (n + 1) (score.appendParts notes) := by
  obtain ⟨_, hok, -, ⟨chord, v, hharmony⟩, root, w, hbass⟩ := Measure.parts_eq_ok hk p s measure
  obtain rfl := Except.ok.inj (hn.symm.trans hok)
  constructor
  · rw [Nat.succ_mul, Score.appendParts, hharmony]
    exact Track.cursor_appendAll_replicate (.inl rfl) beats_quarter h.harmony p
  · have hb := h.bass
    rw [Score.appendParts, hbass, Measure.bassNotes]
    split_ifs with h4 h3 h3
    · omega
    · rw [if_neg h3] at hb
      exact Track.cursor_appendAll_replicate (.inr rfl) beats_half hb 2
    · rw [if_pos h3] at hb
      rw [Nat.succ_mul]
      exact Track.cursor_appendAll_replicate (.inl rfl) beats_quarter hb p
    · omega

/-- A run of measures takes both voices on, measure by measure. -/
theorem After.appendMeasures {p n : ℕ} {score : Score} (h : After p n score) {key : Key}
    (hk : key.scale.isEmpty = false) (measures : List (Section × ℤ)) : ∃ next,
      appendMeasures key p score measures = .ok next ∧ After p (n + measures.length) next := by
  induction measures generalizing score n with
  | nil => exact ⟨score, rfl, h⟩
  | cons m measures ih =>
    obtain ⟨notes, hn, -⟩ := Measure.parts_eq_ok hk p m.1 m.2
    obtain ⟨next, hnext, hafter⟩ := ih (h.appendParts hk hn)
    refine ⟨next, ?_, ?_⟩
    · rw [Score.appendMeasures, List.foldlM_cons, appendMeasure_eq_ok hn]
      exact hnext
    · rwa [List.length_cons, ← Nat.succ_add_eq_add_succ]

theorem exists_after_take {p : ℕ} {start : Score} (h : After p 0 start) {key : Key}
    (hk : key.scale.isEmpty = false) {measures : List (Section × ℤ)} {n : ℕ}
    (hn : n ≤ measures.length) : ∃ score,
      appendMeasures key p start (measures.take n) = .ok score ∧ After p n score := by
  obtain ⟨score, hs, ha⟩ := h.appendMeasures hk (measures.take n)
  rw [List.length_take_of_le hn, Nat.zero_add] at ha
  exact ⟨score, hs, ha⟩

theorem appendMeasures_take_succ {key : Key} {p : ℤ} {start score : Score}
    {measures : List (Section × ℤ)} {n : ℕ} (hn : n < measures.length)
    (hs : appendMeasures key p start (measures.take n) = .ok score) {notes : Parts}
    (hnotes : Measure.parts key p measures[n].1 measures[n].2 = .ok notes) :
    appendMeasures key p start (measures.take (n + 1)) = .ok (score.appendParts notes) := by
  rw [appendMeasures] at hs ⊢
  rw [← List.take_append_getElem hn, List.foldlM_append, hs, ok_bind, List.foldlM_cons,
    appendMeasure_eq_ok hnotes]
  rfl

/-- When the two are at the same place. A cursor stands still at 2^53 quarters, or 2^54 beats of
half notes. -/
theorem After.bass_eq_harmony_iff {p n : ℕ} {score : Score} (h : After p n score) :
    score.bass.cursor = score.harmony.cursor ↔
      p ≤ 3 ∨ n = 0 ∨ (p = 4 ∧ n ≤ 2 ^ 51) ∨ n = 2 ^ 51 := by
  rw [h.harmony, h.bass]
  split_ifs with h3
  · simp [h3]
  · rw [steps_inj (.inr rfl) (.inl rfl)]
    have hsize : 2 * octaveSize = 2 ^ 53 := by norm_num [octaveSize]
    rw [hsize]
    rcases Nat.eq_or_lt_of_le (not_le.mp h3) with h4 | h4
    · obtain rfl : p = 4 := h4.symm
      omega
    · have h5 : n * 5 ≤ n * p := Nat.mul_le_mul_left n h4
      rcases Nat.eq_zero_or_pos n with rfl | hn
      · simp
      · omega

theorem starts_appendParts {p : ℕ} (hp : 1 ≤ p) {key : Key} (hk : key.scale.isEmpty = false)
    {s : Section} {measure : ℤ} {notes : Parts} (hn : Measure.parts key p s measure = .ok notes)
    (score : Score) : ∃ chord root : Event,
      (score.appendParts notes).harmony.events[score.harmony.events.size]? = some chord ∧
      (score.appendParts notes).bass.events[score.bass.events.size]? = some root ∧
      chord.start = score.harmony.cursor ∧ root.start = score.bass.cursor := by
  obtain ⟨_, hok, -, ⟨chord, v, hharmony⟩, root, w, hbass⟩ := Measure.parts_eq_ok hk p s measure
  obtain rfl := Except.ok.inj (hn.symm.trans hok)
  have hpulses : p ≠ 0 := by omega
  have hne : notes.harmony ≠ [] := by
    rw [hharmony, Measure.harmonyNotes]
    simp [hpulses]
  have hne' : notes.bass ≠ [] := by
    rw [hbass, Measure.bassNotes]
    split_ifs
    · simp
    · simp [hpulses]
  obtain ⟨chord, hchord, hstart⟩ := score.harmony.exists_event_appendAll hne
  obtain ⟨root, hroot, hstart'⟩ := score.bass.exists_event_appendAll hne'
  exact ⟨chord, root, hchord, hroot, hstart, hstart'⟩

/-- In a repaired piece the bass keeps with the harmony in measures of up to three pulses. With four
it does until 2^51 measures, where the harmony's cursor stands still. With five and more its two
half notes are too short, and only at the very start and at 2^51 measures are the two together.
Chords and bass of the measure that follows start together or apart as the cursors stand. -/
theorem bass_cursor_eq_harmony_cursor_iff {document : Json} {piece : Piece}
    (h : Piece.repair document = .ok piece) : ∃ (meter : Meter) (p : ℕ),
      Meter.parse piece.timeSignature = .ok meter ∧
      Meter.pulses (.real meter.quarterBeats) = .ok p ∧ 1 ≤ p ∧ p ≤ 16 ∧
      ofPiece piece =
        appendMeasures (Key.named piece.key) p (empty piece.tempo meter) piece.measureList ∧
      (∀ n ≤ piece.measureList.length, ∃ score,
        appendMeasures (Key.named piece.key) p (empty piece.tempo meter)
          (piece.measureList.take n) = .ok score ∧
        score.harmony.cursor = steps 1 (n * p) ∧
        score.bass.cursor = (if p ≤ 3 then steps 1 (n * p) else steps 2 (2 * n)) ∧
        (score.bass.cursor = score.harmony.cursor ↔
          p ≤ 3 ∨ n = 0 ∨ (p = 4 ∧ n ≤ 2 ^ 51) ∨ n = 2 ^ 51)) ∧
      ∀ n < piece.measureList.length, ∃ score next chord root,
        appendMeasures (Key.named piece.key) p (empty piece.tempo meter)
          (piece.measureList.take n) = .ok score ∧
        appendMeasures (Key.named piece.key) p (empty piece.tempo meter)
          (piece.measureList.take (n + 1)) = .ok next ∧
        next.harmony.events[score.harmony.events.size]? = some chord ∧
        next.bass.events[score.bass.events.size]? = some root ∧
        (root.start = chord.start ↔ p ≤ 3 ∨ n = 0 ∨ (p = 4 ∧ n ≤ 2 ^ 51) ∨ n = 2 ^ 51) := by
  have hsane := Piece.isSane_of_repair h
  obtain ⟨meter, hmeter, hwritten⟩ := Meter.isWritten_iff.mp hsane.timeSignature
  have hparse : Meter.parse piece.timeSignature = .ok meter := by
    rw [hwritten]
    exact Meter.parse_toText hmeter
  obtain ⟨p, hp, hp₁, hp₂⟩ := Meter.pulses_of_isFinite (Meter.isFinite_quarterBeats hmeter)
  have hk := Key.isEmpty_scale_named piece.key
  have hstart := after_empty p piece.tempo meter
  refine ⟨meter, p, hparse, hp, hp₁, hp₂, ofPiece_eq hparse hp, fun n hn => ?_, fun n hn => ?_⟩
  · obtain ⟨score, hs, ha⟩ := exists_after_take hstart hk hn
    exact ⟨score, hs, ha.harmony, ha.bass, ha.bass_eq_harmony_iff⟩
  · obtain ⟨score, hs, ha⟩ := exists_after_take hstart hk hn.le
    obtain ⟨notes, hnotes, -⟩ :=
      Measure.parts_eq_ok hk p piece.measureList[n].1 piece.measureList[n].2
    obtain ⟨chord, root, hc, hr, hcs, hrs⟩ := starts_appendParts hp₁ hk hnotes score
    refine ⟨score, score.appendParts notes, chord, root, hs,
      appendMeasures_take_succ hn hs hnotes, hc, hr, ?_⟩
    rw [hcs, hrs]
    exact ha.bass_eq_harmony_iff

theorem bass_with_harmony_in_common_time : ∃ piece, Piece.repair (.object []) = .ok piece ∧
    ∃ score, appendMeasures (Key.named piece.key) 4 (empty piece.tempo .common)
        (piece.measureList.take 8) = .ok score ∧ score.bass.cursor = score.harmony.cursor := by
  have h : Piece.repair (.object []) = .ok _ := rfl
  obtain ⟨meter, p, hm, hp, -, -, -, hcursors, -⟩ := bass_cursor_eq_harmony_cursor_iff h
  obtain rfl : meter = .common := (Except.ok.inj hm).symm
  have hp4 : Meter.pulses (.real Meter.common.quarterBeats) = .ok 4 := by decide +kernel
  obtain rfl : p = 4 := by exact_mod_cast Except.ok.inj (hp.symm.trans hp4)
  obtain ⟨score, hs, -, -, hiff⟩ := hcursors 8 (by decide)
  exact ⟨_, h, score, hs, hiff.mpr (by norm_num)⟩

/-- One measure of five quarters has five chords over a bass of four beats. -/
theorem bass_behind_harmony_in_five_four : ∃ piece score,
    Piece.repair (.object [("timeSignature", .text "5/4"),
      ("sections", .array [.object [("measures", .ofInt 1)]])]) = .ok piece ∧
    ofPiece piece = .ok score ∧ score.harmony.cursor = ofRat 5 ∧ score.bass.cursor = ofRat 4 ∧
      score.bass.cursor ≠ score.harmony.cursor := by
  have hrun : (fun score : Score => (score.harmony.cursor, score.bass.cursor)) <$>
      (Piece.repair (.object [("timeSignature", .text "5/4"),
        ("sections", .array [.object [("measures", .ofInt 1)]])]) >>= ofPiece) =
      .ok (ofRat 5, ofRat 4) := by
    decide +kernel
  obtain ⟨score, hs, hcursors⟩ := map_eq_ok_iff.mp hrun
  obtain ⟨piece, hpiece, hscore⟩ := bind_eq_ok_iff.mp hs
  obtain ⟨hharmony, hbass⟩ := Prod.ext_iff.mp hcursors
  refine ⟨piece, score, hpiece, hscore, hharmony, hbass, ?_⟩
  have hne : ofRat 4 ≠ ofRat 5 := by decide +kernel
  exact fun h => hne (hbass.symm.trans (h.trans hharmony))

end Score
end TrioScore
