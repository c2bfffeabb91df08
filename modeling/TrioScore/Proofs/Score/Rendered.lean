import TrioScore.Proofs.Binary64.Product
import TrioScore.Proofs.Score.Drift
import TrioScore.Proofs.Score.Playable
import TrioScore.Proofs.Score.Regular

/-!
# Regular scores

A score is regular when it takes regular notes only, at a tempo and in a meter in range. A repaired
piece has a regular score, however many measures it has, and the emergency phrase is regular too.
-/

namespace TrioScore
open Binary64

/-- A track that takes regular notes, with a channel and a short name in Latin-1. -/
structure Track.Regular (track : Track) : Prop where
  channel_mem : 0 ≤ track.channel ∧ track.channel < 16
  name_mem : ∀ c ∈ track.name, c.value < 256
  length_name_le : track.name.length ≤ 13
  notes : ∃ notes, (∀ note ∈ notes, note.Regular) ∧
    track = (empty track.name track.channel).appendAll notes

theorem Note.Regular.playable {note : Note} (h : note.Regular) : note.Playable 24 where
  pitches := by
    intro pitch hp
    have hmem := h.pitches_mem pitch hp
    rw [Number.IsSmall, abs_of_nonneg (by omega)]
    exact hmem.2.trans (by decide)
  beats := by
    obtain ⟨k, -, hk, hbeats⟩ := h.beats
    have hkq : (k : ℚ) ≤ 384 := by exact_mod_cast hk
    rw [hbeats]
    exact within_ofRat (isExact_natCast (by decide)) (by positivity) (by push_cast; linarith)
  velocity := by
    have hmem := h.velocity_mem
    rw [Number.IsSmall, abs_of_nonneg (by omega)]
    exact hmem.2.trans (by decide)

/-- No number of notes takes a cursor beyond 2^58 beats: there it stands still. -/
theorem Track.Regular.playable {track : Track} (h : track.Regular) : track.Playable (2 ^ 58) := by
  have hexact : IsExact (2 ^ 58 : ℕ) := by
    simpa only [one_mul] using isExact_mul_two_pow (n := 1) (k := 58) (by decide) (by norm_num)
  have hstay : rankAt ((2 ^ 58 : ℕ) + (24 : ℕ)) = rankAt (2 ^ 58 : ℕ) := by decide +kernel
  obtain ⟨notes, hnotes, htrack⟩ := h.notes
  rw [htrack]
  have hstart := (Track.playable_empty track.name track.channel).mono (Nat.zero_le (2 ^ 58))
  generalize Track.empty track.name track.channel = start at hstart
  clear htrack
  induction notes generalizing start with
  | nil => exact hstart
  | cons note notes ih =>
    obtain ⟨hnote, hnotes⟩ := List.forall_mem_cons.mp hnotes
    rw [Track.appendAll_cons]
    refine ih hnotes _ ⟨?_, ?_⟩
    · intro e he
      rcases Array.mem_push.mp he with he | rfl
      · exact hstart.events e he
      · exact ⟨hnote.playable.pitches, hstart.cursor, hnote.playable.beats.mono (by decide),
          hnote.playable.velocity⟩
    · exact hstart.cursor.add_of_rankAt_eq hnote.playable.beats hexact hstay

/-- A score that regular notes make, at a tempo and in a meter in range. -/
structure Score.Regular (score : Score) : Prop where
  tempo_mem : 40 ≤ score.tempo ∧ score.tempo ≤ 220
  meter : score.meter.InRange
  notes : ∃ notes : Parts, notes.Regular ∧
    score = (empty score.tempo score.meter).appendParts notes

namespace Score

theorem Regular.tracks {score : Score} (h : score.Regular) :
    (∀ track ∈ score.tracks, track.Regular) ∧
      score.tracks.map Track.name = ["Melody", "Harmony", "Bass"] ∧
      score.tracks.map Track.channel = [0, 1, 2] := by
  obtain ⟨notes, ⟨hmelody, hharmony, hbass⟩, hscore⟩ := h.notes
  have htrack : ∀ (name : Text) (channel : ℤ) (l : List Note), (∀ note ∈ l, note.Regular) →
      0 ≤ channel ∧ channel < 16 → (∀ c ∈ name, c.value < 256) → name.length ≤ 13 →
      ((Track.empty name channel).appendAll l).Regular := by
    intro name channel l hl hc hn hlength
    obtain ⟨hname, hchannel⟩ := Track.name_appendAll (Track.empty name channel) l
    refine ⟨by rwa [hchannel], by rwa [hname], by rwa [hname], l, hl, ?_⟩
    rw [hname, hchannel]
    rfl
  have htracks : score.tracks = [(Track.empty "Melody" 0).appendAll notes.melody,
      (Track.empty "Harmony" 1).appendAll notes.harmony,
      (Track.empty "Bass" 2).appendAll notes.bass] := by
    rw [hscore]
    rfl
  rw [htracks]
  refine ⟨?_, by simp [Track.name_appendAll, Track.empty],
    by simp [Track.name_appendAll, Track.empty]⟩
  intro track hmem
  simp only [List.mem_cons, List.not_mem_nil, or_false] at hmem
  rcases hmem with rfl | rfl | rfl
  · exact htrack _ _ _ hmelody (by decide) (by decide) (by decide)
  · exact htrack _ _ _ hharmony (by decide) (by decide) (by decide)
  · exact htrack _ _ _ hbass (by decide) (by decide) (by decide)

theorem appendParts_append (score : Score) (a b : Parts) :
    score.appendParts (a.append b) = (score.appendParts a).appendParts b := by
  simp only [appendParts, Parts.append, Track.appendAll_append]

/-- What holds of the notes of each measure, and of notes after notes, holds of the notes of all
measures. -/
theorem exists_appendMeasures {P : ℕ → Parts → Prop} (nil : P 0 ⟨[], [], []⟩)
    (append : ∀ {m n a b}, P m a → P n b → P (m + n) (a.append b)) {key : Key} {pulses : ℤ}
    {measures : List (Section × ℤ)}
    (h : ∀ m ∈ measures, ∃ notes, Measure.parts key pulses m.1 m.2 = .ok notes ∧ P 1 notes)
    (score : Score) : ∃ notes, P measures.length notes ∧
      appendMeasures key pulses score measures = .ok (score.appendParts notes) := by
  induction measures generalizing score with
  | nil => exact ⟨⟨[], [], []⟩, nil, rfl⟩
  | cons m measures ih =>
    obtain ⟨⟨first, hfirst, hone⟩, hmeasures⟩ := List.forall_mem_cons.mp h
    obtain ⟨rest, hmany, hnext⟩ := ih hmeasures (score.appendParts first)
    refine ⟨first.append rest, ?_, ?_⟩
    · rw [List.length_cons, Nat.add_comm]
      exact append hone hmany
    · rw [appendMeasures, List.foldlM_cons, appendMeasure_eq_ok hfirst, appendParts_append]
      exact hnext

theorem appendMeasures_regular (name : Text) (pulses : ℤ) {measures : List (Section × ℤ)}
    (h : ∀ m ∈ measures, ∀ motif ∈ m.1.motifs, ∀ d ∈ motif.degrees, -20 ≤ d ∧ d ≤ 29)
    (score : Score) : ∃ notes : Parts, notes.Regular ∧
      appendMeasures (Key.named name) pulses score measures = .ok (score.appendParts notes) :=
  @exists_appendMeasures (fun _ notes => notes.Regular) ⟨by simp, by simp, by simp⟩
    (fun ha hb => ha.append hb) _ _ _ (fun m hm => Measure.parts_regular name pulses (h m hm) m.2)
    score

theorem degrees_mem_of_isSane {piece : Piece} (h : piece.IsSane) :
    ∀ m ∈ piece.measureList, ∀ motif ∈ m.1.motifs, ∀ d ∈ motif.degrees, -20 ≤ d ∧ d ≤ 29 := by
  intro m hm motif hmotif
  obtain ⟨s, hs, hindex⟩ := List.mem_flatMap.mp hm
  obtain ⟨_, -, rfl⟩ := List.mem_map.mp hindex
  exact ((h.sections s hs).motifs motif hmotif).degrees_mem

theorem exists_regular_ofPiece {document : Json} {piece : Piece}
    (h : Piece.repair document = .ok piece) : ∃ score, ofPiece piece = .ok score ∧
      score.Regular ∧ score.tempo = piece.tempo ∧ piece.timeSignature = score.meter.toText := by
  have hsane := Piece.isSane_of_repair h
  obtain ⟨meter, hmeter, hwritten⟩ := Meter.isWritten_iff.mp hsane.timeSignature
  have hparse : Meter.parse piece.timeSignature = .ok meter := by
    rw [hwritten]
    exact Meter.parse_toText hmeter
  obtain ⟨p, hp, -⟩ := Meter.pulses_of_isFinite (Meter.isFinite_quarterBeats hmeter)
  obtain ⟨notes, hregular, hscore⟩ := appendMeasures_regular piece.key p
    (degrees_mem_of_isSane hsane) (empty piece.tempo meter)
  refine ⟨_, (ofPiece_eq hparse hp).trans hscore, ⟨hsane.tempo_mem, hmeter, notes, hregular, rfl⟩,
    rfl, hwritten⟩

/-- The emergency phrase is regular: its shortest note, in a measure of one sixteenth, is a quarter
of a sixteenth. -/
theorem emergency_regular {tempo : ℤ} (ht : 40 ≤ tempo ∧ tempo ≤ 220) {meter : Meter}
    (hm : meter.InRange) : (emergency tempo meter).Regular := by
  obtain ⟨m, h₁, h₂, hbeats, hfourth⟩ := Meter.exists_sixteenths hm
  have hwhole : ∃ k : ℕ, 1 ≤ k ∧ k ≤ 384 ∧ meter.quarterBeats = ofRat (k / 16) :=
    ⟨4 * m, by omega, by omega, hbeats⟩
  have hquarter : ∃ k : ℕ, 1 ≤ k ∧ k ≤ 384 ∧ meter.quarterBeats / ofRat 4 = ofRat (k / 16) :=
    ⟨m, by omega, by omega, hfourth⟩
  have hnotes : ∀ m ∈ emergencyMeasures, (∀ pitch ∈ m.1, 36 ≤ pitch ∧ pitch ≤ 142) ∧
      (m.2.1 ≠ [] ∧ (∀ pitch ∈ m.2.1, 36 ≤ pitch ∧ pitch ≤ 142) ∧
        (m.2.1.map (limit 0 127)).Nodup) ∧ 36 ≤ m.2.2 ∧ m.2.2 ≤ 142 := by
    decide
  have hvelocity : ∀ velocity ∈ [(80 : ℤ), 56, 64], 1 ≤ velocity ∧ velocity ≤ 127 := by decide
  refine ⟨ht, hm, emergencyParts meter, ⟨?_, ?_, ?_⟩, rfl⟩
  · intro note hnote
    obtain ⟨m, hm, hnote⟩ := List.mem_flatMap.mp hnote
    obtain ⟨pitch, hp, rfl⟩ := List.mem_map.mp hnote
    exact ⟨List.cons_ne_nil _ _, by simpa using (hnotes m hm).1 pitch hp, by simp,
      hvelocity 80 (by simp), hquarter⟩
  · intro note hnote
    obtain ⟨m, hm, rfl⟩ := List.mem_map.mp hnote
    obtain ⟨hne, hmem, hnodup⟩ := (hnotes m hm).2.1
    exact ⟨hne, hmem, hnodup, hvelocity 56 (by simp), hwhole⟩
  · intro note hnote
    obtain ⟨m, hm, rfl⟩ := List.mem_map.mp hnote
    exact ⟨List.cons_ne_nil _ _, by simpa using (hnotes m hm).2.2, by simp,
      hvelocity 64 (by simp), hwhole⟩

end Score
end TrioScore
