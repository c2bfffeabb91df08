import TrioScore.Proofs.Mood.Reading
import TrioScore.Proofs.Score.Aligned

/-!
# Composed pieces are aligned

The motifs of the rule fill measures of three and of four pulses without running over. So the three
voices of a composed piece are together at every barline, as they are in the emergency phrase.
-/

namespace TrioScore

namespace Mood
variable (mood : Mood)

/-- No motif of the rule runs over in the meters of the rule. -/
theorem sections_fit {p : ℕ} (hp : p = 3 ∨ p = 4) :
    ∀ s ∈ mood.sections, ∀ motif ∈ s.motifs, ¬ Measure.MelodyRunsOver p (some motif) := by
  have hopening : ∀ motif ∈ mood.opening.motifs, ¬ Measure.MelodyRunsOver p (some motif) := by
    unfold opening
    dsimp only
    generalize mood.isMinor = minor
    rcases hp with rfl | rfl <;> revert minor <;> decide +kernel
  have hcontrast : ∀ motif ∈ mood.contrast.motifs, ¬ Measure.MelodyRunsOver p (some motif) := by
    unfold contrast
    dsimp only
    rcases hp with rfl | rfl <;> decide +kernel
  unfold sections
  split_ifs
  · simpa [reprise] using ⟨hopening, hcontrast, hopening⟩
  · simpa using ⟨hopening, hcontrast⟩

/-- The meters of the rule have a pulse on every quarter. -/
theorem exists_pulses : ∃ (meter : Meter) (p : ℕ), Meter.parse mood.timeSignature = .ok meter ∧
    Meter.pulses (.real meter.quarterBeats) = .ok p ∧ (p = 3 ∨ p = 4) := by
  unfold timeSignature
  split_ifs
  · exact ⟨⟨4, 4⟩, 4, rfl, by decide +kernel, .inr rfl⟩
  · exact ⟨⟨3, 4⟩, 3, rfl, by decide +kernel, .inl rfl⟩

variable {mood} {instrumentation : Text} {composed : Piece}
  (h : mood.piece instrumentation = .ok composed)
include h

theorem exists_pulses_piece : ∃ (meter : Meter) (p : ℕ),
    Meter.parse composed.timeSignature = .ok meter ∧
    Meter.pulses (.real meter.quarterBeats) = .ok p ∧ (p = 3 ∨ p = 4) := by
  obtain ⟨tempo, -, rfl⟩ := piece_eq_ok_iff.mp h
  exact mood.exists_pulses

theorem length_measureList_le : composed.measureList.length ≤ 24 := by
  obtain ⟨tempo, -, rfl⟩ := piece_eq_ok_iff.mp h
  unfold Piece.measureList
  dsimp only
  unfold sections
  split_ifs <;> simp [Section.measureIndices, opening, contrast, reprise]

theorem measureList_fits {p : ℕ} (hp : p = 3 ∨ p = 4) : ∀ m ∈ composed.measureList,
    ¬ Measure.MelodyRunsOver p (Measure.motif? m.1 m.2) := by
  obtain ⟨tempo, -, rfl⟩ := piece_eq_ok_iff.mp h
  intro m hm
  obtain ⟨s, hs, hindex⟩ := List.mem_flatMap.mp hm
  obtain ⟨_, -, rfl⟩ := List.mem_map.mp hindex
  exact Measure.not_melodyRunsOver_motif? (mood.sections_fit hp s hs) _

/-- After each of its measures the piece is at so many measures of its pulses. -/
theorem piece_aligned : ∃ (meter : Meter) (p : ℕ),
    Meter.parse composed.timeSignature = .ok meter ∧
    Meter.pulses (.real meter.quarterBeats) = .ok p ∧
    Score.ofPiece composed = Score.appendMeasures (Key.named composed.key) p
      (.empty composed.tempo meter) composed.measureList ∧
    ∀ n ≤ composed.measureList.length, ∃ score,
      Score.appendMeasures (Key.named composed.key) p (.empty composed.tempo meter)
        (composed.measureList.take n) = .ok score ∧ score.AlignedAt (n * p) := by
  obtain ⟨meter, p, hparse, hp, hrule⟩ := exists_pulses_piece h
  refine ⟨meter, p, hparse, hp, Score.ofPiece_eq hparse hp, fun n hn => ?_⟩
  have htake := List.length_take_of_le hn
  have hlength : n ≤ 24 := hn.trans (length_measureList_le h)
  have hsize : n * p ≤ 2 ^ 51 := (Nat.mul_le_mul hlength (by omega : p ≤ 4)).trans (by norm_num)
  have hfits : ∀ m ∈ composed.measureList.take n,
      ¬ Measure.MelodyRunsOver p (Measure.motif? m.1 m.2) :=
    fun m hm => measureList_fits h hrule m (List.mem_of_mem_take hm)
  obtain ⟨score, hscore, hbarline⟩ :=
    (Score.atBarline_empty p composed.tempo meter).appendMeasures (by omega)
      (Key.isEmpty_scale_named composed.key) (by rwa [htake, Nat.zero_add]) hfits
  rw [htake, Nat.zero_add] at hbarline
  exact ⟨score, hscore, by exact_mod_cast hbarline.alignedAt (by omega) hsize⟩

end Mood

/-- What is played for want of another piece is aligned. In a piece of the rule all voices are at
every barline. The emergency phrase is two measures long, and all voices start both together. -/
theorem fallback_aligned :
    (∀ (valence arousal focus : Json) (hints : Hints) (piece : Piece),
      pieceOfReading valence arousal focus hints = .ok piece → ∃ (meter : Meter) (p : ℕ),
        Meter.parse piece.timeSignature = .ok meter ∧
        Meter.pulses (.real meter.quarterBeats) = .ok p ∧
        Score.ofPiece piece = Score.appendMeasures (Key.named piece.key) p
          (.empty piece.tempo meter) piece.measureList ∧
        ∀ n ≤ piece.measureList.length, ∃ score,
          Score.appendMeasures (Key.named piece.key) p (.empty piece.tempo meter)
            (piece.measureList.take n) = .ok score ∧ score.AlignedAt (n * p)) ∧
    ∀ (tempo : ℤ) (t : Text) (meter : Meter), Meter.parse t = .ok meter →
      meter.quarterBeats.HasValue ((4 * meter.numerator : ℤ) / meter.denominator) ∧
      (Score.emergency tempo meter).AlignedAt (2 * meter.quarterBeats.toRat) ∧
      ∀ (k : ℕ) bar, Score.emergencyMeasures[k]? = some bar → ∃ note chord root : Event,
        (Score.emergency tempo meter).melody.events[4 * k]? = some note ∧
        (Score.emergency tempo meter).harmony.events[k]? = some chord ∧
        (Score.emergency tempo meter).bass.events[k]? = some root ∧
        note.pitches = bar.1.take 1 ∧ chord.pitches = bar.2.1 ∧ root.pitches = [bar.2.2] ∧
        ∀ e ∈ [note, chord, root], e.start.HasValue (k * meter.quarterBeats.toRat) := by
  refine ⟨fun valence arousal focus hints piece h => ?_, fun tempo t meter h => ?_⟩
  · obtain ⟨mood, _, -, -, hpiece⟩ := pieceOfReading_eq_ok_iff.mp h
    exact Mood.piece_aligned hpiece
  · have hmeter := Meter.inRange_of_parse h
    exact ⟨Meter.hasValue_quarterBeats hmeter, Score.emergency_alignedAt tempo hmeter⟩

/-- A reading without numbers gives sixteen measures in three quarters. -/
theorem fallback_aligned_of_empty_reading : ∃ piece score,
    pieceOfReading .null .null .null .empty = .ok piece ∧
    Score.appendMeasures (Key.named piece.key) 3 (.empty piece.tempo ⟨3, 4⟩)
      (piece.measureList.take 16) = .ok score ∧ score.AlignedAt 48 ∧
    (Score.emergency 90 ⟨5, 16⟩).AlignedAt (5 / 2) := by
  have hmood : Mood.ofValues .null .null .null = .ok ⟨.ofRat 0, .half, .half⟩ := rfl
  obtain ⟨tempo, htempo, -⟩ := Mood.tempo_mem (Mood.arousal_within hmood)
  have hpiece : pieceOfReading .null .null .null .empty = .ok _ := pieceOfReading_eq_ok_iff.mpr
    ⟨_, "piano", hmood, rfl, Mood.piece_eq_ok_iff.mpr ⟨tempo, htempo, rfl⟩⟩
  have hmeter : Mood.timeSignature ⟨.ofRat 0, .half, .half⟩ = "3/4" := by decide +kernel
  have hpulses : Meter.pulses (.real (Meter.quarterBeats ⟨3, 4⟩)) = .ok 3 := by decide +kernel
  have hlength : 16 ≤ ((Mood.sections ⟨.ofRat 0, .half, .half⟩).flatMap
      fun s => s.measureIndices.map (s, ·)).length := by
    decide +kernel
  obtain ⟨hrule, hemergency⟩ := fallback_aligned
  obtain ⟨meter, p, hm, hp, -, hrun⟩ := hrule _ _ _ _ _ hpiece
  obtain rfl : meter = ⟨3, 4⟩ := by
    dsimp only at hm
    rw [hmeter] at hm
    exact (Except.ok.inj hm).symm
  obtain rfl : p = 3 := by exact_mod_cast Except.ok.inj (hp.symm.trans hpulses)
  obtain ⟨score, hscore, haligned⟩ := hrun 16 hlength
  have hphrase := (hemergency 90 "5/16" ⟨5, 16⟩ rfl).2.1
  have hbeats : (Meter.quarterBeats ⟨5, 16⟩).toRat = 5 / 4 := by decide +kernel
  rw [hbeats] at hphrase
  norm_num at haligned hphrase
  exact ⟨_, score, hpiece, hscore, haligned, hphrase⟩

end TrioScore
