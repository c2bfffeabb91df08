import TrioScore.Piece.Repair
import TrioScore.Proofs.Meter.Pulses
import TrioScore.Proofs.Score.Countdown
import TrioScore.Proofs.Score.Measure

/-!
# The melody of a measure

The melody of a measure is never too short. It is too long when the last note runs over the barline,
which the time left and the shares decide; then the cursor is up to a quarter late.
-/

namespace TrioScore
open Binary64

namespace Measure

/-- The melody of a measure is longer than the measure. -/
def MelodyRunsOver (pulses : ℤ) : Option Motif → Prop
  | none => False
  | some motif => motif.degrees ≠ [] ∧ RunsOver (4 * pulses) (shares pulses motif)

instance (pulses : ℤ) : (motif : Option Motif) → Decidable (MelodyRunsOver pulses motif)
  | none => inferInstanceAs (Decidable False)
  | some _ => inferInstanceAs (Decidable (_ ∧ _))

theorem total_melodyLengths {p : ℕ} (hp : p ≤ 16) (motif : Option Motif) : ∃ excess : ℕ,
    total (melodyLengths p motif) = 4 * p + excess ∧ excess ≤ 4 ∧
      (excess = 0 ↔ ¬ MelodyRunsOver p motif) := by
  have hpulses : total (List.replicate (p : ℤ).toNat .quarter) = 4 * p + 0 := by
    simp [total, NoteLength.sixteenths, mul_comm]
  cases motif with
  | none => exact ⟨0, hpulses, by omega, iff_of_true rfl id⟩
  | some motif =>
    dsimp only [melodyLengths]
    split_ifs with he
    · have hnil : motif.degrees = [] := List.isEmpty_iff.mp he
      exact ⟨0, hpulses, by omega, iff_of_true rfl fun h => h.1 hnil⟩
    · obtain ⟨excess, hsum, hexcess, hiff⟩ :=
        total_fitLengths (by omega : 0 ≤ 4 * (p : ℤ)) (by omega) (shares p motif)
      refine ⟨excess, ?_, hexcess, hiff.trans (not_congr ?_)⟩
      · rw [motifLengths]
        omega
      · exact (and_iff_right fun hn => he (List.isEmpty_iff.mpr hn)).symm

end Measure

/-- On the grid of quarters of a beat a cursor moves by the exact sum of the lengths. -/
theorem foldl_beats {c : ℤ} (lengths : List NoteLength) (h₁ : -(2 * octaveSize : ℤ) ≤ c)
    (h₂ : c + Measure.total lengths ≤ 2 * octaveSize) :
    (lengths.map NoteLength.beats).foldl (· + ·) (ofRat (c / 4)) =
      ofRat ((c + Measure.total lengths : ℤ) / 4) := by
  induction lengths generalizing c with
  | nil => simp [Measure.total]
  | cons length lengths ih =>
    rw [Measure.total_cons, Nat.cast_add] at h₂ ⊢
    have hc : IsExact ((c : ℚ) / 4) := isExact_quarters (abs_le.mpr ⟨h₁, by omega⟩)
    have hnext : ofRat (c / 4) + length.beats = ofRat ((c + length.sixteenths : ℤ) / 4) := by
      rw [length.beats_eq, ofRat_add_ofRat hc length.isExact_quarters, NoteLength.quarters]
      congr 1
      push_cast
      ring
    rw [List.map_cons, List.foldl_cons, hnext, ih (by omega) (by omega), add_assoc]

namespace Score

/-- The notes that a measure of any finite length puts on the melody last as long as the measure, or
up to a quarter longer, and exactly as long when no note runs over. On the grid of quarters of a
beat so does the cursor. -/
theorem melody_fills_measure_iff (name : Text) {beats : Binary64} (hb : beats.isFinite = true)
    (s : Section) (measure : ℤ) (score : Score) :
    ∃ (p excess : ℕ) (next : Score) (notes : List Note) (lengths : List NoteLength),
      Meter.pulses (.real beats) = .ok p ∧
      score.appendMeasure (Key.named name) p s measure = .ok next ∧
      next.melody = score.melody.appendAll notes ∧
      notes.map Note.beats = lengths.map NoteLength.beats ∧
      Measure.total lengths = 4 * p + excess ∧ excess ≤ 4 ∧
      (excess = 0 ↔ ¬ Measure.MelodyRunsOver p (Measure.motif? s measure)) ∧
      next.melody.cursor = (lengths.map NoteLength.beats).foldl (· + ·) score.melody.cursor ∧
      ∀ c : ℤ, |c| ≤ 2 ^ 52 → score.melody.cursor = ofRat (c / 4) →
        next.melody.cursor = ofRat (c / 4 + p + excess / 4) ∧
        (next.melody.cursor = ofRat (c / 4 + p) ↔
          ¬ Measure.MelodyRunsOver p (Measure.motif? s measure)) := by
  obtain ⟨p, hp, -, hp₂⟩ := Meter.pulses_of_isFinite hb
  obtain ⟨notes, hnotes, hmelody, -⟩ :=
    Measure.parts_eq_ok (Key.isEmpty_scale_named name) p s measure
  obtain ⟨excess, htotal, hexcess, hiff⟩ :=
    Measure.total_melodyLengths hp₂ (Measure.motif? s measure)
  have hcursor : (score.appendParts notes).melody.cursor =
      ((Measure.melodyLengths p (Measure.motif? s measure)).map NoteLength.beats).foldl (· + ·)
        score.melody.cursor := by
    rw [← hmelody]
    exact Track.cursor_appendAll _ _
  refine ⟨p, excess, score.appendParts notes, notes.melody, _, hp, appendMeasure_eq_ok hnotes score,
    rfl, hmelody, htotal, hexcess, hiff, hcursor, fun c hc hgrid => ?_⟩
  have hsize : (2 * octaveSize : ℤ) = 2 ^ 53 := by norm_num [octaveSize]
  obtain ⟨hc₁, hc₂⟩ := abs_le.mp hc
  have hsum := foldl_beats (c := c) (Measure.melodyLengths p (Measure.motif? s measure)) (by omega)
    (by omega)
  have hnext : (score.appendParts notes).melody.cursor = ofRat (c / 4 + p + excess / 4) := by
    rw [hcursor, hgrid, hsum, htotal]
    congr 1
    push_cast
    ring
  refine ⟨hnext, ?_⟩
  have hexact : ∀ n ≤ excess, IsExact ((c : ℚ) / 4 + p + n / 4) := by
    intro n hn
    have hq : (c : ℚ) / 4 + p + n / 4 = ((c + 4 * p + n : ℤ) : ℚ) / 4 := by
      push_cast
      ring
    rw [hq]
    exact isExact_quarters (abs_le.mpr ⟨by omega, by omega⟩)
  have hzero := hexact 0 excess.zero_le
  rw [Nat.cast_zero, zero_div, add_zero] at hzero
  rw [hnext, ofRat_inj (hexact excess le_rfl) hzero, ← hiff, add_eq_left, div_eq_zero_iff]
  norm_num

theorem melody_fills_four_four : ∃ next : Score,
    (empty 90 .common).appendMeasure (Key.named "C major") 4 Repair.defaultSection 0 = .ok next ∧
      next.melody.cursor = ofRat 4 := by
  have hb : (ofRat 4).isFinite = true := by decide +kernel
  obtain ⟨p, excess, next, _, _, hp, hnext, -, -, -, -, -, -, hcursor⟩ :=
    melody_fills_measure_iff "C major" hb Repair.defaultSection 0 (empty 90 .common)
  have hp4 : Meter.pulses (.real (ofRat 4)) = .ok 4 := by decide +kernel
  obtain rfl : p = 4 := by exact_mod_cast Except.ok.inj (hp.symm.trans hp4)
  have hfits : ¬ Measure.MelodyRunsOver 4 (Measure.motif? Repair.defaultSection 0) := by
    decide +kernel
  have hstart : (empty 90 .common).melody.cursor = ofRat ((0 : ℤ) / 4) := by decide +kernel
  refine ⟨next, hnext, ?_⟩
  rw [((hcursor 0 (by norm_num) hstart).2.mpr hfits)]
  norm_num

/-- In three quarters a motif of one note becomes a whole note. -/
theorem melody_runs_over_in_three_four : ∃ next : Score,
    Meter.pulses (.real (ofRat 3)) = .ok 3 ∧
    (empty 90 ⟨3, 4⟩).appendMeasure (Key.named "C major") 3
      (Repair.sectionAt 0 [("melody", .object [("motifs", .array
        [.object [("degrees", .array [.ofInt 1]), ("rhythm", .array [.ofInt 1])]])])]) 0 =
      .ok next ∧
    next.melody.cursor = ofRat 4 ∧ next.melody.cursor ≠ ofRat 3 := by
  have hrun : (fun score : Score => score.melody.cursor) <$>
      (empty 90 ⟨3, 4⟩).appendMeasure (Key.named "C major") 3
      (Repair.sectionAt 0 [("melody", .object [("motifs", .array
        [.object [("degrees", .array [.ofInt 1]), ("rhythm", .array [.ofInt 1])]])])]) 0 =
      .ok (ofRat 4) := by
    decide +kernel
  obtain ⟨next, hnext, hcursor⟩ := map_eq_ok_iff.mp hrun
  have hne : ofRat 4 ≠ ofRat 3 := by decide +kernel
  exact ⟨next, by decide +kernel, hnext, hcursor, hcursor ▸ hne⟩

end Score
end TrioScore
