import Mathlib.Data.Int.ConditionallyCompleteOrder
import Mathlib.Data.Int.ModEq
import Mathlib.Tactic.Linarith
import Mathlib.Tactic.Ring
import TrioScore.Key

/-!
# Ascending scales

A scale that ascends within less than an octave and comes back in every octave is a ladder without
ends. The quotient of a step by the length of the scale is its octave and the remainder its offset:
within an octave the offsets ascend, and the last one is still below the first of the next octave.
So degrees are in the order of their pitches, and they reach every pitch that is octaves away from
an offset.
-/

namespace TrioScore.Key

/-- The scale has steps, each above the one before, all within less than an octave. -/
structure IsAscending (key : Key) : Prop where
  ne_nil : key.scale ≠ []
  ascends : key.scale.Pairwise (· < ·)
  span : ∀ low ∈ key.scale, ∀ high ∈ key.scale, high < low + octave

instance (key : Key) : Decidable key.IsAscending :=
  decidable_of_iff (key.scale ≠ [] ∧ key.scale.Pairwise (· < ·) ∧
      ∀ low ∈ key.scale, ∀ high ∈ key.scale, high < low + octave)
    ⟨fun ⟨hne, hascends, hspan⟩ => ⟨hne, hascends, hspan⟩, fun h => ⟨h.ne_nil, h.ascends, h.span⟩⟩

/-- How far above the tonic a step lies, counted from zero through all octaves. -/
def rung (key : Key) (step : ℤ) : ℤ :=
  key.offset step + step / (key.scale.length : ℤ) * octave

/-- The pitch of a degree in a key with a scale. -/
def pitchAt (key : Key) (degree : ℤ) : ℤ := key.tonic + octave + key.rung (degree - 1)

variable {key : Key}

section Steps
variable (hk : key.scale ≠ [])
include hk

theorem degreePitch_eq_pitchAt (degree : ℤ) :
    key.degreePitch degree = .ok (key.pitchAt degree) := by
  have hempty : ¬ key.scale.isEmpty = true := by simpa using hk
  rw [degreePitch, if_neg hempty, pitchAt, rung, add_assoc (key.tonic + octave)]

theorem length_pos : (0 : ℤ) < key.scale.length := by
  exact_mod_cast List.length_pos_iff.mpr hk

theorem getElem?_offset (step : ℤ) :
    key.scale[(step % (key.scale.length : ℤ)).toNat]? = some (key.offset step) := by
  have hlow := Int.emod_nonneg step (length_pos hk).ne'
  have hhigh := Int.emod_lt_of_pos step (length_pos hk)
  have hlt : (step % (key.scale.length : ℤ)).toNat < key.scale.length := by omega
  rw [offset, List.getD_eq_getElem?_getD, List.getElem?_eq_getElem hlt, Option.getD_some]

theorem offset_mem (step : ℤ) : key.offset step ∈ key.scale :=
  List.mem_of_getElem? (getElem?_offset hk step)

/-- Rounds of the scale raise a step by octaves. -/
theorem rung_add_mul_length (step k : ℤ) :
    key.rung (step + k * key.scale.length) = key.rung step + k * octave := by
  have hoffset : key.offset (step + k * key.scale.length) = key.offset step := by
    rw [offset, offset, Int.add_mul_emod_self_right]
  rw [rung, rung, hoffset, Int.add_mul_ediv_right _ _ (length_pos hk).ne']
  ring

theorem pitchAt_add_length (degree : ℤ) :
    key.pitchAt (degree + key.scale.length) = key.pitchAt degree + octave := by
  have hstep : degree + key.scale.length - 1 = degree - 1 + 1 * key.scale.length := by ring
  rw [pitchAt, pitchAt, hstep, rung_add_mul_length hk, one_mul]
  ring

end Steps

theorem rung_of_getElem? {i : ℕ} {offset : ℤ} (h : key.scale[i]? = some offset) :
    key.rung i = offset := by
  obtain ⟨hi, -⟩ := List.getElem?_eq_some_iff.mp h
  have hlt : (i : ℤ) < key.scale.length := by exact_mod_cast hi
  have hmod : (i : ℤ) % (key.scale.length : ℤ) = i := Int.emod_eq_of_lt (by omega) hlt
  have hdiv : (i : ℤ) / (key.scale.length : ℤ) = 0 := Int.ediv_eq_zero_of_lt (by omega) hlt
  rw [rung, Key.offset, hmod, hdiv, zero_mul, add_zero, Int.toNat_natCast,
    List.getD_eq_getElem?_getD, h, Option.getD_some]

theorem pitchAt_one (hk : key.scale ≠ []) :
    key.pitchAt 1 = key.tonic + octave + key.scale.head hk := by
  have hfirst : key.scale[0]? = some (key.scale.head hk) := by
    rw [← List.head?_eq_getElem?, List.head?_eq_some_head hk]
  rw [pitchAt, sub_self, ← rung_of_getElem? hfirst, Nat.cast_zero]

namespace IsAscending
variable (h : key.IsAscending)
include h

theorem offset_lt_offset {first second : ℤ}
    (hlt : first % (key.scale.length : ℤ) < second % (key.scale.length : ℤ)) :
    key.offset first < key.offset second := by
  obtain ⟨hi, hfirst⟩ := List.getElem?_eq_some_iff.mp (getElem?_offset h.ne_nil first)
  obtain ⟨hj, hsecond⟩ := List.getElem?_eq_some_iff.mp (getElem?_offset h.ne_nil second)
  have hlow := Int.emod_nonneg first (length_pos h.ne_nil).ne'
  rw [← hfirst, ← hsecond]
  exact List.pairwise_iff_getElem.mp h.ascends _ _ hi hj (by omega)

theorem rung_strictMono : StrictMono key.rung := by
  intro first second hlt
  have hpos := length_pos h.ne_nil
  have hfirst := Int.mul_ediv_add_emod first key.scale.length
  have hsecond := Int.mul_ediv_add_emod second key.scale.length
  rcases (Int.ediv_le_ediv hpos hlt.le).eq_or_lt with hround | hround
  · -- in one octave the remainders decide
    have hstep : first % (key.scale.length : ℤ) < second % (key.scale.length : ℤ) := by
      rw [hround] at hfirst
      omega
    have hoffset := h.offset_lt_offset hstep
    rw [rung, rung, hround]
    omega
  · -- an octave more outweighs any two offsets
    have hspan := h.span _ (offset_mem h.ne_nil second) _ (offset_mem h.ne_nil first)
    rw [rung, rung]
    unfold octave at hspan ⊢
    omega

/-- The rungs are what is octaves away from the offsets. -/
theorem exists_rung_iff {height : ℤ} :
    (∃ step, key.rung step = height) ↔ ∃ offset ∈ key.scale, height ≡ offset [ZMOD octave] := by
  constructor
  · rintro ⟨step, rfl⟩
    refine ⟨key.offset step, offset_mem h.ne_nil step, ?_⟩
    exact Int.add_mul_modulus_modEq_iff.mpr rfl
  · rintro ⟨offset, hoffset, hheight⟩
    obtain ⟨i, hi⟩ := List.mem_iff_getElem?.mp hoffset
    obtain ⟨k, hk⟩ := Int.modEq_iff_dvd.mp hheight.symm
    refine ⟨i + k * key.scale.length, ?_⟩
    rw [rung_add_mul_length h.ne_nil, rung_of_getElem? hi, mul_comm, ← hk]
    ring

theorem pitchAt_strictMono : StrictMono key.pitchAt := by
  intro low high hlt
  have hrung := h.rung_strictMono (show low - 1 < high - 1 by omega)
  exact add_lt_add_right hrung _

theorem exists_pitchAt_iff {pitch : ℤ} : (∃ degree, key.pitchAt degree = pitch) ↔
    ∃ offset ∈ key.scale, pitch - key.tonic ≡ offset [ZMOD octave] := by
  have hrung : (∃ degree, key.pitchAt degree = pitch) ↔
      ∃ step, key.rung step = pitch - key.tonic - octave := by
    constructor
    · rintro ⟨degree, rfl⟩
      exact ⟨degree - 1, by rw [pitchAt]; ring⟩
    · rintro ⟨step, hstep⟩
      exact ⟨step + 1, by rw [pitchAt, add_sub_cancel_right, hstep]; ring⟩
  have hoctave (offset : ℤ) : pitch - key.tonic - octave ≡ offset [ZMOD octave] ↔
      pitch - key.tonic ≡ offset [ZMOD octave] := by
    rw [Int.ModEq, Int.sub_emod_right, Int.ModEq]
  simp only [hrung, h.exists_rung_iff, hoctave]

end IsAscending

/-- In a scale that ascends within less than an octave every degree has a pitch, higher degrees are
higher, a round of degrees is an octave, degree 1 is the first step an octave up, and the pitches
that are octaves away from a step of the scale are those of exactly one degree. -/
theorem degrees_climb_pitches (h : key.IsAscending) : ∃ pitch : ℤ → ℤ,
    (∀ degree, key.degreePitch degree = .ok (pitch degree)) ∧
    (∀ low high, low < high → pitch low < pitch high) ∧
    (∀ degree, pitch (degree + key.scale.length) = pitch degree + 12) ∧
    pitch 1 = key.tonic + 12 + key.scale.head h.ne_nil ∧
    ∀ height, (∃ offset ∈ key.scale, height - key.tonic ≡ offset [ZMOD 12]) ↔
      ∃! degree, pitch degree = height := by
  refine ⟨key.pitchAt, degreePitch_eq_pitchAt h.ne_nil, fun _ _ hlt => h.pitchAt_strictMono hlt,
    pitchAt_add_length h.ne_nil, pitchAt_one h.ne_nil, fun height => ?_⟩
  constructor
  · intro hoffset
    obtain ⟨degree, hdegree⟩ := h.exists_pitchAt_iff.mpr hoffset
    exact ⟨degree, hdegree, fun other hother =>
      h.pitchAt_strictMono.injective (hother.trans hdegree.symm)⟩
  · rintro ⟨degree, hdegree, -⟩
    exact h.exists_pitchAt_iff.mp ⟨degree, hdegree⟩

/-- A key of five notes, the first of them below its tonic. -/
theorem degrees_climb_pitches_pentatonic :
    (⟨61, [-3, 0, 2, 4, 7]⟩ : Key).IsAscending ∧ ∃ pitch : ℤ → ℤ,
      (∀ degree, (⟨61, [-3, 0, 2, 4, 7]⟩ : Key).degreePitch degree = .ok (pitch degree)) ∧
      pitch (-1) < pitch 0 ∧ pitch 5 = pitch 0 + 12 ∧ pitch 1 = 70 ∧
      ∃! degree, pitch degree = 101 := by
  have hascending : (⟨61, [-3, 0, 2, 4, 7]⟩ : Key).IsAscending := by decide
  obtain ⟨pitch, hpitch, hclimb, hround, hfirst, hreach⟩ := degrees_climb_pitches hascending
  exact ⟨hascending, pitch, hpitch, hclimb _ _ (by decide), hround 0, hfirst,
    (hreach 101).mp ⟨4, by decide, by decide⟩⟩

end TrioScore.Key
