import TrioScore.Proofs.Binary64.HalfUp
import TrioScore.Proofs.Piece.Numerals

/-!
# Rounded fields

A tempo and a number of measures are rounded to integers, halves up, within a range. Where the sum
with one half is rounded up to an integer, the integer and the one below it are both beyond the
range or at its lower end, so they are limited alike: the fields are the exact rounding of the
number, whether it is an integer or a binary64, and keep the order of the numbers.
-/

namespace TrioScore

theorem limit_mono {low high m n : ℤ} (h : m ≤ n) : limit low high m ≤ limit low high n := by
  unfold limit
  omega

/-- Within moderate bounds the rounding of the sum with one half does not show, unless the range
separates 0 from 1. -/
theorem Binary64.limit_floor_add_half {low high : ℤ} (hl : -octaveSize ≤ low)
    (hh : high ≤ octaveSize) {x : Binary64} (hx : x.isFinite = true)
    (hbelow : x.toRat = belowHalf → 1 ≤ low) :
    limit low high ⌊(x + half).toRat⌋ = limit low high ⌊x.toRat + 1 / 2⌋ := by
  by_cases hslip : SlipsUp x.toRat
  · rw [floor_add_half_of_slipsUp hx hslip]
    rcases hslip with hq | ⟨m, hm, hle, hodd⟩
    · have hlow := hbelow hq
      rw [hq, floor_belowHalf_add_half, limit, limit]
      omega
    · have hside := le_abs'.mp hle
      unfold octaveSize at *
      rw [hm, floor_intCast_add_half, limit, limit]
      omega
  · rw [floor_add_half_of_not_slipsUp hx hslip]

namespace Repair

theorem clampRounded_eq_limit {low high : ℤ} (hl : 1 ≤ low) (hh : high ≤ octaveSize) {x : Number}
    (hx : x.isFinite = true) : clampRounded low high x = limit low high ⌊x.toRat + 1 / 2⌋ := by
  cases x with
  | int n => rw [clampRounded, Number.toRat, Binary64.floor_intCast_add_half]
  | real x =>
    rw [clampRounded_real hx]
    exact Binary64.limit_floor_add_half (by unfold octaveSize; omega) hh hx fun _ => hl

theorem number?_number {x : Number} (hx : x.isFinite = true) : number? (.number x) = some x :=
  if_pos hx

theorem tempo_number {x : Number} (hx : x.isFinite = true) :
    tempo (.number x) = limit 40 220 ⌊x.toRat + 1 / 2⌋ := by
  rw [tempo, number?_number hx]
  exact clampRounded_eq_limit (by decide) (by decide) hx

theorem measures_number {x : Number} (hx : x.isFinite = true) :
    measures (.number x) = limit 1 256 ⌊x.toRat + 1 / 2⌋ := by
  rw [measures, number?_number hx]
  exact clampRounded_eq_limit (by decide) (by decide) hx

/-- A tempo and a number of measures are the exact nearest integer to the number given, halves up,
within the range of the field. So greater numbers, integers or not, give no smaller fields. -/
theorem rounded_fields_exact :
    (∀ x : Number, x.isFinite = true → tempo (.number x) = limit 40 220 ⌊x.toRat + 1 / 2⌋ ∧
      ∀ (index : ℕ) (fields : List (Text × Json)), Json.field "measures" fields = .number x →
        (sectionAt index fields).measures = limit 1 256 ⌊x.toRat + 1 / 2⌋) ∧
    ∀ x y : Number, x.isFinite = true → y.isFinite = true → x.toRat ≤ y.toRat →
      tempo (.number x) ≤ tempo (.number y) ∧
      ∀ (i j : ℕ) (fewer more : List (Text × Json)), Json.field "measures" fewer = .number x →
        Json.field "measures" more = .number y →
        (sectionAt i fewer).measures ≤ (sectionAt j more).measures := by
  have hmeasures : ∀ (x : Number), x.isFinite = true → ∀ (index : ℕ)
      (fields : List (Text × Json)), Json.field "measures" fields = .number x →
      (sectionAt index fields).measures = limit 1 256 ⌊x.toRat + 1 / 2⌋ :=
    fun x hx index fields hfield => (congrArg measures hfield).trans (measures_number hx)
  refine ⟨fun x hx => ⟨tempo_number hx, hmeasures x hx⟩, fun x y hx hy hle => ?_⟩
  have hfloor : ⌊x.toRat + 1 / 2⌋ ≤ ⌊y.toRat + 1 / 2⌋ := Int.floor_le_floor (by linarith)
  refine ⟨?_, fun i j fewer more hfewer hmore => ?_⟩
  · rw [tempo_number hx, tempo_number hy]
    exact limit_mono hfloor
  · rw [hmeasures x hx i fewer hfewer, hmeasures y hy j more hmore]
    exact limit_mono hfloor

/-- The number just below one half, whose sum with it is rounded to 1, and an integer beyond the
range of binary64. -/
theorem rounded_fields_exact_belowHalf :
    tempo (.ofBinary64 (.ofRat Binary64.belowHalf)) = limit 40 220 0 ∧
    (sectionAt 0 [("measures", .ofBinary64 (.ofRat Binary64.belowHalf))]).measures =
      limit 1 256 0 ∧
    (sectionAt 0 [("measures", .ofBinary64 (.ofRat Binary64.belowHalf))]).measures ≤
      (sectionAt 1 [("measures", .ofInt (10 ^ 400))]).measures := by
  have hfinite : (Number.real (.ofRat Binary64.belowHalf)).isFinite = true := by decide +kernel
  have hfloor : ⌊(Number.real (.ofRat Binary64.belowHalf)).toRat + 1 / 2⌋ = 0 := by decide +kernel
  have hle : (Number.real (.ofRat Binary64.belowHalf)).toRat ≤ (Number.int (10 ^ 400)).toRat := by
    decide +kernel
  obtain ⟨hexact, hmono⟩ := rounded_fields_exact
  obtain ⟨htempo, hmeasures⟩ := hexact _ hfinite
  rw [hfloor] at htempo hmeasures
  exact ⟨htempo, hmeasures 0 _ rfl, (hmono _ (.int (10 ^ 400)) hfinite rfl hle).2 0 1 _ _ rfl rfl⟩

end Repair
end TrioScore
