import Mathlib.Data.Rat.Floor
import TrioScore.Proofs.Binary64.Exact

/-!
# Products

The product and the quotient of values that are not negative are rounded once. The integer part of a
value that is not negative is its floor.
-/

namespace TrioScore.Binary64

/-- A value that is not negative, as a number of the positive sign. -/
theorem ofRat_of_eq_magnitude {q : ℚ} {rank : ℕ} (hr : rank < rankCount) (hq : q = magnitude rank) :
    ofRat q = finite false ⟨rank, hr⟩ := by
  have hq₀ : 0 ≤ q := hq ▸ magnitude_nonneg rank
  rw [ofRat_of_abs_eq hr (by rw [abs_of_nonneg hq₀, hq]), decide_eq_false hq₀.not_gt]

variable {p q : ℚ} (hp : IsExact p) (hq : IsExact q) (hp₀ : 0 ≤ p)
include hp hq hp₀

theorem ofRat_mul_ofRat (hq₀ : 0 ≤ q) : ofRat p * ofRat q = ofRat (p * q) := by
  obtain ⟨r, hr, hpr⟩ := hp
  obtain ⟨s, hs, hqs⟩ := hq
  rw [abs_of_nonneg hp₀] at hpr
  rw [abs_of_nonneg hq₀] at hqs
  have hmul : finite false ⟨r, hr⟩ * finite false ⟨s, hs⟩ =
      ofMagnitude false (magnitude r * magnitude s) := rfl
  rw [ofRat_of_eq_magnitude hr hpr, ofRat_of_eq_magnitude hs hqs, hmul, ← hpr, ← hqs, ofRat,
    if_neg (mul_nonneg hp₀ hq₀).not_gt]

theorem ofRat_div_ofRat (hq₀ : 0 < q) : ofRat p / ofRat q = ofRat (p / q) := by
  obtain ⟨r, hr, hpr⟩ := hp
  obtain ⟨s, hs, hqs⟩ := hq
  rw [abs_of_nonneg hp₀] at hpr
  rw [abs_of_pos hq₀] at hqs
  have hs₀ : s ≠ 0 := by
    intro h
    rw [hqs, h, magnitude_zero] at hq₀
    exact lt_irrefl 0 hq₀
  have hdiv : finite false ⟨r, hr⟩ / finite false ⟨s, hs⟩ =
      if s = 0 then (if r = 0 then nan else infinity false)
      else ofMagnitude false (magnitude r / magnitude s) := rfl
  rw [ofRat_of_eq_magnitude hr hpr, ofRat_of_eq_magnitude hs hqs, hdiv, if_neg hs₀, ← hpr, ← hqs,
    ofRat, if_neg (div_nonneg hp₀ hq₀.le).not_gt]

omit hq in
theorem truncate_ofRat : (ofRat p).truncate = .ok ⌊p⌋ := by
  rw [truncate_eq_of_isFinite (isFinite_ofRat hp), toRat_ofRat hp,
    Int.tdiv_eq_ediv_of_nonneg (Rat.num_nonneg.mpr hp₀), Rat.floor_def']

end TrioScore.Binary64
