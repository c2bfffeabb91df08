import Mathlib.Data.List.Forall2
import TrioScore.Proofs.Binary64.Overflow
import TrioScore.Proofs.Binary64.Product

/-!
# Powers of two

A normal magnitude times a power of two is the same place in another octave, so rounding commutes
with powers of two as long as both magnitudes are normal. Sums of scaled numbers are scaled with
them, quotients the other way, and a product of one scaled up and one scaled down is the same
number.
-/

namespace TrioScore

theorem floorLog2_eq {q : ℚ} {e : ℤ} (h₁ : (2 : ℚ) ^ e ≤ q) (h₂ : q < 2 ^ (e + 1)) :
    floorLog2 q = e := by
  have hq : 0 < q := (Binary64.two_zpow_pos e).trans_le h₁
  have hlow := (zpow_lt_zpow_iff_right₀ one_lt_two).mp ((zpow_floorLog2_le hq).trans_lt h₂)
  have hhigh := (zpow_lt_zpow_iff_right₀ one_lt_two).mp (h₁.trans_lt (lt_zpow_floorLog2 hq))
  omega

theorem floorLog2_mul_two_zpow {q : ℚ} (hq : 0 < q) (k : ℤ) :
    floorLog2 (q * 2 ^ k) = floorLog2 q + k := by
  have hk := Binary64.two_zpow_pos k
  apply floorLog2_eq
  · rw [zpow_add₀ two_ne_zero]
    exact mul_le_mul_of_nonneg_right (zpow_floorLog2_le hq) hk.le
  · rw [add_right_comm, zpow_add₀ two_ne_zero]
    exact mul_lt_mul_of_pos_right (lt_zpow_floorLog2 hq) hk

namespace Binary64

def leastNormal : ℚ := 2 ^ (-1022 : ℤ)

theorem leastNormal_pos : 0 < leastNormal := two_zpow_pos _

theorem magnitude_octaveSize : magnitude octaveSize = leastNormal := by
  have hpos : 0 < octaveSize := by decide
  rw [magnitude_of_le le_rfl, Nat.mod_self, Nat.div_self hpos, Nat.zero_add, cast_octaveSize,
    ← zpow_add₀ two_ne_zero]
  rfl

theorem octaveSize_le_rankAt {q : ℚ} (h : leastNormal ≤ q) : octaveSize ≤ rankAt q := by
  rw [← magnitude_octaveSize] at h
  simpa using rankAt_mono h

theorem spacingAt_of_normal {q : ℚ} (h : leastNormal ≤ q) : spacingAt q = floorLog2 q - 52 := by
  have hlow := (zpow_lt_zpow_iff_right₀ one_lt_two).mp
    (h.trans_lt (lt_zpow_floorLog2 (leastNormal_pos.trans_le h)))
  exact max_eq_right (by omega)

section Rank
variable {q : ℚ} {k : ℤ} (hq : leastNormal ≤ q) (hk : leastNormal ≤ q * 2 ^ k)
include hq hk

/-- A power of two moves the rank by octaves. -/
theorem rankAt_mul_two_zpow : (rankAt (q * 2 ^ k) : ℤ) = rankAt q + k * octaveSize := by
  have hpos := leastNormal_pos.trans_le hq
  have hpos' := leastNormal_pos.trans_le hk
  have hspacing : spacingAt (q * 2 ^ k) = spacingAt q + k := by
    rw [spacingAt_of_normal hq, spacingAt_of_normal hk, floorLog2_mul_two_zpow hpos]
    ring
  have hsteps : q * 2 ^ k * powerOf 2 (-(spacingAt q + k)) = q * powerOf 2 (-spacingAt q) := by
    simp only [powerOf_eq_zpow, Nat.cast_ofNat]
    rw [mul_assoc, ← zpow_add₀ two_ne_zero]
    congr 2
    ring
  have hlow : -1074 ≤ spacingAt q := le_max_left _ _
  have hlow' : -1074 ≤ spacingAt q + k := hspacing ▸ le_max_left _ _
  simp only [rankAt, if_neg hpos.not_ge, if_neg hpos'.not_ge, hspacing, hsteps]
  push_cast
  rw [Int.toNat_of_nonneg (by omega), Int.toNat_of_nonneg (by omega)]
  ring

omit hq hk in
/-- From the first normal rank on, octaves apart are powers of two apart. -/
theorem magnitude_of_octaves {r s : ℕ} (hr : octaveSize ≤ r) (hs : octaveSize ≤ s)
    (h : (s : ℤ) = r + k * octaveSize) : magnitude s = magnitude r * 2 ^ k := by
  have hmod : s % octaveSize = r % octaveSize := by
    unfold octaveSize at *
    omega
  have hdiv : ((s / octaveSize : ℕ) : ℤ) - 1075 = ((r / octaveSize : ℕ) : ℤ) - 1075 + k := by
    unfold octaveSize at *
    omega
  rw [magnitude_of_le hr, magnitude_of_le hs, hmod, hdiv, zpow_add₀ two_ne_zero, mul_assoc]

theorem magnitude_rankAt_mul_two_zpow :
    magnitude (rankAt (q * 2 ^ k)) = magnitude (rankAt q) * 2 ^ k :=
  magnitude_of_octaves (octaveSize_le_rankAt hq) (octaveSize_le_rankAt hk)
    (rankAt_mul_two_zpow hq hk)

end Rank

theorem toRat_ofRat_of_isFinite {q : ℚ} (hq : 0 ≤ q) (hf : (ofRat q).isFinite = true) :
    (ofRat q).toRat = magnitude (rankAt q) := by
  rw [toRat_ofRat_eq hf, if_neg hq.not_gt]

/-- A normal number and its multiple by a power of two, which is a normal number too. -/
structure Scaled (k : ℤ) (x y : Binary64) : Prop where
  isFinite_left : x.isFinite = true
  isFinite_right : y.isFinite = true
  normal_left : leastNormal ≤ x.toRat
  normal_right : leastNormal ≤ y.toRat
  toRat_eq : y.toRat = x.toRat * 2 ^ k

theorem scaled_ofRat {q : ℚ} {k : ℤ} (hq : leastNormal ≤ q) (hk : leastNormal ≤ q * 2 ^ k)
    (hf : (ofRat q).isFinite = true) (hf' : (ofRat (q * 2 ^ k)).isFinite = true) :
    Scaled k (ofRat q) (ofRat (q * 2 ^ k)) := by
  have hleft := toRat_ofRat_of_isFinite (leastNormal_pos.le.trans hq) hf
  have hright := toRat_ofRat_of_isFinite (leastNormal_pos.le.trans hk) hf'
  have hnormal : ∀ p, leastNormal ≤ p → leastNormal ≤ magnitude (rankAt p) := fun p hp => by
    rw [← magnitude_octaveSize]
    exact magnitude_strictMono.monotone (octaveSize_le_rankAt hp)
  exact {
    isFinite_left := hf
    isFinite_right := hf'
    normal_left := hleft ▸ hnormal q hq
    normal_right := hright ▸ hnormal _ hk
    toRat_eq := by rw [hleft, hright, magnitude_rankAt_mul_two_zpow hq hk] }

namespace Scaled
variable {k : ℤ} {x y x' y' : Binary64}

theorem pos_left (h : Scaled k x y) : 0 < x.toRat := leastNormal_pos.trans_le h.normal_left

theorem pos_right (h : Scaled k x y) : 0 < y.toRat := leastNormal_pos.trans_le h.normal_right

theorem ofRat_left (h : Scaled k x y) : ofRat x.toRat = x := ofRat_toRat h.isFinite_left h.pos_left

theorem ofRat_right (h : Scaled k x y) : ofRat y.toRat = y :=
  ofRat_toRat h.isFinite_right h.pos_right

theorem add (h : Scaled k x y) (h' : Scaled k x' y') (hf : (x + x').isFinite = true)
    (hf' : (y + y').isFinite = true) : Scaled k (x + x') (y + y') := by
  have hleft := ofRat_add_ofRat (isExact_toRat x) (isExact_toRat x')
  have hright := ofRat_add_ofRat (isExact_toRat y) (isExact_toRat y')
  have hsum : y.toRat + y'.toRat = (x.toRat + x'.toRat) * 2 ^ k := by
    rw [h.toRat_eq, h'.toRat_eq]
    ring
  have hnormal := h.normal_left.trans (le_add_of_nonneg_right h'.pos_left.le)
  have hnormal' := h.normal_right.trans (le_add_of_nonneg_right h'.pos_right.le)
  rw [h.ofRat_left, h'.ofRat_left] at hleft
  rw [h.ofRat_right, h'.ofRat_right] at hright
  rw [hleft] at hf
  rw [hright] at hf'
  rw [hleft, hright]
  rw [hsum] at hf' hnormal' ⊢
  exact scaled_ofRat hnormal hnormal' hf hf'

/-- Where the divisor is scaled up, the quotient is scaled down. -/
theorem div {p : ℚ} (hp : IsExact p) (hp₀ : 0 ≤ p) (h : Scaled k x y)
    (hq : leastNormal ≤ p / x.toRat) (hq' : leastNormal ≤ p / y.toRat)
    (hf : (ofRat p / x).isFinite = true) (hf' : (ofRat p / y).isFinite = true) :
    Scaled (-k) (ofRat p / x) (ofRat p / y) := by
  have hleft := ofRat_div_ofRat hp (isExact_toRat x) hp₀ h.pos_left
  have hright := ofRat_div_ofRat hp (isExact_toRat y) hp₀ h.pos_right
  have hquotient : p / y.toRat = p / x.toRat * 2 ^ (-k) := by
    rw [h.toRat_eq, zpow_neg, div_mul_eq_div_div, div_eq_mul_inv (p / x.toRat)]
  rw [h.ofRat_left] at hleft
  rw [h.ofRat_right] at hright
  rw [hleft] at hf
  rw [hright] at hf'
  rw [hleft, hright]
  rw [hquotient] at hf' hq' ⊢
  exact scaled_ofRat hq hq' hf hf'

theorem mul (h : Scaled k x y) (h' : Scaled (-k) x' y') : x * x' = y * y' := by
  have hleft := ofRat_mul_ofRat (isExact_toRat x) (isExact_toRat x') h.pos_left.le h'.pos_left.le
  have hright :=
    ofRat_mul_ofRat (isExact_toRat y) (isExact_toRat y') h.pos_right.le h'.pos_right.le
  have hproduct : y.toRat * y'.toRat = x.toRat * x'.toRat := by
    rw [h.toRat_eq, h'.toRat_eq, mul_mul_mul_comm, ← zpow_add₀ two_ne_zero, add_neg_cancel,
      zpow_zero, mul_one]
  rw [h.ofRat_left, h'.ofRat_left] at hleft
  rw [h.ofRat_right, h'.ofRat_right, hproduct] at hright
  rw [hleft, hright]

end Scaled

/-- Sums of scaled terms are scaled, if they stay finite. -/
theorem Scaled.foldl_add {k : ℤ} {acc acc' : Binary64} (h : Scaled k acc acc')
    {terms terms' : List Binary64} (hterms : List.Forall₂ (Scaled k) terms terms')
    (hf : (terms.foldl (· + ·) acc).isFinite = true)
    (hf' : (terms'.foldl (· + ·) acc').isFinite = true) :
    Scaled k (terms.foldl (· + ·) acc) (terms'.foldl (· + ·) acc') := by
  induction hterms generalizing acc acc' with
  | nil => exact h
  | cons hterm _ ih =>
    exact ih (h.add hterm (isFinite_of_foldl_add hf) (isFinite_of_foldl_add hf')) hf hf'

end Binary64
end TrioScore
