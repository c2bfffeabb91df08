import Mathlib.Data.Nat.Prime.Basic
import TrioScore.Proofs.Binary64.Difference
import TrioScore.Proofs.Binary64.Scaled
import TrioScore.Proofs.Meter.Pulses

/-!
# A half more

An integer is rounded to by the floor of a rounded sum with one half. Below 2^52 the sum is exact
or crosses an integer, which neither the sum nor its rounding leaves by a half; so the floor is that
of the exact sum, but for the greatest number below one half, whose sum is a tie below 1. From 2^52
on every number is an integer and its sum lies half way to the next one; the tie goes to the even
one, so odd integers are rounded up.
-/

namespace TrioScore.Binary64

theorem floor_intCast_add_half (n : ℤ) : ⌊(n : ℚ) + 1 / 2⌋ = n := by
  rw [Int.floor_eq_iff]
  constructor <;> linarith

theorem IsExact.abs {q : ℚ} (h : IsExact q) : IsExact |q| := by
  obtain ⟨rank, hr, hq⟩ := h
  exact ⟨rank, hr, by rw [abs_abs, hq]⟩

/-- No exact value is nearer to a rational than its rounding. -/
theorem abs_toRat_ofRat_sub_le {q r : ℚ} (hf : (ofRat q).isFinite = true) (hr : IsExact r) :
    |(ofRat q).toRat - q| ≤ |r - q| := by
  obtain ⟨rank, -, hrank⟩ := hr
  rw [toRat_ofRat_eq hf]
  split_ifs with hq
  · calc |-magnitude (rankAt (-q)) - q| = |magnitude (rankAt (-q)) - -q| := by
          rw [← abs_neg, neg_sub, sub_neg_eq_add, sub_neg_eq_add, add_comm]
      _ ≤ |magnitude rank - -q| := rankAt_nearest (neg_nonneg.mpr hq.le) rank
      _ = |(|r| - |q|)| := by rw [hrank, abs_of_neg hq]
      _ ≤ |r - q| := abs_abs_sub_abs_le r q
  · have hq₀ := not_lt.mp hq
    calc |magnitude (rankAt q) - q| ≤ |magnitude rank - q| := rankAt_nearest hq₀ rank
      _ = |(|r| - |q|)| := by rw [hrank, abs_of_nonneg hq₀]
      _ ≤ |r - q| := abs_abs_sub_abs_le r q

/-- From one half up to 2^52 one half is a multiple of the spacing. -/
theorem IsExact.exists_units {q : ℚ} (h : IsExact q) (hlow : 1 / 2 ≤ q) (hhigh : q < octaveSize) :
    ∃ (j : ℕ) (m : ℤ), j ≤ 52 ∧ q = m / 2 ^ (j + 1) ∧ 2 ^ j ≤ m ∧ m < 2 * octaveSize := by
  have hpos : 0 < q := one_half_pos.trans_le hlow
  have hk₁ := zpow_floorLog2_le hpos
  have hk₂ := lt_zpow_floorLog2 hpos
  set k := floorLog2 q
  have hlowest : -1 ≤ k := by
    have hhalf : (2 : ℚ) ^ (-1 : ℤ) ≤ q := by simpa using hlow
    have := (zpow_lt_zpow_iff_right₀ one_lt_two).mp (hhalf.trans_lt hk₂)
    omega
  have hhighest : k ≤ 51 := by
    have := (zpow_lt_zpow_iff_right₀ one_lt_two).mp (cast_octaveSize ▸ hk₁.trans_lt hhigh)
    omega
  obtain ⟨j, hj⟩ : ∃ j : ℕ, k = 51 - j := ⟨(51 - k).toNat, by omega⟩
  obtain ⟨m, hm⟩ := h.exists_int hk₁
  have hunit : (0 : ℚ) < 2 ^ (j + 1) := by positivity
  have hq : q = m / 2 ^ (j + 1) := by
    have hexponent : k - 52 = -((j + 1 : ℕ) : ℤ) := by
      push_cast
      omega
    rw [hm, hexponent, zpow_neg, zpow_natCast, div_eq_mul_inv]
  refine ⟨j, m, by omega, hq, ?_, ?_⟩
  · rw [hq, div_le_div_iff₀ two_pos hunit, one_mul, pow_succ] at hlow
    exact_mod_cast le_of_mul_le_mul_right hlow two_pos
  · have htop : (2 : ℚ) ^ (k + 1) = (2 * octaveSize : ℕ) / 2 ^ (j + 1) := by
      rw [cast_two_mul_octaveSize, ← zpow_natCast, ← zpow_sub₀ two_ne_zero, hj]
      congr 1
      push_cast
      ring
    rw [htop, hq, div_lt_div_iff_of_pos_right hunit] at hk₂
    exact_mod_cast hk₂

/-- Where the sum with one half has more than 53 bits it crosses the power of two from which the
spacing grows, an integer. -/
theorem exists_crossed {j : ℕ} {m : ℤ} (hj : j ≤ 52) (hhigh : m < 2 * octaveSize)
    (hsum : 2 * octaveSize < m + 2 ^ j) :
    ∃ c : ℤ, |c| < octaveSize ∧ (m : ℚ) / 2 ^ (j + 1) < c ∧
      (c : ℚ) < (m + 2 ^ j : ℤ) / 2 ^ (j + 1) := by
  obtain ⟨i, rfl⟩ : ∃ i, j = i + 1 := Nat.exists_eq_succ_of_ne_zero (by rintro rfl; omega)
  have hunit : (0 : ℚ) < 2 ^ (i + 1 + 1) := by positivity
  have hpower : ((2 ^ (51 - i) : ℤ) : ℚ) = (2 * octaveSize : ℤ) / 2 ^ (i + 1 + 1) := by
    have h53 : ((2 * octaveSize : ℤ) : ℚ) = 2 ^ (51 - i + (i + 1 + 1)) := by
      rw [show 51 - i + (i + 1 + 1) = 53 by omega]
      norm_num [octaveSize]
    rw [h53, pow_add, mul_div_assoc, div_self hunit.ne', mul_one]
    push_cast
    rfl
  refine ⟨2 ^ (51 - i), ?_, ?_, ?_⟩
  · rw [abs_of_pos (by positivity)]
    calc (2 : ℤ) ^ (51 - i) ≤ 2 ^ 51 := pow_le_pow_right₀ one_le_two (by omega)
      _ < octaveSize := by norm_num [octaveSize]
  · rw [hpower, div_lt_div_iff_of_pos_right hunit]
    exact_mod_cast hhigh
  · rw [hpower, div_lt_div_iff_of_pos_right hunit]
    exact_mod_cast hsum

/-- A sum with one half, below 2^52 and not too small, is exact or crosses an integer. -/
theorem IsExact.add_half_or_crosses {q : ℚ} (h : IsExact q) (hlow : 1 / 2 ≤ |q|)
    (hhigh : |q| < octaveSize) :
    IsExact (q + 1 / 2) ∨ ∃ c : ℤ, |c| < octaveSize ∧ q < c ∧ (c : ℚ) < q + 1 / 2 := by
  obtain ⟨j, m, hj, hm, hlow, hhigh⟩ := h.abs.exists_units hlow hhigh
  have hstep : (0 : ℤ) < 2 ^ j := by positivity
  have hhalf : (1 / 2 : ℚ) = (2 ^ j : ℤ) / 2 ^ (j + 1) := by
    push_cast
    rw [pow_succ]
    field_simp
  rcases le_or_gt 0 q with hq | hq
  · rw [abs_of_nonneg hq] at hm
    have hsum : q + 1 / 2 = (m + 2 ^ j : ℤ) / 2 ^ (j + 1) := by
      rw [hm, hhalf, ← add_div, Int.cast_add]
    rw [hsum, hm]
    rcases le_or_gt (m + 2 ^ j) (2 * octaveSize) with hle | hgt
    · exact .inl (isExact_div_two_pow (abs_le.mpr ⟨by omega, hle⟩) (by omega))
    · exact .inr (exists_crossed hj hhigh hgt)
  · left
    rw [abs_of_neg hq] at hm
    have hsum : q + 1 / 2 = (2 ^ j - m : ℤ) / 2 ^ (j + 1) := by
      rw [hhalf, ← neg_neg q, hm, ← neg_div, ← add_div, Int.cast_sub, neg_add_eq_sub]
    rw [hsum]
    exact isExact_div_two_pow (abs_le.mpr ⟨by omega, by omega⟩) (by omega)

/-- The greatest binary64 below one half. -/
def belowHalf : ℚ := 1 / 2 - 1 / 2 ^ 54

theorem isExact_belowHalf : IsExact belowHalf := by
  have h := isExact_div_two_pow (m := 2 ^ 53 - 1) (k := 54) (by decide) (by decide)
  have heq : ((2 ^ 53 - 1 : ℤ) : ℚ) / 2 ^ 54 = belowHalf := by norm_num [belowHalf]
  rwa [heq] at h

theorem floor_belowHalf_add_half : ⌊belowHalf + 1 / 2⌋ = 0 := by norm_num [belowHalf]

theorem intCast_ne_belowHalf (m : ℤ) : (m : ℚ) ≠ belowHalf := by
  intro h
  have hfloor := floor_intCast_add_half m
  rw [h, floor_belowHalf_add_half] at hfloor
  rw [← hfloor] at h
  norm_num [belowHalf] at h

theorem IsExact.add_half_le {q : ℚ} (h : IsExact q) (hlt : q < 1 / 2) (hne : q ≠ belowHalf) :
    ∃ t : ℚ, IsExact t ∧ q + 1 / 2 ≤ t ∧ t < 1 := by
  rcases lt_or_ge q (1 / 4) with hq | hq
  · refine ⟨3 / 4, ?_, by linarith, by norm_num⟩
    simpa using isExact_quarters (m := 3) (by decide)
  · have hquarter : (2 : ℚ) ^ (-2 : ℤ) ≤ q := by norm_num at hq ⊢; exact hq
    obtain ⟨m, hm⟩ := h.exists_int hquarter
    have hq' : q = m / 2 ^ 54 := by
      rw [hm]
      norm_num [div_eq_mul_inv]
    have hm₁ : m < 2 ^ 53 := by
      rw [hq', div_lt_div_iff₀ (by positivity) two_pos] at hlt
      have : (m : ℚ) < 2 ^ 53 := by linarith
      exact_mod_cast this
    have hm₂ : m ≠ 2 ^ 53 - 1 := by
      rintro rfl
      exact hne (by rw [hq', belowHalf]; norm_num)
    have hle : (m : ℚ) ≤ 2 ^ 53 - 2 := by
      have : m ≤ 2 ^ 53 - 2 := by omega
      exact_mod_cast this
    refine ⟨(2 ^ 53 - 1 : ℤ) / 2 ^ 53, isExact_div_two_pow (by decide) (by decide), ?_, by norm_num⟩
    rw [hq']
    norm_num at hle ⊢
    linarith

section Rounded
variable {q : ℚ} (h : IsExact q)
include h

/-- Up to 2^52 the rounding of the sum keeps its floor. -/
theorem floor_add_half_of_lt (hlt : |q| < octaveSize) (hne : q ≠ belowHalf) :
    ⌊(ofRat (q + 1 / 2)).toRat⌋ = ⌊q + 1 / 2⌋ := by
  have hboth : ∀ c : ℤ, (c : ℚ) ≤ q + 1 / 2 → q + 1 / 2 < c + 1 →
      (c : ℚ) ≤ (ofRat (q + 1 / 2)).toRat → (ofRat (q + 1 / 2)).toRat < c + 1 →
      ⌊(ofRat (q + 1 / 2)).toRat⌋ = ⌊q + 1 / 2⌋ := fun c h₁ h₂ h₃ h₄ => by
    rw [Int.floor_eq_iff.mpr ⟨h₁, h₂⟩, Int.floor_eq_iff.mpr ⟨h₃, h₄⟩]
  rcases lt_or_ge |q| (1 / 2) with hsmall | hlarge
  · obtain ⟨hlow, hhigh⟩ := abs_lt.mp hsmall
    obtain ⟨t, ht, hle, htop⟩ := h.add_half_le hhigh hne
    obtain ⟨-, hround, hround'⟩ := ofRat_bounds isExact_zero ht (by linarith) hle
    exact hboth 0 (by push_cast; linarith) (by push_cast; linarith) (by push_cast; exact hround)
      (by push_cast; linarith)
  · rcases h.add_half_or_crosses hlarge hlt with hexact | ⟨c, hc, hqc, hcq⟩
    · rw [toRat_ofRat hexact]
    · obtain ⟨-, hround, hround'⟩ := ofRat_bounds (isExact_int (hc.le.trans (by omega)))
        (isExact_add_half hc) hcq.le (by linarith)
      exact hboth c hcq.le (by linarith) hround (by linarith)

end Rounded

/-- The tie below 1 goes up. -/
theorem toRat_ofRat_belowHalf_add_half : (ofRat (belowHalf + 1 / 2)).toRat = 1 := by decide +kernel

theorem roundQuotient_tie (a : ℕ) : roundQuotient (2 * a + 1) 2 = a + a % 2 := by
  unfold roundQuotient
  dsimp only
  split_ifs <;> omega

section Tie
variable {a : ℕ} (hlow : octaveSize ≤ a) (hhigh : a < 2 * octaveSize)
include hlow hhigh

theorem spacingAt_add_half : spacingAt (a + 1 / 2) = 0 := by
  have hlog : floorLog2 (a + 1 / 2) = 52 := by
    apply floorLog2_eq
    · have ha : (octaveSize : ℚ) ≤ a := by exact_mod_cast hlow
      rw [← cast_octaveSize]
      linarith
    · have ha : (a : ℚ) + 1 ≤ (2 * octaveSize : ℕ) := by exact_mod_cast hhigh
      calc (a : ℚ) + 1 / 2 < (2 * octaveSize : ℕ) := by linarith
        _ = 2 ^ (52 + 1 : ℤ) := cast_two_mul_octaveSize
  rw [spacingAt, hlog]
  rfl

/-- Half way between two integers with 53 bits the even one is taken. -/
theorem magnitude_rankAt_add_half : magnitude (rankAt (a + 1 / 2)) = (a + a % 2 : ℕ) := by
  have hsum : (a : ℚ) + 1 / 2 = ((2 * a + 1 : ℤ) : ℚ) / ((2 : ℤ) : ℚ) := by
    push_cast
    ring
  have hcoprime : Nat.Coprime (2 * a + 1 : ℤ).natAbs (2 : ℤ).natAbs := by
    have hodd : (2 * a + 1 : ℤ).natAbs = 2 * a + 1 := by omega
    rw [hodd]
    exact Nat.coprime_two_right.mpr ⟨a, rfl⟩
  have hpos : (0 : ℚ) < a + 1 / 2 := by positivity
  have hrank : rankAt (a + 1 / 2) = 1074 * octaveSize + (a + a % 2) := by
    have hden : (((2 * a + 1 : ℤ) : ℚ) / ((2 : ℤ) : ℚ)).den = 2 := by
      exact_mod_cast Rat.den_div_eq_of_coprime two_pos hcoprime
    have hnum : (2 * a + 1 : ℤ).toNat = 2 * a + 1 := by omega
    rw [rankAt, if_neg hpos.not_ge]
    simp only [spacingAt_add_half hlow hhigh, neg_zero, powerOf_eq_zpow, zpow_zero, mul_one]
    rw [hsum, Rat.num_div_eq_of_coprime two_pos hcoprime, hden, hnum, roundQuotient_tie]
    rfl
  rw [hrank, magnitude_octave (by unfold octaveSize at *; omega) (.inr (by omega))]
  norm_num

end Tie

/-- From 2^52 on a value is a multiple of its power of two. -/
theorem IsExact.exists_multiple {q : ℚ} (h : IsExact q) (k : ℕ) (hq : octaveSize * 2 ^ k ≤ |q|) :
    ∃ t : ℤ, q = t * 2 ^ k := by
  have hpower : (2 : ℚ) ^ ((52 : ℤ) + k) ≤ |q| := by
    rwa [zpow_add₀ two_ne_zero, zpow_natCast, ← cast_octaveSize]
  obtain ⟨t, ht⟩ := h.abs.exists_int hpower
  rw [add_sub_cancel_left, zpow_natCast] at ht
  rcases abs_choice q with hsign | hsign
  · exact ⟨t, hsign ▸ ht⟩
  · refine ⟨-t, ?_⟩
    rw [hsign] at ht
    push_cast
    linarith

/-- From 2^53 on every value is an even integer. -/
theorem IsExact.exists_even {q : ℚ} (h : IsExact q) (hq : (2 * octaveSize : ℤ) ≤ |q|) :
    ∃ m : ℤ, q = m ∧ m % 2 = 0 := by
  push_cast at hq
  obtain ⟨t, ht⟩ := h.exists_multiple 1 (by linarith)
  refine ⟨t * 2, ?_, Int.mul_emod_left t 2⟩
  rw [ht, pow_one]
  push_cast
  rfl

theorem isFinite_ofRat_add_half {q : ℚ} (h : IsExact q) : (ofRat (q + 1 / 2)).isFinite = true := by
  have hsum := isFinite_add_half (isFinite_ofRat h)
  rwa [add_half_eq (isFinite_ofRat h), toRat_ofRat h] at hsum

section Integer
variable {m : ℤ} (h : IsExact m)
include h

/-- From 2^53 on one half is lost. -/
theorem toRat_ofRat_add_half_of_large (hm : 2 * octaveSize ≤ m ∨ m < -(2 * octaveSize)) :
    (ofRat (m + 1 / 2)).toRat = m ∧ m % 2 = 0 := by
  have hlarge : ((2 * octaveSize : ℤ) : ℚ) ≤ |(m : ℚ)| := by
    rw [← Int.cast_abs]
    exact_mod_cast le_abs'.mpr (by omega)
  obtain ⟨m', hcast, heven⟩ := h.exists_even hlarge
  obtain rfl : m = m' := by exact_mod_cast hcast
  have hgap : |(m : ℚ) - (m + 1 / 2)| = 1 / 2 := by
    rw [sub_add_cancel_left, abs_neg, abs_of_pos one_half_pos]
  have hnear := abs_toRat_ofRat_sub_le (isFinite_ofRat_add_half h) h
  have hexact := isExact_toRat (ofRat (m + 1 / 2))
  set y := (ofRat (m + 1 / 2)).toRat
  rw [hgap, abs_le] at hnear
  have hround : ((2 * octaveSize : ℤ) : ℚ) ≤ |y| := by
    apply le_abs'.mpr
    rcases hm with hpos | hneg
    · have hlow : ((2 * octaveSize : ℤ) : ℚ) ≤ m := by exact_mod_cast hpos
      exact .inr (by linarith)
    · have hhigh : ((m + 1 : ℤ) : ℚ) ≤ (-(2 * octaveSize) : ℤ) := by exact_mod_cast hneg
      push_cast at hhigh hnear ⊢
      exact .inl (by linarith)
  -- the rounding is even as well, and next to the integer
  obtain ⟨n, hn, heven'⟩ := hexact.exists_even hround
  rw [hn] at hnear ⊢
  have hlow : (m : ℚ) ≤ n := by linarith
  have hhigh : (n : ℚ) ≤ (m + 1 : ℤ) := by
    push_cast
    linarith
  have hmem : m ≤ n ∧ n ≤ m + 1 := ⟨by exact_mod_cast hlow, by exact_mod_cast hhigh⟩
  obtain rfl : n = m := by omega
  exact ⟨rfl, heven⟩

/-- In the octave from 2^52 on, of either sign, the even neighbour is taken. -/
theorem toRat_ofRat_add_half_of_octave (hm : octaveSize ≤ m ∧ m < 2 * octaveSize ∨
    -(2 * octaveSize) ≤ m ∧ m < -octaveSize) : (ofRat (m + 1 / 2)).toRat = (m + m % 2 : ℤ) := by
  rw [toRat_ofRat_eq (isFinite_ofRat_add_half h)]
  rcases hm with ⟨hlow, hhigh⟩ | ⟨hlow, hhigh⟩
  · lift m to ℕ using by omega
    have hsign : ¬ ((m : ℤ) : ℚ) + 1 / 2 < 0 := by
      rw [not_lt, Int.cast_natCast]
      positivity
    rw [if_neg hsign, Int.cast_natCast, magnitude_rankAt_add_half (by omega) (by omega)]
    push_cast
    rfl
  · obtain ⟨a, ha⟩ : ∃ a : ℕ, m = -(a : ℤ) - 1 := ⟨(-m - 1).toNat, by omega⟩
    have hsum : (m : ℚ) + 1 / 2 = -(a + 1 / 2) := by
      rw [ha]
      push_cast
      ring
    have hsign : -((a : ℚ) + 1 / 2) < 0 := neg_lt_zero.mpr (by positivity)
    have heven : m + m % 2 = -((a + a % 2 : ℕ) : ℤ) := by omega
    rw [hsum, if_pos hsign, neg_neg, magnitude_rankAt_add_half (by omega) (by omega), heven]
    push_cast
    rfl

/-- From 2^52 on an odd integer goes up to the next one, and an even one stays. -/
theorem floor_add_half_of_le (hm : octaveSize ≤ |m|) :
    ⌊(ofRat (m + 1 / 2)).toRat⌋ = m + m % 2 := by
  rcases eq_or_ne m (-octaveSize) with rfl | hne
  · -- the sum has one bit more and is exact
    have hexact : IsExact (((-octaveSize : ℤ) : ℚ) + 1 / 2) := by
      have hodd := isExact_div_two_pow (m := -(2 * octaveSize - 1)) (k := 1) (by decide) (by decide)
      have heq : ((-(2 * octaveSize - 1) : ℤ) : ℚ) / 2 ^ 1 = ((-octaveSize : ℤ) : ℚ) + 1 / 2 := by
        push_cast
        ring
      rwa [heq] at hodd
    rw [toRat_ofRat hexact, Int.floor_eq_iff]
    constructor <;> norm_num [octaveSize]
  · have hside := le_abs'.mp hm
    rcases lt_or_ge |m| (2 * octaveSize) with hoctave | hlarge
    · rw [abs_lt] at hoctave
      rw [toRat_ofRat_add_half_of_octave h (by omega), Int.floor_intCast]
    · have hlarge := le_abs'.mp hlarge
      rcases eq_or_ne m (-(2 * octaveSize)) with hlast | hlast
      · rw [toRat_ofRat_add_half_of_octave h (by omega), Int.floor_intCast]
      · obtain ⟨hround, heven⟩ := toRat_ofRat_add_half_of_large h (by omega)
        rw [hround, Int.floor_intCast, heven, add_zero]

end Integer

/-- The numbers whose sum with one half is rounded up to an integer: the one just below one half,
and the odd integers from 2^52 on. -/
def SlipsUp (q : ℚ) : Prop := q = belowHalf ∨ ∃ m : ℤ, q = m ∧ octaveSize ≤ |m| ∧ m % 2 = 1

theorem not_slipsUp_of_even {m : ℤ} (hm : m % 2 = 0) : ¬ SlipsUp m := by
  rintro (hbelow | ⟨k, hk, -, hodd⟩)
  · exact intCast_ne_belowHalf m hbelow
  · obtain rfl : m = k := by exact_mod_cast hk
    omega

section Floor
variable {x : Binary64} (hx : x.isFinite = true)
include hx

theorem floor_add_half_of_not_slipsUp (h : ¬ SlipsUp x.toRat) :
    ⌊(x + half).toRat⌋ = ⌊x.toRat + 1 / 2⌋ := by
  have hexact := isExact_toRat x
  obtain ⟨hne, hodd⟩ := not_or.mp h
  rw [add_half_eq hx]
  rcases lt_or_ge |x.toRat| octaveSize with hlt | hle
  · exact floor_add_half_of_lt hexact hlt hne
  · obtain ⟨m, hm⟩ := hexact.exists_multiple 0 (by rwa [pow_zero, mul_one])
    rw [pow_zero, mul_one] at hm
    rw [hm] at hexact hle ⊢
    have hle' : octaveSize ≤ |m| := by exact_mod_cast hle
    have heven : m % 2 = 0 := by
      have hm₁ : m % 2 ≠ 1 := fun hm₁ => hodd ⟨m, hm, hle', hm₁⟩
      omega
    rw [floor_add_half_of_le hexact hle', heven, add_zero, floor_intCast_add_half]

theorem floor_add_half_of_slipsUp (h : SlipsUp x.toRat) :
    ⌊(x + half).toRat⌋ = ⌊x.toRat + 1 / 2⌋ + 1 := by
  have hexact := isExact_toRat x
  rw [add_half_eq hx]
  rcases h with hbelow | ⟨m, hm, hle, hodd⟩
  · rw [hbelow, toRat_ofRat_belowHalf_add_half, floor_belowHalf_add_half]
    exact Int.floor_one
  · rw [hm] at hexact ⊢
    rw [floor_add_half_of_le hexact hle, hodd, floor_intCast_add_half]

end Floor

end TrioScore.Binary64
