import TrioScore.Proofs.Binary64.Grid
import Mathlib.Algebra.Order.Field.Basic
import Mathlib.Data.Rat.Floor

/-!
# Rounding to the nearest magnitude

`rankAt` finds a rank whose magnitude is nearest to a given rational. What follows needs no more of
it than that: rounding keeps order, and a rational that is on the grid is its own rounding.
-/

namespace TrioScore

/-- The rounded quotient is off by at most a half. -/
theorem abs_roundQuotient_sub_le {n d : ℕ} (hd : 0 < d) :
    |(roundQuotient n d : ℚ) - (n : ℚ) / d| ≤ 1 / 2 := by
  have hdq : (0 : ℚ) < d := by exact_mod_cast hd
  have hq : (n : ℚ) = d * (n / d : ℕ) + (n % d : ℕ) := by exact_mod_cast (Nat.div_add_mod n d).symm
  have hx : (n : ℚ) / d = (n / d : ℕ) + (n % d : ℕ) / d := by
    rw [hq, add_div, mul_div_cancel_left₀ _ hdq.ne']
  have hr : (n % d : ℕ) / (d : ℚ) * d = (n % d : ℕ) := div_mul_cancel₀ _ hdq.ne'
  rw [hx, abs_le]
  unfold roundQuotient
  dsimp only
  split_ifs with h₁ h₂
  · have h : 2 * ((n % d : ℕ) : ℚ) < d := by exact_mod_cast h₁
    constructor <;> nlinarith [Nat.cast_nonneg (α := ℚ) (n % d)]
  · have h : (d : ℚ) < 2 * ((n % d : ℕ) : ℚ) := by exact_mod_cast h₂
    have hlt : ((n % d : ℕ) : ℚ) < d := by exact_mod_cast Nat.mod_lt n hd
    push_cast
    constructor <;> nlinarith
  · have h : 2 * ((n % d : ℕ) : ℚ) = d := by
      exact_mod_cast le_antisymm (not_lt.mp h₂) (not_lt.mp h₁)
    have hm : n / d % 2 = 0 ∨ n / d % 2 = 1 := Nat.mod_two_eq_zero_or_one _
    rcases hm with hm | hm <;> rw [hm] <;> push_cast <;> constructor <;> nlinarith

/-- No integer is nearer to a quotient than the rounded quotient. -/
theorem abs_roundQuotient_sub_le_abs {n d : ℕ} (hd : 0 < d) (t : ℕ) :
    |(roundQuotient n d : ℚ) - (n : ℚ) / d| ≤ |(t : ℚ) - (n : ℚ) / d| := by
  have h := abs_roundQuotient_sub_le (n := n) hd
  rcases eq_or_ne t (roundQuotient n d) with rfl | hne
  · exact le_rfl
  · have hz : (1 : ℤ) ≤ |(t : ℤ) - roundQuotient n d| :=
      Int.one_le_abs (sub_ne_zero.mpr (by exact_mod_cast hne))
    have h1 : (1 : ℚ) ≤ |(t : ℚ) - roundQuotient n d| := by exact_mod_cast hz
    have h2 := abs_sub_le (t : ℚ) ((n : ℚ) / d) (roundQuotient n d)
    rw [abs_sub_comm ((n : ℚ) / d)] at h2
    linarith

theorem zpow_floorLog2_le {q : ℚ} (hq : 0 < q) : (2 : ℚ) ^ floorLog2 q ≤ q := by
  unfold floorLog2
  dsimp only
  split_ifs with h
  · rwa [powerOf_eq_zpow] at h
  · have hn : q.num.toNat ≠ 0 := by have := Rat.num_pos.mpr hq; omega
    have hnum : ((q.num.toNat : ℕ) : ℚ) = q.num := by
      exact_mod_cast Int.toNat_of_nonneg (Rat.num_pos.mpr hq).le
    have h1 : (2 : ℚ) ^ (q.num.toNat.log2 : ℤ) ≤ q.num := by
      rw [zpow_natCast, ← hnum]
      exact_mod_cast Nat.log2_self_le hn
    have h2 : (q.den : ℚ) ≤ 2 ^ ((q.den.log2 : ℤ) + 1) := by
      have := (Nat.lt_log2_self (n := q.den)).le
      exact_mod_cast this
    have hd : (0 : ℚ) < q.den := by exact_mod_cast q.den_pos
    rw [sub_sub, zpow_sub₀ two_ne_zero, div_le_iff₀ (Binary64.two_zpow_pos _)]
    calc (2 : ℚ) ^ (q.num.toNat.log2 : ℤ) ≤ q.num := h1
      _ = q * q.den := (Rat.mul_den_eq_num q).symm
      _ ≤ q * 2 ^ ((q.den.log2 : ℤ) + 1) := mul_le_mul_of_nonneg_left h2 hq.le

theorem lt_zpow_floorLog2 {q : ℚ} (hq : 0 < q) : q < (2 : ℚ) ^ (floorLog2 q + 1) := by
  unfold floorLog2
  dsimp only
  split_ifs with h
  · have hnum : ((q.num.toNat : ℕ) : ℚ) = q.num := by
      exact_mod_cast Int.toNat_of_nonneg (Rat.num_pos.mpr hq).le
    have h1 : (q.num : ℚ) < 2 ^ ((q.num.toNat.log2 : ℤ) + 1) := by
      rw [← hnum]
      exact_mod_cast Nat.lt_log2_self
    have h2 : (2 : ℚ) ^ (q.den.log2 : ℤ) ≤ q.den := by
      rw [zpow_natCast]
      exact_mod_cast Nat.log2_self_le q.den_ne_zero
    have hd : (0 : ℚ) < q.den := by exact_mod_cast q.den_pos
    rw [sub_add_eq_add_sub, zpow_sub₀ two_ne_zero, lt_div_iff₀ (Binary64.two_zpow_pos _)]
    calc q * 2 ^ (q.den.log2 : ℤ) ≤ q * q.den := mul_le_mul_of_nonneg_left h2 hq.le
      _ = q.num := Rat.mul_den_eq_num q
      _ < 2 ^ ((q.num.toNat.log2 : ℤ) + 1) := h1
  · rw [powerOf_eq_zpow] at h
    simpa using h

namespace Binary64

/-- Where the rank of a positive rational is found: the octave `n`, and the count `x` of steps of
that octave's spacing. -/
theorem rankAt_eq {q : ℚ} (hq : 0 < q) : ∃ (n : ℕ) (x : ℚ), q = x * (2 : ℚ) ^ ((n : ℤ) - 1074) ∧
    0 ≤ x ∧ x < 2 * octaveSize ∧ (n = 0 ∨ (octaveSize : ℚ) ≤ x) ∧
    rankAt q = n * octaveSize + roundQuotient x.num.toNat x.den := by
  have he : -1074 ≤ spacingAt q := le_max_left _ _
  have hL : floorLog2 q - 52 ≤ spacingAt q := le_max_right _ _
  have hn : (((spacingAt q + 1074).toNat : ℕ) : ℤ) - 1074 = spacingAt q := by omega
  refine ⟨(spacingAt q + 1074).toNat, q * powerOf 2 (-spacingAt q), ?_, ?_, ?_, ?_, ?_⟩
  · rw [hn, powerOf_eq_zpow, Nat.cast_ofNat, mul_assoc, ← zpow_add₀ two_ne_zero,
      neg_add_cancel, zpow_zero, mul_one]
  · rw [powerOf_eq_zpow]
    positivity
  · have h : (2 : ℚ) * octaveSize = 2 ^ (53 : ℤ) := by exact_mod_cast cast_two_mul_octaveSize
    rw [powerOf_eq_zpow, Nat.cast_ofNat, h, zpow_neg, ← div_eq_mul_inv,
      div_lt_iff₀ (two_zpow_pos _), ← zpow_add₀ two_ne_zero]
    exact (lt_zpow_floorLog2 hq).trans_le (zpow_le_zpow_right₀ one_le_two (by omega))
  · rcases he.eq_or_lt with h | h
    · exact .inl (by omega)
    · have hs : spacingAt q = floorLog2 q - 52 := max_eq_right_of_lt (lt_of_not_ge fun hge => by
        rw [spacingAt, max_eq_left hge] at h
        exact lt_irrefl _ h)
      refine .inr ?_
      rw [powerOf_eq_zpow, Nat.cast_ofNat, cast_octaveSize, zpow_neg, ← div_eq_mul_inv,
        le_div_iff₀ (two_zpow_pos _), ← zpow_add₀ two_ne_zero, hs, add_sub_cancel]
      exact zpow_floorLog2_le hq
  · simp only [rankAt, if_neg hq.not_ge]

/-- The octave of a positive rational reaches around it, and no multiple of its spacing is nearer
than the magnitude found. -/
theorem rankAt_octave {q : ℚ} (hq : 0 < q) : ∃ n : ℕ,
    q ≤ magnitude (n * octaveSize + 2 * octaveSize) ∧
    (n = 0 ∨ magnitude (n * octaveSize + octaveSize) ≤ q) ∧
    ∀ t : ℕ, |magnitude (rankAt q) - q| ≤ |(t : ℚ) * (2 : ℚ) ^ ((n : ℤ) - 1074) - q| := by
  obtain ⟨n, x, hqx, hx0, hx, hn, hrank⟩ := rankAt_eq hq
  set s := roundQuotient x.num.toNat x.den
  have hp := two_zpow_pos ((n : ℤ) - 1074)
  have hxq : ((x.num.toNat : ℕ) : ℚ) / x.den = x := by
    have : ((x.num.toNat : ℕ) : ℚ) = x.num := by
      exact_mod_cast Int.toNat_of_nonneg (Rat.num_nonneg.mpr hx0)
    rw [this, Rat.num_div_den]
  have hhalf : |(s : ℚ) - x| ≤ 1 / 2 := by
    simpa only [hxq] using abs_roundQuotient_sub_le (n := x.num.toNat) x.den_pos
  have hnear (t : ℕ) : |(s : ℚ) - x| ≤ |(t : ℚ) - x| := by
    simpa only [hxq] using abs_roundQuotient_sub_le_abs (n := x.num.toNat) x.den_pos t
  obtain ⟨hs₁, hs₂⟩ := abs_le.mp hhalf
  have hs : s ≤ 2 * octaveSize := by
    have h : (s : ℚ) < 2 * octaveSize + 1 := by linarith
    exact Nat.lt_succ_iff.mp (by exact_mod_cast h)
  have hsn : n = 0 ∨ octaveSize ≤ s := hn.imp_right fun h => by
    have h' : (octaveSize : ℚ) < s + 1 := by linarith
    exact Nat.lt_succ_iff.mp (by exact_mod_cast h')
  have hscale (t : ℚ) : |t * (2 : ℚ) ^ ((n : ℤ) - 1074) - q| =
      |t - x| * (2 : ℚ) ^ ((n : ℤ) - 1074) := by
    rw [hqx, ← sub_mul, abs_mul, abs_of_pos hp]
  refine ⟨n, ?_, hn.imp_right fun h => ?_, fun t => ?_⟩
  · rw [magnitude_octave le_rfl (.inr (Nat.le_mul_of_pos_left _ two_pos)), hqx]
    push_cast
    exact mul_le_mul_of_nonneg_right hx.le hp.le
  · rw [magnitude_octave (Nat.le_mul_of_pos_left _ two_pos) (.inr le_rfl), hqx]
    exact mul_le_mul_of_nonneg_right h hp.le
  · rw [hrank, magnitude_octave hs hsn, hscale, hscale]
    exact mul_le_mul_of_nonneg_right (hnear t) hp.le

theorem rankAt_nearest {q : ℚ} (hq : 0 ≤ q) (rank : ℕ) :
    |magnitude (rankAt q) - q| ≤ |magnitude rank - q| := by
  rcases hq.eq_or_lt with rfl | hq
  · have h0 : rankAt 0 = 0 := rfl
    rw [h0, magnitude_zero, sub_zero, sub_zero, abs_zero]
    exact abs_nonneg _
  obtain ⟨n, htop, hbottom, hnear⟩ := rankAt_octave hq
  have hgrid : ∀ s ≤ 2 * octaveSize, n = 0 ∨ octaveSize ≤ s →
      |magnitude (rankAt q) - q| ≤ |magnitude (n * octaveSize + s) - q| := by
    intro s hs hn
    rw [magnitude_octave hs hn]
    exact hnear s
  have hsize : octaveSize ≤ 2 * octaveSize := Nat.le_mul_of_pos_left _ two_pos
  rcases lt_or_ge (n * octaveSize + 2 * octaveSize) rank with habove | hle
  · have hlt := magnitude_strictMono habove
    refine (hgrid (2 * octaveSize) le_rfl (.inr hsize)).trans ?_
    rw [abs_of_nonneg (sub_nonneg.mpr htop), abs_of_nonneg (sub_nonneg.mpr (htop.trans hlt.le))]
    linarith
  rcases lt_or_ge rank (n * octaveSize + octaveSize) with hbelow | hge
  · rcases hbottom with rfl | hbottom
    · have h := hgrid rank (by omega) (.inl rfl)
      rwa [zero_mul, zero_add] at h
    · have hlt := magnitude_strictMono hbelow
      refine (hgrid octaveSize hsize (.inr le_rfl)).trans ?_
      rw [abs_of_nonpos (sub_nonpos.mpr hbottom),
        abs_of_nonpos (sub_nonpos.mpr (hlt.le.trans hbottom))]
      linarith
  · obtain ⟨t, rfl⟩ := Nat.exists_eq_add_of_le ((Nat.le_add_right _ _).trans hge)
    exact hgrid t (by omega) (.inr (by omega))

@[simp] theorem rankAt_magnitude (rank : ℕ) : rankAt (magnitude rank) = rank := by
  have h := rankAt_nearest (magnitude_nonneg rank) rank
  rw [sub_self, abs_zero] at h
  exact magnitude_strictMono.injective (sub_eq_zero.mp (abs_nonpos_iff.mp h))

theorem rankAt_mono : Monotone rankAt := by
  intro p q hpq
  rcases le_or_gt p 0 with hp | hp
  · simp only [rankAt, if_pos hp, zero_le]
  · by_contra! hlt
    have hm := magnitude_strictMono hlt
    have h₁ := sq_le_sq.mpr (rankAt_nearest hp.le (rankAt q))
    have h₂ := sq_le_sq.mpr (rankAt_nearest (hp.le.trans hpq) (rankAt p))
    have hp : magnitude (rankAt q) + magnitude (rankAt p) ≤ 2 * p := by
      by_contra! h
      nlinarith [mul_pos (sub_pos.mpr hm) (sub_pos.mpr h)]
    have hq : 2 * q ≤ magnitude (rankAt q) + magnitude (rankAt p) := by
      by_contra! h
      nlinarith [mul_pos (sub_pos.mpr hm) (sub_pos.mpr h)]
    have hpq : p = q := by linarith
    rw [hpq] at hlt
    exact lt_irrefl _ hlt

end Binary64
end TrioScore
