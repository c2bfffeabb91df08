import TrioScore.NoteLength
import TrioScore.Proofs.Binary64.Exact

/-!
# Differences

The difference of two positive numbers stays finite, and its magnitude is that of the rank nearest
to the exact difference. It is exact when it is no more than a few times smaller than the two.
-/

namespace TrioScore.Binary64

theorem toRat_neg (x : Binary64) : x.neg.toRat = -x.toRat := by
  cases x with
  | nan => simp [neg, toRat]
  | infinity a => simp [neg, toRat]
  | finite a r => cases a <;> simp [neg, toRat]

theorem isFinite_neg (x : Binary64) : x.neg.isFinite = x.isFinite := by cases x <;> rfl

theorem neg_ofMagnitude (negative : Bool) (q : ℚ) :
    (ofMagnitude negative q).neg = ofMagnitude (!negative) q := by
  unfold ofMagnitude
  dsimp only
  split_ifs <;> rfl

theorem neg_ofRat {q : ℚ} (hq : q ≠ 0) : (ofRat q).neg = ofRat (-q) := by
  rcases lt_or_gt_of_ne hq with hneg | hpos
  · rw [ofRat, if_pos hneg, neg_ofMagnitude, ofRat, if_neg (neg_pos.mpr hneg).not_gt]
    rfl
  · rw [ofRat, if_neg hpos.not_gt, neg_ofMagnitude, ofRat, if_pos (neg_lt_zero.mpr hpos), neg_neg]
    rfl

/-- Rounding does not go above an exact value, however far below it the rational is. -/
theorem toRat_ofRat_le {q r : ℚ} (hr : IsExact r) (h : q ≤ r) (hf : (ofRat q).isFinite = true) :
    (ofRat q).toRat ≤ r := by
  rcases eq_or_ne q 0 with rfl | hq
  · rwa [ofRat_zero, toRat_zero]
  · have hopposite : (ofRat (-q)).isFinite = true := by rwa [← neg_ofRat hq, isFinite_neg]
    have hle := le_toRat_ofRat hr.neg (neg_le_neg h) hopposite
    rw [← neg_ofRat hq, toRat_neg] at hle
    exact neg_le_neg_iff.mp hle

/-- A value from `2 ^ k` upwards is a multiple of the spacing there. -/
theorem IsExact.exists_int {q : ℚ} (h : IsExact q) {k : ℤ} (hk : (2 : ℚ) ^ k ≤ q) :
    ∃ m : ℤ, q = m * (2 : ℚ) ^ (k - 52) := by
  obtain ⟨rank, -, hq⟩ := h
  obtain ⟨n, s, rfl, hs, hn⟩ := exists_octave rank
  rw [abs_of_pos ((two_zpow_pos k).trans_le hk), magnitude_octave hs.le hn] at hq
  have hlt : (2 : ℚ) ^ k < 2 ^ ((n : ℤ) - 1021) := by
    have hsq : (s : ℚ) < 2 ^ (53 : ℤ) := by
      rw [← cast_two_mul_octaveSize]
      exact_mod_cast hs
    calc (2 : ℚ) ^ k ≤ s * 2 ^ ((n : ℤ) - 1074) := hq ▸ hk
      _ < 2 ^ (53 : ℤ) * 2 ^ ((n : ℤ) - 1074) := by
        exact mul_lt_mul_of_pos_right hsq (two_zpow_pos _)
      _ = 2 ^ ((n : ℤ) - 1021) := by
        rw [← zpow_add₀ two_ne_zero]
        congr 1
        ring
  have hkn : k < (n : ℤ) - 1021 := (zpow_lt_zpow_iff_right₀ one_lt_two).mp hlt
  obtain ⟨e, he⟩ : ∃ e : ℕ, (n : ℤ) - 1074 = e + (k - 52) :=
    ⟨((n : ℤ) - 1074 - (k - 52)).toNat, by omega⟩
  refine ⟨s * 2 ^ e, ?_⟩
  rw [hq, he, zpow_add₀ two_ne_zero, zpow_natCast]
  push_cast
  ring

/-- Two values from `2 ^ k` upwards that are no further apart than `2 ^ (k + 1)` have an exact
difference. -/
theorem IsExact.sub {p q : ℚ} (hp : IsExact p) (hq : IsExact q) {k : ℤ} (hk : -1022 ≤ k)
    (hk' : k ≤ 1022) (h₁ : (2 : ℚ) ^ k ≤ p) (h₂ : (2 : ℚ) ^ k ≤ q)
    (hd : |p - q| ≤ (2 : ℚ) ^ (k + 1)) : IsExact (p - q) := by
  obtain ⟨m, hm⟩ := hp.exists_int h₁
  obtain ⟨n, hn⟩ := hq.exists_int h₂
  have hpos := two_zpow_pos (k - 52)
  have hsub : p - q = ((m - n : ℤ) : ℚ) * 2 ^ (k - 52) := by
    rw [hm, hn]
    push_cast
    ring
  rw [hsub]
  refine isExact_dyadic ?_ (by omega) (by omega)
  have hbound : |((m - n : ℤ) : ℚ)| * 2 ^ (k - 52) ≤ 2 ^ (53 : ℤ) * 2 ^ (k - 52) := by
    rw [hsub, abs_mul, abs_of_pos hpos] at hd
    rwa [← zpow_add₀ two_ne_zero, show (53 : ℤ) + (k - 52) = k + 1 by ring]
  have hle := le_of_mul_le_mul_right hbound hpos
  rw [← cast_two_mul_octaveSize] at hle
  exact_mod_cast hle

/-- Values between two magnitudes are separated by their ranks. -/
theorem rankAt_lt_rankAt {p c d q : ℚ} (hc : IsExact c) (hd : IsExact d) (hc₀ : 0 ≤ c) (hp : p ≤ c)
    (hcd : c < d) (hq : d ≤ q) : rankAt p < rankAt q := by
  obtain ⟨r, -, hr⟩ := hc
  obtain ⟨s, -, hs⟩ := hd
  rw [abs_of_nonneg hc₀] at hr
  rw [abs_of_nonneg (hc₀.trans hcd.le)] at hs
  subst hr hs
  calc rankAt p ≤ rankAt (magnitude r) := rankAt_mono hp
    _ = r := rankAt_magnitude r
    _ < s := magnitude_strictMono.lt_iff_lt.mp hcd
    _ = rankAt (magnitude s) := (rankAt_magnitude s).symm
    _ ≤ rankAt q := rankAt_mono hq

theorem abs_ofMagnitude {negative : Bool} {q : ℚ} (h : rankAt q < rankCount) :
    (ofMagnitude negative q).abs = finite false ⟨rankAt q, h⟩ := by
  rw [ofMagnitude, dif_pos h]
  rfl

theorem abs_ofRat {q : ℚ} (h : rankAt |q| < rankCount) :
    (ofRat q).abs = finite false ⟨rankAt |q|, h⟩ := by
  unfold ofRat
  split_ifs with hq
  · simp only [abs_of_neg hq] at h ⊢
    exact abs_ofMagnitude h
  · simp only [abs_of_nonneg (not_lt.mp hq)] at h ⊢
    exact abs_ofMagnitude h

theorem abs_sub_eq {x y : Binary64} (hx : x.isFinite = true) (hy : y.isFinite = true)
    (hx₀ : 0 < x.toRat) (hy₀ : 0 < y.toRat) : ∃ h : rankAt |x.toRat - y.toRat| < rankCount,
      (x - y).abs = finite false ⟨rankAt |x.toRat - y.toRat|, h⟩ := by
  have hlt : rankAt |x.toRat - y.toRat| < rankCount := by
    have hmax : |x.toRat - y.toRat| ≤ greatest.toRat := by
      have h₁ := (le_abs_self _).trans (abs_toRat_le_greatest x)
      have h₂ := (le_abs_self _).trans (abs_toRat_le_greatest y)
      exact abs_le.mpr ⟨by linarith, by linarith⟩
    calc rankAt |x.toRat - y.toRat| ≤ rankAt (magnitude (rankCount - 1)) := rankAt_mono hmax
      _ < rankCount := by
        rw [rankAt_magnitude]
        decide
  refine ⟨hlt, ?_⟩
  have hsum := add_eq_of_isFinite hx ((isFinite_neg y).trans hy)
  rw [toRat_neg, ← sub_eq_add_neg] at hsum
  change (x + y.neg).abs = _
  rcases hsum with ⟨a, h0, he⟩ | he
  · simp only [he, h0, abs_zero]
    rfl
  · rw [he]
    exact abs_ofRat hlt

end TrioScore.Binary64
