import TrioScore.Number
import TrioScore.Proofs.Binary64.Rounding

/-!
# Exact values

A rational is exact when it is the value of a finite number. Arithmetic on finite numbers has the
exact result whenever that result is exact, so a calculation that stays among dyadic numbers of at
most 53 bits is a calculation with rationals.
-/

namespace TrioScore.Binary64

/-- A rational that is the value of a finite number. -/
def IsExact (q : ℚ) : Prop := ∃ rank < rankCount, |q| = magnitude rank

theorem isExact_zero : IsExact 0 := ⟨0, by decide, by rw [abs_zero, magnitude_zero]⟩

@[simp] theorem toRat_zero (negative : Bool) : (zero negative).toRat = 0 := by
  cases negative <;> simp [zero, toRat]

theorem greatest_pos : 0 < greatest.toRat := by decide +kernel

theorem IsExact.neg {q : ℚ} (h : IsExact q) : IsExact (-q) := by
  obtain ⟨rank, hr, hq⟩ := h
  exact ⟨rank, hr, by rw [abs_neg, hq]⟩

/-- A 53-bit integer times a power of two within the range of exponents is exact. -/
theorem isExact_dyadic {m e : ℤ} (hm : |m| ≤ 2 * octaveSize) (he : -1074 ≤ e) (he' : e ≤ 970) :
    IsExact (m * (2 : ℚ) ^ e) := by
  have hp := two_zpow_pos e
  have hn : (((e + 1074).toNat : ℕ) : ℤ) - 1074 = e := by omega
  have hm' : m.natAbs ≤ 2 * octaveSize := by
    rw [Int.abs_eq_natAbs] at hm
    exact_mod_cast hm
  obtain ⟨rank, hr⟩ := exists_magnitude_eq (e + 1074).toNat hm'
  have hq : |(m : ℚ) * 2 ^ e| = magnitude rank := by
    rw [hr, hn, abs_mul, abs_of_pos hp, Nat.cast_natAbs, Int.cast_abs]
  refine ⟨rank, lt_rankCount ?_, hq⟩
  have hmq : |(m : ℚ)| ≤ 2 ^ (53 : ℤ) := by
    rw [← cast_two_mul_octaveSize]
    exact_mod_cast hm
  calc magnitude rank = |(m : ℚ)| * 2 ^ e := by rw [← hq, abs_mul, abs_of_pos hp]
    _ ≤ 2 ^ (53 : ℤ) * 2 ^ (970 : ℤ) :=
      mul_le_mul hmq (zpow_le_zpow_right₀ one_le_two he') hp.le (two_zpow_pos _).le
    _ = 2 ^ (1023 : ℤ) := by rw [← zpow_add₀ two_ne_zero]; rfl
    _ < 2 ^ (1024 : ℤ) := zpow_lt_zpow_right₀ one_lt_two (by norm_num)

theorem isExact_int {m : ℤ} (hm : |m| ≤ 2 * octaveSize) : IsExact m := by
  simpa using isExact_dyadic (e := 0) hm (by norm_num) (by norm_num)

theorem isExact_div_two_pow {m : ℤ} (hm : |m| ≤ 2 * octaveSize) {k : ℕ} (hk : k ≤ 1074) :
    IsExact ((m : ℚ) / 2 ^ k) := by
  have h := isExact_dyadic (e := -k) hm (by omega) (by omega)
  rwa [zpow_neg, zpow_natCast, ← div_eq_mul_inv] at h

theorem isExact_quarters {m : ℤ} (hm : |m| ≤ 2 * octaveSize) : IsExact ((m : ℚ) / 4) := by
  have h4 : (2 : ℚ) ^ 2 = 4 := by norm_num
  exact h4 ▸ isExact_div_two_pow hm (by decide)

theorem abs_toRat_finite (negative : Bool) (rank : Fin rankCount) :
    |(finite negative rank).toRat| = magnitude rank := by
  cases negative <;> simp [toRat, abs_of_nonneg (magnitude_nonneg _)]

theorem isExact_toRat (x : Binary64) : IsExact x.toRat := by
  cases x with
  | finite negative rank => exact ⟨rank, rank.isLt, abs_toRat_finite negative rank⟩
  | nan => exact ⟨0, by decide, by simp [toRat]⟩
  | infinity negative => exact ⟨0, by decide, by simp [toRat]⟩

theorem abs_toRat_le_greatest (x : Binary64) : |x.toRat| ≤ greatest.toRat := by
  obtain ⟨rank, hr, hx⟩ := isExact_toRat x
  have hg : greatest.toRat = magnitude (rankCount - 1) := rfl
  rw [hx, hg]
  exact magnitude_strictMono.monotone (Nat.le_sub_one_of_lt hr)

theorem ofRat_of_abs_eq {q : ℚ} {rank : ℕ} (hr : rank < rankCount) (hq : |q| = magnitude rank) :
    ofRat q = finite (decide (q < 0)) ⟨rank, hr⟩ := by
  unfold ofRat
  split_ifs with h
  · rw [abs_of_neg h] at hq
    simp [ofMagnitude, hq, hr, h]
  · rw [abs_of_nonneg (not_lt.mp h)] at hq
    simp [ofMagnitude, hq, hr, magnitude_nonneg]

theorem isFinite_ofRat {q : ℚ} (h : IsExact q) : (ofRat q).isFinite = true := by
  obtain ⟨rank, hr, hq⟩ := h
  rw [ofRat_of_abs_eq hr hq]
  rfl

theorem toRat_ofRat {q : ℚ} (h : IsExact q) : (ofRat q).toRat = q := by
  obtain ⟨rank, hr, hq⟩ := h
  rw [ofRat_of_abs_eq hr hq]
  by_cases hn : q < 0
  · simp [toRat, hn, ← hq, abs_of_neg hn]
  · simp [toRat, hn, ← hq, abs_of_nonneg (not_lt.mp hn)]

theorem toRat_ofMagnitude {negative : Bool} {q : ℚ}
    (hf : (ofMagnitude negative q).isFinite = true) :
    (ofMagnitude negative q).toRat =
      if negative then -magnitude (rankAt q) else magnitude (rankAt q) := by
  rw [ofMagnitude] at hf ⊢
  by_cases hrank : rankAt q < rankCount
  · rw [dif_pos hrank]
    rfl
  · rw [dif_neg hrank] at hf
    cases hf

theorem toRat_ofRat_eq {q : ℚ} (hf : (ofRat q).isFinite = true) :
    (ofRat q).toRat = if q < 0 then -magnitude (rankAt (-q)) else magnitude (rankAt q) := by
  rw [ofRat] at hf ⊢
  split_ifs at hf ⊢
  · rw [toRat_ofMagnitude hf, if_pos rfl]
  · rw [toRat_ofMagnitude hf, if_neg Bool.false_ne_true]

theorem ofRat_toRat {x : Binary64} (hf : x.isFinite = true) (hpos : 0 < x.toRat) :
    ofRat x.toRat = x := by
  match x with
  | finite negative rank =>
    rw [ofRat_of_abs_eq rank.isLt (abs_toRat_finite negative rank), decide_eq_false hpos.le.not_gt]
    cases negative with
    | false => rfl
    | true =>
      have hneg : (finite true rank).toRat = -magnitude rank := rfl
      linarith [magnitude_nonneg rank]

theorem ofRat_greatest : ofRat greatest.toRat = greatest := ofRat_toRat rfl greatest_pos

theorem eq_greatest_of_le {x : Binary64} (h : greatest.toRat ≤ x.toRat) : x = greatest := by
  match x with
  | nan => exact absurd h greatest_pos.not_ge
  | infinity _ => exact absurd h greatest_pos.not_ge
  | finite true rank =>
    have hneg : (finite true rank).toRat = -magnitude rank := rfl
    linarith [magnitude_nonneg rank, greatest_pos]
  | finite false rank =>
    have hle : rankCount - 1 ≤ rank.val := magnitude_strictMono.le_iff_le.mp h
    have hr : rank.val = rankCount - 1 := by omega
    exact congrArg (finite false) (Fin.ext hr)

theorem ofRat_inj {p q : ℚ} (hp : IsExact p) (hq : IsExact q) : ofRat p = ofRat q ↔ p = q := by
  refine ⟨fun h => ?_, congrArg ofRat⟩
  rw [← toRat_ofRat hp, h, toRat_ofRat hq]

theorem ofRat_zero : ofRat 0 = zero false := by
  have hpos : 0 < rankCount := by decide
  rw [ofRat_of_abs_eq hpos (by simp)]
  rfl

/-- Between two magnitudes a rational is rounded to a magnitude between them. -/
theorem ofMagnitude_bounds (negative : Bool) {q : ℚ} {r s : ℕ} (hs : s < rankCount)
    (h₁ : magnitude r ≤ q) (h₂ : q ≤ magnitude s) : ∃ rank : Fin rankCount,
    ofMagnitude negative q = finite negative rank ∧
      magnitude r ≤ magnitude rank ∧ magnitude rank ≤ magnitude s := by
  have hr : r ≤ rankAt q := by simpa using rankAt_mono h₁
  have hs' : rankAt q ≤ s := by simpa using rankAt_mono h₂
  have hlt : rankAt q < rankCount := hs'.trans_lt hs
  exact ⟨⟨rankAt q, hlt⟩, by simp [ofMagnitude, hlt], magnitude_strictMono.monotone hr,
    magnitude_strictMono.monotone hs'⟩

/-- Rounding does not cross an exact value. -/
theorem ofRat_bounds {p q r : ℚ} (hp : IsExact p) (hr : IsExact r) (h₁ : p ≤ q) (h₂ : q ≤ r) :
    (ofRat q).isFinite = true ∧ p ≤ (ofRat q).toRat ∧ (ofRat q).toRat ≤ r := by
  obtain ⟨i, hi, hpi⟩ := hp
  obtain ⟨j, hj, hrj⟩ := hr
  unfold ofRat
  split_ifs with hq
  · rw [abs_of_neg (h₁.trans_lt hq)] at hpi
    have hlow : ∃ k : ℕ, -r ≤ magnitude k ∧ magnitude k ≤ -q := by
      rcases le_or_gt r 0 with h | h
      · rw [abs_of_nonpos h] at hrj
        exact ⟨j, hrj.le, hrj ▸ neg_le_neg h₂⟩
      · refine ⟨0, ?_⟩
        rw [magnitude_zero]
        constructor <;> linarith
    obtain ⟨k, hk₁, hk₂⟩ := hlow
    obtain ⟨rank, he, hl, hu⟩ := ofMagnitude_bounds true hi hk₂ (by linarith)
    rw [he]
    refine ⟨rfl, ?_, ?_⟩ <;> simp only [toRat, if_true] <;> linarith
  · have hq := not_lt.mp hq
    rw [abs_of_nonneg (hq.trans h₂)] at hrj
    have hlow : ∃ k : ℕ, p ≤ magnitude k ∧ magnitude k ≤ q := by
      rcases le_or_gt 0 p with h | h
      · rw [abs_of_nonneg h] at hpi
        exact ⟨i, hpi.le, hpi ▸ h₁⟩
      · refine ⟨0, ?_⟩
        rw [magnitude_zero]
        exact ⟨h.le, hq⟩
    obtain ⟨k, hk₁, hk₂⟩ := hlow
    obtain ⟨rank, he, hl, hu⟩ := ofMagnitude_bounds false hj hk₂ (by linarith)
    rw [he]
    refine ⟨rfl, ?_, ?_⟩ <;> simp only [toRat, Bool.false_eq_true, if_false] <;> linarith

/-- Rounding does not go below an exact value, however far above it the rational is. -/
theorem le_toRat_ofRat {p q : ℚ} (hp : IsExact p) (h : p ≤ q) (hf : (ofRat q).isFinite = true) :
    p ≤ (ofRat q).toRat := by
  rcases le_or_gt q greatest.toRat with hq | hq
  · exact (ofRat_bounds hp (isExact_toRat greatest) h hq).2.1
  · have hround : ofRat q = ofMagnitude false q := if_neg (greatest_pos.trans hq).not_gt
    have hrank : rankCount - 1 ≤ rankAt q := by
      have hmono : rankAt (magnitude (rankCount - 1)) ≤ rankAt q := rankAt_mono hq.le
      rwa [rankAt_magnitude] at hmono
    rw [hround, ofMagnitude] at hf ⊢
    split_ifs at hf ⊢ with hlt
    · obtain ⟨r, hr, hpr⟩ := hp
      calc p ≤ |p| := le_abs_self p
        _ = magnitude r := hpr
        _ ≤ magnitude (rankAt q) := magnitude_strictMono.monotone (by omega)
    · cases hf

section Sum
variable {x y : Binary64}

/-- A sum of finite numbers is the rounding of the exact sum, up to the sign of zero. -/
theorem add_eq_of_isFinite (hx : x.isFinite = true) (hy : y.isFinite = true) :
    (∃ a, x.toRat + y.toRat = 0 ∧ x + y = zero a) ∨ x + y = ofRat (x.toRat + y.toRat) := by
  match x, y with
  | finite a r, finite b s =>
    have hadd : finite a r + finite b s =
        if (finite a r).toRat + (finite b s).toRat = 0 then zero (a && b)
        else ofRat ((finite a r).toRat + (finite b s).toRat) := rfl
    rw [hadd]
    split_ifs with h
    · exact .inl ⟨_, h, rfl⟩
    · exact .inr rfl

theorem isExact_half : IsExact (1 / 2) := by
  simpa using isExact_div_two_pow (m := 1) (k := 1) (by decide) (by decide)

theorem half_eq : half = ofRat (1 / 2) := congrArg ofRat (by norm_num [Rat.mkRat_eq_div])

theorem add_half_eq (hx : x.isFinite = true) : x + half = ofRat (x.toRat + 1 / 2) := by
  obtain ⟨rank, hr, hrank⟩ := isExact_half
  have hhalf : half = finite false ⟨rank, hr⟩ := by
    rw [half_eq, ofRat_of_abs_eq hr hrank, decide_eq_false (by norm_num)]
  have hvalue : (finite false ⟨rank, hr⟩).toRat = 1 / 2 := by
    rw [← hhalf, half_eq, toRat_ofRat isExact_half]
  match x with
  | finite a r =>
    have hadd : finite a r + finite false ⟨rank, hr⟩ =
        if (finite a r).toRat + (finite false ⟨rank, hr⟩).toRat = 0 then zero (a && false)
        else ofRat ((finite a r).toRat + (finite false ⟨rank, hr⟩).toRat) := rfl
    rw [hhalf, hadd, hvalue, Bool.and_false]
    split_ifs with h
    · rw [h, ofRat_zero]
    · rfl

/-- Half a unit is too little to take a finite number out of range. -/
theorem isFinite_add_half (hx : x.isFinite = true) : (x + half).isFinite = true := by
  obtain ⟨hlow, hhigh⟩ := abs_le.mp (abs_toRat_le_greatest x)
  rw [add_half_eq hx]
  rcases le_or_gt (x.toRat + 1 / 2) greatest.toRat with hq | hq
  · have hg := isExact_toRat greatest
    exact (ofRat_bounds hg.neg hg (by linarith) hq).1
  · have hpos : ¬ x.toRat + 1 / 2 < 0 := (greatest_pos.trans hq).not_gt
    have htop : rankAt (greatest.toRat + 1 / 2) < rankCount := by decide +kernel
    have hlt := (rankAt_mono (add_le_add_left hhigh (1 / 2))).trans_lt htop
    rw [ofRat, if_neg hpos, ofMagnitude, dif_pos hlt]
    rfl

end Sum

/-- The sum of two exact values is rounded once. -/
theorem ofRat_add_ofRat {p q : ℚ} (hp : IsExact p) (hq : IsExact q) :
    ofRat p + ofRat q = ofRat (p + q) := by
  obtain ⟨r, hr, hpr⟩ := hp
  obtain ⟨s, hs, hqs⟩ := hq
  have hp' := toRat_ofRat ⟨r, hr, hpr⟩
  have hq' := toRat_ofRat ⟨s, hs, hqs⟩
  rw [ofRat_of_abs_eq hr hpr] at hp' ⊢
  rw [ofRat_of_abs_eq hs hqs] at hq' ⊢
  have hadd : finite (decide (p < 0)) ⟨r, hr⟩ + finite (decide (q < 0)) ⟨s, hs⟩ =
      if (finite (decide (p < 0)) ⟨r, hr⟩).toRat + (finite (decide (q < 0)) ⟨s, hs⟩).toRat = 0 then
        zero (decide (p < 0) && decide (q < 0))
      else ofRat ((finite (decide (p < 0)) ⟨r, hr⟩).toRat +
        (finite (decide (q < 0)) ⟨s, hs⟩).toRat) := rfl
  rw [hadd, hp', hq']
  split_ifs with h
  · have hsign : (decide (p < 0) && decide (q < 0)) = false := by
      rw [Bool.and_eq_false_iff, decide_eq_false_iff_not, decide_eq_false_iff_not]
      by_contra! hneg
      linarith [hneg.1, hneg.2]
    rw [hsign, h, ofRat_zero]
  · rfl

theorem ofInt_of_isExact {n : ℤ} (h : IsExact n) : ofInt n = .ok (ofRat n) := by
  match hx : ofRat n, isFinite_ofRat h with
  | finite _ _, _ => simp only [ofInt, ofInt?, hx]

theorem less_eq_of_isFinite {x y : Binary64} (hx : x.isFinite = true) (hy : y.isFinite = true) :
    x.less y = decide (x.toRat < y.toRat) := by
  match x, y with
  | finite _ _, finite _ _ => rfl

theorem less_eq_true_iff {x y : Binary64} (hy : y.isFinite = true) :
    x.less y = true ↔ x = infinity true ∨ (x.isFinite = true ∧ x.toRat < y.toRat) := by
  match x, y with
  | nan, finite _ _ => simp [less, isFinite]
  | infinity a, finite _ _ => simp [less, isFinite]
  | finite _ _, finite _ _ => simp [less, isFinite]

theorem truncate_eq_of_isFinite {x : Binary64} (hx : x.isFinite = true) :
    x.truncate = .ok (x.toRat.num.tdiv x.toRat.den) := by
  match x with
  | finite _ _ => rfl

end TrioScore.Binary64
