import TrioScore.Proofs.Binary64.Exact

/-!
# Times within a limit

A time within a limit is finite and lies between zero and a natural number. Sums, products and
rounding stay within the limits they have without rounding, as long as the limits are exact.
-/

namespace TrioScore.Binary64

/-- The number is finite, not negative, and at most the limit. -/
structure Within (limit : ℕ) (x : Binary64) : Prop where
  isFinite : x.isFinite = true
  nonneg : 0 ≤ x.toRat
  le : x.toRat ≤ limit

theorem isExact_natCast {n : ℕ} (h : n ≤ 2 * octaveSize) : IsExact n := by
  have hn : |(n : ℤ)| ≤ 2 * octaveSize := by
    rw [abs_of_nonneg (by omega)]
    exact_mod_cast h
  exact_mod_cast isExact_int hn

theorem isExact_mul_two_pow {n k : ℕ} (hn : n ≤ 2 * octaveSize) (hk : k ≤ 970) :
    IsExact (n * 2 ^ k : ℕ) := by
  have hn' : |(n : ℤ)| ≤ 2 * octaveSize := by
    rw [abs_of_nonneg (by omega)]
    exact_mod_cast hn
  have h := isExact_dyadic (e := k) hn' (by omega) (by omega)
  rw [zpow_natCast] at h
  exact_mod_cast h

theorem Within.mono {a b : ℕ} {x : Binary64} (h : x.Within a) (hab : a ≤ b) : x.Within b where
  isFinite := h.isFinite
  nonneg := h.nonneg
  le := h.le.trans (by exact_mod_cast hab)

theorem within_zero (negative : Bool) (limit : ℕ) : (zero negative).Within limit where
  isFinite := rfl
  nonneg := (toRat_zero negative).ge
  le := (toRat_zero negative).trans_le (Nat.cast_nonneg limit)

theorem within_ofRat {q : ℚ} {limit : ℕ} (hl : IsExact limit) (h₀ : 0 ≤ q) (h : q ≤ limit) :
    (ofRat q).Within limit := by
  obtain ⟨hf, hlow, hhigh⟩ := ofRat_bounds isExact_zero hl h₀ h
  exact ⟨hf, hlow, hhigh⟩

/-- A magnitude with the negative sign is within the limit when it is zero. -/
theorem within_ofMagnitude {negative : Bool} {q : ℚ} {limit : ℕ} (hl : IsExact limit) (h₀ : 0 ≤ q)
    (h : q ≤ limit) (hneg : negative = true → q = 0) :
    (ofMagnitude negative q).Within limit := by
  cases negative with
  | false =>
    have hq : ofMagnitude false q = ofRat q := by rw [ofRat, if_neg h₀.not_gt]
    rw [hq]
    exact within_ofRat hl h₀ h
  | true =>
    rw [hneg rfl]
    exact within_zero true limit

theorem Within.add {a b : ℕ} {x y : Binary64} (hx : x.Within a) (hy : y.Within b)
    (hl : IsExact (a + b : ℕ)) : (x + y).Within (a + b) := by
  rcases add_eq_of_isFinite hx.isFinite hy.isFinite with ⟨negative, -, he⟩ | he
  · rw [he]
    exact within_zero negative _
  · rw [he]
    refine within_ofRat hl (add_nonneg hx.nonneg hy.nonneg) ?_
    rw [Nat.cast_add]
    exact add_le_add hx.le hy.le

/-- A limit is not left by terms that are too small to take it to the next number. -/
theorem Within.add_of_rankAt_eq {a b : ℕ} {x y : Binary64} (hx : x.Within a) (hy : y.Within b)
    (ha : IsExact a) (hstay : rankAt (a + b) = rankAt a) : (x + y).Within a := by
  rcases add_eq_of_isFinite hx.isFinite hy.isFinite with ⟨negative, -, he⟩ | he
  · rw [he]
    exact within_zero negative _
  · rw [he]
    have hpos := add_nonneg hx.nonneg hy.nonneg
    rcases le_or_gt (x.toRat + y.toRat) a with hle | hlt
    · exact within_ofRat ha hpos hle
    · have hrank : rankAt (x.toRat + y.toRat) = rankAt a := by
        refine le_antisymm ?_ (rankAt_mono hlt.le)
        rw [← hstay]
        exact rankAt_mono (add_le_add hx.le hy.le)
      have hround : ofRat (x.toRat + y.toRat) = ofRat a := by
        simp only [ofRat, ofMagnitude, if_neg hpos.not_gt, if_neg (Nat.cast_nonneg a).not_gt, hrank]
      rw [hround]
      exact within_ofRat ha (Nat.cast_nonneg a) le_rfl

/-- A finite number that is not negative has the positive sign or is zero. -/
theorem magnitude_eq_toRat {negative : Bool} {rank : Fin rankCount}
    (h : 0 ≤ (finite negative rank).toRat) : magnitude rank = (finite negative rank).toRat := by
  rw [← abs_toRat_finite, abs_of_nonneg h]

theorem eq_zero_of_negative {rank : Fin rankCount} (h : 0 ≤ (finite true rank).toRat) :
    magnitude rank = 0 := by
  have hneg : (finite true rank).toRat = -magnitude rank := rfl
  linarith [magnitude_nonneg rank]

theorem Within.mul {a b : ℕ} {x y : Binary64} (hx : x.Within a) (hy : y.Within b)
    (hl : IsExact (a * b : ℕ)) : (x * y).Within (a * b) := by
  match x, y, hx, hy with
  | finite s r, finite t u, hx, hy =>
    have hmul : finite s r * finite t u = ofMagnitude (s != t) (magnitude r * magnitude u) := rfl
    rw [hmul]
    refine within_ofMagnitude hl (mul_nonneg (magnitude_nonneg _) (magnitude_nonneg _)) ?_ ?_
    · rw [magnitude_eq_toRat hx.nonneg, magnitude_eq_toRat hy.nonneg, Nat.cast_mul]
      exact mul_le_mul hx.le hy.le hy.nonneg (Nat.cast_nonneg a)
    · intro hsign
      cases s with
      | true => rw [eq_zero_of_negative hx.nonneg, zero_mul]
      | false =>
        obtain rfl : t = true := by simpa using hsign
        rw [eq_zero_of_negative hy.nonneg, mul_zero]

theorem Within.div {a : ℕ} {x y : Binary64} (hx : x.Within a) (hy : y.isFinite = true)
    (h₁ : 1 ≤ y.toRat) (hl : IsExact a) : (x / y).Within a := by
  match x, y, hx, hy with
  | finite s r, finite t u, hx, hy =>
    have hu := magnitude_eq_toRat (zero_le_one.trans h₁)
    have hne : u.val ≠ 0 := by
      intro h0
      rw [← hu, h0, magnitude_zero] at h₁
      exact absurd h₁ (by norm_num)
    have hdiv : finite s r / finite t u = if u.val = 0 then
        (if r.val = 0 then nan else infinity (s != t))
        else ofMagnitude (s != t) (magnitude r / magnitude u) := rfl
    rw [hdiv, if_neg hne]
    have ht : t = false := by
      cases t with
      | false => rfl
      | true =>
        rw [eq_zero_of_negative (zero_le_one.trans h₁)] at hu
        linarith
    refine within_ofMagnitude hl (div_nonneg (magnitude_nonneg _) (magnitude_nonneg _)) ?_ ?_
    · rw [hu, magnitude_eq_toRat hx.nonneg]
      exact (div_le_self hx.nonneg h₁).trans hx.le
    · intro hsign
      obtain rfl : s = true := by simpa [ht] using hsign
      rw [eq_zero_of_negative hx.nonneg, zero_div]

theorem Within.truncate {a : ℕ} {x : Binary64} (h : x.Within a) :
    ∃ n : ℕ, x.truncate = .ok n ∧ n ≤ a := by
  have hnum : 0 ≤ x.toRat.num := Rat.num_nonneg.mpr h.nonneg
  have hle : x.toRat.num ≤ a * x.toRat.den := by
    have hd : (0 : ℚ) < x.toRat.den := by exact_mod_cast x.toRat.den_pos
    have hq := h.le
    rw [← Rat.num_div_den x.toRat, div_le_iff₀ hd] at hq
    exact_mod_cast hq
  have hdiv : x.toRat.num.tdiv x.toRat.den = x.toRat.num / x.toRat.den :=
    Int.tdiv_eq_ediv_of_nonneg hnum
  have h₀ : 0 ≤ x.toRat.num / (x.toRat.den : ℤ) := Int.ediv_nonneg hnum (by omega)
  have h₁ : x.toRat.num / (x.toRat.den : ℤ) ≤ a :=
    Int.ediv_le_of_le_mul (by exact_mod_cast x.toRat.den_pos) hle
  refine ⟨(x.toRat.num / (x.toRat.den : ℤ)).toNat, ?_, by omega⟩
  rw [truncate_eq_of_isFinite h.isFinite, hdiv, Int.toNat_of_nonneg h₀]

end TrioScore.Binary64
