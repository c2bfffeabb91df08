import TrioScore.Proofs.Binary64.Within

/-!
# Sums and overflow

A sum of positive numbers is finite only if all its partial sums are, and then it is no less than
any of them. Sums and quotients of positive numbers have the positive sign, so out of range they
are positive infinity. A positive number divided by infinity is zero, and times zero or infinity it
is that.
-/

namespace TrioScore.Binary64

theorem ofRat_zero_add {x : Binary64} (hf : x.isFinite = true) (hpos : 0 < x.toRat) :
    ofRat 0 + x = x := by
  have hsum := ofRat_add_ofRat isExact_zero (isExact_toRat x)
  rwa [zero_add, ofRat_toRat hf hpos] at hsum

/-- A sum is finite only if its terms are. -/
theorem isFinite_of_add {x y : Binary64} (h : (x + y).isFinite = true) : x.isFinite = true := by
  match x, y with
  | finite _ _, _ => rfl
  | nan, _ => cases h
  | infinity _, nan => cases h
  | infinity _, finite _ _ => cases h
  | infinity a, infinity b => cases a <;> cases b <;> cases h

theorem isFinite_of_foldl_add {acc : Binary64} {terms : List Binary64}
    (h : (terms.foldl (· + ·) acc).isFinite = true) : acc.isFinite = true := by
  induction terms generalizing acc with
  | nil => exact h
  | cons x terms ih => exact isFinite_of_add (ih h)

theorem toRat_le_add {x y : Binary64} (hx : x.isFinite = true) (hy : y.isFinite = true)
    (hy₀ : 0 ≤ y.toRat) (hf : (x + y).isFinite = true) : x.toRat ≤ (x + y).toRat := by
  rcases add_eq_of_isFinite hx hy with ⟨negative, hsum, he⟩ | he
  · rw [he, toRat_zero]
    linarith
  · rw [he] at hf ⊢
    exact le_toRat_ofRat (isExact_toRat x) (le_add_of_nonneg_right hy₀) hf

theorem toRat_le_foldl_add {acc : Binary64} {terms : List Binary64}
    (hterms : ∀ x ∈ terms, x.isFinite = true ∧ 0 < x.toRat)
    (hf : (terms.foldl (· + ·) acc).isFinite = true) :
    acc.toRat ≤ (terms.foldl (· + ·) acc).toRat := by
  induction terms generalizing acc with
  | nil => exact le_rfl
  | cons x terms ih =>
    obtain ⟨hx, hterms⟩ := List.forall_mem_cons.mp hterms
    have hsum : (acc + x).isFinite = true := isFinite_of_foldl_add hf
    exact (toRat_le_add (isFinite_of_add hsum) hx.1 hx.2.le hsum).trans (ih hterms hf)

/-- Terms within a limit have a sum within the limit as many times. -/
theorem within_foldl_add {k n : ℕ} {acc : Binary64} {terms : List Binary64} (hk : k ≤ 970)
    (hn : n + terms.length ≤ 2 * octaveSize) (hacc : acc.Within (n * 2 ^ k))
    (hterms : ∀ x ∈ terms, x.Within (2 ^ k)) :
    (terms.foldl (· + ·) acc).Within ((n + terms.length) * 2 ^ k) := by
  induction terms generalizing acc n with
  | nil => exact hacc
  | cons x terms ih =>
    obtain ⟨hx, hterms⟩ := List.forall_mem_cons.mp hterms
    have hlength : n + (x :: terms).length = n + 1 + terms.length := by
      rw [List.length_cons]
      omega
    have hlimit : n * 2 ^ k + 2 ^ k = (n + 1) * 2 ^ k := by ring
    have hexact : IsExact (n * 2 ^ k + 2 ^ k : ℕ) := by
      rw [hlimit]
      exact isExact_mul_two_pow (by omega) hk
    rw [hlength] at hn ⊢
    exact ih hn (hlimit ▸ hacc.add hx hexact) hterms

/-- A number of the positive sign, which may be infinite. -/
inductive IsPlus : Binary64 → Prop
  | finite (rank : Fin rankCount) : IsPlus (.finite false rank)
  | infinity : IsPlus (.infinity false)

theorem isPlus_ofMagnitude (q : ℚ) : (ofMagnitude false q).IsPlus := by
  unfold ofMagnitude
  dsimp only
  split_ifs
  · exact .finite _
  · exact .infinity

theorem isPlus_ofRat {q : ℚ} (h : 0 ≤ q) : (ofRat q).IsPlus := by
  rw [ofRat, if_neg h.not_gt]
  exact isPlus_ofMagnitude q

theorem IsPlus.eq_infinity {x : Binary64} (h : x.IsPlus) (hf : x.isFinite = false) :
    x = .infinity false := by
  cases h with
  | finite rank => cases hf
  | infinity => rfl

theorem IsPlus.add {x y : Binary64} (hx : x.IsPlus) (hy : y.IsPlus) : (x + y).IsPlus := by
  cases hx with
  | infinity => cases hy <;> exact .infinity
  | finite r =>
    cases hy with
    | infinity => exact .infinity
    | finite s =>
      have hadd : Binary64.finite false r + Binary64.finite false s =
          if magnitude r + magnitude s = 0 then zero false
          else ofRat (magnitude r + magnitude s) := rfl
      rw [hadd]
      split_ifs
      · exact .finite _
      · exact isPlus_ofRat (add_nonneg (magnitude_nonneg r) (magnitude_nonneg s))

theorem IsPlus.foldl_add {acc : Binary64} (h : acc.IsPlus) {terms : List Binary64}
    (hterms : ∀ x ∈ terms, x.IsPlus) : (terms.foldl (· + ·) acc).IsPlus := by
  induction terms generalizing acc with
  | nil => exact h
  | cons x terms ih =>
    obtain ⟨hx, hterms⟩ := List.forall_mem_cons.mp hterms
    exact ih (h.add hx) hterms

section Positive
variable {x : Binary64} (hx : x.isFinite = true) (hx₀ : 0 < x.toRat)
include hx hx₀

theorem exists_rank_of_pos : ∃ rank, x = finite false rank ∧ 0 < magnitude rank := by
  match x with
  | finite false rank => exact ⟨rank, rfl, hx₀⟩
  | finite true rank =>
    have hneg : (finite true rank).toRat = -magnitude rank := rfl
    linarith [magnitude_nonneg rank]

theorem isPlus_of_pos : x.IsPlus := by
  obtain ⟨rank, rfl, -⟩ := exists_rank_of_pos hx hx₀
  exact .finite rank

theorem div_infinity : x / infinity false = zero false := by
  obtain ⟨rank, rfl, -⟩ := exists_rank_of_pos hx hx₀
  rfl

theorem mul_zero_eq : x * zero false = zero false := by
  obtain ⟨rank, rfl, -⟩ := exists_rank_of_pos hx hx₀
  have hmul : finite false rank * zero false = ofMagnitude false (magnitude rank * magnitude 0) :=
    rfl
  rw [hmul, magnitude_zero, mul_zero]
  rfl

omit hx hx₀ in
theorem rank_ne_zero {rank : ℕ} (h : 0 < magnitude rank) : rank ≠ 0 := by
  rintro rfl
  rw [magnitude_zero] at h
  exact lt_irrefl 0 h

theorem mul_infinity : x * infinity false = infinity false := by
  obtain ⟨rank, rfl, hrank⟩ := exists_rank_of_pos hx hx₀
  exact if_neg (rank_ne_zero hrank)

theorem isPlus_div {y : Binary64} (hy : y.isFinite = true) (hy₀ : 0 < y.toRat) :
    (x / y).IsPlus := by
  obtain ⟨r, rfl, -⟩ := exists_rank_of_pos hx hx₀
  obtain ⟨s, rfl, hs⟩ := exists_rank_of_pos hy hy₀
  have hdiv : finite false r / finite false s =
      if s.val = 0 then (if r.val = 0 then nan else infinity false)
      else ofMagnitude false (magnitude r / magnitude s) := rfl
  rw [hdiv, if_neg (rank_ne_zero hs)]
  exact isPlus_ofMagnitude _

end Positive

end TrioScore.Binary64
