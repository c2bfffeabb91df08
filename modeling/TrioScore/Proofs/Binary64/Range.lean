import TrioScore.Proofs.Binary64.Within

/-!
# The range of binary64

What is rounded stays finite up to half a step beyond the greatest number; that is how far the
integers go that have a binary64. A finite number is limited to a range by comparing exact values.
-/

namespace TrioScore.Binary64

theorem isFinite_ofRat_iff {q : ℚ} : (ofRat q).isFinite = true ↔ rankAt |q| < rankCount := by
  have hmagnitude : ∀ (negative : Bool) (p : ℚ),
      (ofMagnitude negative p).isFinite = true ↔ rankAt p < rankCount := by
    intro negative p
    unfold ofMagnitude
    dsimp only
    split_ifs with h <;> simp [isFinite, h]
  unfold ofRat
  split_ifs with hq
  · rw [hmagnitude, abs_of_neg hq]
  · rw [hmagnitude, abs_of_nonneg (not_lt.mp hq)]

theorem ofInt_eq (n : ℤ) :
    ofInt n = if (ofRat n).isFinite then .ok (ofRat n) else .error .integerTooLarge := by
  unfold ofInt ofInt?
  cases ofRat n <;> rfl

/-- An integer has a binary64 up to half a step beyond the greatest one; there the tie goes to
infinity. -/
theorem ofInt_isOk_iff {n : ℤ} : (∃ x, ofInt n = .ok x) ↔ |n| < 2 ^ 1024 - 2 ^ 970 := by
  have htop : rankAt ((2 ^ 1024 - 2 ^ 970 : ℤ) : ℚ) = rankCount := by decide +kernel
  have hlast : rankAt ((2 ^ 1024 - 2 ^ 970 - 1 : ℤ) : ℚ) < rankCount := by decide +kernel
  have hfinite : (∃ x, ofInt n = .ok x) ↔ rankAt ((|n| : ℤ) : ℚ) < rankCount := by
    rw [ofInt_eq, Int.cast_abs, ← isFinite_ofRat_iff]
    split_ifs with h <;> simp [h]
  rw [hfinite]
  constructor
  · intro h
    by_contra! hn
    have hle : rankAt ((2 ^ 1024 - 2 ^ 970 : ℤ) : ℚ) ≤ rankAt ((|n| : ℤ) : ℚ) :=
      rankAt_mono (by exact_mod_cast hn)
    omega
  · intro h
    have hle : |n| ≤ 2 ^ 1024 - 2 ^ 970 - 1 := by omega
    exact (rankAt_mono (by exact_mod_cast hle)).trans_lt hlast

theorem isFinite_of_ofInt {n : ℤ} {x : Binary64} (h : ofInt n = .ok x) : x.isFinite = true := by
  rw [ofInt_eq] at h
  split_ifs at h with hf
  exact Except.ok.inj h ▸ hf

theorem clamp_mem {low high x : Binary64} (hl : low.isFinite = true) (hh : high.isFinite = true)
    (h : low.toRat ≤ high.toRat) (hx : x.isFinite = true) :
    (clamp low high x).isFinite = true ∧ low.toRat ≤ (clamp low high x).toRat ∧
      (clamp low high x).toRat ≤ high.toRat := by
  unfold clamp
  dsimp only
  rw [less_eq_of_isFinite hx hh]
  by_cases hcap : x.toRat < high.toRat
  · rw [decide_eq_true hcap, if_pos rfl, less_eq_of_isFinite hl hx]
    split_ifs with hlow
    · exact ⟨hx, (of_decide_eq_true hlow).le, hcap.le⟩
    · exact ⟨hl, le_rfl, h⟩
  · rw [decide_eq_false hcap, if_neg Bool.false_ne_true, less_eq_of_isFinite hl hh]
    split_ifs
    · exact ⟨hh, h, le_rfl⟩
    · exact ⟨hl, le_rfl, h⟩

/-- Limited to a range from zero on, a finite number is within the end of the range. -/
theorem within_clamp {limit : ℕ} (hl : IsExact limit) {x : Binary64} (hx : x.isFinite = true) :
    (clamp (ofRat 0) (ofRat limit) x).Within limit := by
  have hrange : (ofRat 0).toRat ≤ (ofRat limit).toRat := by
    rw [toRat_ofRat isExact_zero, toRat_ofRat hl]
    exact Nat.cast_nonneg limit
  obtain ⟨hfinite, hlow, hhigh⟩ :=
    clamp_mem (isFinite_ofRat isExact_zero) (isFinite_ofRat hl) hrange hx
  rw [toRat_ofRat isExact_zero] at hlow
  rw [toRat_ofRat hl] at hhigh
  exact ⟨hfinite, hlow, hhigh⟩

end TrioScore.Binary64
