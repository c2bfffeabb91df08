import TrioScore.Binary64.Basic
import Mathlib.Algebra.Order.Field.Power
import Mathlib.Algebra.Order.Field.Rat
import Mathlib.Tactic.Linarith
import Mathlib.Tactic.NormNum
import Mathlib.Tactic.Positivity
import Mathlib.Tactic.Ring

/-!
# The grid of magnitudes

The ranks run through octaves: the ranks of one octave are equally spaced, and the spacing doubles
from one octave to the next. A magnitude grows by its spacing from each rank to the next, so ranks
and magnitudes are in the same order. The dyadic numbers of at most 53 bits are on the grid.
-/

namespace TrioScore

theorem powerOf_eq_zpow (base : ℕ) (e : ℤ) : powerOf base e = (base : ℚ) ^ e := by
  cases e with
  | ofNat n =>
    have h : powerOf base (.ofNat n) = ((base ^ n : ℕ) : ℚ) := rfl
    rw [h, Int.ofNat_eq_natCast, zpow_natCast, Nat.cast_pow]
  | negSucc n =>
    have h : powerOf base (.negSucc n) = mkRat 1 (base ^ (n + 1)) := rfl
    rw [h, Rat.mkRat_eq_div, zpow_negSucc, Nat.cast_pow, Int.cast_one, one_div]

namespace Binary64

theorem two_zpow_pos (e : ℤ) : (0 : ℚ) < 2 ^ e := zpow_pos two_pos e

theorem cast_octaveSize : (octaveSize : ℚ) = 2 ^ (52 : ℤ) := by norm_num [octaveSize]

theorem cast_two_mul_octaveSize : ((2 * octaveSize : ℕ) : ℚ) = 2 ^ (53 : ℤ) := by
  norm_num [octaveSize]

/-- In the first octave the spacing is the least. -/
theorem magnitude_of_lt {rank : ℕ} (h : rank < octaveSize) :
    magnitude rank = rank * (2 : ℚ) ^ (-1074 : ℤ) := by
  simp only [magnitude, significand, spacing, if_pos h, powerOf_eq_zpow, Nat.cast_ofNat]

theorem magnitude_of_le {rank : ℕ} (h : octaveSize ≤ rank) :
    magnitude rank = ((rank % octaveSize + octaveSize : ℕ) : ℚ) *
      (2 : ℚ) ^ (((rank / octaveSize : ℕ) : ℤ) - 1075) := by
  simp only [magnitude, significand, spacing, if_neg h.not_gt, powerOf_eq_zpow, Nat.cast_ofNat]

/-- Within the octaves of one spacing, ranks and magnitudes are proportional. Above the first
octave the bound `octaveSize ≤ s` keeps `s` from belonging to a finer spacing. -/
theorem magnitude_octave {n s : ℕ} (hs : s ≤ 2 * octaveSize) (hn : n = 0 ∨ octaveSize ≤ s) :
    magnitude (n * octaveSize + s) = s * (2 : ℚ) ^ ((n : ℤ) - 1074) := by
  rcases lt_or_ge s octaveSize with hlt | hge
  · obtain rfl : n = 0 := hn.resolve_right hlt.not_ge
    rw [zero_mul, zero_add, magnitude_of_lt hlt]
    norm_num
  · rw [magnitude_of_le (hge.trans (Nat.le_add_left s _))]
    rcases hs.lt_or_eq with hlt | rfl
    · have hm : (n * octaveSize + s) % octaveSize + octaveSize = s := by
        unfold octaveSize at *
        omega
      have hd : (n * octaveSize + s) / octaveSize = n + 1 := by
        unfold octaveSize at *
        omega
      have he : ((n + 1 : ℕ) : ℤ) - 1075 = (n : ℤ) - 1074 := by push_cast; ring
      rw [hm, hd, he]
    · have hm : (n * octaveSize + 2 * octaveSize) % octaveSize = 0 := by
        unfold octaveSize
        omega
      have hd : (n * octaveSize + 2 * octaveSize) / octaveSize = n + 2 := by
        unfold octaveSize
        omega
      have he : ((n + 2 : ℕ) : ℤ) - 1075 = ((n : ℤ) - 1074) + 1 := by push_cast; ring
      rw [hm, hd, he, zpow_add_one₀ two_ne_zero]
      push_cast
      ring

theorem exists_octave (rank : ℕ) : ∃ n s, rank = n * octaveSize + s ∧ s < 2 * octaveSize ∧
    (n = 0 ∨ octaveSize ≤ s) := by
  refine ⟨rank / octaveSize - 1, rank - (rank / octaveSize - 1) * octaveSize, ?_⟩
  unfold octaveSize
  omega

theorem magnitude_lt_succ (rank : ℕ) : magnitude rank < magnitude (rank + 1) := by
  obtain ⟨n, s, rfl, hs, hn⟩ := exists_octave rank
  rw [magnitude_octave hs.le hn, Nat.add_assoc,
    magnitude_octave (Nat.succ_le_of_lt hs) (hn.imp_right fun h => h.trans (Nat.le_succ s))]
  have h := two_zpow_pos ((n : ℤ) - 1074)
  push_cast
  nlinarith

theorem magnitude_strictMono : StrictMono magnitude := strictMono_nat_of_lt_succ magnitude_lt_succ

@[simp] theorem magnitude_zero : magnitude 0 = 0 := by
  simp [magnitude, significand, octaveSize]

theorem magnitude_nonneg (rank : ℕ) : 0 ≤ magnitude rank := by
  rw [← magnitude_zero]
  exact magnitude_strictMono.monotone rank.zero_le

/-- Significands of at most 53 bits are on the grid at every spacing. -/
theorem exists_magnitude_eq (n : ℕ) {m : ℕ} (hm : m ≤ 2 * octaveSize) :
    ∃ rank, magnitude rank = m * (2 : ℚ) ^ ((n : ℤ) - 1074) := by
  induction n generalizing m with
  | zero => exact ⟨0 * octaveSize + m, magnitude_octave hm (.inl rfl)⟩
  | succ n ih =>
    rcases le_total octaveSize m with h | h
    · exact ⟨(n + 1) * octaveSize + m, magnitude_octave hm (.inr h)⟩
    · obtain ⟨rank, hr⟩ := ih (Nat.mul_le_mul_left 2 h)
      refine ⟨rank, ?_⟩
      have he : ((n + 1 : ℕ) : ℤ) - 1074 = ((n : ℤ) - 1074) + 1 := by push_cast; ring
      rw [hr, he, zpow_add_one₀ two_ne_zero]
      push_cast
      ring

theorem magnitude_rankCount : magnitude rankCount = (2 : ℚ) ^ (1024 : ℤ) := by
  have h : rankCount = 2045 * octaveSize + 2 * octaveSize := by decide
  rw [h, magnitude_octave le_rfl (.inr (by decide)), cast_two_mul_octaveSize,
    ← zpow_add₀ two_ne_zero]
  rfl

theorem lt_rankCount {rank : ℕ} (h : magnitude rank < (2 : ℚ) ^ (1024 : ℤ)) : rank < rankCount := by
  rw [← magnitude_rankCount] at h
  exact magnitude_strictMono.lt_iff_lt.mp h

end Binary64
end TrioScore
