import TrioScore.Decimal.Shortest
import TrioScore.Proofs.Binary64.Rounding
import Mathlib.Data.Nat.Prime.Pow

/-!
# Reading decimals

Reading a decimal is one rounding of its exact value, so two decimals of one value are read as the
same number. The shortest decimal of a rank is read as that rank: each candidate has been tried, and
the exact decimal behind them has the value itself.
-/

namespace TrioScore

namespace Binary64

theorem ofMagnitude_zero (negative : Bool) : ofMagnitude negative 0 = zero negative := rfl

theorem ofMagnitude_of_large (negative : Bool) {q : ℚ} (h : (10 : ℚ) ^ 400 ≤ q) :
    ofMagnitude negative q = infinity negative := by
  have hpow : magnitude rankCount ≤ q := by
    have hten : 2 ^ 1024 ≤ 10 ^ 400 := by decide +kernel
    rw [magnitude_rankCount]
    exact le_trans (by exact_mod_cast hten) h
  have hrank : rankCount ≤ rankAt q := by
    rw [← rankAt_magnitude rankCount]
    exact rankAt_mono hpow
  rw [ofMagnitude, dif_neg hrank.not_gt]

theorem ofMagnitude_of_small (negative : Bool) {q : ℚ} (h : q ≤ mkRat 1 (10 ^ 331)) :
    ofMagnitude negative q = zero negative := by
  have hzero : rankAt (mkRat 1 (10 ^ 331)) = 0 := by decide +kernel
  have hrank : rankAt q = 0 := Nat.le_zero.mp (hzero ▸ rankAt_mono h)
  simp only [ofMagnitude, hrank]
  rfl

/-- A number of so many binary digits has at least a third as many decimal ones. -/
theorem lt_ten_pow_log2 (n : ℕ) : n < 10 ^ (n.log2 / 3 + 1) :=
  calc
    n < 2 ^ (n.log2 + 1) := Nat.lt_log2_self
    _ ≤ 2 ^ (3 * (n.log2 / 3 + 1)) := Nat.pow_le_pow_right two_pos (by omega)
    _ = 8 ^ (n.log2 / 3 + 1) := by rw [pow_mul]; norm_num
    _ ≤ 10 ^ (n.log2 / 3 + 1) := Nat.pow_le_pow_left (by norm_num) _

/-- A decimal is read by rounding its value once, at the ends of the range as well. -/
theorem ofDecimal_eq (negative : Bool) (n : ℕ) (e : ℤ) :
    ofDecimal negative n e = ofMagnitude negative (n * (10 : ℚ) ^ e) := by
  have hten : powerOf 10 e = (10 : ℚ) ^ e := by exact_mod_cast powerOf_eq_zpow 10 e
  unfold ofDecimal
  split_ifs with hn hlarge hsmall
  · rw [hn, Nat.cast_zero, zero_mul, ofMagnitude_zero]
  · have hone : (1 : ℚ) ≤ n := by exact_mod_cast Nat.one_le_iff_ne_zero.mpr hn
    have hpow : (10 : ℚ) ^ 400 ≤ (10 : ℚ) ^ e := by
      rw [← zpow_natCast]
      exact zpow_le_zpow_right₀ (by norm_num) (by exact_mod_cast hlarge.le)
    rw [ofMagnitude_of_large negative (hpow.trans (le_mul_of_one_le_left (by positivity) hone))]
  · have hlt : (n : ℚ) ≤ (10 : ℚ) ^ ((n.log2 / 3 + 1 : ℕ) : ℤ) := by
      rw [zpow_natCast]
      exact_mod_cast (lt_ten_pow_log2 n).le
    have hle : n * (10 : ℚ) ^ e ≤ mkRat 1 (10 ^ 331) :=
      calc
        n * (10 : ℚ) ^ e ≤ (10 : ℚ) ^ ((n.log2 / 3 + 1 : ℕ) : ℤ) * (10 : ℚ) ^ e :=
          mul_le_mul_of_nonneg_right hlt (by positivity)
        _ = (10 : ℚ) ^ (((n.log2 / 3 + 1 : ℕ) : ℤ) + e) := (zpow_add₀ (by norm_num) _ _).symm
        _ ≤ (10 : ℚ) ^ (-331 : ℤ) := zpow_le_zpow_right₀ (by norm_num) (by omega)
        _ = mkRat 1 (10 ^ 331) := by rw [Rat.mkRat_eq_div]; norm_num
    rw [ofMagnitude_of_small negative hle]
  · rw [hten]

end Binary64

namespace Decimal

theorem toRat_eq (d : Decimal) : d.toRat = d.coefficient * (10 : ℚ) ^ d.exponent := by
  rw [toRat, powerOf_eq_zpow]
  norm_num

theorem ofDecimal_eq_ofMagnitude (negative : Bool) (d : Decimal) :
    Binary64.ofDecimal negative d.coefficient d.exponent = .ofMagnitude negative d.toRat := by
  rw [Binary64.ofDecimal_eq, toRat_eq]

theorem readsAs_iff {rank : Fin rankCount} {d : Decimal} :
    readsAs rank d = true ↔ Binary64.rankAt d.toRat = rank := by
  rw [readsAs, beq_iff_eq, ofDecimal_eq_ofMagnitude, Binary64.ofMagnitude]
  split_ifs with h
  · simp only [Binary64.finite.injEq, true_and, Fin.ext_iff]
  · have := rank.isLt
    simp only [false_iff]
    omega

/-- The rounded quotient is one of the two integers around the quotient. -/
theorem roundQuotient_eq_or (n d : ℕ) :
    roundQuotient n d = n / d ∨ roundQuotient n d = n / d + 1 := by
  unfold roundQuotient
  dsimp only
  split_ifs <;> omega

theorem floor_toNat {q : ℚ} (h : 0 ≤ q) : q.floor.toNat = q.num.toNat / q.den := by
  obtain ⟨n, hn⟩ := Int.eq_ofNat_of_zero_le (Rat.num_nonneg.mpr h)
  rw [Rat.floor_def, hn]
  rfl

/-- The nearer of two neighbours is one of them. -/
theorem readsAs_close {rank : Fin rankCount} {e : ℤ} {steps : ℚ} (h : 0 ≤ steps)
    (hbelow : readsAs rank ⟨steps.floor.toNat, e⟩ = true)
    (habove : readsAs rank ⟨steps.floor.toNat + 1, e⟩ = true) :
    readsAs rank ⟨roundQuotient steps.num.toNat steps.den, e⟩ = true := by
  rw [floor_toNat h] at hbelow habove
  rcases roundQuotient_eq_or steps.num.toNat steps.den with hclose | hclose
  · rwa [hclose]
  · rwa [hclose]

/-- Whatever candidate is taken, it has been tried. -/
theorem readsAs_of_readBack? {rank : Fin rankCount} {count : ℕ} {d : Decimal}
    (h : readBack? rank count = some d) : readsAs rank d = true := by
  unfold readBack? at h
  dsimp only at h
  split at h
  case h_1 hbelow habove =>
    refine Option.some.inj h ▸ readsAs_close (mul_nonneg (Binary64.magnitude_nonneg rank) ?_)
      hbelow habove
    rw [powerOf_eq_zpow]
    positivity
  case h_2 hbelow _ => exact Option.some.inj h ▸ hbelow
  case h_3 _ habove => exact Option.some.inj h ▸ habove
  case h_4 => cases h

theorem exists_den_magnitude (rank : ℕ) : ∃ twos, (Binary64.magnitude rank).den = 2 ^ twos := by
  obtain ⟨n, s, rfl, hs, hn⟩ := Binary64.exists_octave rank
  have hq : Binary64.magnitude (n * octaveSize + s) =
      Rat.divInt (s * 2 ^ n : ℕ) (2 ^ 1074 : ℕ) := by
    rw [Binary64.magnitude_octave hs.le hn, Rat.divInt_eq_div, zpow_sub₀ two_ne_zero,
      zpow_natCast, zpow_ofNat, ← mul_div_assoc, Int.cast_natCast, Int.cast_natCast,
      Nat.cast_mul, Nat.cast_pow, Nat.cast_pow, Nat.cast_ofNat]
  have hdvd : (Binary64.magnitude (n * octaveSize + s)).den ∣ 2 ^ 1074 := by
    rw [hq]
    exact Int.natCast_dvd_natCast.mp (Rat.den_dvd _ _)
  obtain ⟨twos, -, htwos⟩ := (Nat.dvd_prime_pow Nat.prime_two).mp hdvd
  exact ⟨twos, htwos⟩

theorem toRat_exact (rank : Fin rankCount) : (exact rank).toRat = Binary64.magnitude rank := by
  obtain ⟨twos, htwos⟩ := exists_den_magnitude rank
  have hnum : 0 ≤ (Binary64.magnitude rank).num :=
    Rat.num_nonneg.mpr (Binary64.magnitude_nonneg rank)
  have hcast : (((Binary64.magnitude rank).num.toNat : ℕ) : ℚ) = (Binary64.magnitude rank).num := by
    exact_mod_cast Int.toNat_of_nonneg hnum
  have hlog : (Binary64.magnitude rank).den.log2 = twos := by rw [htwos, Nat.log2_two_pow]
  have hten : (10 : ℚ) ^ twos = 5 ^ twos * 2 ^ twos := by rw [← mul_pow]; norm_num
  have hfive : ((Nat.pow 5 twos : ℕ) : ℚ) = 5 ^ twos := by exact_mod_cast rfl
  rw [toRat_eq]
  simp only [exact, hlog]
  calc
    (((Binary64.magnitude rank).num.toNat * Nat.pow 5 twos : ℕ) : ℚ) * 10 ^ (-(twos : ℤ))
      = (Binary64.magnitude rank).num * 5 ^ twos / (5 ^ twos * 2 ^ twos) := by
        rw [Nat.cast_mul, hcast, hfive, zpow_neg, zpow_natCast, hten, div_eq_mul_inv]
    _ = (Binary64.magnitude rank).num / 2 ^ twos := by
        rw [mul_comm, mul_div_mul_left _ _ (by positivity)]
    _ = (Binary64.magnitude rank).num / (Binary64.magnitude rank).den := by rw [htwos]; norm_cast
    _ = Binary64.magnitude rank := Rat.num_div_den _

theorem rankAt_shortest (rank : Fin rankCount) : Binary64.rankAt (shortest rank).toRat = rank := by
  unfold shortest
  split_ifs with hzero
  · rw [hzero, toRat_eq, Nat.cast_zero, zero_mul]
    rfl
  · cases hfound : (List.range' 1 17).findSome? (readBack? rank) with
    | none => rw [Option.getD_none, toRat_exact, Binary64.rankAt_magnitude]
    | some d =>
      obtain ⟨count, -, hd⟩ := List.exists_of_findSome?_eq_some hfound
      exact readsAs_iff.mp (readsAs_of_readBack? hd)

theorem ofMagnitude_shortest (negative : Bool) (rank : Fin rankCount) :
    Binary64.ofMagnitude negative (shortest rank).toRat = .finite negative rank := by
  simp only [Binary64.ofMagnitude, rankAt_shortest, Fin.is_lt, dif_pos]

end Decimal
end TrioScore
