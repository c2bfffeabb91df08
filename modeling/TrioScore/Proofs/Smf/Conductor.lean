import TrioScore.Proofs.Binary64.Product
import TrioScore.Proofs.Smf.Sorted
import Mathlib.Algebra.Order.Round

/-!
# The conductor

The first track of a file has the meter and the tempo. A tempo is written in whole microseconds of a
quarter beat, which tell the tempo again.
-/

namespace TrioScore.Smf
open Binary64

/-- A tempo in range against the microseconds of its quarter beat. -/
theorem microseconds_bounds {tempo : ℤ} (ht : 40 ≤ tempo ∧ tempo ≤ 220) :
    (60000000 / tempo) * tempo ≤ 60000000 ∧ 60000000 < (60000000 / tempo + 1) * tempo ∧
      272727 ≤ 60000000 / tempo ∧ 60000000 / tempo ≤ 1500000 := by
  obtain ⟨hlow, hhigh⟩ := ht
  refine ⟨Int.ediv_mul_le _ (by omega), Int.lt_ediv_add_one_mul_self _ (by omega), ?_, ?_⟩
  · rw [Int.le_ediv_iff_mul_le (by omega)]
    omega
  · apply Int.ediv_le_of_le_mul (by omega)
    omega

/-- The microseconds of a quarter beat are a whole number: rounding does not reach the next one. -/
theorem microseconds_eq {tempo : ℤ} (ht : 40 ≤ tempo ∧ tempo ≤ 220) :
    microseconds tempo = .ok (60000000 / tempo) := by
  obtain ⟨hle, hlt, hlow, hhigh⟩ := microseconds_bounds ht
  generalize 60000000 / tempo = n at *
  have htempo : (0 : ℚ) < tempo := by exact_mod_cast (by omega : 0 < tempo)
  have hn : IsExact (n : ℚ) := by
    apply isExact_int
    rw [abs_of_nonneg (by omega)]
    exact hhigh.trans (by decide)
  have hnext : IsExact ((n : ℚ) + 255 / 256) := by
    have hm : |256 * n + 255| ≤ 2 * (octaveSize : ℤ) := by
      rw [abs_of_nonneg (by omega)]
      exact (by omega : 256 * n + 255 ≤ 384000255).trans (by decide)
    have hq : ((256 * n + 255 : ℤ) : ℚ) / 2 ^ 8 = n + 255 / 256 := by
      push_cast
      ring
    exact hq ▸ isExact_div_two_pow hm (by decide)
  have hquotient : (n : ℚ) ≤ 60000000 / tempo ∧ 60000000 / (tempo : ℚ) ≤ n + 255 / 256 := by
    have hleq : (n : ℚ) * tempo ≤ 60000000 := by exact_mod_cast hle
    have hltq : (60000000 : ℚ) ≤ (n + 1) * tempo - 1 := by
      exact_mod_cast (by omega : (60000000 : ℤ) ≤ (n + 1) * tempo - 1)
    have htempo' : (tempo : ℚ) ≤ 220 := by exact_mod_cast ht.2
    rw [le_div_iff₀ htempo, div_le_iff₀ htempo]
    constructor <;> linarith
  obtain ⟨hfinite, hx, hx'⟩ := ofRat_bounds hn hnext hquotient.1 hquotient.2
  have hpos : (0 : ℚ) < n := by exact_mod_cast (by omega : 0 < n)
  have hfloor : ⌊(ofRat (60000000 / tempo)).toRat⌋ = n := by
    rw [Int.floor_eq_iff]
    constructor <;> linarith
  rw [microseconds, if_neg (by omega), ← ofRat_toRat hfinite (by linarith),
    truncate_ofRat (isExact_toRat _) (by linarith), hfloor]

/-- A whole number of microseconds is near enough to tell the tempo. -/
theorem round_div_microseconds {tempo : ℤ} (ht : 40 ≤ tempo ∧ tempo ≤ 220) :
    round ((60000000 : ℚ) / (60000000 / tempo : ℤ)) = tempo := by
  obtain ⟨hle, hlt, hlow, -⟩ := microseconds_bounds ht
  generalize 60000000 / tempo = n at *
  have hn : (272727 : ℚ) ≤ n := by exact_mod_cast hlow
  have hleq : (n : ℚ) * tempo ≤ 60000000 := by exact_mod_cast hle
  have hltq : (60000000 : ℚ) < (n + 1) * tempo := by exact_mod_cast hlt
  have htempo : (tempo : ℚ) ≤ 220 := by exact_mod_cast ht.2
  rw [round_eq, Int.floor_eq_iff, ← sub_le_iff_le_add, ← lt_sub_iff_add_lt,
    le_div_iff₀ (by linarith), div_lt_iff₀ (by linarith)]
  constructor <;> linarith

def conductorEvents (tempo : ℤ) (meter : Meter) : List (ℕ × TrackEvent) :=
  [(0, .timeSignature meter.numerator.toNat meter.denominator.toNat 24 8),
    (0, .tempo (60000000 / tempo).toNat)]

theorem conductor_eq {tempo : ℤ} (ht : 40 ≤ tempo ∧ tempo ≤ 220) (meter : Meter) :
    conductor tempo meter = .ok [⟨0, .tempo (60000000 / tempo)⟩,
      ⟨0, .timeSignature meter.numerator (denominatorPower meter.denominator)⟩] := by
  rw [conductor, microseconds_eq ht]
  rfl

theorem two_pow_denominatorPower {meter : Meter} (h : meter.InRange) :
    0 ≤ denominatorPower meter.denominator ∧ denominatorPower meter.denominator < 256 ∧
      2 ^ (denominatorPower meter.denominator).toNat = meter.denominator.toNat := by
  rcases h.denominator_mem with h | h | h | h
  all_goals
    rw [h]
    decide

theorem events?_conductor {tempo : ℤ} (ht : 40 ≤ tempo ∧ tempo ≤ 220) {meter : Meter}
    (hm : meter.InRange) {p : Bytes} (hp : conductor tempo meter >>= payload = .ok p) :
    ∃ last, Reader.events? 0 none p =
      some (conductorEvents tempo meter ++ [(last, .endOfTrack)]) := by
  obtain ⟨-, -, hlow, hhigh⟩ := microseconds_bounds ht
  obtain ⟨hpower, hpower', hdenominator⟩ := two_pow_denominatorPower hm
  have hnumerator := hm.numerator_mem
  rw [conductor_eq ht, ok_bind] at hp
  have hfits : ∀ m ∈ ([⟨0, .tempo (60000000 / tempo)⟩,
      ⟨0, .timeSignature meter.numerator (denominatorPower meter.denominator)⟩] : List Timed),
        m.message.Fits ∧ 0 ≤ m.tick := by
    rw [List.forall_mem_cons, List.forall_mem_singleton]
    exact ⟨⟨⟨by omega, by omega⟩, le_rfl⟩, ⟨⟨⟨by omega, by omega⟩, hpower, hpower'⟩, le_rfl⟩⟩
  have hdense : Timed.Dense (128 ^ 4 - 1) 0 [⟨0, .tempo (60000000 / tempo)⟩,
      ⟨0, .timeSignature meter.numerator (denominatorPower meter.denominator)⟩] := by
    intro tick htick hlater
    obtain ⟨m, hm, hlater⟩ := hlater
    simp only [List.mem_cons, List.not_mem_nil, or_false] at hm
    rcases hm with rfl | rfl <;> exact absurd hlater htick.not_gt
  obtain ⟨last, hread⟩ := events?_payload hfits hdense hp
  refine ⟨last, ?_⟩
  rw [hread, conductorEvents, ← hdenominator]
  rfl

end TrioScore.Smf
