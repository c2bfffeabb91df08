import TrioScore.Meter
import TrioScore.Proofs.Binary64.Exact
import TrioScore.Proofs.Faults

/-!
# Pulses of a measure

A measure of any finite length has 1 to 16 whole pulses.
-/

namespace TrioScore

theorem Number.nearestInt_of_isFinite {x : Binary64} (hx : x.isFinite = true) :
    (Number.real x).nearestInt = .ok (x + Binary64.half).toRat.floor := by
  have hsum := Binary64.isFinite_add_half hx
  change (x + Binary64.half).floor = _
  match x + Binary64.half, hsum with
  | .finite _ _, _ => rfl

/-- An integer of moderate size is still exact with a half more. -/
theorem Binary64.isExact_add_half {c : ℤ} (hc : |c| < octaveSize) : IsExact (c + 1 / 2) := by
  have hodd : |2 * c + 1| ≤ 2 * octaveSize := by
    rw [abs_lt] at hc
    rw [abs_le]
    omega
  have h := isExact_div_two_pow (k := 1) hodd (by decide)
  have he : ((2 * c + 1 : ℤ) : ℚ) / 2 ^ 1 = c + 1 / 2 := by
    push_cast
    ring
  rwa [he] at h

section Floor
variable {x : Binary64} (hx : x.isFinite = true)
include hx

/-- Rounding to an integer does not go below an integer, if a half more than that is exact. -/
theorem Number.le_floor_add_half {a : ℤ} (ha : |a| < octaveSize) (h : a ≤ x.toRat) :
    a ≤ (x + Binary64.half).toRat.floor := by
  have hfinite := Binary64.isFinite_add_half hx
  rw [Binary64.add_half_eq hx] at hfinite ⊢
  have hlow := Binary64.le_toRat_ofRat (Binary64.isExact_add_half ha) (by linarith) hfinite
  rw [Rat.le_floor_iff]
  linarith

/-- Nor does it go above one. -/
theorem Number.floor_add_half_le {b : ℤ} (hb : |b| < octaveSize) (h : x.toRat ≤ b) :
    (x + Binary64.half).toRat.floor ≤ b := by
  have hlow := (abs_le.mp (Binary64.abs_toRat_le_greatest x)).1
  have hhigh := (Binary64.ofRat_bounds (q := x.toRat + 1 / 2)
    (Binary64.isExact_toRat Binary64.greatest).neg (Binary64.isExact_add_half hb) (by linarith)
    (by linarith)).2.2
  have hlt : (x + Binary64.half).toRat.floor < b + 1 := by
    rw [Rat.floor_lt_iff, Binary64.add_half_eq hx]
    push_cast
    linarith
  omega

theorem Number.nearestInt_mem {a b : ℤ} (ha : |a| < octaveSize) (hb : |b| < octaveSize)
    (hax : a ≤ x.toRat) (hxb : x.toRat ≤ b) :
    ∃ n : ℤ, (Number.real x).nearestInt = .ok n ∧ a ≤ n ∧ n ≤ b :=
  ⟨_, nearestInt_of_isFinite hx, le_floor_add_half hx ha hax, floor_add_half_le hx hb hxb⟩

end Floor

theorem Meter.pulses_of_isFinite {x : Binary64} (hx : x.isFinite = true) :
    ∃ p : ℕ, pulses (.real x) = .ok p ∧ 1 ≤ p ∧ p ≤ 16 := by
  have hn := Number.nearestInt_of_isFinite hx
  set n := (x + Binary64.half).toRat.floor
  have hlow := le_limit 1 16 n
  have hhigh := limit_le (by decide : (1 : ℤ) ≤ 16) n
  refine ⟨(limit 1 16 n).toNat, ?_, by omega, by omega⟩
  have hcast : (((limit 1 16 n).toNat : ℕ) : ℤ) = limit 1 16 n := by omega
  rw [pulses, hn, hcast]
  rfl

end TrioScore
