import TrioScore.Meter
import TrioScore.Proofs.Binary64.Product
import Mathlib.Tactic.IntervalCases
import Mathlib.Tactic.Linarith

/-!
# Meters in range

Every meter that a text writes has a numerator of 1 to 12 and a denominator of 2, 4, 8 or 16. Such a
meter is read back from its writing, and its measure is a number of sixteenths.
-/

namespace TrioScore.Meter

/-- The meters that are played. -/
structure InRange (meter : Meter) : Prop where
  numerator_mem : 1 ≤ meter.numerator ∧ meter.numerator ≤ 12
  denominator_mem : meter.denominator = 2 ∨ meter.denominator = 4 ∨ meter.denominator = 8 ∨
    meter.denominator = 16

theorem inRange_common : common.InRange := ⟨by decide, by decide⟩

theorem inRange_ofValues (n d : ℕ) : (ofValues n d).InRange := by
  refine ⟨⟨le_limit 1 12 n, limit_le (by decide) n⟩, ?_⟩
  simp only [ofValues]
  split_ifs with h
  · omega
  · exact .inr (.inl rfl)

theorem inRange_of_parse {t : Text} {meter : Meter} (h : parse t = .ok meter) : meter.InRange := by
  unfold parse at h
  split at h
  · cases h
    exact inRange_common
  · next numerator denominator _ =>
    cases hn : numeralValue numerator with
    | error fault => simp [hn, bind, Except.bind] at h
    | ok n =>
      cases hd : numeralValue denominator with
      | error fault => simp [hn, hd, bind, Except.bind] at h
      | ok d =>
        simp only [hn, hd, bind, Except.bind, pure, Except.pure, Except.ok.injEq] at h
        exact h ▸ inRange_ofValues n d

theorem parse_toText {meter : Meter} (h : meter.InRange) : parse meter.toText = .ok meter := by
  obtain ⟨n, d⟩ := meter
  obtain ⟨⟨h₁, h₂⟩, hd⟩ := h
  simp only at h₁ h₂ hd
  rcases hd with rfl | rfl | rfl | rfl <;> interval_cases n <;> rfl

/-- The part of a whole that a denominator names is a number of quarters of a beat. -/
theorem exists_four_div {meter : Meter} (h : meter.InRange) : ∃ k : ℤ, 1 ≤ k ∧ k ≤ 8 ∧
    (4 / meter.denominator : ℚ) = k / 4 := by
  obtain ⟨k, h₁, h₂, hk⟩ : ∃ k : ℤ, 1 ≤ k ∧ k ≤ 8 ∧ k * meter.denominator = 16 := by
    rcases h.denominator_mem with hd | hd | hd | hd <;> rw [hd]
    exacts [⟨8, by decide⟩, ⟨4, by decide⟩, ⟨2, by decide⟩, ⟨1, by decide⟩]
  have hkq : (k : ℚ) * meter.denominator = 16 := by exact_mod_cast hk
  have hd0 : (meter.denominator : ℚ) ≠ 0 := fun h0 => by simp [h0] at hkq
  refine ⟨k, h₁, h₂, ?_⟩
  rw [div_eq_div_iff hd0 four_ne_zero]
  linarith

/-- A measure in range is a whole number of quarter beats, halves or quarters of one. -/
theorem exists_quarters {meter : Meter} (h : meter.InRange) : ∃ m : ℤ, 1 ≤ m ∧ m ≤ 96 ∧
    ((4 * meter.numerator : ℤ) / meter.denominator : ℚ) = m / 4 := by
  obtain ⟨h₁, h₂⟩ := h.numerator_mem
  obtain ⟨k, hk₁, hk₂, hk⟩ := exists_four_div h
  have hlow : 1 * 1 ≤ meter.numerator * k := mul_le_mul h₁ hk₁ (by decide) (by omega)
  have hhigh : meter.numerator * k ≤ 12 * 8 := mul_le_mul h₂ hk₂ (by omega) (by decide)
  refine ⟨meter.numerator * k, by omega, by omega, ?_⟩
  push_cast
  rw [mul_comm, mul_div_assoc, hk, mul_div_assoc]

theorem isExact_quarters_of_mem {m : ℤ} (h₁ : 1 ≤ m) (h₂ : m ≤ 96) :
    Binary64.IsExact ((m : ℚ) / 4) := by
  refine Binary64.isExact_quarters ?_
  rw [abs_of_pos (by omega)]
  exact h₂.trans (by decide)

theorem quarterBeats_eq {meter : Meter} (h : meter.InRange) :
    ∃ m : ℤ, 1 ≤ m ∧ m ≤ 96 ∧ meter.quarterBeats = .ofRat (m / 4) := by
  obtain ⟨m, h₁, h₂, hm⟩ := exists_quarters h
  exact ⟨m, h₁, h₂, congrArg Binary64.ofRat hm⟩

theorem isExact_quarterBeats {meter : Meter} (h : meter.InRange) :
    Binary64.IsExact ((4 * meter.numerator : ℤ) / meter.denominator) := by
  obtain ⟨m, h₁, h₂, hm⟩ := exists_quarters h
  rw [hm]
  exact isExact_quarters_of_mem h₁ h₂

theorem exists_sixteenths {meter : Meter} (h : meter.InRange) : ∃ m : ℕ, 1 ≤ m ∧ m ≤ 96 ∧
    meter.quarterBeats = .ofRat ((4 * m : ℕ) / 16) ∧
      meter.quarterBeats / .ofRat 4 = .ofRat (m / 16) := by
  obtain ⟨m, h₁, h₂, hbeats⟩ := quarterBeats_eq h
  lift m to ℕ using by omega
  refine ⟨m, by omega, by omega, ?_, ?_⟩
  · rw [hbeats]
    congr 1
    push_cast
    ring
  · have hfour : Binary64.IsExact 4 := by simpa using Binary64.isExact_int (m := 4) (by decide)
    rw [hbeats, Binary64.ofRat_div_ofRat (isExact_quarters_of_mem h₁ h₂) hfour (by positivity)
      four_pos]
    congr 1
    push_cast
    ring

theorem isFinite_quarterBeats {meter : Meter} (h : meter.InRange) :
    meter.quarterBeats.isFinite = true :=
  Binary64.isFinite_ofRat (isExact_quarterBeats h)

end TrioScore.Meter
