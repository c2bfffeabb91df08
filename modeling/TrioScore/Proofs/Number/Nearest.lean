import TrioScore.Proofs.Binary64.Monotone
import TrioScore.Proofs.Piece.Rounded

/-!
# Nearest integers

The nearest integer to a number is that to its nearest binary64, if that is finite. It is the exact
one, halves up, for a value of a binary64 whose sum with one half is not rounded up to an integer.
An integer without a binary64 of its own is rounded to the nearest one, which is even. Limited to a
data byte all of these agree with the exact nearest integer but one: the number just below one half.
-/

namespace TrioScore

namespace Binary64

/-- The least positive integer without a finite binary64, half a step beyond the greatest one. -/
def beyondGreatest : ℤ := 2 ^ 1024 - 2 ^ 970

theorem abs_toRat_lt_beyondGreatest (x : Binary64) : |x.toRat| < beyondGreatest :=
  (abs_toRat_le_greatest x).trans_lt (by decide +kernel)

theorem isFinite_ofRat_intCast_iff_lt_beyondGreatest {n : ℤ} :
    (ofRat n).isFinite = true ↔ |(n : ℚ)| < beyondGreatest := by
  rw [isFinite_ofRat_intCast_iff, ← Int.cast_abs, Int.cast_lt]
  rfl

theorem IsExact.abs_lt_beyondGreatest {q : ℚ} (h : IsExact q) : |q| < beyondGreatest :=
  toRat_ofRat h ▸ abs_toRat_lt_beyondGreatest (ofRat q)

/-- An integer without a binary64 of its own has an even nearest one. -/
theorem exists_even_of_not_isExact {n : ℤ} (hf : (ofRat n).isFinite = true) (hn : ¬ IsExact n) :
    ∃ m : ℤ, (ofRat n).toRat = m ∧ m % 2 = 0 := by
  have hlarge : 2 * octaveSize ≤ |n| := by
    by_contra! hlt
    exact hn (isExact_int hlt.le)
  have hend : ∀ m : ℤ, |m| = 2 * octaveSize → IsExact (m : ℚ) := fun m hm => isExact_int hm.le
  apply (isExact_toRat (ofRat n)).exists_even
  rw [le_abs']
  rcases le_abs'.mp hlarge with hneg | hpos
  · left
    have hlow := toRat_ofRat_le (hend (-(2 * octaveSize)) (by decide)) (by exact_mod_cast hneg) hf
    rwa [Int.cast_neg] at hlow
  · exact .inr (le_toRat_ofRat (hend (2 * octaveSize) (by decide)) (by exact_mod_cast hpos) hf)

end Binary64

open Binary64

namespace Number
variable {x : Number}

/-- Only integers are beyond the range of binary64, and they are refused. -/
theorem tooLarge_of_le (hrange : (beyondGreatest : ℚ) ≤ |x.toRat|) :
    x.nearestInt = .error .integerTooLarge ∧ x.dataByte = .error .integerTooLarge := by
  cases x with
  | int n =>
    have hn : ¬ (ofRat n).isFinite = true := by
      rwa [isFinite_ofRat_intCast_iff_lt_beyondGreatest, not_lt]
    have hint : ofInt n = .error .integerTooLarge := by rw [ofInt_eq, if_neg hn]
    constructor
    · rw [nearestInt, toBinary64, hint]
      rfl
    · rw [dataByte, checkFinite, hint]
      rfl
  | real x => exact absurd (abs_toRat_lt_beyondGreatest x) hrange.not_gt

theorem lt_of_nearestInt_eq_ok {n : ℤ} (h : x.nearestInt = .ok n) :
    |x.toRat| < beyondGreatest := by
  by_contra hrange
  rw [(tooLarge_of_le (not_lt.mp hrange)).1] at h
  cases h

theorem lt_of_dataByte_eq_ok {n : ℤ} (h : x.dataByte = .ok n) : |x.toRat| < beyondGreatest := by
  by_contra hrange
  rw [(tooLarge_of_le (not_lt.mp hrange)).2] at h
  cases h

section Finite
variable (hx : x.isFinite = true)
include hx

/-- Within the range of binary64 the sum is that of the nearest binary64. -/
theorem nearestInt_of_lt (hrange : |x.toRat| < beyondGreatest) :
    (ofRat x.toRat).isFinite = true ∧ x.nearestInt = .ok ⌊(ofRat x.toRat + half).toRat⌋ := by
  cases x with
  | int n =>
    have hn : (ofRat n).isFinite = true :=
      isFinite_ofRat_intCast_iff_lt_beyondGreatest.mpr hrange
    refine ⟨hn, ?_⟩
    rw [nearestInt, toBinary64, ofInt_eq, if_pos hn]
    exact nearestInt_of_isFinite hn
  | real x =>
    have hexact := isExact_toRat x
    have hf := isFinite_ofRat hexact
    refine ⟨hf, ?_⟩
    rw [nearestInt_of_isFinite hx, toRat, add_half_eq hx, add_half_eq hf, toRat_ofRat hexact]
    rfl

theorem dataByte_eq_map : x.dataByte = limit 0 127 <$> x.nearestInt := by
  rcases lt_or_ge |x.toRat| (beyondGreatest : ℚ) with hrange | hrange
  · have hcheck : x.checkFinite = .ok true := by
      cases x with
      | int n =>
        rw [checkFinite, ofInt_eq, if_pos (isFinite_ofRat_intCast_iff_lt_beyondGreatest.mpr hrange)]
        rfl
      | real x => exact congrArg Except.ok hx
    rw [dataByte, hcheck, ok_bind, if_pos rfl, (nearestInt_of_lt hx hrange).2]
    rfl
  · rw [(tooLarge_of_le hrange).1, (tooLarge_of_le hrange).2]
    rfl

theorem nearestInt_of_not_isExact (hrange : |x.toRat| < beyondGreatest) (h : ¬ IsExact x.toRat) :
    ∃ m : ℤ, (ofRat x.toRat).toRat = m ∧ x.nearestInt = .ok m ∧ m ≠ ⌊x.toRat + 1 / 2⌋ := by
  obtain ⟨hf, hnearest⟩ := nearestInt_of_lt hx hrange
  cases x with
  | int n =>
    obtain ⟨m, hm, heven⟩ := exists_even_of_not_isExact hf h
    have hslip : ¬ SlipsUp (ofRat n).toRat := hm ▸ not_slipsUp_of_even heven
    rw [floor_add_half_of_not_slipsUp hf hslip] at hnearest
    refine ⟨m, hm, ?_, ?_⟩
    · rw [hnearest, toRat, hm, floor_intCast_add_half]
    · rw [toRat, floor_intCast_add_half]
      rintro rfl
      have hexact := isExact_toRat (ofRat m)
      rw [hm] at hexact
      exact h hexact
  | real x => exact absurd (isExact_toRat x) h

section Exact
variable (hexact : IsExact x.toRat)
include hexact

theorem nearestInt_of_not_slipsUp (h : ¬ SlipsUp x.toRat) :
    x.nearestInt = .ok ⌊x.toRat + 1 / 2⌋ := by
  obtain ⟨hf, hnearest⟩ := nearestInt_of_lt hx hexact.abs_lt_beyondGreatest
  have hvalue := toRat_ofRat hexact
  rw [hnearest, floor_add_half_of_not_slipsUp hf (by rwa [hvalue]), hvalue]

theorem nearestInt_of_slipsUp (h : SlipsUp x.toRat) :
    x.nearestInt = .ok (⌊x.toRat + 1 / 2⌋ + 1) := by
  obtain ⟨hf, hnearest⟩ := nearestInt_of_lt hx hexact.abs_lt_beyondGreatest
  have hvalue := toRat_ofRat hexact
  rw [hnearest, floor_add_half_of_slipsUp hf (by rwa [hvalue]), hvalue]

end Exact

theorem nearestInt_eq_iff :
    x.nearestInt = .ok ⌊x.toRat + 1 / 2⌋ ↔ IsExact x.toRat ∧ ¬ SlipsUp x.toRat := by
  refine ⟨fun h => ?_, fun ⟨hexact, hslip⟩ => nearestInt_of_not_slipsUp hx hexact hslip⟩
  by_cases hexact : IsExact x.toRat
  · refine ⟨hexact, fun hslip => ?_⟩
    rw [nearestInt_of_slipsUp hx hexact hslip, Except.ok.injEq] at h
    omega
  · obtain ⟨m, -, hm, hne⟩ := nearestInt_of_not_isExact hx (lt_of_nearestInt_eq_ok h) hexact
    rw [hm, Except.ok.injEq] at h
    exact absurd h hne

theorem dataByte_of_belowHalf (h : x.toRat = belowHalf) : x.dataByte = .ok 1 := by
  rw [dataByte_eq_map hx, nearestInt_of_slipsUp hx (h ▸ isExact_belowHalf) (.inl h), h,
    floor_belowHalf_add_half]
  rfl

/-- The numbers that are rounded to another integer are beyond the range of a data byte. -/
theorem dataByte_of_ne_belowHalf (hne : x.toRat ≠ belowHalf) (hrange : |x.toRat| < beyondGreatest) :
    x.dataByte = .ok (limit 0 127 ⌊x.toRat + 1 / 2⌋) := by
  rw [dataByte_eq_map hx, (nearestInt_of_lt hx hrange).2, ok_map]
  congr 1
  cases x with
  | int n =>
    have hf := isFinite_ofRat_intCast_iff_lt_beyondGreatest.mpr hrange
    rw [toRat, floor_intCast_add_half]
    exact (Repair.clampRounded_real hf).symm.trans
      (Repair.clampRounded_ofRat (by decide) (by decide) (by decide) hf)
  | real x =>
    have hexact := isExact_toRat x
    have hf := isFinite_ofRat hexact
    have hlimit : (ofRat x.toRat).toRat = belowHalf → 1 ≤ (0 : ℤ) := fun h =>
      absurd ((toRat_ofRat hexact).symm.trans h) hne
    rw [toRat, limit_floor_add_half (by decide) (by decide : (127 : ℤ) ≤ octaveSize) hf hlimit,
      toRat_ofRat hexact]

theorem dataByte_eq_iff : x.dataByte = .ok (limit 0 127 ⌊x.toRat + 1 / 2⌋) ↔
    x.toRat ≠ belowHalf ∧ |x.toRat| < beyondGreatest := by
  refine ⟨fun h => ⟨fun hbelow => ?_, lt_of_dataByte_eq_ok h⟩, fun ⟨hne, hrange⟩ =>
    dataByte_of_ne_belowHalf hx hne hrange⟩
  rw [dataByte_of_belowHalf hx hbelow, hbelow, floor_belowHalf_add_half] at h
  cases h

section Order
variable {y : Number} (hy : y.isFinite = true) (h : x.toRat ≤ y.toRat)
include hy h

theorem nearestInt_le {m n : ℤ} (hm : x.nearestInt = .ok m) (hn : y.nearestInt = .ok n) :
    m ≤ n := by
  obtain ⟨hf, hnearest⟩ := nearestInt_of_lt hx (lt_of_nearestInt_eq_ok hm)
  obtain ⟨hf', hnearest'⟩ := nearestInt_of_lt hy (lt_of_nearestInt_eq_ok hn)
  apply nearestInt_mono hf hf' (toRat_ofRat_mono hf hf' h)
  · rw [nearestInt_of_isFinite hf, ← hm, hnearest]
    rfl
  · rw [nearestInt_of_isFinite hf', ← hn, hnearest']
    rfl

theorem dataByte_le {m n : ℤ} (hm : x.dataByte = .ok m) (hn : y.dataByte = .ok n) : m ≤ n := by
  rw [dataByte_eq_map hx, map_eq_ok_iff] at hm
  rw [dataByte_eq_map hy, map_eq_ok_iff] at hn
  obtain ⟨a, ha, rfl⟩ := hm
  obtain ⟨b, hb, rfl⟩ := hn
  exact limit_mono (nearestInt_le hx hy h ha hb)

end Order

/-- The nearest integer, halves up, is the exact one unless the sum with one half is rounded up to
an integer or the number is an integer without a binary64 of its own; as a data byte it is the exact
one but for the number just below one half. Integers beyond the range of binary64 have neither. Both
keep the order. -/
theorem half_up_exact_iff :
    ((x.nearestInt = .ok ⌊x.toRat + 1 / 2⌋ ↔ IsExact x.toRat ∧ ¬ SlipsUp x.toRat) ∧
      (IsExact x.toRat → SlipsUp x.toRat → x.nearestInt = .ok (⌊x.toRat + 1 / 2⌋ + 1)) ∧
      (|x.toRat| < beyondGreatest → ¬ IsExact x.toRat →
        ∃ m : ℤ, (ofRat x.toRat).toRat = m ∧ x.nearestInt = .ok m) ∧
      (beyondGreatest ≤ |x.toRat| → x.nearestInt = .error .integerTooLarge)) ∧
    ((x.dataByte = .ok (limit 0 127 ⌊x.toRat + 1 / 2⌋) ↔
        x.toRat ≠ belowHalf ∧ |x.toRat| < beyondGreatest) ∧
      (x.toRat = belowHalf → x.dataByte = .ok 1) ∧
      (beyondGreatest ≤ |x.toRat| → x.dataByte = .error .integerTooLarge) ∧
      ∀ n : ℤ, 0 ≤ n → n ≤ 127 → x.toRat = n → x.dataByte = .ok n) ∧
    ∀ y : Number, y.isFinite = true → x.toRat ≤ y.toRat →
      (∀ m n : ℤ, x.nearestInt = .ok m → y.nearestInt = .ok n → m ≤ n) ∧
      ∀ m n : ℤ, x.dataByte = .ok m → y.dataByte = .ok n → m ≤ n := by
  refine ⟨⟨nearestInt_eq_iff hx, nearestInt_of_slipsUp hx, fun hrange hexact => ?_,
      fun h => (tooLarge_of_le h).1⟩,
    ⟨dataByte_eq_iff hx, dataByte_of_belowHalf hx, fun h => (tooLarge_of_le h).2,
      fun n hlow hhigh hn => ?_⟩,
    fun y hy h => ⟨fun _ _ => nearestInt_le hx hy h, fun _ _ => dataByte_le hx hy h⟩⟩
  · obtain ⟨m, hm, hnearest, -⟩ := nearestInt_of_not_isExact hx hrange hexact
    exact ⟨m, hm, hnearest⟩
  · have hexact : IsExact x.toRat := hn ▸ isExact_int (abs_le.mpr (by unfold octaveSize; omega))
    have hbelow : x.toRat ≠ belowHalf := hn ▸ intCast_ne_belowHalf n
    rw [dataByte_of_ne_belowHalf hx hbelow hexact.abs_lt_beyondGreatest, hn, floor_intCast_add_half,
      limit_eq_self hlow hhigh]

end Finite

theorem half_up_exact_iff_five_halves :
    (real (ofRat (5 / 2))).nearestInt = .ok 3 ∧ (real (ofRat (5 / 2))).dataByte = .ok 3 ∧
      ∀ n : ℤ, (int 100).dataByte = .ok n → 3 ≤ n := by
  have hx : (real (ofRat (5 / 2))).isFinite = true := by decide +kernel
  have hexact : IsExact (5 / 2) := by
    have h := isExact_div_two_pow (m := 5) (k := 1) (by decide) (by decide)
    rwa [pow_one] at h
  have hvalue : (real (ofRat (5 / 2))).toRat = 5 / 2 := toRat_ofRat hexact
  have hfloor : ⌊(5 / 2 : ℚ) + 1 / 2⌋ = 3 := by norm_num
  have hslip : ¬ SlipsUp (5 / 2) := by
    rintro (hbelow | ⟨m, hm, -, -⟩)
    · norm_num [belowHalf] at hbelow
    · have htwice : (5 : ℚ) = (2 * m : ℤ) := by
        push_cast
        linarith
      have htwice : 5 = 2 * m := by exact_mod_cast htwice
      omega
  obtain ⟨⟨hnearest, -⟩, ⟨hbyte, -⟩, horder⟩ := half_up_exact_iff hx
  rw [hvalue, hfloor] at hnearest hbyte
  have hthree := hbyte.mpr ⟨by norm_num [belowHalf], hexact.abs_lt_beyondGreatest⟩
  refine ⟨hnearest.mpr ⟨hexact, hslip⟩, hthree, fun n => ?_⟩
  exact (horder (int 100) rfl (by rw [hvalue]; norm_num [toRat])).2 3 n hthree

/-- The number just below one half, an odd integer from 2^52 on, and an integer beyond the range. -/
theorem not_half_up :
    ⌊(real (ofRat belowHalf)).toRat + 1 / 2⌋ = 0 ∧
      (real (ofRat belowHalf)).nearestInt = .ok 1 ∧ (real (ofRat belowHalf)).dataByte = .ok 1 ∧
    ⌊(real (ofRat (2 ^ 52 + 1))).toRat + 1 / 2⌋ = 2 ^ 52 + 1 ∧
      (real (ofRat (2 ^ 52 + 1))).nearestInt = .ok (2 ^ 52 + 2) ∧
    (int (10 ^ 400)).nearestInt = .error .integerTooLarge ∧
      (int (10 ^ 400)).dataByte = .error .integerTooLarge := by
  decide +kernel

end Number
end TrioScore
