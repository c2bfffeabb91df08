import TrioScore.Piece.Repair
import TrioScore.Proofs.Binary64.Difference
import TrioScore.Proofs.Binary64.Range
import TrioScore.Proofs.Decimal.Integer
import TrioScore.Proofs.Meter.Pulses

/-!
# Numerals in pieces

A tempo and a number of measures may be spelled in a text. A spelled integer counts as the integer,
limited to the range of its field, unless its numeral has too many digits and the integer is beyond
the range of binary64: such a text is no number, and the default stands in for it.
-/

namespace TrioScore

namespace Binary64

theorem isFinite_ofRat_intCast_iff {n : ℤ} :
    (ofRat n).isFinite = true ↔ |n| < 2 ^ 1024 - 2 ^ 970 := by
  rw [← ofInt_isOk_iff, ofInt_eq]
  split_ifs with h <;> simp [h]

/-- A magnitude with a sign is the rounding of the integer, but for the sign of zero. -/
theorem ofMagnitude_natCast (negative : Bool) (m : ℕ) :
    (Numeral.signed negative m = 0 ∧ ofMagnitude negative m = zero negative) ∨
      ofMagnitude negative m = ofRat (Numeral.signed negative m) := by
  rcases Nat.eq_zero_or_pos m with rfl | hpos
  · refine .inl ⟨by cases negative <;> rfl, ?_⟩
    rw [Nat.cast_zero]
    rfl
  · have hm : (0 : ℚ) < m := by exact_mod_cast hpos
    right
    cases negative with
    | false =>
      have hsigned : ((Numeral.signed false m : ℤ) : ℚ) = m := by simp [Numeral.signed]
      rw [hsigned, ofRat, if_neg hm.not_gt]
    | true =>
      have hsigned : ((Numeral.signed true m : ℤ) : ℚ) = -m := by simp [Numeral.signed]
      rw [hsigned, ofRat, if_pos (neg_lt_zero.mpr hm), neg_neg]

end Binary64

namespace Repair

section Rounded
variable {low high : ℤ} {x : Binary64} (hx : x.isFinite = true)
include hx

theorem clampRounded_real : clampRounded low high (.real x) =
    limit low high (x + Binary64.half).toRat.floor := by
  rw [clampRounded, Number.nearestInt_of_isFinite hx]

theorem clampRounded_of_toRat_eq {n : ℤ} (hn : |n| < octaveSize) (h : x.toRat = n) :
    clampRounded low high (.real x) = limit low high n := by
  have hlow := Number.le_floor_add_half hx hn h.ge
  have hhigh := Number.floor_add_half_le hx hn h.le
  rw [clampRounded_real hx, le_antisymm hhigh hlow]

theorem clampRounded_of_high_le (hrange : low ≤ high) (hh : |high| < octaveSize)
    (h : high ≤ x.toRat) :
    clampRounded low high (.real x) = high := by
  have hfloor := Number.le_floor_add_half hx hh h
  rw [clampRounded_real hx, limit]
  omega

theorem clampRounded_of_le_low (hl : |low| < octaveSize) (h : x.toRat ≤ low) :
    clampRounded low high (.real x) = low := by
  have hfloor := Number.floor_add_half_le hx hl h
  rw [clampRounded_real hx, limit]
  omega

end Rounded

/-- The binary64 nearest to an integer is limited to a range as the integer is: it is exact near
the range and does not come near it from beyond. -/
theorem clampRounded_ofRat {low high : ℤ} (hl : |low| < octaveSize) (hh : |high| < octaveSize)
    (hrange : low ≤ high) {n : ℤ} (hf : (Binary64.ofRat n).isFinite = true) :
    clampRounded low high (.real (.ofRat n)) = limit low high n := by
  have hexact : ∀ c : ℤ, |c| < octaveSize → Binary64.IsExact (c : ℚ) := fun c hc =>
    Binary64.isExact_int (hc.le.trans (by omega))
  rcases lt_or_ge |n| octaveSize with hn | hn
  · exact clampRounded_of_toRat_eq hf hn (Binary64.toRat_ofRat (hexact n hn))
  have hl' := abs_lt.mp hl
  have hh' := abs_lt.mp hh
  rcases le_abs'.mp hn with hneg | hpos
  · have hbelow : (Binary64.ofRat n).toRat ≤ low :=
      Binary64.toRat_ofRat_le (hexact low hl) (by exact_mod_cast hneg.trans hl'.1.le) hf
    rw [clampRounded_of_le_low hf hl hbelow, limit]
    omega
  · have habove : (high : ℚ) ≤ (Binary64.ofRat n).toRat :=
      Binary64.le_toRat_ofRat (hexact high hh) (by exact_mod_cast hh'.2.le.trans hpos) hf
    rw [clampRounded_of_high_le hf hrange hh habove, limit]
    omega

section Spelled
variable {t : Text} {n : ℤ} {digits : List ℕ} (h : Numeral.SpellsInt t n digits)
include h

theorem number?_of_few_digits (hfew : digits.length ≤ digitLimit) :
    number? (.text t) = some (.int n) := by
  obtain ⟨negative, -, hnumber⟩ := h.number?_trim
  rw [number?, hnumber, if_pos hfew]
  rfl

theorem number?_of_many_digits (hmany : digitLimit < digits.length) :
    ∃ x : Binary64, number? (.text t) = (if x.isFinite then some (.real x) else none) ∧
      ((n = 0 ∧ ∃ negative, x = .zero negative) ∨ x = .ofRat n) := by
  obtain ⟨negative, rfl, hnumber⟩ := h.number?_trim
  refine ⟨.ofMagnitude negative (ofDigits digits : ℕ), ?_, ?_⟩
  · rw [number?, hnumber, if_neg hmany.not_ge, Option.filter_some]
    rfl
  · exact (Binary64.ofMagnitude_natCast negative _).imp_left
      fun ⟨hzero, hx⟩ => ⟨hzero, negative, hx⟩

/-- What a field makes of a spelled integer: the integer in its range, unless the numeral has too
many digits and the integer is beyond the range of binary64. -/
theorem rounded_of_spells {low high : ℤ} (hl : |low| < octaveSize) (hh : |high| < octaveSize)
    (hrange : low ≤ high) (default : ℤ) :
    ((number? (.text t)).map (clampRounded low high)).getD default =
      if digits.length ≤ digitLimit ∨ |n| < 2 ^ 1024 - 2 ^ 970 then limit low high n
      else default := by
  rcases le_or_gt digits.length digitLimit with hfew | hmany
  · rw [number?_of_few_digits h hfew, if_pos (.inl hfew)]
    rfl
  · obtain ⟨x, hnumber, hx⟩ := number?_of_many_digits h hmany
    rw [hnumber]
    rcases hx with ⟨rfl, negative, rfl⟩ | rfl
    · have hzero : (Binary64.zero negative).toRat = (0 : ℤ) := by simp
      have hfinite : (Binary64.zero negative).isFinite = true := rfl
      have hrange : |(0 : ℤ)| < 2 ^ 1024 - 2 ^ 970 := by decide +kernel
      rw [if_pos hfinite, if_pos (.inr hrange)]
      exact clampRounded_of_toRat_eq rfl (by decide) hzero
    · simp only [Binary64.isFinite_ofRat_intCast_iff, hmany.not_ge, false_or]
      split_ifs with hn
      · exact clampRounded_ofRat hl hh hrange (Binary64.isFinite_ofRat_intCast_iff.mpr hn)
      · rfl

/-- Beyond the range of binary64 an integer is limited to an end of the range of its field, which a
default inside differs from. -/
theorem rounded_eq_limit_iff {low high default : ℤ} (hl : |low| < octaveSize)
    (hh : |high| < octaveSize) (hlow : low < default) (hhigh : default < high) :
    ((number? (.text t)).map (clampRounded low high)).getD default = limit low high n ↔
      digits.length ≤ digitLimit ∨ |n| < 2 ^ 1024 - 2 ^ 970 := by
  rw [rounded_of_spells h hl hh (hlow.trans hhigh).le default]
  split_ifs with hc
  · exact iff_of_true rfl hc
  · refine iff_of_false (fun hlimit => ?_) hc
    have hlarge := le_abs'.mp (not_lt.mp (not_or.mp hc).2)
    have hsize : (octaveSize : ℤ) ≤ 2 ^ 1024 - 2 ^ 970 := by decide +kernel
    have hl' := abs_lt.mp hl
    have hh' := abs_lt.mp hh
    rw [limit] at hlimit
    omega

/-- A spelled integer counts as the integer, as a tempo and as a number of measures, exactly when
its numeral is within the limit of digits or the integer has a binary64. Otherwise the text is no
number and the default stands in for the bound. -/
theorem spelled_integer_counts :
    (tempo (.ofInt n) = limit 40 220 n ∧
      (tempo (.text t) = tempo (.ofInt n) ↔
        digits.length ≤ 4300 ∨ |n| < 2 ^ 1024 - 2 ^ 970) ∧
      (¬ (digits.length ≤ 4300 ∨ |n| < 2 ^ 1024 - 2 ^ 970) → tempo (.text t) = 90)) ∧
    ∀ (index : ℕ) (spelled given : List (Text × Json)),
      Json.field "measures" spelled = .text t → Json.field "measures" given = .ofInt n →
      (sectionAt index given).measures = limit 1 256 n ∧
      ((sectionAt index spelled).measures = (sectionAt index given).measures ↔
        digits.length ≤ 4300 ∨ |n| < 2 ^ 1024 - 2 ^ 970) ∧
      (¬ (digits.length ≤ 4300 ∨ |n| < 2 ^ 1024 - 2 ^ 970) →
        (sectionAt index spelled).measures = 8) := by
  have hvalue : tempo (.ofInt n) = limit 40 220 n ∧ measures (.ofInt n) = limit 1 256 n :=
    ⟨rfl, rfl⟩
  refine ⟨⟨hvalue.1, ?_, fun hc => ?_⟩, fun index spelled given hs hg => ?_⟩
  · rw [hvalue.1]
    exact rounded_eq_limit_iff h (by decide) (by decide) (by decide) (by decide)
  · exact (rounded_of_spells h (by decide) (by decide) (by decide) 90).trans (if_neg hc)
  · have hmeasures : (sectionAt index spelled).measures = measures (.text t) ∧
        (sectionAt index given).measures = limit 1 256 n :=
      ⟨congrArg measures hs, (congrArg measures hg).trans hvalue.2⟩
    refine ⟨hmeasures.2, ?_, fun hc => ?_⟩
    · rw [hmeasures.1, hmeasures.2]
      exact rounded_eq_limit_iff h (by decide) (by decide) (by decide) (by decide)
    · rw [hmeasures.1]
      exact (rounded_of_spells h (by decide) (by decide) (by decide) 8).trans (if_neg hc)

end Spelled

theorem spelled_integer_counts_thousand :
    tempo (.text " +1_000 ") = tempo (.ofInt 1000) ∧ tempo (.ofInt 1000) = 220 := by
  have hspells : Numeral.SpellsInt " +1_000 " 1000 [1, 0, 0, 0] :=
    ⟨" ", "+", "1_000", " ", false, by decide, by decide, .plus,
      .spaced rfl (.cons rfl (.cons rfl (.last rfl))), rfl, rfl⟩
  obtain ⟨⟨hvalue, hiff, -⟩, -⟩ := spelled_integer_counts hspells
  exact ⟨hiff.mpr (.inl (by decide)), hvalue⟩

/-- The digit 1, 4301 times. -/
def longNumeral : Text := List.replicate 4301 (.ofChar '1')

def longInteger : ℤ := ofDigits (List.replicate 4301 1)

theorem isRun_replicate (k : ℕ) :
    Numeral.IsRun (List.replicate (k + 1) (.ofChar '1')) (List.replicate (k + 1) 1) := by
  have hone : CodePoint.digit? (.ofChar '1') = some 1 := by decide
  induction k with
  | zero => exact .last hone
  | succ k ih => exact .cons hone ih

theorem two_pow_le_ofDigits (k : ℕ) :
    (2 : ℤ) ^ k ≤ (ofDigits (List.replicate (k + 1) 1) : ℕ) := by
  induction k with
  | zero => decide
  | succ k ih =>
    rw [List.replicate_succ', ofDigits_concat, pow_succ]
    omega

theorem spellsInt_longNumeral :
    Numeral.SpellsInt longNumeral longInteger (List.replicate 4301 1) :=
  ⟨[], [], longNumeral, [], false, rfl, rfl, .none, isRun_replicate 4300,
    (List.append_nil longNumeral).symm, rfl⟩

/-- So many ones are the greatest tempo as an integer, and no tempo as a text. -/
theorem long_numeral_is_no_tempo : Numeral.SpellsInt longNumeral longInteger
      (List.replicate 4301 1) ∧
    tempo (.ofInt longInteger) = 220 ∧ tempo (.text longNumeral) = 90 ∧
    measures (.ofInt longInteger) = 256 ∧ measures (.text longNumeral) = 8 := by
  have hlarge : 2 ^ 1024 ≤ longInteger :=
    (pow_le_pow_right₀ one_le_two (by decide : 1024 ≤ 4300)).trans (two_pow_le_ofDigits 4300)
  have hbeyond : ¬ ((List.replicate 4301 1).length ≤ digitLimit ∨
      |longInteger| < 2 ^ 1024 - 2 ^ 970) := by
    have hdigits : ¬ (List.replicate 4301 1).length ≤ digitLimit := by
      rw [List.length_replicate]
      decide
    have hpos : (0 : ℤ) < 2 ^ 970 := by decide +kernel
    exact not_or.mpr ⟨hdigits, fun h => by have := le_abs_self longInteger; omega⟩
  have hlimit : ∀ low high : ℤ, low ≤ high → high < 1024 → limit low high longInteger = high := by
    intro low high h hhigh
    have hsize : (1024 : ℤ) ≤ 2 ^ 1024 := by decide +kernel
    rw [limit]
    omega
  have htext : ∀ low high default : ℤ, |low| < octaveSize → |high| < octaveSize → low ≤ high →
      ((number? (.text longNumeral)).map (clampRounded low high)).getD default = default :=
    fun low high default hl hh hrange =>
      (rounded_of_spells spellsInt_longNumeral hl hh hrange default).trans (if_neg hbeyond)
  refine ⟨spellsInt_longNumeral, hlimit 40 220 (by decide) (by decide), ?_,
    hlimit 1 256 (by decide) (by decide), ?_⟩
  · exact htext 40 220 90 (by decide) (by decide) (by decide)
  · exact htext 1 256 8 (by decide) (by decide) (by decide)

end Repair
end TrioScore
