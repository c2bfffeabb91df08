import TrioScore.Json.Printer
import TrioScore.Json.Token
import TrioScore.Proofs.Decimal.Shortest
import TrioScore.Proofs.Text.Trim
import Mathlib.Tactic.IntervalCases

/-!
# Numerals of documents

A numeral is read part by part: a sign, whole digits, a point with digits, an exponent. However the
digits of a decimal are laid out, the parts have its value, and so the number that a document prints
is read back.
-/

namespace TrioScore

theorem isDigit_of_mem_toDigits {n : ℕ} {c : Char} (h : c ∈ Nat.toDigits 10 n) : c.isDigit = true :=
  Nat.isDigit_of_mem_toDigits (by decide) (by decide) h

/-- Only zero begins with a zero. -/
theorem head?_toDigits {n : ℕ} (h : n ≠ 0) : (Nat.toDigits 10 n).head? ≠ some '0' := by
  induction n using Nat.strong_induction_on with
  | _ n ih =>
    rw [Nat.toDigits_eq_if (by decide)]
    split_ifs with hn
    · interval_cases n
      · exact absurd rfl h
      all_goals decide
    · rw [List.head?_append_of_ne_nil _ Nat.toDigits_ne_nil]
      exact ih (n / 10) (by omega) (by omega)

/-- The characters of a fraction; one without digits has no point. -/
def Json.Numeral.fractionChars (fraction : List Char) : List Char :=
  if fraction.isEmpty then [] else '.' :: fraction

theorem Json.Numeral.fractionChars_of_ne_nil {fraction : List Char} (h : fraction ≠ []) :
    fractionChars fraction = '.' :: fraction := if_neg (by simpa using h)

namespace Decimal

/-- The digits behind the first one, without the zeros at their end. -/
def kept (d : Decimal) : List Char := ((d.digits.drop 1).reverse.dropWhile (· = '0')).reverse

def scale (d : Decimal) : ℤ :=
  if d.coefficient = 0 then 0 else (d.digits.length : ℤ) - 1 + d.exponent

theorem exists_digits_eq (d : Decimal) :
    ∃ first zeros, d.digits = first :: (d.kept ++ List.replicate zeros '0') := by
  have hne : d.digits ≠ [] := Nat.toDigits_ne_nil
  obtain ⟨first, rest, hd⟩ := List.exists_cons_of_ne_nil hne
  have hzeros : rest.reverse.takeWhile (· = '0') =
      List.replicate (rest.reverse.takeWhile (· = '0')).length '0' := by
    refine List.eq_replicate_of_mem fun c hc => ?_
    have hc := List.all_eq_true.mp (List.all_takeWhile (p := fun c => decide (c = '0'))) c hc
    exact of_decide_eq_true hc
  refine ⟨first, (rest.reverse.takeWhile (· = '0')).length, ?_⟩
  rw [← List.reverse_replicate, ← hzeros, kept, hd, List.drop_one, List.tail_cons,
    ← List.reverse_append, List.takeWhile_append_dropWhile, List.reverse_reverse]

section Digits

variable {d : Decimal} {first : Char} {zeros : ℕ}
  (h : d.digits = first :: (d.kept ++ List.replicate zeros '0'))

include h

theorem chars_eq (layout : Layout) : layout.chars d =
    if -4 ≤ d.scale ∧ d.scale < layout.positionalBelow then
      if d.scale < 0 then
        '0' :: '.' :: (List.replicate (-d.scale - 1).toNat '0' ++ first :: d.kept)
      else
        (first :: d.kept ++
            List.replicate ((d.scale + 1).toNat - (first :: d.kept).length) '0').take
          (d.scale + 1).toNat ++
          layout.fractionChars ((first :: d.kept).drop (d.scale + 1).toNat)
    else first :: (Json.Numeral.fractionChars d.kept ++ Layout.exponentChars d.scale) := by
  have hall : (if d.coefficient = 0 then ['0'] else d.digits) = d.digits := by
    split_ifs with hzero
    · rw [digits, hzero, Nat.toDigits_zero]
    · rfl
  have hchars : layout.chars d =
    if -4 ≤ d.scale ∧ d.scale < layout.positionalBelow then
      if d.scale < 0 then
        '0' :: '.' :: (List.replicate (-d.scale - 1).toNat '0' ++ (d.digits.take 1 ++ d.kept))
      else
        ((d.digits.take 1 ++ d.kept) ++
            List.replicate ((d.scale + 1).toNat - (d.digits.take 1 ++ d.kept).length) '0').take
          (d.scale + 1).toNat ++
          layout.fractionChars ((d.digits.take 1 ++ d.kept).drop (d.scale + 1).toNat)
    else (d.digits.take 1 ++ d.kept).take 1 ++ (if d.kept.isEmpty then [] else '.' :: d.kept) ++
      Layout.exponentChars d.scale := by
    simp only [Layout.chars, hall]
    rfl
  rw [hchars, h]
  rfl

theorem isDigit_of_mem : ∀ c ∈ first :: d.kept, c.isDigit = true := by
  intro c hc
  have hmem : c ∈ d.digits := by
    rw [h, ← List.cons_append]
    exact List.mem_append_left _ hc
  exact isDigit_of_mem_toDigits hmem

/-- Only zero has a digit zero in front, and no other digit then. -/
theorem eq_zero_of_first (hfirst : first = '0') : d.scale = 0 ∧ d.kept = [] := by
  have hzero : d.coefficient = 0 := by
    by_contra hne
    refine head?_toDigits hne ?_
    rw [← digits, h, hfirst]
    rfl
  refine ⟨by rw [scale, if_pos hzero], ?_⟩
  rw [kept, digits, hzero]
  rfl

/-- The digits from the first to the last that is kept have the value of the decimal. -/
theorem toRat_eq_digits :
    d.toRat = Nat.ofDigitChars 10 (first :: d.kept) 0 * (10 : ℚ) ^ (d.scale - d.kept.length) := by
  have hvalue : d.coefficient = 10 ^ zeros * Nat.ofDigitChars 10 (first :: d.kept) 0 := by
    calc
      d.coefficient = Nat.ofDigitChars 10 d.digits 0 := Nat.ofDigitChars_ten_toDigits.symm
      _ = Nat.ofDigitChars 10 (first :: d.kept ++ List.replicate zeros '0') 0 := by rw [h]; rfl
      _ = 10 ^ zeros * Nat.ofDigitChars 10 (first :: d.kept) 0 := by
        rw [Nat.ofDigitChars_append, Nat.ofDigitChars_replicate_zero]
  rw [toRat_eq]
  by_cases hzero : d.coefficient = 0
  · have hkept : Nat.ofDigitChars 10 (first :: d.kept) 0 = 0 := by
      rw [hzero] at hvalue
      exact (mul_eq_zero.mp hvalue.symm).resolve_left (by positivity)
    rw [hzero, hkept, Nat.cast_zero, zero_mul, zero_mul]
  · have hscale : d.scale - d.kept.length = d.exponent + zeros := by
      rw [scale, if_neg hzero, h]
      simp only [List.length_cons, List.length_append, List.length_replicate]
      push_cast
      ring
    rw [hscale, zpow_add₀ (by norm_num), zpow_natCast, hvalue]
    push_cast
    ring

end Digits

end Decimal

namespace Json

/-- A numeral without its sign, in its parts. -/
structure Numeral where
  whole : List Char
  fraction : List Char
  /-- What follows the digits. -/
  tail : List Char
  exponent : Option ℤ

namespace Numeral

def chars (n : Numeral) : List Char := n.whole ++ (fractionChars n.fraction ++ n.tail)

structure IsWritten (n : Numeral) : Prop where
  whole_isDigit : ∀ c ∈ n.whole, c.isDigit = true
  whole_ne_nil : n.whole ≠ []
  length_whole : n.whole.head? = some '0' → n.whole.length = 1
  fraction_isDigit : ∀ c ∈ n.fraction, c.isDigit = true
  tail_head : ∀ c ∈ n.tail.head?, c.isDigit = false ∧ c ≠ '.'
  tail_isNumeric : ∀ c ∈ n.tail, Token.isNumeric c = true
  exponent_tail : Token.exponent? n.tail = some n.exponent

def number? (digitLimit : Option ℕ) (negative : Bool) (n : Numeral) : Option Number :=
  match n.fraction, n.exponent with
  | [], none =>
    if digitLimit.any fun most => most < n.whole.length then none
    else
      let k : ℤ := Nat.ofDigitChars 10 n.whole 0
      some (.int (if negative then -k else k))
  | fraction, e =>
    some (.real (.ofDecimal negative (Nat.ofDigitChars 10 (n.whole ++ fraction) 0)
      (e.getD 0 - fraction.length)))

def toRat (n : Numeral) : ℚ :=
  Nat.ofDigitChars 10 (n.whole ++ n.fraction) 0 *
    (10 : ℚ) ^ (n.exponent.getD 0 - n.fraction.length)

theorem number?_of_real (digitLimit : Option ℕ) (negative : Bool) {n : Numeral}
    (h : n.fraction ≠ [] ∨ n.exponent ≠ none) :
    n.number? digitLimit negative = some (.real (.ofMagnitude negative n.toRat)) := by
  rw [toRat, ← Binary64.ofDecimal_eq]
  unfold number?
  split
  next hf he => simp [hf, he] at h
  next => rfl

theorem takeMinus_signChars (negative : Bool) {s : List Char} (h : s.head? ≠ some '-') :
    Token.takeMinus (Layout.signChars negative ++ s) = (negative, s) := by
  cases negative with
  | true => rfl
  | false =>
    cases s with
    | nil => rfl
    | cons c s =>
      have hc : c ≠ '-' := fun hc => h (congrArg some hc)
      simp [Token.takeMinus, Layout.signChars, hc]

theorem isNumeric_of_isDigit {c : Char} (h : c.isDigit = true) : Token.isNumeric c = true := by
  simp only [Token.isNumeric, h, Bool.true_or]

namespace IsWritten

variable {n : Numeral} (h : n.IsWritten)

include h

theorem exists_chars_eq_cons : ∃ d s, n.chars = d :: s ∧ d.isDigit = true := by
  obtain ⟨d, whole, hwhole⟩ := List.exists_cons_of_ne_nil h.whole_ne_nil
  refine ⟨d, whole ++ (fractionChars n.fraction ++ n.tail), by rw [chars, hwhole]; rfl, ?_⟩
  exact h.whole_isDigit d (hwhole ▸ List.mem_cons_self ..)

theorem head?_ne_minus : n.chars.head? ≠ some '-' := by
  obtain ⟨d, s, hs, hd⟩ := h.exists_chars_eq_cons
  rw [hs]
  intro hminus
  rw [Option.some.inj hminus] at hd
  cases hd

/-- The whole digits end where the rest begins. -/
theorem head?_rest : ∀ c ∈ (fractionChars n.fraction ++ n.tail).head?, c.isDigit = false := by
  cases n.fraction with
  | nil => exact fun c hc => (h.tail_head c hc).1
  | cons d fraction =>
    intro c hc
    obtain rfl := Option.some.inj hc
    rfl

theorem fraction?_eq :
    Token.fraction? (fractionChars n.fraction ++ n.tail) = some (n.fraction, n.tail) := by
  cases hf : n.fraction with
  | nil =>
    cases ht : n.tail with
    | nil => rfl
    | cons c tail =>
      have hc := (h.tail_head c (by rw [ht]; rfl)).2
      simp [fractionChars, Token.fraction?, hc]
  | cons d fraction =>
    obtain ⟨htake, hdrop⟩ := span_append h.fraction_isDigit n.tail fun c hc => (h.tail_head c hc).1
    rw [hf] at htake hdrop
    have hs : fractionChars (d :: fraction) ++ n.tail = '.' :: (d :: fraction ++ n.tail) := rfl
    rw [hs]
    simp only [Token.fraction?, htake, hdrop]
    rfl

theorem isEmpty_or_head? :
    (n.whole.isEmpty || (n.whole.head? = some '0' && n.whole.length != 1)) = false := by
  have hempty : n.whole.isEmpty = false := by simpa using h.whole_ne_nil
  rw [hempty, Bool.false_or, Bool.and_eq_false_iff]
  by_cases hz : n.whole.head? = some '0'
  · exact .inr (by simp [h.length_whole hz])
  · exact .inl (decide_eq_false hz)

theorem isNumeric_of_mem (negative : Bool) :
    ∀ c ∈ Layout.signChars negative ++ n.chars, Token.isNumeric c = true := by
  have hsign : ∀ c ∈ Layout.signChars negative, Token.isNumeric c = true :=
    List.all_eq_true.mp (by cases negative <;> decide)
  have hfraction : ∀ c ∈ fractionChars n.fraction, Token.isNumeric c = true := by
    unfold fractionChars
    split_ifs
    · exact fun c hc => absurd hc List.not_mem_nil
    · exact List.forall_mem_cons.mpr
        ⟨rfl, fun c hc => isNumeric_of_isDigit (h.fraction_isDigit c hc)⟩
  simp only [chars, List.forall_mem_append]
  exact ⟨hsign, fun c hc => isNumeric_of_isDigit (h.whole_isDigit c hc), hfraction,
    h.tail_isNumeric⟩

theorem number?_chars (digitLimit : Option ℕ) (negative : Bool) :
    Token.number? digitLimit (Layout.signChars negative ++ n.chars) =
      n.number? digitLimit negative := by
  obtain ⟨htake, hdrop⟩ : n.chars.takeWhile Char.isDigit = n.whole ∧
      n.chars.dropWhile Char.isDigit = fractionChars n.fraction ++ n.tail :=
    span_append h.whole_isDigit _ h.head?_rest
  simp only [Token.number?, takeMinus_signChars negative h.head?_ne_minus, htake, hdrop,
    h.isEmpty_or_head?, h.fraction?_eq, Option.bind_eq_bind, Option.bind_some, h.exponent_tail]
  rw [if_neg Bool.false_ne_true, number?]
  cases n.fraction <;> cases n.exponent <;> rfl

end IsWritten

def ofNat (k : ℕ) : Numeral := ⟨Nat.toDigits 10 k, [], [], none⟩

theorem integerChars_eq (n : ℤ) :
    integerChars n = Layout.signChars (decide (n < 0)) ++ (ofNat n.natAbs).chars := by
  have hchars : (ofNat n.natAbs).chars = Nat.toDigits 10 n.natAbs := List.append_nil _
  rw [hchars]
  cases n with
  | ofNat n => simp [integerChars, Layout.signChars]
  | negSucc n => simp [integerChars, Layout.signChars, Int.negSucc_lt_zero]

theorem isWritten_ofNat (k : ℕ) : (ofNat k).IsWritten where
  whole_isDigit c hc := isDigit_of_mem_toDigits hc
  whole_ne_nil := Nat.toDigits_ne_nil
  length_whole hzero := by
    have hk : k = 0 := by
      by_contra hk
      exact head?_toDigits hk hzero
    rw [hk]
    rfl
  fraction_isDigit := by simp [ofNat]
  tail_head := by simp [ofNat]
  tail_isNumeric := by simp [ofNat]
  exponent_tail := rfl

theorem number?_ofNat {digitLimit : ℕ} {n : ℤ}
    (h : (Nat.toDigits 10 n.natAbs).length ≤ digitLimit) :
    (ofNat n.natAbs).number? (some digitLimit) (decide (n < 0)) = some (.int n) := by
  have hlimit : ¬ decide (digitLimit < (Nat.toDigits 10 n.natAbs).length) = true := by
    rw [decide_eq_true_eq]
    exact h.not_gt
  have hnumber : (ofNat n.natAbs).number? (some digitLimit) (decide (n < 0)) =
      some (.int (if decide (n < 0) = true then
        -(Nat.ofDigitChars 10 (Nat.toDigits 10 n.natAbs) 0 : ℤ)
        else Nat.ofDigitChars 10 (Nat.toDigits 10 n.natAbs) 0)) := if_neg hlimit
  rw [hnumber, Nat.ofDigitChars_ten_toDigits]
  simp only [decide_eq_true_eq, Option.some.injEq, Number.int.injEq]
  split_ifs <;> omega

theorem isDigit_replicate_zero (zeros : ℕ) : ∀ c ∈ List.replicate zeros '0', c.isDigit = true :=
  fun _ hc => List.eq_of_mem_replicate hc ▸ rfl

/-- The digits of an exponent, two at least. -/
theorem isDigit_exponentDigits (e : ℤ) :
    ∀ c ∈ List.replicate (2 - (Nat.toDigits 10 e.natAbs).length) '0' ++ Nat.toDigits 10 e.natAbs,
      c.isDigit = true :=
  List.forall_mem_append.mpr ⟨isDigit_replicate_zero _, fun _ => isDigit_of_mem_toDigits⟩

theorem isNumeric_exponentChars (e : ℤ) :
    ∀ c ∈ Layout.exponentChars e, Token.isNumeric c = true := by
  refine List.forall_mem_cons.mpr ⟨rfl, List.forall_mem_cons.mpr ⟨?_, fun c hc => ?_⟩⟩
  · split_ifs <;> rfl
  · exact isNumeric_of_isDigit (isDigit_exponentDigits e c hc)

theorem exponent?_digits (negative : Bool) {digits : List Char} (hne : digits ≠ [])
    (h : ∀ c ∈ digits, c.isDigit = true) :
    Token.exponent? ('e' :: (if negative then '-' else '+') :: digits) =
      some (some (if negative then -(Nat.ofDigitChars 10 digits 0 : ℤ)
        else Nat.ofDigitChars 10 digits 0)) := by
  have hempty : digits.isEmpty = false := by simpa using hne
  have hall : digits.all Char.isDigit = true := List.all_eq_true.mpr h
  cases negative <;> simp [Token.exponent?, Token.takeMinus, hempty, hall]

theorem exponent?_exponentChars (e : ℤ) :
    Token.exponent? (Layout.exponentChars e) = some (some e) := by
  have hread := exponent?_digits (decide (e < 0))
    (List.append_ne_nil_of_right_ne_nil _ Nat.toDigits_ne_nil) (isDigit_exponentDigits e)
  rw [Nat.ofDigitChars_append, Nat.ofDigitChars_replicate_zero, mul_zero,
    Nat.ofDigitChars_ten_toDigits] at hread
  simp only [decide_eq_true_eq] at hread
  rw [Layout.exponentChars, hread]
  split_ifs with he <;> simp only [Option.some.injEq] <;> omega

/-! How the digits of a decimal are laid out. The first digit is a zero only where it is the only
digit and has the exponent zero. -/

section Layouts

/-- Digits behind a point and zeros. -/
def small (digits : List Char) (zeros : ℕ) : Numeral :=
  ⟨['0'], List.replicate zeros '0' ++ digits, [], none⟩

/-- Digits, filled up with zeros to an integer. -/
def large (digits : List Char) (zeros : ℕ) : Numeral :=
  ⟨digits ++ List.replicate zeros '0', ['0'], [], none⟩

/-- Digits with a point behind the first ones. -/
def pointed (digits : List Char) (whole : ℕ) : Numeral :=
  ⟨digits.take whole, digits.drop whole, [], none⟩

/-- A digit, the others behind a point, and an exponent. -/
def scientific (first : Char) (kept : List Char) (e : ℤ) : Numeral :=
  ⟨[first], kept, Layout.exponentChars e, some e⟩

variable {first : Char} {kept : List Char} (h : ∀ c ∈ first :: kept, c.isDigit = true)

include h

theorem isWritten_small (zeros : ℕ) : (small (first :: kept) zeros).IsWritten where
  whole_isDigit := by simp [small]
  whole_ne_nil := List.cons_ne_nil _ _
  length_whole _ := rfl
  fraction_isDigit := List.forall_mem_append.mpr ⟨isDigit_replicate_zero zeros, h⟩
  tail_head := by simp [small]
  tail_isNumeric := by simp [small]
  exponent_tail := rfl

theorem isWritten_large (zeros : ℕ) (hfirst : first = '0' → kept = [] ∧ zeros = 0) :
    (large (first :: kept) zeros).IsWritten where
  whole_isDigit := List.forall_mem_append.mpr ⟨h, isDigit_replicate_zero zeros⟩
  whole_ne_nil := List.cons_ne_nil _ _
  length_whole hzero := by
    obtain ⟨hkept, hzeros⟩ := hfirst (Option.some.inj hzero)
    simp [large, hkept, hzeros]
  fraction_isDigit := by simp [large]
  tail_head := by simp [large]
  tail_isNumeric := by simp [large]
  exponent_tail := rfl

theorem isWritten_pointed (whole : ℕ) (hfirst : first = '0' → kept = []) :
    (pointed (first :: kept) (whole + 1)).IsWritten where
  whole_isDigit c hc := h c (List.mem_of_mem_take hc)
  whole_ne_nil := List.cons_ne_nil _ _
  length_whole hzero := by
    rw [hfirst (Option.some.inj hzero)]
    simp [pointed]
  fraction_isDigit c hc := h c (List.mem_of_mem_drop hc)
  tail_head := by simp [pointed]
  tail_isNumeric := by simp [pointed]
  exponent_tail := rfl

theorem isWritten_scientific (e : ℤ) : (scientific first kept e).IsWritten where
  whole_isDigit := by simpa [scientific] using h first (List.mem_cons_self ..)
  whole_ne_nil := List.cons_ne_nil _ _
  length_whole _ := rfl
  fraction_isDigit c hc := h c (List.mem_cons_of_mem _ hc)
  tail_head := by simp [scientific, Layout.exponentChars]
  tail_isNumeric := isNumeric_exponentChars e
  exponent_tail := exponent?_exponentChars e

omit h in
theorem toRat_small (digits : List Char) (zeros : ℕ) : (small digits zeros).toRat =
    Nat.ofDigitChars 10 digits 0 * (10 : ℚ) ^ (-(zeros : ℤ) - digits.length) := by
  have hdigits : Nat.ofDigitChars 10 ('0' :: (List.replicate zeros '0' ++ digits)) 0 =
      Nat.ofDigitChars 10 digits 0 := by
    rw [Nat.ofDigitChars_cons, Nat.ofDigitChars_append, Nat.ofDigitChars_replicate_zero]
    rfl
  simp only [small, toRat, List.singleton_append, hdigits, List.length_append,
    List.length_replicate, Option.getD_none]
  push_cast
  ring_nf

omit h in
theorem toRat_large (digits : List Char) (zeros : ℕ) : (large digits zeros).toRat =
    Nat.ofDigitChars 10 digits 0 * (10 : ℚ) ^ (zeros : ℤ) := by
  have hdigits : Nat.ofDigitChars 10 (digits ++ List.replicate zeros '0' ++ ['0']) 0 =
      10 ^ (zeros + 1) * Nat.ofDigitChars 10 digits 0 := by
    rw [List.append_assoc, ← List.replicate_succ', Nat.ofDigitChars_append,
      Nat.ofDigitChars_replicate_zero]
  simp only [large, toRat, hdigits, List.length_singleton, Option.getD_none]
  push_cast
  rw [zpow_neg, zpow_one, zpow_natCast]
  field_simp
  ring

omit h in
theorem toRat_pointed (digits : List Char) (whole : ℕ) : (pointed digits whole).toRat =
    Nat.ofDigitChars 10 digits 0 * (10 : ℚ) ^ (-((digits.length - whole : ℕ) : ℤ)) := by
  simp only [pointed, toRat, List.take_append_drop, List.length_drop, Option.getD_none, zero_sub]

omit h in
theorem toRat_scientific (first : Char) (kept : List Char) (e : ℤ) :
    (scientific first kept e).toRat =
      Nat.ofDigitChars 10 (first :: kept) 0 * (10 : ℚ) ^ (e - kept.length) := rfl

/-- What stands before the point when a decimal is written out, and behind it. -/
theorem exists_numeral_places {scale : ℕ} (hfirst : first = '0' → scale = 0 ∧ kept = []) :
    ∃ n : Numeral, n.IsWritten ∧ n.chars =
      (first :: kept ++ List.replicate (scale + 1 - (first :: kept).length) '0').take (scale + 1) ++
        Layout.document.fractionChars ((first :: kept).drop (scale + 1)) ∧
      n.fraction ≠ [] ∧
      n.toRat = Nat.ofDigitChars 10 (first :: kept) 0 * (10 : ℚ) ^ ((scale : ℤ) - kept.length) := by
  rcases le_or_gt (first :: kept).length (scale + 1) with hle | hlt
  · have hdrop : (first :: kept).drop (scale + 1) = [] := List.drop_eq_nil_of_le hle
    have htake : (first :: kept ++ List.replicate (scale + 1 - (first :: kept).length) '0').take
        (scale + 1) = first :: kept ++ List.replicate (scale + 1 - (first :: kept).length) '0' := by
      refine List.take_of_length_le ?_
      rw [List.length_append, List.length_replicate]
      omega
    refine ⟨large (first :: kept) (scale + 1 - (first :: kept).length),
      isWritten_large h _ ?_, ?_, List.cons_ne_nil _ _, ?_⟩
    · intro hzero
      obtain ⟨rfl, rfl⟩ := hfirst hzero
      exact ⟨rfl, rfl⟩
    · rw [hdrop, htake]
      rfl
    · rw [toRat_large]
      congr 2
      rw [List.length_cons] at hle ⊢
      omega
  · have hdrop : (first :: kept).drop (scale + 1) ≠ [] := by
      rw [Ne, List.drop_eq_nil_iff]
      omega
    refine ⟨pointed (first :: kept) (scale + 1),
      isWritten_pointed h _ fun hzero => (hfirst hzero).2, ?_, hdrop, ?_⟩
    · have hnone : scale + 1 - (first :: kept).length = 0 := by omega
      obtain ⟨c, fraction, hcons⟩ := List.exists_cons_of_ne_nil hdrop
      rw [chars, pointed, fractionChars_of_ne_nil hdrop, hnone, hcons]
      simp [Layout.fractionChars]
    · rw [toRat_pointed]
      congr 2
      rw [List.length_cons] at hlt ⊢
      omega

end Layouts

/-- However a decimal is laid out, it is a numeral with its value. -/
theorem exists_numeral (d : Decimal) : ∃ n : Numeral, n.IsWritten ∧
    n.chars = Layout.document.chars d ∧ (n.fraction ≠ [] ∨ n.exponent ≠ none) ∧
    n.toRat = d.toRat := by
  obtain ⟨first, zeros, h⟩ := d.exists_digits_eq
  have hdigit := Decimal.isDigit_of_mem h
  rw [Decimal.chars_eq h, Decimal.toRat_eq_digits h]
  split_ifs with hplaces hnegative
  · have hne : List.replicate (-d.scale - 1).toNat '0' ++ first :: d.kept ≠ [] :=
      List.append_ne_nil_of_right_ne_nil _ (List.cons_ne_nil _ _)
    refine ⟨small (first :: d.kept) (-d.scale - 1).toNat, isWritten_small hdigit _, ?_,
      .inl hne, ?_⟩
    · rw [chars, small, fractionChars_of_ne_nil hne, List.append_nil]
      rfl
    · rw [toRat_small, List.length_cons]
      congr 2
      omega
  · obtain ⟨scale, hscale⟩ := Int.eq_ofNat_of_zero_le (not_lt.mp hnegative)
    have hfirst : first = '0' → scale = 0 ∧ d.kept = [] := by
      intro hzero
      obtain ⟨hzero, hkept⟩ := Decimal.eq_zero_of_first h hzero
      exact ⟨by omega, hkept⟩
    obtain ⟨n, hn, hchars, hfraction, hvalue⟩ := exists_numeral_places hdigit hfirst
    have hnat : (d.scale + 1).toNat = scale + 1 := by omega
    rw [hnat, hscale]
    exact ⟨n, hn, hchars, .inl hfraction, hvalue⟩
  · exact ⟨scientific first d.kept d.scale, isWritten_scientific hdigit _, rfl,
      .inr (Option.some_ne_none _), toRat_scientific ..⟩

/-- A finite number is read back from its shortest decimal. -/
theorem exists_numeral_shortest (digitLimit : Option ℕ) (negative : Bool) (rank : Fin rankCount) :
    ∃ n : Numeral, n.IsWritten ∧ n.chars = Layout.document.chars (Decimal.shortest rank) ∧
      n.number? digitLimit negative = some (.real (.finite negative rank)) := by
  obtain ⟨n, hn, hchars, hreal, hvalue⟩ := exists_numeral (Decimal.shortest rank)
  refine ⟨n, hn, hchars, ?_⟩
  rw [number?_of_real digitLimit negative hreal, hvalue, Decimal.ofMagnitude_shortest]

end Numeral
end Json
end TrioScore
