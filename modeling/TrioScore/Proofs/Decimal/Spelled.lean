import TrioScore.Proofs.Decimal.Run
import TrioScore.Proofs.Decimal.Shortest
import TrioScore.Text.Integer

/-!
# Numbers have numerals

Every finite number is spelled by a text: the digits of its shortest decimal with an exponent behind
them. A numeral of one script without underscores is read digit by digit.
-/

namespace TrioScore

/-- The numeral of a natural number is built by adding digits at its end. -/
theorem Text.ofNat_induction {P : ℕ → Text → Prop}
    (digit : ∀ d < 10, P d [.ofChar (Nat.digitChar d)])
    (concat : ∀ n t, ∀ d < 10, P n t → P (10 * n + d) (t ++ [.ofChar (Nat.digitChar d)]))
    (n : ℕ) : P n (Text.ofNat n) := by
  induction n using Nat.strong_induction_on with
  | _ n ih =>
    rw [Text.ofNat, Nat.toDigits_eq_if (by decide)]
    split_ifs with hn
    · exact digit n hn
    · have hfront := concat (n / 10) _ (n % 10) (Nat.mod_lt _ (by decide)) (ih (n / 10) (by omega))
      rw [Nat.div_add_mod] at hfront
      rw [Text.ofChars, List.map_append]
      exact hfront

theorem Text.forall_mem_ofNat {P : CodePoint → Prop}
    (h : ∀ d < 10, P (.ofChar (Nat.digitChar d))) (n : ℕ) : ∀ c ∈ Text.ofNat n, P c :=
  @Text.ofNat_induction (fun _ t => ∀ c ∈ t, P c)
    (fun d hd => List.forall_mem_singleton.mpr (h d hd))
    (fun _ _ d hd ht => List.forall_mem_append.mpr ⟨ht, List.forall_mem_singleton.mpr (h d hd)⟩) n

theorem Text.strip_eq_self {kind : CodePoint → Bool} {t : Text} (h : ∀ c ∈ t, kind c = false) :
    t.strip kind = t := by
  have hdrop : ∀ u : Text, (∀ c ∈ u, kind c = false) → u.dropWhile kind = u := by
    intro u hu
    cases u with
    | nil => rfl
    | cons c u => exact List.dropWhile_cons_of_neg (by simp [hu c (List.mem_cons_self ..)])
  rw [Text.strip, hdrop t h, hdrop _ fun c hc => h c (List.mem_reverse.mp hc), List.reverse_reverse]

namespace Numeral

theorem exists_isRun_ofNat (n : ℕ) : ∃ ds, IsRun (Text.ofNat n) ds ∧ ofDigits ds = n := by
  have hdigit : ∀ d < 10, CodePoint.digit? (.ofChar (Nat.digitChar d)) = some d := by decide
  refine @Text.ofNat_induction (fun n t => ∃ ds, IsRun t ds ∧ ofDigits ds = n)
    (fun d hd => ⟨[d], .last (hdigit d hd), Nat.zero_add d⟩) (fun n t d hd ht => ?_) n
  obtain ⟨ds, hrun, hvalue⟩ := ht
  exact ⟨ds ++ [d], hrun.concat (hdigit d hd), by rw [ofDigits_concat, hvalue]⟩

theorem digitRun?_ofNat (n : ℕ) {rest : Text} (hrest : ∀ c ∈ rest.head?, inRun c = false) :
    ∃ d ds, digitRun? (Text.ofNat n ++ rest) = some (d :: ds, rest) ∧ ofDigits (d :: ds) = n := by
  obtain ⟨digits, hrun, hvalue⟩ := exists_isRun_ofNat n
  obtain ⟨d, ds, rfl⟩ := hrun.exists_digits
  exact ⟨d, ds, hrun.digitRun? hrest, hvalue⟩

theorem takeSign_ofNat (n : ℕ) (rest : Text) :
    takeSign (Text.ofNat n ++ rest) = (false, Text.ofNat n ++ rest) := by
  obtain ⟨_, hrun, -⟩ := exists_isRun_ofNat n
  exact hrun.takeSign rest

theorem takeSign_ofInt (e : ℤ) :
    takeSign (Text.ofInt e) = (decide (e < 0), Text.ofNat e.natAbs) := by
  cases e with
  | ofNat n =>
    have hplain := takeSign_ofNat n []
    rw [List.append_nil] at hplain
    exact hplain
  | negSucc n =>
    have hminus : Text.ofInt (Int.negSucc n) = .ofChar '-' :: Text.ofNat (n + 1) := rfl
    rw [decide_eq_true (Int.negSucc_lt_zero n), hminus, takeSign, if_pos rfl]
    rfl

theorem exponent?_ofInt (e : ℤ) : exponent? (.ofChar 'e' :: Text.ofInt e) = some e := by
  obtain ⟨d, ds, hrun, hvalue⟩ := @digitRun?_ofNat e.natAbs [] (by simp)
  have hsigned : signed (decide (e < 0)) e.natAbs = e := by
    rw [signed]
    split_ifs with hneg
    · rw [decide_eq_true_eq] at hneg
      omega
    · rw [decide_eq_true_eq] at hneg
      omega
  rw [List.append_nil] at hrun
  rw [exponent?, if_pos (.inl rfl), takeSign_ofInt]
  simp only [hrun, hvalue, hsigned]

theorem decimal?_eq (negative : Bool) (n : ℕ) (e : ℤ) :
    decimal? negative (Text.ofNat n ++ .ofChar 'e' :: Text.ofInt e) =
      some (.ofDecimal negative n e) := by
  obtain ⟨d, ds, hrun, hvalue⟩ := @digitRun?_ofNat n (.ofChar 'e' :: Text.ofInt e)
    (by rintro c ⟨rfl⟩; decide)
  have hfraction : fraction? (.ofChar 'e' :: Text.ofInt e) =
      some ([], .ofChar 'e' :: Text.ofInt e) := by
    rw [fraction?, if_neg (by decide)]
  simp only [decimal?, hrun, hfraction, exponent?_ofInt, Option.bind_eq_bind, Option.bind_some,
    List.append_nil, hvalue]
  simp

def numeral (negative : Bool) (d : Decimal) : Text :=
  (if negative then [.ofChar '-'] else []) ++
    (Text.ofNat d.coefficient ++ .ofChar 'e' :: Text.ofInt d.exponent)

theorem isWhite_of_mem_numeral (negative : Bool) (d : Decimal) :
    ∀ c ∈ numeral negative d, c.isWhite = false := by
  have hdigits : ∀ n, ∀ c ∈ Text.ofNat n, c.isWhite = false := Text.forall_mem_ofNat (by decide)
  have hexponent : ∀ c ∈ Text.ofInt d.exponent, c.isWhite = false := by
    cases d.exponent with
    | ofNat n => exact hdigits n
    | negSucc n => exact List.forall_mem_cons.mpr ⟨by decide, hdigits (n + 1)⟩
  have hsign : ∀ c ∈ (if negative then [CodePoint.ofChar '-'] else []), c.isWhite = false := by
    cases negative <;> decide
  exact List.forall_mem_append.mpr ⟨hsign, List.forall_mem_append.mpr ⟨hdigits _,
    List.forall_mem_cons.mpr ⟨by decide, hexponent⟩⟩⟩

theorem real?_numeral (negative : Bool) (d : Decimal) :
    real? (numeral negative d) = some (.ofMagnitude negative d.toRat) := by
  have hstrip : (numeral negative d).strip CodePoint.isWhite = numeral negative d :=
    Text.strip_eq_self (isWhite_of_mem_numeral negative d)
  have hsign : takeSign (numeral negative d) =
      (negative, Text.ofNat d.coefficient ++ .ofChar 'e' :: Text.ofInt d.exponent) := by
    cases negative with
    | true => rfl
    | false => exact takeSign_ofNat _ _
  have hword : ∀ word : Text, (∃ e ∈ word.head?, 0x61 ≤ e.value ∧ e.value ≤ 0x7A) →
      Text.smalls (Text.ofNat d.coefficient ++ .ofChar 'e' :: Text.ofInt d.exponent) ≠ word := by
    obtain ⟨_, hrun, -⟩ := exists_isRun_ofNat d.coefficient
    exact fun word => hrun.smalls_ne _
  rw [real?, hstrip, hsign]
  dsimp only
  rw [if_neg (not_or.mpr ⟨hword _ ⟨_, rfl, by decide⟩, hword _ ⟨_, rfl, by decide⟩⟩),
    if_neg (hword _ ⟨_, rfl, by decide⟩), decimal?_eq, Decimal.ofDecimal_eq_ofMagnitude]

/-- Every finite number is read from some text. -/
theorem exists_real? {x : Binary64} (h : x.isFinite = true) : ∃ t, real? t = some x := by
  cases x with
  | finite negative rank =>
    exact ⟨_, (real?_numeral negative (.shortest rank)).trans
      (congrArg some (Decimal.ofMagnitude_shortest negative rank))⟩
  | _ => cases h

end Numeral
end TrioScore
