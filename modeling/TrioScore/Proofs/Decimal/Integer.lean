import TrioScore.Proofs.Decimal.Spelled

/-!
# Spelled integers

A text spells an integer when it is a sign, if any, and a run of digits with blanks around the two.
The digits may be of any script, zeros may stand in front, and single underscores may stand between
digits. Up to the limit of digits such a text is read as the integer; beyond it the text is read as
the nearest binary64, which is infinite where the integer is out of range.
-/

namespace TrioScore

theorem CodePoint.isWhite_of_isBlank {c : CodePoint} (h : c.isBlank = false) : c.isWhite = false :=
  (Bool.or_eq_false_iff.mp h).1

theorem Text.trim_append_append {b₁ u b₂ : Text} (h₁ : b₁.isBlank = true) (h₂ : b₂.isBlank = true)
    (hu : ∀ c ∈ u, c.isBlank = false) (hne : u ≠ []) : (b₁ ++ (u ++ b₂)).trim = u := by
  have hfront : (b₁ ++ (u ++ b₂)).dropWhile CodePoint.isBlank = u ++ b₂ := by
    refine Text.trimStart_append h₁ (u ++ b₂) fun c hc => ?_
    rw [List.head?_append_of_ne_nil _ hne] at hc
    exact hu c (List.mem_of_mem_head? hc)
  have hback : (u ++ b₂).reverse.dropWhile CodePoint.isBlank = u.reverse := by
    rw [List.reverse_append]
    refine Text.trimStart_append (b := b₂.reverse) ?_ u.reverse fun c hc => ?_
    · rw [isBlank, List.all_reverse]
      exact h₂
    · exact hu c (List.mem_reverse.mp (List.mem_of_mem_head? hc))
  rw [trim, strip, hfront, hback, List.reverse_reverse]

namespace Numeral

/-- A sign in front of a numeral, and whether it is a minus. -/
inductive IsSign : Text → Bool → Prop
  | none : IsSign [] false
  | plus : IsSign [.ofChar '+'] false
  | minus : IsSign [.ofChar '-'] true

/-- The text spells the integer with these digits. -/
def SpellsInt (t : Text) (n : ℤ) (digits : List ℕ) : Prop :=
  ∃ (b₁ sign run b₂ : Text) (negative : Bool), b₁.isBlank = true ∧ b₂.isBlank = true ∧
    IsSign sign negative ∧ IsRun run digits ∧ t = b₁ ++ ((sign ++ run) ++ b₂) ∧
    n = signed negative (ofDigits digits)

theorem IsSign.isBlank_of_mem {sign : Text} {negative : Bool} (h : IsSign sign negative) :
    ∀ c ∈ sign, c.isBlank = false := by
  cases h <;> decide

theorem takeSign_append {sign run : Text} {negative : Bool} {ds : List ℕ}
    (hs : IsSign sign negative) (hr : IsRun run ds) : takeSign (sign ++ run) = (negative, run) := by
  cases hs with
  | none => simpa using hr.takeSign []
  | plus => rfl
  | minus => rfl

section Spelled
variable {t : Text} {n : ℤ} {digits : List ℕ} (h : SpellsInt t n digits)
include h

theorem SpellsInt.exists_trim : ∃ (sign run : Text) (negative : Bool), t.trim = sign ++ run ∧
    (sign ++ run).strip CodePoint.isWhite = sign ++ run ∧ IsSign sign negative ∧
    IsRun run digits ∧ n = signed negative (ofDigits digits) := by
  obtain ⟨b₁, sign, run, b₂, negative, h₁, h₂, hs, hr, rfl, hn⟩ := h
  have hplain : ∀ c ∈ sign ++ run, c.isBlank = false :=
    List.forall_mem_append.mpr ⟨hs.isBlank_of_mem, hr.isBlank_of_mem⟩
  obtain ⟨c, rest, hrun, -⟩ := hr.exists_cons
  have hne : sign ++ run ≠ [] := by simp [hrun]
  exact ⟨sign, run, negative, Text.trim_append_append h₁ h₂ hplain hne,
    Text.strip_eq_self fun c hc => CodePoint.isWhite_of_isBlank (hplain c hc), hs, hr, hn⟩

/-- How a spelled integer is read: as itself while its digits are few enough, else as the nearest
binary64. -/
theorem SpellsInt.number?_trim : ∃ negative : Bool, n = signed negative (ofDigits digits) ∧
    number? t.trim = some (if digits.length ≤ digitLimit then .int n
      else .real (.ofMagnitude negative (ofDigits digits : ℕ))) := by
  obtain ⟨sign, run, negative, htrim, hstrip, hs, hr, hn⟩ := h.exists_trim
  have hsign := takeSign_append hs hr
  have hrun := @IsRun.digitRun? run digits hr [] (by simp)
  rw [List.append_nil] at hrun
  have hword : ∀ word : Text, (∃ e ∈ word.head?, 0x61 ≤ e.value ∧ e.value ≤ 0x7A) →
      run.smalls ≠ word := fun word hw => by simpa using hr.smalls_ne [] hw
  obtain ⟨d, ds, rfl⟩ := hr.exists_digits
  refine ⟨negative, hn, ?_⟩
  have hinteger : integer? t.trim =
      if digitLimit < (d :: ds).length then none else some n := by
    rw [integer?, htrim, hstrip, hsign]
    simp only [hrun, hn]
  have hreal : real? t.trim = some (.ofMagnitude negative (ofDigits (d :: ds) : ℕ)) := by
    have hfraction : fraction? [] = some ([], []) := rfl
    have hexponent : exponent? [] = some 0 := rfl
    rw [real?, htrim, hstrip, hsign]
    dsimp only
    rw [if_neg (not_or.mpr ⟨hword _ ⟨_, rfl, by decide⟩, hword _ ⟨_, rfl, by decide⟩⟩),
      if_neg (hword _ ⟨_, rfl, by decide⟩)]
    simp only [decimal?, hrun, hfraction, hexponent, Option.bind_eq_bind, Option.bind_some,
      List.isEmpty_cons, Bool.false_and, Bool.false_eq_true, if_false, List.append_nil,
      List.length_nil, Nat.cast_zero, sub_zero, Binary64.ofDecimal_eq, zpow_zero, mul_one]
  rw [number?, hinteger, hreal]
  split_ifs with hmany hfew
  · omega
  · rfl
  · rfl
  · omega

end Spelled
end Numeral
end TrioScore
