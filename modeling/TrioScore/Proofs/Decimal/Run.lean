import TrioScore.Decimal.Numeral
import TrioScore.Proofs.Meter.Written
import TrioScore.Proofs.Text.Trim

/-!
# Runs of digits

A run is digits of any script, with single underscores between some of them. The reader of numerals
takes a run as a whole, up to what is in no run, and it takes no run for a sign or a word.
-/

namespace TrioScore

theorem ofDigits_concat (digits : List ℕ) (d : ℕ) :
    ofDigits (digits ++ [d]) = 10 * ofDigits digits + d := by
  rw [ofDigits, List.foldl_append]
  rfl

namespace Numeral

/-- Digits with single underscores between some of them, and the values of the digits. -/
inductive IsRun : Text → List ℕ → Prop
  | last {c : CodePoint} {d : ℕ} (h : c.digit? = some d) : IsRun [c] [d]
  | cons {c : CodePoint} {d : ℕ} {t : Text} {ds : List ℕ} (h : c.digit? = some d)
      (ht : IsRun t ds) : IsRun (c :: t) (d :: ds)
  | spaced {c : CodePoint} {d : ℕ} {t : Text} {ds : List ℕ} (h : c.digit? = some d)
      (ht : IsRun t ds) : IsRun (c :: .ofChar '_' :: t) (d :: ds)

theorem isDigit_ne {c e : CodePoint} (hc : c.isDigit = true) (he : e.isDigit = false) : c ≠ e := by
  rintro rfl
  rw [hc] at he
  cases he

section Run
variable {t : Text} {ds : List ℕ} (h : IsRun t ds)
include h

theorem IsRun.concat {c : CodePoint} {d : ℕ} (hc : c.digit? = some d) :
    IsRun (t ++ [c]) (ds ++ [d]) := by
  induction h with
  | last h => exact .cons h (.last hc)
  | cons h _ ih => exact .cons h ih
  | spaced h _ ih => exact .spaced h ih

theorem IsRun.exists_cons : ∃ c rest, t = c :: rest ∧ c.isDigit = true := by
  rcases h with ⟨hc⟩ | ⟨hc, -⟩ | ⟨hc, -⟩
  all_goals exact ⟨_, _, rfl, Option.isSome_iff_exists.mpr ⟨_, hc⟩⟩

theorem IsRun.exists_digits : ∃ d rest, ds = d :: rest := by
  cases h <;> exact ⟨_, _, rfl⟩

theorem IsRun.inRun_of_mem : ∀ c ∈ t, inRun c = true := by
  have hdigit : ∀ {c : CodePoint} {d : ℕ}, c.digit? = some d → inRun c = true := by
    intro c d hc
    rw [inRun, CodePoint.isDigit, hc]
    rfl
  induction h with
  | last hc => exact List.forall_mem_singleton.mpr (hdigit hc)
  | cons hc _ ih => exact List.forall_mem_cons.mpr ⟨hdigit hc, ih⟩
  | spaced hc _ ih =>
    exact List.forall_mem_cons.mpr ⟨hdigit hc, List.forall_mem_cons.mpr ⟨by decide, ih⟩⟩

theorem IsRun.filterMap_digit? : t.filterMap CodePoint.digit? = ds := by
  induction h with
  | last hc => rw [List.filterMap_cons_some hc, List.filterMap_nil]
  | cons hc _ ih => rw [List.filterMap_cons_some hc, ih]
  | spaced hc _ ih =>
    rw [List.filterMap_cons_some hc, List.filterMap_cons_none (by decide), ih]

theorem IsRun.isSpaced (after : Bool) : isSpaced after t = true := by
  have hplain : ∀ {c : CodePoint} {d : ℕ}, c.digit? = some d → c ≠ .ofChar '_' := fun hc =>
    isDigit_ne (Option.isSome_iff_exists.mpr ⟨_, hc⟩) (by decide)
  induction h generalizing after with
  | last hc => rw [Numeral.isSpaced, if_neg (hplain hc), Numeral.isSpaced]
  | cons hc _ ih => rw [Numeral.isSpaced, if_neg (hplain hc), ih]
  | spaced hc _ ih =>
    rw [Numeral.isSpaced, if_neg (hplain hc), Numeral.isSpaced, if_pos rfl, ih, Bool.and_self]

/-- A run is taken as a whole, up to what is in no run. -/
theorem IsRun.digitRun? {rest : Text} (hrest : ∀ c ∈ rest.head?, inRun c = false) :
    digitRun? (t ++ rest) = some (ds, rest) := by
  obtain ⟨htake, hdrop⟩ := span_append h.inRun_of_mem rest hrest
  simp only [Numeral.digitRun?, htake, hdrop, h.isSpaced, Bool.or_true, if_true,
    h.filterMap_digit?]

theorem IsRun.isBlank_of_mem : ∀ c ∈ t, c.isBlank = false := by
  intro c hc
  have hrun := h.inRun_of_mem c hc
  rw [inRun, Bool.or_eq_true, decide_eq_true_eq] at hrun
  rcases hrun with hdigit | rfl
  · exact CodePoint.isBlank_of_isDigit hdigit
  · decide

theorem IsRun.takeSign (rest : Text) : takeSign (t ++ rest) = (false, t ++ rest) := by
  obtain ⟨c, t, rfl, hc⟩ := h.exists_cons
  rw [List.cons_append, Numeral.takeSign, if_neg (isDigit_ne hc (by decide)),
    if_neg (isDigit_ne hc (by decide))]

/-- A word for infinity or NaN does not begin with a digit. -/
theorem IsRun.smalls_ne (rest : Text) {word : Text}
    (hword : ∃ e ∈ word.head?, 0x61 ≤ e.value ∧ e.value ≤ 0x7A) :
    Text.smalls (t ++ rest) ≠ word := by
  rintro rfl
  obtain ⟨c, t, rfl, hc⟩ := h.exists_cons
  obtain ⟨e, he, hlow, hhigh⟩ := hword
  obtain rfl : c.small = e := Option.some.inj he
  obtain ⟨first, hfirst, h₁, h₂⟩ := CodePoint.isDigit_iff.mp hc
  have hapart : ∀ first ∈ digitZeros, first + 10 ≤ 0x41 ∨ 0x7A < first := by decide
  have := hapart first hfirst
  unfold CodePoint.small at hlow hhigh
  split_ifs at hlow hhigh
  all_goals omega

end Run

end Numeral
end TrioScore
