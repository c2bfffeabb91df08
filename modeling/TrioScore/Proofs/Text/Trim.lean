import TrioScore.Text.Blank
import TrioScore.Text.Integer
import Mathlib.Data.List.DropRight

/-!
# Trimmed texts

A text is trimmed when it neither begins nor ends with a blank. Trimming gives a trimmed text, and
the trimmed texts are those that trimming leaves as they are.
-/

namespace TrioScore

theorem span_append {α : Type} {p : α → Bool} {run : List α} (h : ∀ a ∈ run, p a = true)
    (rest : List α) (hr : ∀ a ∈ rest.head?, p a = false) :
    (run ++ rest).takeWhile p = run ∧ (run ++ rest).dropWhile p = rest := by
  rw [List.takeWhile_append_of_pos h, List.dropWhile_append_of_pos h]
  cases rest with
  | nil => simp
  | cons a rest => simp [hr a rfl]

def Text.IsTrimmed (t : Text) : Prop :=
  ∀ h : t ≠ [], (t.head h).isBlank = false ∧ (t.getLast h).isBlank = false

namespace Text

theorem isTrimmed_nil : IsTrimmed [] := fun h => (h rfl).elim

theorem trim_eq_rdropWhile (t : Text) :
    t.trim = (t.dropWhile CodePoint.isBlank).rdropWhile CodePoint.isBlank := rfl

theorem isTrimmed_trim (t : Text) : t.trim.IsTrimmed := by
  intro h
  rw [trim_eq_rdropWhile] at h
  have hp := List.rdropWhile_prefix CodePoint.isBlank (t.dropWhile CodePoint.isBlank)
  have hne : t.dropWhile CodePoint.isBlank ≠ [] := fun he => h (by rw [he]; rfl)
  refine ⟨?_, ?_⟩
  · have hhead : t.trim.head h = (t.dropWhile CodePoint.isBlank).head hne := hp.head h
    rw [hhead]
    exact List.head_dropWhile_not _ hne
  · exact Bool.eq_false_iff.mpr (List.rdropWhile_last_not _ _ h)

theorem trim_eq_self {t : Text} (h : t.IsTrimmed) : t.trim = t := by
  cases t with
  | nil => rfl
  | cons c t =>
    obtain ⟨hc, hl⟩ := h (List.cons_ne_nil c t)
    have hd : (c :: t).dropWhile CodePoint.isBlank = c :: t :=
      List.dropWhile_cons_of_neg (Bool.eq_false_iff.mp hc)
    rw [trim_eq_rdropWhile, hd]
    exact List.rdropWhile_eq_self_iff.mpr fun _ => Bool.eq_false_iff.mp hl

theorem trim_eq_self_iff {t : Text} : t.trim = t ↔ t.IsTrimmed :=
  ⟨fun h => h ▸ isTrimmed_trim t, trim_eq_self⟩

/-- A text of blanks is one that has nothing left when trimmed. -/
theorem trim_eq_nil_iff {t : Text} : t.trim = [] ↔ t.isBlank = true := by
  rw [trim_eq_rdropWhile, List.rdropWhile_eq_nil_iff, isBlank, List.all_eq_true]
  refine ⟨fun h => ?_, fun h c hc => h c (List.dropWhile_subset _ hc)⟩
  have hnil : t.dropWhile CodePoint.isBlank = [] := by
    by_contra hne
    have hb := h _ (List.head_mem hne)
    rw [List.head_dropWhile_not CodePoint.isBlank hne] at hb
    exact Bool.false_ne_true hb
  exact fun c hc => List.dropWhile_eq_nil_iff.mp hnil c hc

theorem isBlank_eq_false {t : Text} (h : t.IsTrimmed) (hne : t ≠ []) : t.isBlank = false := by
  rw [← Bool.not_eq_true, ← trim_eq_nil_iff, trim_eq_self h]
  exact hne

/-- What is printed in ASCII is no blank. -/
theorem isBlank_eq_false_of_printed {c : CodePoint} (h₁ : 0x21 ≤ c.value) (h₂ : c.value ≤ 0x7E) :
    c.isBlank = false := by
  simp only [CodePoint.isBlank, CodePoint.isWhite, CodePoint.isSeparator, whiteRanges,
    List.any_cons, List.any_nil, Bool.or_eq_false_iff, Bool.and_eq_false_iff,
    decide_eq_false_iff_not, and_true]
  omega

theorem isBlank_of_mem_ofNat {n : ℕ} {c : CodePoint} (h : c ∈ ofNat n) : c.isBlank = false := by
  obtain ⟨d, hd, rfl⟩ := List.mem_map.mp h
  have hdigit := Nat.isDigit_of_mem_toDigits (by decide) (by decide) hd
  have hv : (CodePoint.ofChar d).value = d.val.toNat := rfl
  simp only [Char.isDigit, Bool.and_eq_true, decide_eq_true_eq, ge_iff_le, UInt32.le_iff_toNat_le]
    at hdigit
  have h0 : '0'.val.toNat = 48 := rfl
  have h9 : '9'.val.toNat = 57 := rfl
  apply isBlank_eq_false_of_printed <;> omega

theorem ofNat_ne_nil (n : ℕ) : ofNat n ≠ [] := by
  simp [ofNat, ofChars, Nat.toDigits_ne_nil]

end Text
end TrioScore
