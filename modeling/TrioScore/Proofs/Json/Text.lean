import TrioScore.Json.Printer
import TrioScore.Json.Token
import TrioScore.Proofs.Text.Found
import Mathlib.Data.List.Chain

/-!
# Texts of documents

A text is printed unit by unit in UTF-16 and read with the surrogate pairs joined. Reading never
leaves a pair apart, and a text without pairs that stand apart is read back from its print.
-/

namespace TrioScore

/-- No two neighbours are the halves of a surrogate pair. -/
def Text.IsJoined (t : Text) : Prop :=
  t.IsChain fun c d => ¬ (c.isHighSurrogate = true ∧ d.isLowSurrogate = true)

instance (t : Text) : Decidable t.IsJoined := inferInstanceAs (Decidable (List.IsChain _ t))

namespace Json

/-- The units of a code point, each as a code point of its own. -/
def units (c : CodePoint) : Text :=
  if h : c.value < 0x10000 then [c]
  else
    have := c.value_lt
    [⟨0xD800 + (c.value - 0x10000) / 0x400, by omega⟩,
      ⟨0xDC00 + (c.value - 0x10000) % 0x400, by omega⟩]

namespace Token

theorem hexDigit?_digitChar {n : ℕ} (h : n < 16) : hexDigit? (Nat.digitChar n) = some n := by
  have hall : ∀ n < 16, hexDigit? (Nat.digitChar n) = some n := by decide
  exact hall n h

theorem scanText_unitChars (read : Text) {n : ℕ} (h : n < 0x10000) (s : List Char) :
    scanText read (unitChars n ++ s) = scanText (⟨n, by omega⟩ :: read) s := by
  have hdigit (k : ℕ) : hexDigit? (Nat.digitChar (n / k % 16)) = some (n / k % 16) :=
    hexDigit?_digitChar (Nat.mod_lt _ (by decide))
  have hn : ((n / 4096 % 16 * 16 + n / 256 % 16) * 16 + n / 16 % 16) * 16 + n / 1 % 16 = n := by
    omega
  have hpoint : n < 0x110000 := by omega
  simp only [unitChars, List.cons_append, List.nil_append, scanText, fourDigits?, hdigit,
    Option.bind_eq_bind, Option.bind_some, hn, codePoint?, dif_pos hpoint]

theorem scanText_plain (read : Text) {c : Char} (hq : c ≠ '"') (hb : c ≠ '\\')
    (h : 0x20 ≤ c.toNat) (s : List Char) :
    scanText read (c :: s) = scanText (.ofChar c :: read) s := by
  rw [scanText.eq_def]
  split <;> simp_all

theorem scanText_escape (read : Text) {e : Char} {c : CodePoint} (hu : e ≠ 'u')
    (h : escape? e = some c) (s : List Char) :
    scanText read ('\\' :: e :: s) = scanText (c :: read) s := by
  rw [scanText.eq_def]
  split <;> grind

theorem units_of_lt {c : CodePoint} (h : c.value < 0x10000) : units c = [c] := dif_pos h

/-- The print of a code point is read as its units. -/
theorem scanText_pointChars (read : Text) (c : CodePoint) (s : List Char) :
    scanText read (pointChars c ++ s) = scanText ((units c).reverse ++ read) s := by
  have hescape : ∀ {e : Char}, e ≠ 'u' → escape? e = some c → c.value < 0x10000 →
      scanText read (['\\', e] ++ s) = scanText ((units c).reverse ++ read) s := by
    intro e hu he hc
    rw [units_of_lt hc]
    exact scanText_escape read hu he s
  unfold pointChars
  split_ifs with hquote hback hline hreturn htab hfeed hbell hplain hsmall
  · exact hescape (by decide) (hquote ▸ rfl) (hquote ▸ by decide)
  · exact hescape (by decide) (hback ▸ rfl) (hback ▸ by decide)
  · exact hescape (by decide) (hline ▸ rfl) (hline ▸ by decide)
  · exact hescape (by decide) (hreturn ▸ rfl) (hreturn ▸ by decide)
  · exact hescape (by decide) (htab ▸ rfl) (htab ▸ by decide)
  · exact hescape (by decide) (hfeed ▸ rfl) (hfeed ▸ by decide)
  · exact hescape (by decide) (hbell ▸ rfl) (hbell ▸ by decide)
  · have hpoint := ofChar_ofNat (c := c) (by omega)
    have hlow : 0x20 ≤ (CodePoint.ofChar (Char.ofNat c.value)).value := by
      rw [hpoint]
      exact hplain.1
    rw [units_of_lt (by omega)]
    refine (scanText_plain read ?_ ?_ hlow s).trans (by rw [hpoint]; rfl)
    · exact fun he => hquote (hpoint ▸ congrArg _ he)
    · exact fun he => hback (hpoint ▸ congrArg _ he)
  · rw [units_of_lt hsmall]
    exact scanText_unitChars read hsmall s
  · have := c.value_lt
    rw [List.append_assoc, scanText_unitChars read (by omega), scanText_unitChars _ (by omega),
      units, dif_neg hsmall]
    rfl

theorem scanText_flatMap_pointChars (read t : Text) (s : List Char) :
    scanText read (t.flatMap pointChars ++ s) = scanText ((t.flatMap units).reverse ++ read) s := by
  induction t generalizing read with
  | nil => rfl
  | cons c t ih =>
    rw [List.flatMap_cons, List.append_assoc, scanText_pointChars, ih, List.flatMap_cons,
      List.reverse_append, List.append_assoc]

/-- A code point that makes no pair with the first one stays before it. -/
theorem joinPair_eq_cons {c : CodePoint} {t : Text}
    (h : ∀ d ∈ t.head?, ¬ (c.isHighSurrogate = true ∧ d.isLowSurrogate = true)) :
    joinPair c t = c :: t := by
  cases t with
  | nil => rfl
  | cons d t =>
    have hd : (c.isHighSurrogate && d.isLowSurrogate) = false := by simpa using h d rfl
    rw [joinPair, if_neg (by simp [hd])]

/-- The halves of a pair are joined to the code point that has them as units. -/
theorem joinPair_eq_of_pair {c d : CodePoint} (hc : c.isHighSurrogate = true)
    (hd : d.isLowSurrogate = true) (t : Text) : ∃ e : CodePoint,
      0x10000 ≤ e.value ∧ e.value = 0x10000 + (c.value - 0xD800) * 0x400 + (d.value - 0xDC00) ∧
        joinPair c (d :: t) = e :: t := by
  have hrange : 0x10000 + (c.value - 0xD800) * 0x400 + (d.value - 0xDC00) < 0x110000 := by
    simp only [CodePoint.isHighSurrogate, CodePoint.isLowSurrogate, Bool.and_eq_true,
      decide_eq_true_eq] at hc hd
    omega
  refine ⟨⟨_, hrange⟩, by simp only; omega, rfl, ?_⟩
  rw [joinPair, if_pos (by simp [hc, hd]), codePoint?, dif_pos hrange]

theorem isHighSurrogate_eq_false {c : CodePoint} (h : 0xDC00 ≤ c.value) :
    c.isHighSurrogate = false := by
  simp only [CodePoint.isHighSurrogate, Bool.and_eq_false_iff, decide_eq_false_iff_not]
  omega

theorem isJoined_joinPair (c : CodePoint) {t : Text} (h : t.IsJoined) :
    (joinPair c t).IsJoined := by
  by_cases hpair : ∀ d ∈ t.head?, ¬ (c.isHighSurrogate = true ∧ d.isLowSurrogate = true)
  · rw [joinPair_eq_cons hpair]
    exact List.isChain_cons.mpr ⟨hpair, h⟩
  · push Not at hpair
    obtain ⟨d, hd, hc, hlow⟩ := hpair
    obtain ⟨t, rfl⟩ := List.head?_eq_some_iff.mp hd
    obtain ⟨e, he, -, hjoin⟩ := joinPair_eq_of_pair hc hlow t
    rw [hjoin]
    refine List.isChain_cons.mpr ⟨fun x _ hx => ?_, h.tail⟩
    rw [isHighSurrogate_eq_false (by omega)] at hx
    exact Bool.false_ne_true hx.1

theorem isJoined_joinPairs (t : Text) : (joinPairs t).IsJoined := by
  induction t with
  | nil => exact List.isChain_nil
  | cons c t ih => exact isJoined_joinPair c ih

theorem joinPairs_units_append (c : CodePoint) {t : Text} (h : Text.IsJoined (c :: joinPairs t)) :
    joinPairs (units c ++ t) = c :: joinPairs t := by
  unfold units
  split_ifs with hc
  · exact joinPair_eq_cons h.rel_head?
  · have := c.value_lt
    have hlow : ∀ {d : CodePoint}, 0xDC00 ≤ d.value → joinPair d (joinPairs t) = d :: joinPairs t :=
      fun hd => joinPair_eq_cons fun x _ hx =>
        Bool.false_ne_true (isHighSurrogate_eq_false hd ▸ hx.1)
    obtain ⟨e, -, he, hjoin⟩ := joinPair_eq_of_pair
      (c := ⟨0xD800 + (c.value - 0x10000) / 0x400, by omega⟩)
      (d := ⟨0xDC00 + (c.value - 0x10000) % 0x400, by omega⟩)
      (by simp [CodePoint.isHighSurrogate]; omega) (by simp [CodePoint.isLowSurrogate]; omega)
      (joinPairs t)
    have hec : e = c := by
      obtain ⟨v, hv⟩ := e
      obtain rfl : v = c.value := by
        simp only at he
        omega
      rfl
    calc
      joinPairs _ = joinPair _ (joinPair _ (joinPairs t)) := rfl
      _ = c :: joinPairs t := by rw [hlow (by simp), hjoin, hec]

/-- A text without pairs that stand apart is made of its units again. -/
theorem joinPairs_units {t : Text} (h : t.IsJoined) : joinPairs (t.flatMap units) = t := by
  induction t with
  | nil => rfl
  | cons c t ih =>
    have ht := ih h.tail
    rw [List.flatMap_cons, joinPairs_units_append c (by rwa [ht]), ht]

theorem scanText_textChars {t : Text} (h : t.IsJoined) (s : List Char) :
    scanText [] (t.flatMap pointChars ++ '"' :: s) = some (t, s) := by
  rw [scanText_flatMap_pointChars, List.append_nil, scanText, List.reverse_reverse,
    joinPairs_units h]

theorem isJoined_of_scanText {read t : Text} {s rest : List Char}
    (h : scanText read s = some (t, rest)) : t.IsJoined := by
  fun_induction scanText read s
  case case2 =>
    obtain ⟨rfl, -⟩ := Prod.mk.inj (Option.some.inj h)
    exact isJoined_joinPairs _
  case case4 ih | case6 ih | case9 ih => exact ih h
  all_goals cases h

end Token
end Json
end TrioScore
