import TrioScore.Json.Reader
import TrioScore.Proofs.Json.Numeral
import TrioScore.Proofs.Json.Text
import TrioScore.Text.DecimalDigit

/-!
# Tokens of printed documents

What is printed for a scalar, a text or a mark is scanned as one token, up to what follows. A
numeral ends where a character follows that no numeral has.
-/

namespace TrioScore

/-- A number as reading gives it: an integer has no more digits than a numeral may have. -/
def Number.IsReadable : Number → Prop
  | int n => (Nat.toDigits 10 n.natAbs).length ≤ digitLimit
  | real _ => True

namespace Json.Token

/-- What follows does not go on a numeral. -/
def EndsNumeral (s : List Char) : Prop := ∀ c ∈ s.head?, isNumeric c = false

theorem isSpace_eq_false {c : Char} (h : isNumeric c = true) : isSpace c = false := by
  rw [isSpace, Bool.eq_false_iff]
  intro hspace
  simp only [Bool.or_eq_true, decide_eq_true_eq] at hspace
  rcases hspace with ((rfl | rfl) | rfl) | rfl <;> cases h

theorem scanWord?_of_mem {first : Char} {word : List Char} {value : Json}
    (h : (first, word, value) ∈ words) (s : List Char) :
    scanWord? first (word ++ s) = some (scalar value, s) := by
  simp only [words, List.mem_cons, Prod.mk.injEq, List.not_mem_nil, or_false] at h
  rcases h with ⟨rfl, rfl, rfl⟩ | ⟨rfl, rfl, rfl⟩ | ⟨rfl, rfl, rfl⟩ | ⟨rfl, rfl, rfl⟩ |
    ⟨rfl, rfl, rfl⟩ | ⟨rfl, rfl, rfl⟩ <;> rfl

theorem scanWord?_eq_none {c : Char} {s : List Char}
    (h : ∀ entry ∈ words, entry.1 = c → entry.2.1.isPrefixOf s = false) : scanWord? c s = none := by
  refine List.findSome?_eq_none_iff.mpr ?_
  rintro ⟨first, word, value⟩ hmem
  dsimp only
  split_ifs with hfirst
  · rw [dropWord?, h _ hmem hfirst]
    rfl
  · rfl

theorem scan?_of_ne (digitLimit : Option ℕ) {c : Char} (h : c ∉ ['[', ']', '{', '}', ',', ':', '"'])
    (s : List Char) :
    scan? digitLimit c s = (scanWord? c s).or (scanNumber? digitLimit c s) := by
  unfold scan?
  split <;> simp_all
  cases scanWord? c s <;> rfl

theorem scan?_word (digitLimit : Option ℕ) {first : Char} {word : List Char} {value : Json}
    (h : (first, word, value) ∈ words) (s : List Char) :
    scan? digitLimit first (word ++ s) = some (scalar value, s) := by
  have hfirst : ∀ entry ∈ words, entry.1 ∉ ['[', ']', '{', '}', ',', ':', '"'] := by
    simp only [words, List.forall_mem_cons]
    decide
  rw [scan?_of_ne digitLimit (hfirst _ h), scanWord?_of_mem h]
  rfl

/-- No word begins like a numeral: the one that begins with a minus goes on with a letter. -/
theorem scanWord?_numeral {n : Numeral} (h : n.IsWritten) {negative : Bool} {c : Char}
    {s : List Char} (hs : Layout.signChars negative ++ n.chars = c :: s) (rest : List Char) :
    scanWord? c (s ++ rest) = none := by
  have hwords : ∀ entry ∈ words, isNumeric entry.1 = false ∨
      entry.1 = '-' ∧ entry.2.1 = 'I' :: "nfinity".toList := by
    simp only [words, List.forall_mem_cons]
    decide
  have hc : isNumeric c = true :=
    h.isNumeric_of_mem negative c (hs ▸ List.mem_cons_self ..)
  refine scanWord?_eq_none fun entry hmem hfirst => ?_
  rcases hwords entry hmem with hnumeric | ⟨hminus, hword⟩
  · rw [hfirst, hc] at hnumeric
    cases hnumeric
  · obtain ⟨d, t, ht, hd⟩ := h.exists_chars_eq_cons
    cases negative with
    | false =>
      obtain ⟨rfl, -⟩ := List.cons.inj (ht.symm.trans hs)
      rw [← hfirst, hminus] at hd
      cases hd
    | true =>
      have htail : s = d :: t := (List.cons.inj hs).2.symm.trans ht
      have hne : ('I' == d) = false := beq_eq_false_iff_ne.mpr fun he => by
        rw [← he] at hd
        cases hd
      rw [hword, htail, List.cons_append, List.isPrefixOf_cons_cons, hne, Bool.false_and]

theorem scan?_numeral {n : Numeral} (h : n.IsWritten) (digitLimit : Option ℕ) {negative : Bool}
    {c : Char} {s : List Char} (hs : Layout.signChars negative ++ n.chars = c :: s)
    {rest : List Char} (hrest : EndsNumeral rest) :
    scan? digitLimit c (s ++ rest) =
      (n.number? digitLimit negative).map fun x => (scalar (number x), rest) := by
  have hnumeric := h.isNumeric_of_mem negative
  rw [hs] at hnumeric
  obtain ⟨hc, htail⟩ := List.forall_mem_cons.mp hnumeric
  have hmarks : ['[', ']', '{', '}', ',', ':', '"'].all (fun mark => !isNumeric mark) = true := by
    decide
  have hmark : c ∉ ['[', ']', '{', '}', ',', ':', '"'] := by
    intro hmem
    have hnot := List.all_eq_true.mp hmarks c hmem
    rw [hc] at hnot
    cases hnot
  obtain ⟨htake, hdrop⟩ := span_append htail rest hrest
  rw [scan?_of_ne digitLimit hmark, scanWord?_numeral h hs, Option.none_or, scanNumber?, htake,
    hdrop, ← hs, h.number?_chars]

theorem scan?_numberChars {x : Number} (h : x.IsReadable) {rest : List Char}
    (hrest : EndsNumeral rest) : ∃ c s, numberChars x = c :: s ∧ isSpace c = false ∧
      scan? (some digitLimit) c (s ++ rest) = some (scalar (number x), rest) := by
  have hnumeral : ∀ {n : Numeral} {negative : Bool}, n.IsWritten →
      numberChars x = Layout.signChars negative ++ n.chars →
      n.number? (some digitLimit) negative = some x → ∃ c s, numberChars x = c :: s ∧
        isSpace c = false ∧
        scan? (some digitLimit) c (s ++ rest) = some (scalar (number x), rest) := by
    intro n negative hn hchars hx
    obtain ⟨d, t, ht, -⟩ := hn.exists_chars_eq_cons
    have hne : Layout.signChars negative ++ n.chars ≠ [] :=
      List.append_ne_nil_of_right_ne_nil _ (ht ▸ List.cons_ne_nil d t)
    obtain ⟨c, s, hs⟩ := List.exists_cons_of_ne_nil hne
    refine ⟨c, s, hchars.trans hs, ?_, ?_⟩
    · exact isSpace_eq_false (hn.isNumeric_of_mem negative c (hs ▸ List.mem_cons_self ..))
    · rw [scan?_numeral hn (some digitLimit) hs hrest, hx]
      rfl
  have hword : ∀ (first : Char) (word : List Char), numberChars x = first :: word →
      (first, word, number x) ∈ words → isSpace first = false → ∃ c s, numberChars x = c :: s ∧
        isSpace c = false ∧
        scan? (some digitLimit) c (s ++ rest) = some (scalar (number x), rest) :=
    fun _ _ hchars hmem hspace => ⟨_, _, hchars, hspace, scan?_word _ hmem rest⟩
  match x with
  | .int n =>
    exact hnumeral (Numeral.isWritten_ofNat n.natAbs) (Numeral.integerChars_eq n)
      (Numeral.number?_ofNat h)
  | .real .nan =>
    exact hword 'N' "aN".toList rfl (by simp [words, ofBinary64]) rfl
  | .real (.infinity true) =>
    exact hword '-' "Infinity".toList rfl (by simp [words, ofBinary64]) rfl
  | .real (.infinity false) =>
    exact hword 'I' "nfinity".toList rfl (by simp [words, ofBinary64]) rfl
  | .real (.finite negative rank) =>
    obtain ⟨n, hn, hchars, hx⟩ := Numeral.exists_numeral_shortest (some digitLimit) negative rank
    exact hnumeral hn (by rw [hchars]; rfl) hx

end Json.Token
end TrioScore
