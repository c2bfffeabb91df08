import TrioScore.Proofs.Faults
import TrioScore.Proofs.Meter.Range
import TrioScore.Proofs.Text.Trim

/-!
# Written meters

A text writes a meter when it is two runs of digits with a stroke between them and blanks around the
three. Digits, blanks and the stroke are different code points, so the runs are those that the
reader finds, and reading fails only where one of them has too many digits.
-/

namespace TrioScore

theorem CodePoint.isDigit_iff {c : CodePoint} :
    c.isDigit = true ↔ ∃ first ∈ digitZeros, first ≤ c.value ∧ c.value < first + 10 := by
  rw [isDigit, digit?, Option.isSome_map, List.find?_isSome]
  simp only [Bool.and_eq_true, decide_eq_true_eq]

theorem CodePoint.isBlank_of_isDigit {c : CodePoint} (h : c.isDigit = true) :
    c.isBlank = false := by
  have hapart : ∀ first ∈ digitZeros, ∀ r ∈ (0x1C, 0x1F) :: whiteRanges,
      first + 10 ≤ r.1 ∨ r.2 < first := by
    decide
  obtain ⟨first, hfirst, hlow, hhigh⟩ := isDigit_iff.mp h
  have hnot : ∀ r ∈ (0x1C, 0x1F) :: whiteRanges, ¬ (r.1 ≤ c.value ∧ c.value ≤ r.2) := by
    intro r hr
    have := hapart first hfirst r hr
    omega
  obtain ⟨hseparator, hwhite⟩ := List.forall_mem_cons.mp hnot
  rw [isBlank, Bool.or_eq_false_iff, isWhite, isSeparator, List.any_eq_false]
  simp only [Bool.and_eq_true, decide_eq_true_eq, Bool.and_eq_false_iff, decide_eq_false_iff_not]
  exact ⟨hwhite, by omega⟩

def Text.IsNumeral (t : Text) : Prop := t ≠ [] ∧ ∀ c ∈ t, c.isDigit = true

/-- The number that a run of digits stands for. The digits may be those of any script. -/
def Text.value (numeral : Text) : ℕ := ofDigits (numeral.filterMap CodePoint.digit?)

theorem Text.trimStart_append {b : Text} (h : b.isBlank = true) (rest : Text)
    (hr : ∀ c ∈ rest.head?, c.isBlank = false) : (b ++ rest).trimStart = rest :=
  (span_append (List.all_eq_true.mp h) rest hr).2

theorem Text.isBlank_takeWhile (t : Text) : Text.isBlank (t.takeWhile CodePoint.isBlank) = true :=
  List.all_takeWhile

/-- A numeral does not begin with a blank. -/
theorem Text.IsNumeral.head_append {numeral : Text} (h : numeral.IsNumeral) (rest : Text) :
    ∀ c ∈ (numeral ++ rest).head?, c.isBlank = false := by
  obtain ⟨c, numeral, rfl⟩ := List.exists_cons_of_ne_nil h.1
  intro d hd
  obtain rfl := Option.some.inj hd
  exact CodePoint.isBlank_of_isDigit (h.2 c (List.mem_cons_self ..))

/-- What begins with blanks does not go on a numeral. -/
theorem Text.head_blank_append {b : Text} (hb : b.isBlank = true) (rest : Text)
    (hr : ∀ c ∈ rest.head?, c.isDigit = false) : ∀ c ∈ (b ++ rest).head?, c.isDigit = false := by
  cases b with
  | nil => exact hr
  | cons c b =>
    intro d hd
    obtain rfl := Option.some.inj hd
    have hblank : c.isBlank = true := List.all_eq_true.mp hb c (List.mem_cons_self ..)
    by_contra hdigit
    rw [CodePoint.isBlank_of_isDigit (Bool.eq_true_of_not_eq_false hdigit)] at hblank
    cases hblank

namespace Meter

/-- The text writes a meter with these two numerals. -/
def Spells (t numerator denominator : Text) : Prop :=
  numerator.IsNumeral ∧ denominator.IsNumeral ∧ ∃ b₁ b₂ b₃ b₄ : Text,
    b₁.isBlank = true ∧ b₂.isBlank = true ∧ b₃.isBlank = true ∧ b₄.isBlank = true ∧
    t = b₁ ++ (numerator ++ (b₂ ++ CodePoint.ofChar '/' :: (b₃ ++ (denominator ++ b₄))))

theorem numerals?_of_spells {t numerator denominator : Text} (h : Spells t numerator denominator) :
    numerals? t = some (numerator.filterMap CodePoint.digit?,
      denominator.filterMap CodePoint.digit?) := by
  obtain ⟨hn, hd, b₁, b₂, b₃, b₄, hb₁, hb₂, hb₃, hb₄, rfl⟩ := h
  have hstroke : (CodePoint.ofChar '/').isBlank = false ∧
      (CodePoint.ofChar '/').isDigit = false := by
    decide
  have hfirst := Text.trimStart_append hb₁ _ (hn.head_append
    (b₂ ++ CodePoint.ofChar '/' :: (b₃ ++ (denominator ++ b₄))))
  obtain ⟨hn₁, hn₂⟩ := span_append hn.2 (b₂ ++ CodePoint.ofChar '/' :: (b₃ ++ (denominator ++ b₄)))
    (Text.head_blank_append hb₂ _ fun c hc => Option.some.inj hc ▸ hstroke.2)
  have hmiddle := Text.trimStart_append hb₂ (CodePoint.ofChar '/' :: (b₃ ++ (denominator ++ b₄)))
    fun c hc => Option.some.inj hc ▸ hstroke.1
  have hsecond := Text.trimStart_append hb₃ _ (hd.head_append b₄)
  obtain ⟨hd₁, hd₂⟩ := span_append hd.2 b₄
    (by simpa using Text.head_blank_append hb₄ [] fun c hc => by cases hc)
  have hne : numerator.isEmpty = false ∧ denominator.isEmpty = false :=
    ⟨List.isEmpty_eq_false_iff.mpr hn.1, List.isEmpty_eq_false_iff.mpr hd.1⟩
  simp only [numerals?, hfirst, hn₁, hn₂, hmiddle, hsecond, hd₁, hd₂, hb₄, hne]
  rfl

theorem spells_of_numerals? {t : Text} {n d : List ℕ} (h : numerals? t = some (n, d)) :
    ∃ numerator denominator, Spells t numerator denominator ∧
      n = numerator.filterMap CodePoint.digit? ∧ d = denominator.filterMap CodePoint.digit? := by
  have hsplit : ∀ (p : CodePoint → Bool) (l : Text), l.takeWhile p ++ l.dropWhile p = l :=
    fun p l => List.takeWhile_append_dropWhile
  have htrim : ∀ l : Text, l.takeWhile CodePoint.isBlank ++ l.trimStart = l := hsplit _
  have hrun : ∀ l : Text, ∀ c ∈ l.takeWhile CodePoint.isDigit, c.isDigit = true :=
    fun l => List.all_eq_true.mp List.all_takeWhile
  unfold numerals? at h
  dsimp only at h
  split at h
  · cases h
  · next c u hu =>
    split_ifs at h with hcond
    simp only [Bool.and_eq_true, Bool.not_eq_true', List.isEmpty_eq_false_iff, decide_eq_true_eq]
      at hcond
    obtain ⟨⟨⟨rfl, hne₁⟩, hne₂⟩, hblank⟩ := hcond
    obtain ⟨rfl, rfl⟩ := Prod.mk.inj (Option.some.inj h)
    refine ⟨_, _, ⟨⟨hne₁, hrun _⟩, ⟨hne₂, hrun _⟩, t.takeWhile CodePoint.isBlank,
      (t.trimStart.dropWhile CodePoint.isDigit).takeWhile CodePoint.isBlank,
      u.takeWhile CodePoint.isBlank, _, Text.isBlank_takeWhile _, Text.isBlank_takeWhile _,
      Text.isBlank_takeWhile _, hblank, ?_⟩, rfl, rfl⟩
    rw [hsplit, htrim, ← hu, htrim, hsplit, htrim]

theorem numerals?_eq_some_iff {t : Text} {n d : List ℕ} : numerals? t = some (n, d) ↔
    ∃ numerator denominator, Spells t numerator denominator ∧
      n = numerator.filterMap CodePoint.digit? ∧ d = denominator.filterMap CodePoint.digit? := by
  constructor
  · exact spells_of_numerals?
  · rintro ⟨numerator, denominator, h, rfl, rfl⟩
    exact numerals?_of_spells h

theorem length_filterMap_digit? {numeral : Text} (h : ∀ c ∈ numeral, c.isDigit = true) :
    (numeral.filterMap CodePoint.digit?).length = numeral.length := by
  induction numeral with
  | nil => rfl
  | cons c numeral ih =>
    obtain ⟨hc, hrest⟩ := List.forall_mem_cons.mp h
    obtain ⟨d, hd⟩ := Option.isSome_iff_exists.mp hc
    rw [List.filterMap_cons_some hd, List.length_cons, List.length_cons, ih hrest]

theorem numeralValue_filterMap {numeral : Text} (h : numeral.IsNumeral)
    (hlength : numeral.length ≤ digitLimit) :
    numeralValue (numeral.filterMap CodePoint.digit?) = .ok numeral.value := by
  rw [numeralValue, length_filterMap_digit? h.2, if_neg hlength.not_gt]
  rfl

theorem parse_of_spells {t n d : Text} (h : Spells t n d) (hn : n.length ≤ digitLimit)
    (hd : d.length ≤ digitLimit) : parse t = .ok (ofValues n.value d.value) := by
  have hnumerator := numeralValue_filterMap h.1 hn
  have hdenominator := numeralValue_filterMap h.2.1 hd
  simp only [parse, numerals?_of_spells h, hnumerator, hdenominator]
  rfl

theorem parse_of_not_spells {t : Text} (h : ∀ n d, ¬ Spells t n d) : parse t = .ok common := by
  have hnone : numerals? t = none := by
    refine Option.eq_none_iff_forall_ne_some.mpr fun ⟨n, d⟩ hsome => ?_
    obtain ⟨numerator, denominator, hspells, -⟩ := numerals?_eq_some_iff.mp hsome
    exact h numerator denominator hspells
  rw [parse, hnone]

/-- The text writes a meter with a numeral of too many digits. -/
def Overlong (t : Text) : Prop := ∃ numerator denominator, Spells t numerator denominator ∧
  (digitLimit < numerator.length ∨ digitLimit < denominator.length)

theorem parse_of_overlong {t : Text} (h : Overlong t) :
    ∃ digits, digitLimit < digits ∧ parse t = .error (.numeralTooLong digits) := by
  obtain ⟨numerator, denominator, hs, hlong⟩ := h
  have hn := length_filterMap_digit? hs.1.2
  have hd := length_filterMap_digit? hs.2.1.2
  rcases lt_or_ge digitLimit numerator.length with hn₁ | hn₁
  · refine ⟨numerator.length, hn₁, ?_⟩
    simp only [parse, numerals?_of_spells hs, numeralValue, hn, if_pos hn₁]
    rfl
  · have hd₁ := hlong.resolve_left hn₁.not_gt
    refine ⟨denominator.length, hd₁, ?_⟩
    simp only [parse, numerals?_of_spells hs, numeralValue, hn, hd, if_neg hn₁.not_gt, if_pos hd₁]
    rfl

theorem parse_of_not_overlong {t : Text} (h : ¬ Overlong t) :
    ∃ meter, parse t = .ok meter ∧ meter.InRange := by
  by_cases hspells : ∃ n d, Spells t n d
  · obtain ⟨n, d, hs⟩ := hspells
    have hn : n.length ≤ digitLimit := not_lt.mp fun hlong => h ⟨n, d, hs, .inl hlong⟩
    have hd : d.length ≤ digitLimit := not_lt.mp fun hlong => h ⟨n, d, hs, .inr hlong⟩
    exact ⟨_, parse_of_spells hs hn hd, inRange_ofValues _ _⟩
  · exact ⟨common, parse_of_not_spells fun n d hs => hspells ⟨n, d, hs⟩, inRange_common⟩

end Meter
end TrioScore
