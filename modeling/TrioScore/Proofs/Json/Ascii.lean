import TrioScore.Proofs.Json.Token

/-!
# Printed documents are ASCII

Whatever is printed of a document is ASCII, so that the print has the same bytes in every encoding
that extends it.
-/

namespace TrioScore.Json

def IsAscii (chars : List Char) : Prop := ∀ c ∈ chars, c.toNat < 128

-- Decided along the list: the instance for all characters would go through every one there is.
instance (chars : List Char) : Decidable (IsAscii chars) :=
  decidable_of_iff (chars.all (·.toNat < 128) = true) (by simp [IsAscii])

theorem IsAscii.append {l l' : List Char} (h : IsAscii l) (h' : IsAscii l') : IsAscii (l ++ l') :=
  List.forall_mem_append.mpr ⟨h, h'⟩

theorem IsAscii.cons {c : Char} {l : List Char} (hc : c.toNat < 128) (h : IsAscii l) :
    IsAscii (c :: l) :=
  List.forall_mem_cons.mpr ⟨hc, h⟩

theorem isAscii_lineStart (level : ℕ) : IsAscii (lineStart level) :=
  .cons (by decide) fun _ hc => List.eq_of_mem_replicate hc ▸ by decide

theorem isAscii_unitChars (n : ℕ) : IsAscii (unitChars n) := by
  have hdigit : ∀ k < 16, (Nat.digitChar k).toNat < 128 := by decide
  have hmod (k : ℕ) : (Nat.digitChar (n / k % 16)).toNat < 128 :=
    hdigit _ (Nat.mod_lt _ (by decide))
  simp only [IsAscii, unitChars, List.forall_mem_cons]
  exact ⟨by decide, by decide, hmod _, hmod _, hmod _, hmod _, by simp⟩

theorem isAscii_pointChars (c : CodePoint) : IsAscii (pointChars c) := by
  unfold pointChars
  split_ifs
  iterate 7 decide
  · refine .cons ?_ (by decide)
    rw [toNat_ofNat (by omega)]
    omega
  · exact isAscii_unitChars _
  · exact (isAscii_unitChars _).append (isAscii_unitChars _)

theorem isAscii_textChars (t : Text) : IsAscii (textChars t) := by
  refine .append (.cons (by decide) fun c hc => ?_) (by decide)
  obtain ⟨point, -, hpoint⟩ := List.mem_flatMap.mp hc
  exact isAscii_pointChars point c hpoint

theorem toNat_lt_of_isNumeric {c : Char} (h : Token.isNumeric c = true) : c.toNat < 128 := by
  simp only [Token.isNumeric, Bool.or_eq_true, decide_eq_true_eq] at h
  rcases h with ((((h | rfl) | rfl) | rfl) | rfl) | rfl
  · have := Char.isDigit_iff_toNat.mp h
    have hnine : '9'.toNat = 57 := rfl
    omega
  all_goals decide

theorem isAscii_numberChars (x : Number) : IsAscii (numberChars x) := by
  match x with
  | .int n =>
    intro c hc
    rw [numberChars, Numeral.integerChars_eq] at hc
    exact toNat_lt_of_isNumeric ((Numeral.isWritten_ofNat n.natAbs).isNumeric_of_mem _ c hc)
  | .real .nan => decide
  | .real (.infinity true) => decide
  | .real (.infinity false) => decide
  | .real (.finite negative rank) =>
    obtain ⟨n, hn, hchars, -⟩ := Numeral.exists_numeral_shortest none negative rank
    intro c hc
    refine toNat_lt_of_isNumeric (hn.isNumeric_of_mem negative c ?_)
    rwa [hchars]

mutual

theorem isAscii_chars : ∀ (level : ℕ) (v : Json), IsAscii (chars level v)
  | _, .null => by rw [chars]; decide
  | _, .bool true => by rw [chars]; decide
  | _, .bool false => by rw [chars]; decide
  | _, .number x => by rw [chars]; exact isAscii_numberChars x
  | _, .text t => by rw [chars]; exact isAscii_textChars t
  | _, .array [] => by rw [chars]; decide
  | level, .array (item :: items) => by
    rw [chars]
    exact .cons (by decide) ((((isAscii_lineStart _).append (isAscii_chars _ item)).append
      (isAscii_itemsChars _ items)).append (isAscii_lineStart _) |>.append (by decide))
  | _, .object [] => by rw [chars]; decide
  | level, .object ((name, value) :: fields) => by
    rw [chars]
    exact .cons (by decide) ((((((isAscii_lineStart _).append (isAscii_textChars name)).append
      (by decide)).append (isAscii_chars _ value)).append (isAscii_fieldsChars _ fields)).append
        (isAscii_lineStart _) |>.append (by decide))

theorem isAscii_itemsChars : ∀ (level : ℕ) (items : List Json), IsAscii (itemsChars level items)
  | _, [] => by rw [itemsChars]; decide
  | level, item :: items => by
    rw [itemsChars]
    exact .cons (by decide) (((isAscii_lineStart level).append (isAscii_chars level item)).append
      (isAscii_itemsChars level items))

theorem isAscii_fieldsChars :
    ∀ (level : ℕ) (fields : List (Text × Json)), IsAscii (fieldsChars level fields)
  | _, [] => by rw [fieldsChars]; decide
  | level, (name, value) :: fields => by
    rw [fieldsChars]
    exact .cons (by decide) (((((isAscii_lineStart level).append (isAscii_textChars name)).append
      (by decide)).append (isAscii_chars level value)).append (isAscii_fieldsChars level fields))

end

theorem isAscii_print (v : Json) : IsAscii (print v) := isAscii_chars 0 v

end TrioScore.Json
