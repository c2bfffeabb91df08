import TrioScore.Proofs.Json.Token

/-!
# Reading back what is printed

The values that reading can give are the readable ones: the pairs of their texts are joined, the
names in an object differ, and no integer is too long. Printing such a value and reading the print
gives the value back. The print falls into the tokens of the value, and these take the machine from
wherever a value may begin to where that value is complete.
-/

namespace TrioScore.Json

/-- A value that reading can give. -/
inductive IsReadable : Json → Prop
  | null : IsReadable null
  | bool (b : Bool) : IsReadable (bool b)
  | number {x : Number} (h : x.IsReadable) : IsReadable (number x)
  | text {t : Text} (h : t.IsJoined) : IsReadable (text t)
  | array {items : List Json} (h : ∀ item ∈ items, IsReadable item) : IsReadable (array items)
  | object {fields : List (Text × Json)} (nodup : (fields.map Prod.fst).Nodup)
      (names : ∀ field ∈ fields, field.1.IsJoined) (values : ∀ field ∈ fields, IsReadable field.2) :
      IsReadable (object fields)

namespace Token

mutual

/-- The tokens that the print of a value falls into. -/
def ofValue : Json → List Token
  | .null => [.scalar .null]
  | .bool b => [.scalar (.bool b)]
  | .number x => [.scalar (.number x)]
  | .text t => [.text t]
  | .array [] => [.openArray, .closeArray]
  | .array (item :: items) => .openArray :: (ofValue item ++ (ofItems items ++ [.closeArray]))
  | .object [] => [.openObject, .closeObject]
  | .object ((name, value) :: fields) =>
    .openObject :: .text name :: .colon :: (ofValue value ++ (ofFields fields ++ [.closeObject]))

def ofItems : List Json → List Token
  | [] => []
  | item :: items => .comma :: (ofValue item ++ ofItems items)

def ofFields : List (Text × Json) → List Token
  | [] => []
  | (name, value) :: fields => .comma :: .text name :: .colon :: (ofValue value ++ ofFields fields)

end

section Scan

variable (L : Option ℕ) (read : List Token)

theorem tokensFrom_space {c : Char} (h : isSpace c = true) (s : List Char) :
    tokensFrom L read (c :: s) = tokensFrom L read s := by
  rw [tokensFrom, if_pos h]

theorem tokensFrom_token {c : Char} {s rest : List Char} {token : Token}
    (hspace : isSpace c = false) (h : scan? L c s = some (token, rest)) :
    tokensFrom L read (c :: s) = tokensFrom L (token :: read) rest := by
  rw [tokensFrom, if_neg (by simp [hspace])]
  split
  next hnone => rw [h] at hnone; cases hnone
  next token' rest' hsome =>
    obtain ⟨rfl, rfl⟩ := Prod.mk.inj (Option.some.inj (h.symm.trans hsome))
    rfl

theorem tokensFrom_lineStart (level : ℕ) (s : List Char) :
    tokensFrom L read (lineStart level ++ s) = tokensFrom L read s := by
  have hspaces : ∀ n, tokensFrom L read (List.replicate n ' ' ++ s) = tokensFrom L read s := by
    intro n
    induction n with
    | zero => rfl
    | succ n ih => rw [List.replicate_succ, List.cons_append, tokensFrom_space L read rfl, ih]
  rw [lineStart, List.cons_append, tokensFrom_space L read rfl, hspaces]

theorem tokensFrom_textChars {t : Text} (h : t.IsJoined) (s : List Char) :
    tokensFrom L read (textChars t ++ s) = tokensFrom L (.text t :: read) s := by
  have hscan : scan? L '"' (t.flatMap pointChars ++ '"' :: s) = some (.text t, s) := by
    rw [scan?, scanText_textChars h]
    rfl
  have hchars : textChars t ++ s = '"' :: (t.flatMap pointChars ++ '"' :: s) := by
    rw [textChars, List.cons_append, List.cons_append, List.append_assoc]
    rfl
  rw [hchars, tokensFrom_token L read rfl hscan]

theorem tokensFrom_word {first : Char} {word : List Char} {value : Json}
    (h : (first, word, value) ∈ words) (hspace : isSpace first = false) (s : List Char) :
    tokensFrom L read (first :: word ++ s) = tokensFrom L (.scalar value :: read) s :=
  tokensFrom_token L read hspace (scan?_word L h s)

theorem tokensFrom_numberChars {x : Number} (h : x.IsReadable) {s : List Char}
    (hs : EndsNumeral s) : tokensFrom (some digitLimit) read (numberChars x ++ s) =
      tokensFrom (some digitLimit) (.scalar (number x) :: read) s := by
  obtain ⟨c, t, ht, hspace, hscan⟩ := scan?_numberChars h hs
  rw [ht, List.cons_append, tokensFrom_token _ read hspace hscan]

end Scan

theorem endsNumeral_lineStart (level : ℕ) (s : List Char) : EndsNumeral (lineStart level ++ s) := by
  intro c hc
  obtain rfl := Option.some.inj hc
  rfl

theorem endsNumeral_itemsChars (level : ℕ) (items : List Json) {s : List Char}
    (h : EndsNumeral s) : EndsNumeral (itemsChars level items ++ s) := by
  cases items with
  | nil => rwa [itemsChars]
  | cons item items =>
    rw [itemsChars]
    intro c hc
    obtain rfl := Option.some.inj hc
    rfl

theorem endsNumeral_fieldsChars (level : ℕ) (fields : List (Text × Json)) {s : List Char}
    (h : EndsNumeral s) : EndsNumeral (fieldsChars level fields ++ s) := by
  cases fields with
  | nil => rwa [fieldsChars]
  | cons field fields =>
    rw [fieldsChars]
    intro c hc
    obtain rfl := Option.some.inj hc
    rfl

mutual

theorem tokensFrom_chars : ∀ {v : Json}, v.IsReadable → ∀ (level : ℕ) (read : List Token)
    {s : List Char}, EndsNumeral s → tokensFrom (some digitLimit) read (chars level v ++ s) =
      tokensFrom (some digitLimit) ((ofValue v).reverse ++ read) s
  | .null, _, _, read, s, _ => by
    rw [chars]
    have hword : ('n', "ull".toList, null) ∈ words := by simp [words]
    exact tokensFrom_word _ read hword rfl s
  | .bool true, _, _, read, s, _ => by
    rw [chars]
    have hword : ('t', "rue".toList, bool true) ∈ words := by simp [words]
    exact tokensFrom_word _ read hword rfl s
  | .bool false, _, _, read, s, _ => by
    rw [chars]
    have hword : ('f', "alse".toList, bool false) ∈ words := by simp [words]
    exact tokensFrom_word _ read hword rfl s
  | .number x, .number h, _, read, s, hs => by
    rw [chars]
    exact tokensFrom_numberChars read h hs
  | .text t, .text h, _, read, s, _ => by
    rw [chars]
    exact tokensFrom_textChars _ read h s
  | .array [], _, _, read, s, _ => by
    rw [chars, List.cons_append, tokensFrom_token _ read rfl rfl, List.singleton_append,
      tokensFrom_token _ _ rfl rfl]
    rfl
  | .array (item :: items), .array h, level, read, s, _ => by
    obtain ⟨hitem, hitems⟩ := List.forall_mem_cons.mp h
    have hclose := endsNumeral_lineStart level (']' :: s)
    rw [chars, List.cons_append, tokensFrom_token _ read rfl rfl]
    simp only [List.append_assoc, List.singleton_append]
    rw [tokensFrom_lineStart,
      tokensFrom_chars hitem (level + 1) _ (endsNumeral_itemsChars (level + 1) items hclose),
      tokensFrom_itemsChars hitems (level + 1) _ hclose, tokensFrom_lineStart,
      tokensFrom_token _ _ rfl rfl]
    simp [ofValue]
  | .object [], _, _, read, s, _ => by
    rw [chars, List.cons_append, tokensFrom_token _ read rfl rfl, List.singleton_append,
      tokensFrom_token _ _ rfl rfl]
    rfl
  | .object ((name, value) :: fields), .object _ hnames hvalues, level, read, s, _ => by
    obtain ⟨hname, hnames⟩ := List.forall_mem_cons.mp hnames
    obtain ⟨hvalue, hvalues⟩ := List.forall_mem_cons.mp hvalues
    have hclose := endsNumeral_lineStart level ('}' :: s)
    rw [chars, List.cons_append, tokensFrom_token _ read rfl rfl]
    simp only [List.append_assoc, List.cons_append, List.nil_append]
    rw [tokensFrom_lineStart, tokensFrom_textChars _ _ hname, tokensFrom_token _ _ rfl rfl,
      tokensFrom_space _ _ rfl,
      tokensFrom_chars hvalue (level + 1) _ (endsNumeral_fieldsChars (level + 1) fields hclose),
      tokensFrom_fieldsChars hnames hvalues (level + 1) _ hclose, tokensFrom_lineStart,
      tokensFrom_token _ _ rfl rfl]
    simp [ofValue]

theorem tokensFrom_itemsChars : ∀ {items : List Json}, (∀ item ∈ items, item.IsReadable) →
    ∀ (level : ℕ) (read : List Token) {s : List Char}, EndsNumeral s →
      tokensFrom (some digitLimit) read (itemsChars level items ++ s) =
        tokensFrom (some digitLimit) ((ofItems items).reverse ++ read) s
  | [], _, _, read, s, _ => rfl
  | item :: items, h, level, read, s, hs => by
    obtain ⟨hitem, hitems⟩ := List.forall_mem_cons.mp h
    rw [itemsChars, List.cons_append, tokensFrom_token _ read rfl rfl]
    simp only [List.append_assoc]
    rw [tokensFrom_lineStart,
      tokensFrom_chars hitem level _ (endsNumeral_itemsChars level items hs),
      tokensFrom_itemsChars hitems level _ hs]
    simp [ofItems]

theorem tokensFrom_fieldsChars : ∀ {fields : List (Text × Json)},
    (∀ field ∈ fields, field.1.IsJoined) → (∀ field ∈ fields, field.2.IsReadable) →
    ∀ (level : ℕ) (read : List Token) {s : List Char}, EndsNumeral s →
      tokensFrom (some digitLimit) read (fieldsChars level fields ++ s) =
        tokensFrom (some digitLimit) ((ofFields fields).reverse ++ read) s
  | [], _, _, _, read, s, _ => rfl
  | (name, value) :: fields, hnames, hvalues, level, read, s, hs => by
    obtain ⟨hname, hnames⟩ := List.forall_mem_cons.mp hnames
    obtain ⟨hvalue, hvalues⟩ := List.forall_mem_cons.mp hvalues
    rw [fieldsChars, List.cons_append, tokensFrom_token _ read rfl rfl]
    simp only [List.append_assoc, List.cons_append, List.nil_append]
    rw [tokensFrom_lineStart, tokensFrom_textChars _ _ hname, tokensFrom_token _ _ rfl rfl,
      tokensFrom_space _ _ rfl,
      tokensFrom_chars hvalue level _ (endsNumeral_fieldsChars level fields hs),
      tokensFrom_fieldsChars hnames hvalues level _ hs]
    simp [ofFields]

end

theorem endsNumeral_of_isSpace {spaces : List Char} (h : ∀ c ∈ spaces, isSpace c = true) :
    EndsNumeral spaces := by
  intro c hc
  by_contra hnumeric
  rw [Bool.not_eq_false] at hnumeric
  have hspace := h c (List.mem_of_mem_head? hc)
  rw [isSpace_eq_false hnumeric] at hspace
  cases hspace

theorem tokensFrom_of_isSpace (L : Option ℕ) (read : List Token) {spaces : List Char}
    (h : ∀ c ∈ spaces, isSpace c = true) : tokensFrom L read spaces = some read.reverse := by
  induction spaces with
  | nil => rw [tokensFrom]
  | cons c spaces ih =>
    obtain ⟨hc, hspaces⟩ := List.forall_mem_cons.mp h
    rw [tokensFrom_space L read hc, ih hspaces]

/-- A printed value falls into its tokens, also with white space behind it. -/
theorem tokens?_print_append {v : Json} (h : v.IsReadable) {spaces : List Char}
    (hspaces : ∀ c ∈ spaces, isSpace c = true) :
    tokens? (some digitLimit) (print v ++ spaces) = some (ofValue v) := by
  rw [tokens?, print, tokensFrom_chars h 0 [] (endsNumeral_of_isSpace hspaces),
    tokensFrom_of_isSpace _ _ hspaces, List.append_nil, List.reverse_reverse]

end Token

namespace Progress

theorem setField_of_not_mem {name : Text} {value : Json} {fields : List (Text × Json)}
    (h : name ∉ fields.map Prod.fst) : setField name value fields = fields ++ [(name, value)] := by
  induction fields with
  | nil => rfl
  | cons field fields ih =>
    obtain ⟨other, old⟩ := field
    simp only [List.map_cons, List.mem_cons, not_or] at h
    rw [setField, if_neg (Ne.symm h.1), ih h.2]
    rfl

theorem step_valueOrClose {token : Token} (h : token ≠ Token.closeArray) (frames : List Frame) :
    step (inside .valueOrClose (.array [] :: frames)) token =
      begin? (.array [] :: frames) token := by
  cases token with
  | closeArray => exact absurd rfl h
  | _ => rfl

theorem foldlM_cons_of_step {p q : Progress} {token : Token} (h : p.step token = some q)
    (rest : List Token) : (token :: rest).foldlM step p = rest.foldlM step q := by
  rw [List.foldlM_cons, h]
  rfl

/-- What comes behind a name: a colon, and a value may begin. -/
theorem foldlM_colon (fields : List (Text × Json)) (name : Text) (frames : List Frame)
    (rest : List Token) :
    (.colon :: rest).foldlM step (inside .colon (.named fields name :: frames)) =
      rest.foldlM step (inside .value (.named fields name :: frames)) :=
  foldlM_cons_of_step rfl rest

mutual

/-- From wherever a value may begin, its tokens lead to where it is complete. -/
theorem foldlM_ofValue : ∀ {v : Json}, v.IsReadable → ∀ {p : Progress} {frames : List Frame},
    (∀ token, token ≠ Token.closeArray → p.step token = begin? frames token) →
    ∀ rest : List Token, (Token.ofValue v ++ rest).foldlM step p =
      (complete v frames).bind fun q => rest.foldlM step q
  | .null, _, p, frames, hp, rest => by
    rw [Token.ofValue, List.singleton_append, List.foldlM_cons, hp _ (by simp)]
    rfl
  | .bool b, _, p, frames, hp, rest => by
    rw [Token.ofValue, List.singleton_append, List.foldlM_cons, hp _ (by simp)]
    rfl
  | .number x, _, p, frames, hp, rest => by
    rw [Token.ofValue, List.singleton_append, List.foldlM_cons, hp _ (by simp)]
    rfl
  | .text t, _, p, frames, hp, rest => by
    rw [Token.ofValue, List.singleton_append, List.foldlM_cons, hp _ (by simp)]
    rfl
  | .array [], _, p, frames, hp, rest => by
    rw [Token.ofValue, List.cons_append, List.foldlM_cons, hp _ (by simp)]
    rfl
  | .array (item :: items), .array h, p, frames, hp, rest => by
    obtain ⟨hitem, hitems⟩ := List.forall_mem_cons.mp h
    have hopen : p.step .openArray = some (inside .valueOrClose (.array [] :: frames)) :=
      hp _ (by simp)
    have hfirst : complete item (.array [] :: frames) =
      some (inside .commaOrClose (.array [item] :: frames)) := rfl
    have hclose : step (inside .commaOrClose (.array (items.reverse ++ [item]) :: frames))
        .closeArray = complete (.array (item :: items)) frames := by
      simp [step]
    rw [Token.ofValue, List.cons_append, foldlM_cons_of_step hopen, List.append_assoc,
      List.append_assoc, foldlM_ofValue hitem fun token h => step_valueOrClose h frames, hfirst,
      Option.bind_some, foldlM_ofItems hitems, List.singleton_append, List.foldlM_cons, hclose]
    rfl
  | .object [], _, p, frames, hp, rest => by
    rw [Token.ofValue, List.cons_append, List.foldlM_cons, hp _ (by simp)]
    rfl
  | .object ((name, value) :: fields), .object hnodup hnames hvalues, p, frames, hp, rest => by
    obtain ⟨hvalue, hvalues⟩ := List.forall_mem_cons.mp hvalues
    have hopen : p.step .openObject = some (inside .nameOrClose (.object [] :: frames)) :=
      hp _ (by simp)
    have hname : step (inside .nameOrClose (.object [] :: frames)) (.text name) =
      some (inside .colon (.named [] name :: frames)) := rfl
    have hfirst : complete value (.named [] name :: frames) =
      some (inside .commaOrClose (.object [(name, value)] :: frames)) := rfl
    have hclose : step (inside .commaOrClose (.object ((name, value) :: fields) :: frames))
      .closeObject = complete (.object ((name, value) :: fields)) frames := rfl
    rw [Token.ofValue, List.cons_append, foldlM_cons_of_step hopen, List.cons_append,
      foldlM_cons_of_step hname, List.cons_append, foldlM_colon, List.append_assoc,
      List.append_assoc, foldlM_ofValue hvalue fun _ _ => rfl, hfirst, Option.bind_some,
      foldlM_ofFields hvalues _ _ _ hnodup, List.singleton_append, List.singleton_append,
      List.foldlM_cons, hclose]
    rfl

/-- The items behind the first one are added in front of those read, backwards. -/
theorem foldlM_ofItems : ∀ {items : List Json}, (∀ item ∈ items, item.IsReadable) →
    ∀ (read : List Json) (frames : List Frame) (rest : List Token),
      (Token.ofItems items ++ rest).foldlM step (inside .commaOrClose (.array read :: frames)) =
        rest.foldlM step (inside .commaOrClose (.array (items.reverse ++ read) :: frames))
  | [], _, read, frames, rest => rfl
  | item :: items, h, read, frames, rest => by
    obtain ⟨hitem, hitems⟩ := List.forall_mem_cons.mp h
    have hcomma : step (inside .commaOrClose (.array read :: frames)) .comma =
      some (inside .value (.array read :: frames)) := rfl
    have hnext : complete item (.array read :: frames) =
      some (inside .commaOrClose (.array (item :: read) :: frames)) := rfl
    rw [Token.ofItems, List.cons_append, foldlM_cons_of_step hcomma, List.append_assoc,
      foldlM_ofValue hitem fun _ _ => rfl, hnext, Option.bind_some, foldlM_ofItems hitems,
      List.reverse_cons, List.append_assoc]
    rfl

/-- The fields behind the first one are added behind those read. -/
theorem foldlM_ofFields : ∀ {fields : List (Text × Json)},
    (∀ field ∈ fields, field.2.IsReadable) → ∀ (read : List (Text × Json)) (frames : List Frame)
    (rest : List Token), ((read ++ fields).map Prod.fst).Nodup →
      (Token.ofFields fields ++ rest).foldlM step (inside .commaOrClose (.object read :: frames)) =
        rest.foldlM step (inside .commaOrClose (.object (read ++ fields) :: frames))
  | [], _, read, frames, rest, _ => by rw [List.append_nil]; rfl
  | (name, value) :: fields, hvalues, read, frames, rest, hnodup => by
    obtain ⟨hvalue, hvalues⟩ := List.forall_mem_cons.mp hvalues
    have hcomma : step (inside .commaOrClose (.object read :: frames)) .comma =
      some (inside .name (.object read :: frames)) := rfl
    have hname : step (inside .name (.object read :: frames)) (.text name) =
      some (inside .colon (.named read name :: frames)) := rfl
    have hnew : name ∉ read.map Prod.fst := by
      rw [List.map_append, List.map_cons] at hnodup
      exact fun hmem => (List.nodup_append.mp hnodup).2.2 name hmem name (List.mem_cons_self ..) rfl
    have hnext : complete value (.named read name :: frames) =
        some (inside .commaOrClose (.object (read ++ [(name, value)]) :: frames)) := by
      rw [complete, setField_of_not_mem hnew]
    rw [Token.ofFields, List.cons_append, foldlM_cons_of_step hcomma, List.cons_append,
      foldlM_cons_of_step hname, List.cons_append, foldlM_colon, List.append_assoc,
      foldlM_ofValue hvalue fun _ _ => rfl, hnext, Option.bind_some,
      foldlM_ofFields hvalues _ _ _ (by rwa [List.append_assoc]), List.append_assoc]
    rfl

end

end Progress

theorem read?_print_append {v : Json} (h : v.IsReadable) {spaces : List Char}
    (hspaces : ∀ c ∈ spaces, Token.isSpace c = true) :
    read? (some digitLimit) (print v ++ spaces) = some v := by
  have hfold := @Progress.foldlM_ofValue v h (.inside .value []) [] (fun _ _ => rfl) []
  rw [List.append_nil] at hfold
  rw [read?, Token.tokens?_print_append h hspaces, Option.bind_some, ofTokens?, hfold]
  rfl

theorem read?_print {v : Json} (h : v.IsReadable) : read? (some digitLimit) (print v) = some v := by
  have hread := @read?_print_append v h [] (by simp)
  rwa [List.append_nil] at hread

end TrioScore.Json
