import TrioScore.Proofs.Json.Readback

/-!
# Readable values

Every value that reading gives is readable: each token that is scanned is, and so is all that the
machine keeps at any time.
-/

namespace TrioScore.Json

theorem ofDigitChars_lt {digits : List Char} (h : ∀ c ∈ digits, c.isDigit = true) :
    Nat.ofDigitChars 10 digits 0 < 10 ^ digits.length := by
  induction digits with
  | nil => simp
  | cons c digits ih =>
    obtain ⟨hc, hdigits⟩ := List.forall_mem_cons.mp h
    have hlt := ih hdigits
    have hdigit : c.toNat - '0'.toNat ≤ 9 := by
      have hbounds := Char.isDigit_iff_toNat.mp hc
      have hzero : '0'.toNat = 48 := rfl
      have hnine : '9'.toNat = 57 := rfl
      omega
    rw [Nat.ofDigitChars_cons, Nat.ofDigitChars_eq_ofDigitChars_zero, List.length_cons, pow_succ]
    nlinarith

namespace Token

def IsReadable : Token → Prop
  | scalar value => value.IsReadable
  | text t => t.IsJoined
  | _ => True

/-- The value of digits has no more digits than they are. -/
theorem isReadable_int {digits : List Char} (h : ∀ c ∈ digits, c.isDigit = true)
    (hlimit : digits.length ≤ digitLimit) {negative : Bool} :
    Number.IsReadable (.int (if negative = true then -(Nat.ofDigitChars 10 digits 0 : ℤ)
      else Nat.ofDigitChars 10 digits 0)) := by
  have habs : (if negative = true then -(Nat.ofDigitChars 10 digits 0 : ℤ)
      else Nat.ofDigitChars 10 digits 0).natAbs = Nat.ofDigitChars 10 digits 0 := by
    split_ifs <;> omega
  rw [Number.IsReadable, habs, Nat.length_toDigits_le_iff (by decide) (by decide)]
  exact (ofDigitChars_lt h).trans_le (Nat.pow_le_pow_right (by decide) hlimit)

theorem isReadable_of_word : ∀ entry ∈ words, entry.2.2.IsReadable := by
  simp only [words, List.forall_mem_cons]
  exact ⟨.null, .bool true, .bool false, .number trivial, .number trivial, .number trivial,
    fun _ hmem => absurd hmem List.not_mem_nil⟩

theorem isReadable_of_number? {s : List Char} {x : Number}
    (h : number? (some digitLimit) s = some x) : x.IsReadable := by
  have hdigits : ∀ c ∈ (takeMinus s).2.takeWhile Char.isDigit, c.isDigit = true :=
    List.all_eq_true.mp List.all_takeWhile
  unfold number? at h
  dsimp only at h
  split at h
  · cases h
  obtain ⟨⟨fraction, tail⟩, -, h⟩ := Option.bind_eq_some_iff.mp h
  obtain ⟨e, -, h⟩ := Option.bind_eq_some_iff.mp h
  dsimp only at h
  split at h
  · split at h
    · cases h
    · next hlimit =>
      obtain rfl := Option.some.inj h
      exact isReadable_int hdigits (by simpa using hlimit)
  · obtain rfl := Option.some.inj h
    trivial

theorem isReadable_of_scan? {c : Char} {s rest : List Char} {token : Token}
    (h : scan? (some digitLimit) c s = some (token, rest)) : token.IsReadable := by
  unfold scan? at h
  split at h
  case h_7 =>
    obtain ⟨⟨t, r⟩, ht, heq⟩ := Option.map_eq_some_iff.mp h
    obtain ⟨rfl, -⟩ := Prod.mk.inj heq
    exact isJoined_of_scanText ht
  case h_8 =>
    split at h
    · next found hword =>
      obtain ⟨⟨first, word, value⟩, hmem, hentry⟩ := List.exists_of_findSome?_eq_some hword
      have hvalue := isReadable_of_word _ hmem
      dsimp only at hentry
      split_ifs at hentry
      obtain ⟨r, -, rfl⟩ := Option.map_eq_some_iff.mp hentry
      obtain ⟨rfl, -⟩ := Prod.mk.inj (Option.some.inj h)
      exact hvalue
    · obtain ⟨x, hx, heq⟩ := Option.map_eq_some_iff.mp h
      obtain ⟨rfl, -⟩ := Prod.mk.inj heq
      exact .number (isReadable_of_number? hx)
  all_goals
    obtain ⟨rfl, -⟩ := Prod.mk.inj (Option.some.inj h)
    trivial

theorem isReadable_of_tokensFrom {read tokens : List Token} {s : List Char}
    (hread : ∀ token ∈ read, token.IsReadable)
    (h : tokensFrom (some digitLimit) read s = some tokens) :
    ∀ token ∈ tokens, token.IsReadable := by
  fun_induction tokensFrom (some digitLimit) read s
  case case1 =>
    obtain rfl := Option.some.inj h
    exact fun token ht => hread token (List.mem_reverse.mp ht)
  case case2 ih => exact ih hread h
  case case3 => cases h
  case case4 token rest hscan _ ih =>
    exact ih (List.forall_mem_cons.mpr ⟨isReadable_of_scan? hscan, hread⟩) h

end Token

theorem isReadable_object_nil : (Json.object []).IsReadable :=
  .object List.nodup_nil (fun _ hmem => absurd hmem List.not_mem_nil)
    fun _ hmem => absurd hmem List.not_mem_nil

def Frame.IsReadable : Frame → Prop
  | array items => ∀ item ∈ items, item.IsReadable
  | object fields => (Json.object fields).IsReadable
  | named fields name => (Json.object fields).IsReadable ∧ name.IsJoined

namespace Progress

def IsReadable : Progress → Prop
  | inside _ frames => ∀ frame ∈ frames, frame.IsReadable
  | done value => value.IsReadable

theorem mem_setField {name : Text} {value : Json} {fields : List (Text × Json)}
    {field : Text × Json} (h : field ∈ setField name value fields) :
    (name = field.1 ∧ value = field.2) ∨ field ∈ fields := by
  induction fields with
  | nil => exact .inl (by simp_all [setField])
  | cons head fields ih =>
    obtain ⟨other, old⟩ := head
    rw [setField] at h
    split_ifs at h with heq
    · rcases List.mem_cons.mp h with rfl | h
      · exact .inl ⟨heq.symm, rfl⟩
      · exact .inr (List.mem_cons_of_mem _ h)
    · rcases List.mem_cons.mp h with rfl | h
      · exact .inr (List.mem_cons_self ..)
      · exact (ih h).imp_right (List.mem_cons_of_mem _)

/-- Setting a field keeps the names, but for a new one. -/
theorem map_setField (name : Text) (value : Json) (fields : List (Text × Json)) :
    (setField name value fields).map Prod.fst =
      if name ∈ fields.map Prod.fst then fields.map Prod.fst
      else fields.map Prod.fst ++ [name] := by
  induction fields with
  | nil => rfl
  | cons head fields ih =>
    obtain ⟨other, old⟩ := head
    rw [setField]
    by_cases heq : other = name
    · simp [heq]
    · simp only [if_neg heq, List.map_cons, ih, List.mem_cons, Ne.symm heq, false_or]
      split_ifs <;> rfl

theorem isReadable_setField {name : Text} {value : Json} {fields : List (Text × Json)}
    (hfields : (Json.object fields).IsReadable) (hname : name.IsJoined)
    (hvalue : value.IsReadable) : (Json.object (setField name value fields)).IsReadable := by
  cases hfields with
  | object hnodup hnames hvalues =>
    refine .object ?_ ?_ ?_
    · rw [map_setField]
      split_ifs with hmem
      · exact hnodup
      · refine List.nodup_append.mpr ⟨hnodup, List.nodup_singleton _, fun a ha b hb hab => hmem ?_⟩
        rwa [← List.mem_singleton.mp hb, ← hab]
    · exact fun field hmem => (mem_setField hmem).elim (fun h => h.1 ▸ hname) (hnames field)
    · exact fun field hmem => (mem_setField hmem).elim (fun h => h.2 ▸ hvalue) (hvalues field)

theorem isReadable_complete {value : Json} {frames : List Frame} {p : Progress}
    (hvalue : value.IsReadable) (hframes : ∀ frame ∈ frames, frame.IsReadable)
    (h : complete value frames = some p) : p.IsReadable := by
  unfold complete at h
  split at h
  · obtain rfl := Option.some.inj h
    exact hvalue
  · obtain rfl := Option.some.inj h
    obtain ⟨hitems, hframes⟩ := List.forall_mem_cons.mp hframes
    exact List.forall_mem_cons.mpr ⟨List.forall_mem_cons.mpr ⟨hvalue, hitems⟩, hframes⟩
  · obtain rfl := Option.some.inj h
    obtain ⟨⟨hfields, hname⟩, hframes⟩ := List.forall_mem_cons.mp hframes
    exact List.forall_mem_cons.mpr ⟨isReadable_setField hfields hname hvalue, hframes⟩
  · cases h

theorem isReadable_begin? {frames : List Frame} {token : Token} {p : Progress}
    (htoken : token.IsReadable) (hframes : ∀ frame ∈ frames, frame.IsReadable)
    (h : begin? frames token = some p) : p.IsReadable := by
  unfold begin? at h
  split at h
  · exact isReadable_complete htoken hframes h
  · exact isReadable_complete (.text htoken) hframes h
  · obtain rfl := Option.some.inj h
    exact List.forall_mem_cons.mpr ⟨fun _ hmem => absurd hmem List.not_mem_nil, hframes⟩
  · obtain rfl := Option.some.inj h
    exact List.forall_mem_cons.mpr ⟨isReadable_object_nil, hframes⟩
  · cases h

theorem isReadable_step {p q : Progress} {token : Token} (hp : p.IsReadable)
    (htoken : token.IsReadable) (h : p.step token = some q) : q.IsReadable := by
  unfold step at h
  split at h
  case h_1 | h_3 => exact isReadable_begin? htoken hp h
  case h_2 => exact isReadable_complete (.array (by simp)) (List.forall_mem_cons.mp hp).2 h
  case h_4 => exact isReadable_complete isReadable_object_nil (List.forall_mem_cons.mp hp).2 h
  case h_5 | h_6 =>
    obtain rfl := Option.some.inj h
    obtain ⟨hfields, hframes⟩ := List.forall_mem_cons.mp hp
    exact List.forall_mem_cons.mpr ⟨⟨hfields, htoken⟩, hframes⟩
  case h_7 | h_8 | h_10 =>
    obtain rfl := Option.some.inj h
    exact hp
  case h_9 =>
    obtain ⟨hitems, hframes⟩ := List.forall_mem_cons.mp hp
    exact isReadable_complete (.array fun item hmem => hitems item (List.mem_reverse.mp hmem))
      hframes h
  case h_11 =>
    obtain ⟨hfields, hframes⟩ := List.forall_mem_cons.mp hp
    exact isReadable_complete hfields hframes h
  case h_12 => cases h

theorem isReadable_foldlM {tokens : List Token} (htokens : ∀ token ∈ tokens, token.IsReadable)
    {p q : Progress} (hp : p.IsReadable) (h : tokens.foldlM step p = some q) : q.IsReadable := by
  induction tokens generalizing p with
  | nil => exact Option.some.inj h ▸ hp
  | cons token tokens ih =>
    obtain ⟨htoken, htokens⟩ := List.forall_mem_cons.mp htokens
    rw [List.foldlM_cons] at h
    obtain ⟨r, hr, h⟩ := Option.bind_eq_some_iff.mp h
    exact ih htokens (isReadable_step hp htoken hr) h

end Progress

theorem isReadable_of_read? {s : List Char} {v : Json} (h : read? (some digitLimit) s = some v) :
    v.IsReadable := by
  obtain ⟨tokens, htokens, h⟩ := Option.bind_eq_some_iff.mp h
  obtain ⟨p, hp, hv⟩ := Option.bind_eq_some_iff.mp h
  have hstart : (Progress.inside .value []).IsReadable := by simp [Progress.IsReadable]
  have hreadable := Progress.isReadable_foldlM
    (Token.isReadable_of_tokensFrom (by simp) htokens) hstart hp
  cases p with
  | done value => exact Option.some.inj hv ▸ hreadable
  | inside => cases hv

end TrioScore.Json
