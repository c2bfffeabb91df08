import Mathlib.Algebra.Ring.Nat
import Mathlib.Data.List.Forall2

/-!
# Results that may be faults

When a chain of results, or a list of them, is free of faults, when two chains have the same fault,
and what is left of a state behind a fault.
-/

namespace TrioScore

variable {ε α β γ : Type}

theorem ok_bind (a : α) (f : α → Except ε β) : Except.ok a >>= f = f a := rfl

theorem ok_map (f : α → β) (a : α) : f <$> (Except.ok a : Except ε α) = .ok (f a) := rfl

theorem bind_eq_ok_iff {x : Except ε α} {f : α → Except ε β} {b : β} :
    x >>= f = .ok b ↔ ∃ a, x = .ok a ∧ f a = .ok b := by
  cases x with
  | error e => exact ⟨fun h => (by cases h), fun ⟨a, h, _⟩ => (by cases h)⟩
  | ok a => exact ⟨fun h => ⟨a, rfl, h⟩, fun ⟨_, rfl, h⟩ => h⟩

theorem bind_eq_error_iff {x : Except ε α} {f : α → Except ε β} {e : ε} :
    x >>= f = .error e ↔ x = .error e ∨ ∃ a, x = .ok a ∧ f a = .error e := by
  cases x with
  | error e' => exact ⟨fun h => .inl (congrArg _ (Except.error.inj h)),
      fun h => h.elim (fun h => congrArg _ (Except.error.inj h)) fun ⟨_, h, _⟩ => (by cases h)⟩
  | ok a => exact ⟨fun h => .inr ⟨a, rfl, h⟩,
      fun h => h.elim (fun h => (by cases h)) fun ⟨_, ha, h⟩ => (Except.ok.inj ha) ▸ h⟩

theorem map_eq_ok_iff {x : Except ε α} {f : α → β} {b : β} :
    f <$> x = .ok b ↔ ∃ a, x = .ok a ∧ f a = b := by
  cases x with
  | error e => exact ⟨fun h => (by cases h), fun ⟨a, h, _⟩ => (by cases h)⟩
  | ok a => exact ⟨fun h => ⟨a, rfl, Except.ok.inj h⟩, fun ⟨_, rfl, h⟩ => congrArg _ h⟩

theorem mapM_eq_ok {f : α → Except ε β} {g : α → β} {l : List α} (h : ∀ a ∈ l, f a = .ok (g a)) :
    l.mapM f = .ok (l.map g) := by
  induction l with
  | nil => rfl
  | cons a l ih =>
    obtain ⟨ha, hl⟩ := List.forall_mem_cons.mp h
    rw [List.mapM_cons, ha, ih hl]
    rfl

theorem exists_mapM_eq_ok {f : α → Except ε β} {P : β → Prop} {l : List α}
    (h : ∀ a ∈ l, ∃ b, f a = .ok b ∧ P b) :
    ∃ bs, l.mapM f = .ok bs ∧ bs.length = l.length ∧ ∀ b ∈ bs, P b := by
  induction l with
  | nil => exact ⟨[], rfl, rfl, fun b hb => by cases hb⟩
  | cons a l ih =>
    obtain ⟨⟨b, hb, hp⟩, hl⟩ := List.forall_mem_cons.mp h
    obtain ⟨bs, hbs, hlength, hps⟩ := ih hl
    refine ⟨b :: bs, ?_, by rw [List.length_cons, List.length_cons, hlength], ?_⟩
    · rw [List.mapM_cons, hb, hbs]
      rfl
    · exact List.forall_mem_cons.mpr ⟨hp, hps⟩

/-- Items that each give a short list give a list that is no longer than all of them together. -/
theorem exists_flatten_mapM {f : α → Except ε (List β)} {P : β → Prop} {l : List α}
    (size : α → Nat)
    (h : ∀ a ∈ l, ∃ bs, f a = .ok bs ∧ bs.length ≤ size a ∧ ∀ b ∈ bs, P b) :
    ∃ parts, l.mapM f = .ok parts ∧ parts.flatten.length ≤ (l.map size).sum ∧
      ∀ b ∈ parts.flatten, P b := by
  induction l with
  | nil => exact ⟨[], rfl, Nat.le_refl _, fun b hb => by cases hb⟩
  | cons a l ih =>
    obtain ⟨⟨bs, hbs, hlength, hp⟩, hl⟩ := List.forall_mem_cons.mp h
    obtain ⟨parts, hparts, hsize, hps⟩ := ih hl
    refine ⟨bs :: parts, ?_, ?_, ?_⟩
    · rw [List.mapM_cons, hbs, hparts]
      rfl
    · rw [List.flatten_cons, List.length_append, List.map_cons, List.sum_cons]
      exact Nat.add_le_add hlength hsize
    · rw [List.flatten_cons]
      intro b hb
      exact (List.mem_append.mp hb).elim (hp b) (hps b)

theorem mapM_bind_of_eq_ok {f : α → Except ε β} {g : β → Except ε γ} {l : List α} {bs : List β}
    (h : l.mapM f = .ok bs) : l.mapM (fun a => f a >>= g) = bs.mapM g := by
  induction l generalizing bs with
  | nil =>
    cases h
    rfl
  | cons a l ih =>
    rw [List.mapM_cons] at h
    obtain ⟨b, hb, h⟩ := bind_eq_ok_iff.mp h
    obtain ⟨rest, hrest, h⟩ := bind_eq_ok_iff.mp h
    cases h
    rw [List.mapM_cons, List.mapM_cons, hb, ok_bind, ih hrest]

theorem mapM_eq_ok_iff {f : α → Except ε β} {g : α → β} {P : α → Prop}
    (h : ∀ a b, f a = .ok b ↔ P a ∧ b = g a) {l : List α} {bs : List β} :
    l.mapM f = .ok bs ↔ (∀ a ∈ l, P a) ∧ bs = l.map g := by
  constructor
  · intro hbs
    induction l generalizing bs with
    | nil =>
      cases hbs
      simp
    | cons a l ih =>
      rw [List.mapM_cons] at hbs
      obtain ⟨b, hb, hbs⟩ := bind_eq_ok_iff.mp hbs
      obtain ⟨rest, hrest, hbs⟩ := bind_eq_ok_iff.mp hbs
      cases hbs
      obtain ⟨ha, rfl⟩ := (h a b).mp hb
      obtain ⟨hl, rfl⟩ := ih hrest
      exact ⟨List.forall_mem_cons.mpr ⟨ha, hl⟩, rfl⟩
  · rintro ⟨hl, rfl⟩
    exact mapM_eq_ok fun a ha => (h a (g a)).mpr ⟨hl a ha, rfl⟩

theorem length_flatten_of_mapM {f : α → Except ε (List β)} {size : α → ℕ}
    (h : ∀ a bs, f a = .ok bs → bs.length = size a) {l : List α} {parts : List (List β)}
    (hparts : l.mapM f = .ok parts) : parts.flatten.length = (l.map size).sum := by
  induction l generalizing parts with
  | nil =>
    cases hparts
    rfl
  | cons a l ih =>
    rw [List.mapM_cons] at hparts
    obtain ⟨b, hb, hparts⟩ := bind_eq_ok_iff.mp hparts
    obtain ⟨rest, hrest, hparts⟩ := bind_eq_ok_iff.mp hparts
    cases hparts
    rw [List.flatten_cons, List.length_append, List.map_cons, List.sum_cons, h a b hb, ih hrest]

theorem forall₂_of_mapM {f : α → Except ε β} {l : List α} {bs : List β}
    (h : l.mapM f = .ok bs) : List.Forall₂ (fun a b => f a = .ok b) l bs := by
  induction l generalizing bs with
  | nil =>
    cases h
    exact .nil
  | cons a l ih =>
    rw [List.mapM_cons] at h
    obtain ⟨b, hb, h⟩ := bind_eq_ok_iff.mp h
    obtain ⟨rest, hrest, h⟩ := bind_eq_ok_iff.mp h
    cases h
    exact .cons hb (ih hrest)

/-- Where two lists correspond, what is found for each pair makes a list that corresponds to
both. -/
theorem exists_forall₂ {R : α → β → Prop} {S : β → γ → Prop} {T : α → γ → Prop} {l : List α}
    {bs : List β} (h : List.Forall₂ R l bs)
    (hstep : ∀ a ∈ l, ∀ b ∈ bs, R a b → ∃ c, S b c ∧ T a c) :
    ∃ cs, List.Forall₂ S bs cs ∧ List.Forall₂ T l cs := by
  induction h with
  | nil => exact ⟨[], .nil, .nil⟩
  | @cons a b l bs hab _ ih =>
    obtain ⟨c, hs, ht⟩ := hstep a List.mem_cons_self b List.mem_cons_self hab
    obtain ⟨cs, hss, hts⟩ := ih fun a' ha b' hb =>
      hstep a' (List.mem_cons_of_mem a ha) b' (List.mem_cons_of_mem b hb)
    exact ⟨c :: cs, .cons hs hss, .cons ht hts⟩

section State
variable {σ : Type}

/-! A computation over a state that a fault leaves as it found it. -/

theorem run_run_bind (x : ExceptT ε (StateM σ) α) (f : α → ExceptT ε (StateM σ) β) (s : σ) :
    (x >>= f).run.run s = match x.run.run s with
      | (.ok a, next) => (f a).run.run next
      | (.error fault, next) => (.error fault, next) := by
  unfold ExceptT.run StateT.run
  simp only [bind, ExceptT.bind, ExceptT.mk, StateT.bind, ExceptT.bindCont]
  cases x s with
  | mk result next => cases result <;> rfl

theorem run_run_tryCatch (x : ExceptT ε (StateM σ) α) (f : ε → ExceptT ε (StateM σ) α) (s : σ) :
    (tryCatch x f).run.run s = match x.run.run s with
      | (.ok a, next) => (.ok a, next)
      | (.error fault, next) => (f fault).run.run next := by
  have htry : tryCatch x f = ExceptT.tryCatch x f := rfl
  rw [htry]
  unfold ExceptT.run StateT.run
  simp only [ExceptT.tryCatch, ExceptT.mk, bind, StateT.bind]
  cases x s with
  | mk result next => cases result <;> rfl

theorem run_run_ofExcept (x : Except ε α) (s : σ) :
    (MonadExcept.ofExcept x : ExceptT ε (StateM σ) α).run.run s = (x, s) := by
  cases x <;> rfl

theorem run_run_modify (f : σ → σ) (s : σ) :
    (modify f : ExceptT ε (StateM σ) Unit).run.run s = (.ok (), f s) := rfl

end State

/-- Two results have the same fault, or values that are related. -/
inductive SameFault (R : α → β → Prop) : Except ε α → Except ε β → Prop
  | ok {a : α} {b : β} (h : R a b) : SameFault R (.ok a) (.ok b)
  | error (fault : ε) : SameFault R (.error fault) (.error fault)

namespace SameFault
variable {δ : Type} {R : α → β → Prop} {S : γ → δ → Prop} {x : Except ε α} {y : Except ε β}

theorem refl {R : α → α → Prop} (h : ∀ a, R a a) (x : Except ε α) : SameFault R x x := by
  cases x with
  | error fault => exact .error fault
  | ok a => exact .ok (h a)

theorem bind {f : α → Except ε γ} {g : β → Except ε δ} (h : SameFault R x y)
    (hnext : ∀ a b, R a b → SameFault S (f a) (g b)) : SameFault S (x >>= f) (y >>= g) := by
  cases h with
  | error fault => exact .error fault
  | ok hab => exact hnext _ _ hab

theorem map {f : α → γ} {g : β → δ} (h : SameFault R x y) (hmap : ∀ a b, R a b → S (f a) (g b)) :
    SameFault S (f <$> x) (g <$> y) := by
  cases h with
  | error fault => exact .error fault
  | ok hab => exact .ok (hmap _ _ hab)

theorem mapM {f : α → Except ε γ} {g : β → Except ε δ} {as : List α} {bs : List β}
    (h : List.Forall₂ R as bs) (hitem : ∀ a b, R a b → SameFault S (f a) (g b)) :
    SameFault (List.Forall₂ S) (as.mapM f) (bs.mapM g) := by
  induction h with
  | nil => exact .ok .nil
  | @cons a b as bs hab _ ih =>
    rw [List.mapM_cons, List.mapM_cons]
    apply (hitem a b hab).bind
    intro c d hcd
    apply ih.bind
    intro cs ds hcds
    exact .ok (.cons hcd hcds)

theorem foldlM {f : γ → α → Except ε γ} {g : δ → β → Except ε δ} {as : List α} {bs : List β}
    (h : List.Forall₂ R as bs)
    (hstep : ∀ c d a b, S c d → R a b → SameFault S (f c a) (g d b)) {c : γ} {d : δ}
    (hstart : S c d) : SameFault S (as.foldlM f c) (bs.foldlM g d) := by
  induction h generalizing c d with
  | nil => exact .ok hstart
  | @cons a b as bs hab _ ih =>
    rw [List.foldlM_cons, List.foldlM_cons]
    apply (hstep c d a b hstart hab).bind
    intro c' d' hnext
    exact ih hnext

end SameFault
end TrioScore
