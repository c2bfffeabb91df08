import TrioScore.Command.Directory
import TrioScore.Proofs.Command.Path
import TrioScore.Proofs.Faults

/-!
# Finding and writing files

A file that is written is found again, and nothing else is found otherwise. A place that can be
written is neither a folder nor a link, so steps lead where they led before.
-/

namespace TrioScore.Directory

section Entries
variable {directory : Directory} {place : Place}

theorem isSurrounding_of_find? (h : directory.find? place ≠ some .folder) :
    isSurrounding place = false := by
  by_contra hplace
  rw [Bool.not_eq_false] at hplace
  exact h (by rw [find?, if_pos hplace])

theorem lookup_replaced_self {entries : List (Place × Entry)} {entry : Entry}
    (h : (entries.any fun e => e.1 = place) = true) :
    (entries.map fun e => if e.1 = place then (place, entry) else e).lookup place = some entry := by
  induction entries with
  | nil => cases h
  | cons e entries ih =>
    rw [List.map_cons]
    split_ifs with he
    · exact List.lookup_cons_self
    · have hrest : (entries.any fun e => e.1 = place) = true := by simpa [he] using h
      rw [List.lookup_cons, beq_eq_false_iff_ne.mpr (Ne.symm he)]
      exact ih hrest

theorem lookup_replaced_of_ne {other : Place} (h : other ≠ place)
    (entries : List (Place × Entry)) (entry : Entry) :
    (entries.map fun e => if e.1 = place then (place, entry) else e).lookup other =
      entries.lookup other := by
  induction entries with
  | nil => rfl
  | cons e entries ih =>
    rw [List.map_cons, List.lookup_cons, List.lookup_cons, ih]
    split_ifs with he
    · rw [he]
      rw [beq_eq_false_iff_ne.mpr h]
    · rfl

theorem find?_put_self (h : directory.find? place ≠ some .folder) (content : Bytes) :
    (directory.put place content).find? place = some (.file content) := by
  rw [find?, isSurrounding_of_find? h, if_neg Bool.false_ne_true, put]
  split_ifs with hany
  · exact lookup_replaced_self hany
  · have hnone : directory.entries.lookup place = none := by
      refine List.lookup_eq_none_iff.mpr fun e he => bne_iff_ne.mpr fun hplace => ?_
      exact hany (List.any_eq_true.mpr ⟨e, he, decide_eq_true hplace.symm⟩)
    rw [List.lookup_append, hnone, Option.none_or, List.lookup_cons_self]

theorem find?_put_of_ne {other : Place} (h : other ≠ place) (content : Bytes) :
    (directory.put place content).find? other = directory.find? other := by
  have hlookup : (directory.put place content).entries.lookup other =
      directory.entries.lookup other := by
    rw [put]
    split_ifs
    · exact lookup_replaced_of_ne h _ _
    · rw [List.lookup_append, List.lookup_cons, beq_eq_false_iff_ne.mpr h, List.lookup_nil,
        Option.or_none]
  rw [find?, find?, hlookup]

end Entries

section Steps
variable {directory : Directory} {place reached : Place} {name : Text}

theorem find?_of_isSurrounding (directory : Directory) (h : isSurrounding place = true) :
    directory.find? place = some .folder := by
  rw [find?, if_pos h]

theorem step_eq_ok_iff : directory.step place name = .ok reached ↔
    directory.find? place = some .folder ∧ name.utf8.length ≤ 255 ∧ next place name = reached := by
  unfold step
  cases hfound : directory.find? place with
  | none => simp
  | some entry =>
    cases entry with
    | folder =>
      dsimp only
      split_ifs with hlong
      · simp only [false_iff, not_and]
        omega
      · simp only [true_and, Except.ok.injEq]
        exact (and_iff_right (by omega)).symm
    | file _ => simp
    | link _ => simp

/-- Steps that lead from a place to another, with the links that may be followed before and
after. -/
inductive Walks (directory : Directory) : ℕ → Place → List Text → ℕ → Place → Prop
  | nil (links : ℕ) (place : Place) : Walks directory links place [] links place
  | step {links left : ℕ} {place reached last : Place} {name : Text} {names : List Text} :
      directory.step place name = .ok reached →
      (∀ target, directory.find? reached ≠ some (.link target)) →
      Walks directory links reached names left last →
      Walks directory links place (name :: names) left last
  | link {links left : ℕ} {place reached target last : Place} {name : Text} {names : List Text} :
      directory.step place name = .ok reached →
      directory.find? reached = some (.link target) →
      Walks directory links [] (target ++ names) left last →
      Walks directory (links + 1) place (name :: names) left last

section Walks
variable {links left : ℕ} {last : Place} {names : List Text}

theorem walk_eq_ok_iff : directory.walk links place names = .ok (left, last) ↔
    Walks directory links place names left last := by
  constructor
  · intro h
    induction links generalizing place names with
    | zero =>
      induction names generalizing place with
      | nil =>
        obtain ⟨rfl, rfl⟩ := Prod.mk.inj (Except.ok.inj h)
        exact .nil 0 _
      | cons name names ih =>
        obtain ⟨reached, hstep, h⟩ := bind_eq_ok_iff.mp h
        split at h
        · cases h
        · next hno => exact .step hstep hno (ih h)
    | succ links ihlinks =>
      induction names generalizing place with
      | nil =>
        obtain ⟨rfl, rfl⟩ := Prod.mk.inj (Except.ok.inj h)
        exact .nil _ _
      | cons name names ih =>
        obtain ⟨reached, hstep, h⟩ := bind_eq_ok_iff.mp h
        split at h
        · next hlink => exact .link hstep hlink (ihlinks h)
        · next hno => exact .step hstep hno (ih h)
  · intro h
    induction h with
    | nil links place => cases links <;> rfl
    | @step links left place reached last name names hstep hno _ ih =>
      cases links <;>
      · refine bind_eq_ok_iff.mpr ⟨reached, hstep, ?_⟩
        split
        · next hlink => exact absurd hlink (hno _)
        · exact ih
    | link hstep hlink _ ih =>
      refine bind_eq_ok_iff.mpr ⟨_, hstep, ?_⟩
      rw [hlink]
      exact ih

namespace Walks

theorem append {further : List Text} {rest : ℕ} {reached : Place}
    (h : Walks directory links place names left last)
    (hfurther : Walks directory left last further rest reached) :
    Walks directory links place (names ++ further) rest reached := by
  induction h with
  | nil _ _ => exact hfurther
  | step hstep hno _ ih => exact .step hstep hno (ih hfurther)
  | link hstep hlink _ ih =>
    exact .link hstep hlink (List.append_assoc .. ▸ ih hfurther)

/-- What leads along a list of names leads along its front first. -/
theorem exists_of_append {front further : List Text}
    (h : Walks directory links place (front ++ further) left last) :
    ∃ between reached, Walks directory links place front between reached ∧
      Walks directory between reached further left last := by
  generalize hnames : front ++ further = names at h
  induction h generalizing front with
  | nil links place =>
    obtain ⟨rfl, rfl⟩ := List.append_eq_nil_iff.mp hnames
    exact ⟨links, place, .nil links place, .nil links place⟩
  | @step links left place reached last name names hstep hno hrest ih =>
    rcases List.append_eq_cons_iff.mp hnames with ⟨rfl, rfl⟩ | ⟨front, rfl, rfl⟩
    · exact ⟨links, place, .nil links place, .step hstep hno hrest⟩
    · obtain ⟨between, reached', hfront, hfurther⟩ := ih rfl
      exact ⟨between, reached', .step hstep hno hfront, hfurther⟩
  | @link links left place reached target last name names hstep hlink hrest ih =>
    rcases List.append_eq_cons_iff.mp hnames with ⟨rfl, rfl⟩ | ⟨front, rfl, rfl⟩
    · exact ⟨links + 1, place, .nil (links + 1) place, .link hstep hlink hrest⟩
    · obtain ⟨between, reached', hfront, hfurther⟩ := ih (List.append_assoc target front further)
      exact ⟨between, reached', .link hstep hlink hfront, hfurther⟩

theorem exists_of_cons {name : Text} (h : Walks directory links place (name :: names) left last) :
    ∃ between reached, Walks directory links place [name] between reached ∧
      Walks directory between reached names left last := by
  rw [← List.singleton_append] at h
  exact h.exists_of_append

/-- A step that stays where it is leads from a folder to itself. -/
theorem here_iff : Walks directory links place [Path.here] left last ↔
    directory.find? place = some .folder ∧ left = links ∧ last = place := by
  have hnext : next place Path.here = place := if_pos rfl
  have hshort : (Text.utf8 Path.here).length ≤ 255 := by decide +kernel
  constructor
  · intro h
    cases h with
    | step hstep _ hrest =>
      obtain ⟨hfolder, -, rfl⟩ := step_eq_ok_iff.mp hstep
      rw [hnext] at hrest
      cases hrest
      exact ⟨hfolder, rfl, rfl⟩
    | link hstep hlink _ =>
      obtain ⟨hfolder, -, rfl⟩ := step_eq_ok_iff.mp hstep
      rw [hnext, hfolder] at hlink
      cases hlink
  · rintro ⟨hfolder, rfl, rfl⟩
    refine .step (step_eq_ok_iff.mpr ⟨hfolder, hshort, hnext⟩) ?_ (.nil _ _)
    rw [hfolder]
    simp

/-- Steps that stay where they are can be left out. -/
theorem filter (h : Walks directory links place names left last) :
    Walks directory links place (names.filter (· != Path.here)) left last := by
  induction names generalizing links place with
  | nil => exact h
  | cons name names ih =>
    obtain ⟨between, reached, hfirst, hrest⟩ := h.exists_of_cons
    by_cases hname : name = Path.here
    · subst hname
      obtain ⟨-, rfl, rfl⟩ := here_iff.mp hfirst
      exact ih hrest
    · rw [List.filter_cons_of_pos (by simpa using hname)]
      exact hfirst.append (ih hrest)

theorem find?_of_concat {name : Text}
    (h : Walks directory links place (names ++ [name]) left last) :
    ∃ between folder, Walks directory links place names between folder ∧
      directory.find? folder = some .folder ∧
      Walks directory between folder [name] left last := by
  obtain ⟨between, folder, hfront, hname⟩ := h.exists_of_append
  refine ⟨between, folder, hfront, ?_, hname⟩
  cases hname with
  | step hstep _ _ => exact (step_eq_ok_iff.mp hstep).1
  | link hstep _ _ => exact (step_eq_ok_iff.mp hstep).1

end Walks

/-- A place where a file is, or nothing yet. -/
structure HasRoom (directory : Directory) (place : Place) : Prop where
  not_folder : directory.find? place ≠ some .folder
  not_link : ∀ target, directory.find? place ≠ some (.link target)

/-- Steps end at no link, unless they begin there. -/
theorem Walks.not_link (h : Walks directory links place names left last)
    (hplace : ∀ target, directory.find? place ≠ some (.link target)) (target : Place) :
    directory.find? last ≠ some (.link target) := by
  induction h with
  | nil _ _ => exact hplace target
  | step _ hno _ ih => exact ih hno
  | link _ _ _ ih =>
    refine ih fun other => ?_
    rw [find?_of_isSurrounding directory rfl]
    simp

end Walks

section Put
variable {target : Place} (htarget : directory.HasRoom target) (content : Bytes)
include htarget

theorem hasRoom_put (h : directory.HasRoom place) :
    (directory.put target content).HasRoom place := by
  by_cases hplace : place = target
  · have hfile := find?_put_self htarget.not_folder content
    constructor <;> simp [hplace, hfile]
  · have hsame : (directory.put target content).find? place = directory.find? place :=
      find?_put_of_ne hplace content
    constructor <;> rw [hsame]
    exacts [h.not_folder, h.not_link]

theorem step_put (h : directory.step place name = .ok reached) :
    (directory.put target content).step place name = .ok reached := by
  obtain ⟨hfolder, hlong, hnext⟩ := step_eq_ok_iff.mp h
  have hne : place ≠ target := fun heq => htarget.not_folder (heq ▸ hfolder)
  exact step_eq_ok_iff.mpr ⟨(find?_put_of_ne hne content).trans hfolder, hlong, hnext⟩

theorem Walks.put {links left : ℕ} {last : Place} {names : List Text}
    (h : Walks directory links place names left last) :
    Walks (directory.put target content) links place names left last := by
  induction h with
  | nil links place => exact .nil links place
  | @step links left place reached last name names hstep hno _ ih =>
    refine .step (step_put htarget content hstep) (fun other => ?_) ih
    by_cases hreached : reached = target
    · rw [hreached, find?_put_self htarget.not_folder]
      simp
    · rw [find?_put_of_ne hreached]
      exact hno other
  | @link links left place reached other last name names hstep hlink _ ih =>
    have hne : reached ≠ target := fun heq => htarget.not_link other (heq ▸ hlink)
    exact .link (step_put htarget content hstep) ((find?_put_of_ne hne content).trans hlink) ih

end Put

end Steps

/-! The folders that a place is in. -/

/-- All folders that lead to the place are there. -/
def Enclosed (directory : Directory) (place : Place) : Prop :=
  ∀ front, front <+: place → front ≠ place → directory.find? front = some .folder

section Enclosed
variable {directory : Directory} {place reached : Place} {name : Text}

theorem Enclosed.concat (h : Enclosed directory place)
    (hfolder : directory.find? place = some .folder) (name : Text) :
    Enclosed directory (place ++ [name]) := by
  intro front hfront hne
  rcases List.prefix_concat_iff.mp hfront with rfl | hfront
  · exact absurd rfl hne
  · by_cases hplace : front = place
    · exact hplace ▸ hfolder
    · exact h front hfront hplace

theorem enclosed_nil : Enclosed directory [] := fun _ hfront hne =>
  absurd (List.prefix_nil.mp hfront) hne

theorem enclosed_start (t : Text) : Enclosed directory (start t) := by
  rw [start]
  split_ifs
  · exact enclosed_nil
  · exact enclosed_nil.concat (find?_of_isSurrounding directory rfl) [Path.stroke]

theorem Enclosed.step (h : Enclosed directory place)
    (hstep : directory.step place name = .ok reached) : Enclosed directory reached := by
  obtain ⟨hfolder, -, rfl⟩ := step_eq_ok_iff.mp hstep
  unfold next
  split_ifs
  · exact h
  · exact h.concat hfolder name
  · exact h.concat hfolder above
  · exact h
  · intro front hfront hne
    refine h front (hfront.trans (List.dropLast_prefix place)) ?_
    rintro rfl
    exact hne ((List.dropLast_prefix front).eq_of_length_le hfront.length_le).symm

theorem Enclosed.walks {links left : ℕ} {names : List Text} (h : Enclosed directory place)
    (hwalks : Walks directory links place names left reached) : Enclosed directory reached := by
  induction hwalks with
  | nil _ _ => exact h
  | step hstep _ _ ih => exact ih (h.step hstep)
  | link _ _ _ ih => exact ih enclosed_nil

theorem Enclosed.find?_above (h : Enclosed directory place)
    (hstep : directory.step place above = .ok reached) :
    directory.find? reached = some .folder := by
  obtain ⟨hfolder, -, rfl⟩ := step_eq_ok_iff.mp hstep
  rw [next, if_neg (by decide), if_neg (by decide)]
  split_ifs with hall hsurrounding
  · refine find?_of_isSurrounding directory ?_
    rw [isSurrounding, List.all_append, hall]
    rfl
  · exact hfolder
  · refine h _ (List.dropLast_prefix place) fun heq => hsurrounding ?_
    have hempty : place = [] := by
      have hlength := congrArg List.length heq
      rw [List.length_dropLast] at hlength
      exact List.eq_nil_of_length_eq_zero (by omega)
    rw [hempty]
    rfl

end Enclosed

end TrioScore.Directory
