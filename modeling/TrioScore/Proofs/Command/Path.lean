import Mathlib.Data.List.Basic
import Mathlib.Data.List.Flatten
import TrioScore.Command.Path
import TrioScore.Proofs.Text.Found

/-!
# Written paths

The text of a path is read as that path again, and it is no longer than the text that the path was
read from. Names are found again one by one, since a stroke is ASCII.
-/

namespace TrioScore

namespace Text

theorem join_cons {separator t : Text} {parts : List Text} (h : parts ≠ []) :
    join separator (t :: parts) = t ++ separator ++ join separator parts := by
  obtain ⟨u, rest, rfl⟩ := List.exists_cons_of_ne_nil h
  rfl

theorem join_concat (separator : Text) (parts : List Text) (t : Text) :
    ∃ front, join separator (parts ++ [t]) = front ++ t := by
  induction parts with
  | nil => exact ⟨[], rfl⟩
  | cons u parts ih =>
    obtain ⟨front, hfront⟩ := ih
    refine ⟨u ++ separator ++ front, ?_⟩
    rw [List.cons_append, join_cons (List.append_ne_nil_of_right_ne_nil _ (List.cons_ne_nil _ _)),
      hfront, ← List.append_assoc]

theorem join_sublist (separator : Text) {l m : List Text} (h : l.Sublist m) :
    (join separator l).Sublist (join separator m) := by
  induction h with
  | slnil => exact List.Sublist.refl _
  | @cons l m t hsub ih =>
    by_cases hm : m = []
    · subst hm
      rw [List.sublist_nil.mp hsub]
      exact List.nil_sublist _
    · rw [join_cons hm]
      exact ih.trans (List.sublist_append_right _ _)
  | @cons_cons l m t hsub ih =>
    by_cases hl : l = []
    · subst hl
      by_cases hm : m = []
      · rw [hm]
      · rw [join_cons hm, List.append_assoc]
        exact List.sublist_append_left t _
    · rw [join_cons hl, join_cons fun hm => hl (List.sublist_nil.mp (hm ▸ hsub))]
      exact (List.Sublist.refl _).append ih

end Text

namespace Path

theorem split_append (t u : Text) : split (t ++ stroke :: u) = split t ++ split u :=
  List.splitOn_append_cons_self t u

theorem split_of_not_mem {t : Text} (h : stroke ∉ t) : split t = [t] := List.splitOn_eq_singleton h

theorem stroke_not_mem_of_mem_split {t name : Text} (h : name ∈ split t) : stroke ∉ name := by
  induction t generalizing name with
  | nil =>
    obtain rfl := List.mem_singleton.mp h
    exact List.not_mem_nil
  | cons c t ih =>
    rw [split, List.splitOn_cons_eq_if_modifyHead] at h
    obtain ⟨first, rest, hsplit⟩ := List.exists_cons_of_ne_nil (List.splitOn_ne_nil stroke t)
    have hrest : ∀ name ∈ first :: rest, stroke ∉ name := fun name hname =>
      ih (by rwa [split, hsplit])
    rw [hsplit] at h
    split_ifs at h with hc
    · rcases List.mem_cons.mp h with rfl | h
      · exact List.not_mem_nil
      · exact hrest name h
    · rcases List.mem_cons.mp h with rfl | h
      · rintro (_ | ⟨_, hmem⟩)
        · exact hc (BEq.refl _)
        · exact hrest first (List.mem_cons_self ..) hmem
      · exact hrest name (List.mem_cons_of_mem _ h)

theorem join_split (t : Text) : Text.join [stroke] (split t) = t := by
  have hjoin : ∀ parts : List Text, Text.join [stroke] parts = [stroke].intercalate parts := by
    intro parts
    induction parts with
    | nil => rfl
    | cons t parts ih =>
      cases parts with
      | nil => simp [Text.join]
      | cons u parts => rw [Text.join_cons (List.cons_ne_nil _ _), ih, List.intercalate_cons_cons]
  rw [hjoin]
  exact List.intercalate_splitOn stroke

/-- Between strokes, each name is found again by itself. -/
theorem split_asFound (t : Text) : split t.asFound = (split t).map Text.asFound := by
  have hpieces : ∀ pieces : List Text, pieces ≠ [] → (∀ name ∈ pieces, stroke ∉ name) →
      split (Text.join [stroke] pieces).asFound = pieces.map Text.asFound := by
    intro pieces hne hmem
    induction pieces with
    | nil => exact absurd rfl hne
    | cons name pieces ih =>
      obtain ⟨hname, hpieces⟩ := List.forall_mem_cons.mp hmem
      have hfound : stroke ∉ name.asFound := (Text.mem_asFound_iff (by decide) name).not.mpr hname
      by_cases hempty : pieces = []
      · rw [hempty]
        exact split_of_not_mem hfound
      · rw [Text.join_cons hempty, List.append_assoc, List.singleton_append,
          Text.asFound_append_cons _ (by decide), split_append, split_of_not_mem hfound,
          ih hempty hpieces]
        rfl
  have hsplit := hpieces (split t) (List.splitOn_ne_nil _ _) fun _ => stroke_not_mem_of_mem_split
  rwa [join_split] at hsplit

theorem names_append (t u : Text) : names (t ++ stroke :: u) = names t ++ names u := by
  rw [names, split_append, List.filter_append]
  rfl

theorem names_of_not_mem {name : Text} (hne : name ≠ []) (h : stroke ∉ name) :
    names name = [name] := by
  rw [names, split_of_not_mem h]
  simp [hne]

theorem sublist_of_mem_split {t name : Text} (h : name ∈ split t) : name.Sublist t := by
  have hjoin := Text.join_sublist [stroke] (List.singleton_sublist.mpr h)
  rwa [join_split] at hjoin

theorem names_asFound {t : Text} (h : t.HasBytes) :
    names t.asFound = (names t).map Text.asFound := by
  rw [names, split_asFound, List.filter_map, names]
  refine congrArg _ (List.filter_congr fun name hname => ?_)
  have hbytes : name.HasBytes := fun c hc => h c ((sublist_of_mem_split hname).subset hc)
  have hempty : name.asFound = [] ↔ name = [] :=
    Text.asFound_eq_iff (fun _ hc => absurd hc List.not_mem_nil) hbytes
  rw [Function.comp_apply, Bool.eq_iff_iff]
  simp [hempty]

/-- A name that stands for a step: it is written between strokes and is no single dot. -/
structure IsStep (name : Text) : Prop where
  ne_nil : name ≠ []
  ne_here : name ≠ here
  stroke_not_mem : stroke ∉ name

theorem isStep_of_mem_steps {t name : Text} (h : name ∈ steps t) : IsStep name := by
  obtain ⟨hmem, hhere⟩ := List.mem_filter.mp h
  obtain ⟨hsplit, hne⟩ := List.mem_filter.mp hmem
  exact ⟨by simpa using hne, by simpa using hhere, stroke_not_mem_of_mem_split hsplit⟩

theorem names_join {parts : List Text} (h : ∀ name ∈ parts, IsStep name) :
    names (Text.join [stroke] parts) = parts := by
  induction parts with
  | nil => rfl
  | cons name parts ih =>
    obtain ⟨hname, hparts⟩ := List.forall_mem_cons.mp h
    have hfirst := names_of_not_mem hname.ne_nil hname.stroke_not_mem
    by_cases hempty : parts = []
    · rw [hempty]
      exact hfirst
    · rw [Text.join_cons hempty, List.append_assoc, List.singleton_append, names_append, hfirst,
        ih hparts]
      rfl

def roots : List Text := [[], [stroke], [stroke, stroke]]

theorem names_replicate_append (n : ℕ) (t : Text) :
    names (List.replicate n stroke ++ t) = names t := by
  induction n with
  | zero => rfl
  | succ n ih =>
    rw [List.replicate_succ, List.cons_append]
    exact (names_append [] _).trans ih

theorem names_root_append {root : Text} (h : root ∈ roots) (t : Text) :
    names (root ++ t) = names t := by
  simp only [roots, List.mem_cons, List.not_mem_nil, or_false] at h
  rcases h with rfl | rfl | rfl
  · exact names_replicate_append 0 t
  · exact names_replicate_append 1 t
  · exact names_replicate_append 2 t

theorem rootOf_root_append {root : Text} (h : root ∈ roots) {t : Text}
    (ht : ∀ c ∈ t.head?, c ≠ stroke) : rootOf (root ++ t) = root := by
  have hnone : t.takeWhile (· = stroke) = [] := by
    cases t with
    | nil => rfl
    | cons c t => simp [ht c rfl]
  simp only [roots, List.mem_cons, List.not_mem_nil, or_false] at h
  rcases h with rfl | rfl | rfl <;> simp [rootOf, hnone]

structure IsWritten (path : Path) : Prop where
  root : path.root ∈ roots
  parts : ∀ name ∈ path.parts, IsStep name

theorem isWritten_ofText (t : Text) : (ofText t).IsWritten where
  root := by
    have hroots : rootOf t ∈ roots := by
      rw [rootOf]
      split <;> decide
    exact hroots
  parts _ := isStep_of_mem_steps

section Written
variable {path : Path}

theorem head?_join {parts : List Text} (h : ∀ name ∈ parts, IsStep name) :
    ∀ c ∈ (Text.join [stroke] parts).head?, c ≠ stroke := by
  rintro c hc rfl
  cases parts with
  | nil => cases hc
  | cons name parts =>
    obtain ⟨hne, -, hstroke⟩ := h name (List.mem_cons_self ..)
    obtain ⟨d, rest, rfl⟩ := List.exists_cons_of_ne_nil hne
    have hd : d = stroke := by
      cases parts <;> exact Option.some.inj hc
    exact hstroke (hd ▸ List.mem_cons_self ..)

theorem toText_of_parts (hne : path.parts ≠ []) (h : path.IsWritten) :
    path.toText = path.root ++ Text.join [stroke] path.parts := by
  obtain ⟨name, rest, hparts⟩ := List.exists_cons_of_ne_nil hne
  have hname := (h.parts name (hparts ▸ List.mem_cons_self ..)).ne_nil
  have hjoin : Text.join [stroke] path.parts ≠ [] := by
    rw [hparts]
    cases rest with
    | nil => exact hname
    | cons u rest => simp [Text.join]
  rw [toText, if_neg (by simp [hjoin])]

/-- The text of a path with steps does not end with a stroke. -/
theorem getLast?_toText (hne : path.parts ≠ []) (h : path.IsWritten) :
    ∃ c ≠ stroke, path.toText.getLast? = some c := by
  obtain ⟨front, name, hparts⟩ := (List.eq_nil_or_concat' path.parts).resolve_left hne
  obtain ⟨hname, -, hstroke⟩ := h.parts name (by simp [hparts])
  obtain ⟨before, c, rfl⟩ := (List.eq_nil_or_concat' name).resolve_left hname
  obtain ⟨joined, hjoined⟩ := Text.join_concat [stroke] front (before ++ [c])
  refine ⟨c, fun heq => hstroke (by simp [heq]), ?_⟩
  rw [toText_of_parts hne h, hparts, hjoined, ← List.append_assoc, ← List.append_assoc,
    List.getLast?_concat]

theorem names_toText (h : path.IsWritten) (hne : path.parts ≠ []) :
    names path.toText = path.parts := by
  rw [toText_of_parts hne h, names_root_append h.root, names_join h.parts]

theorem ofText_toText (h : path.IsWritten) : ofText path.toText = path := by
  obtain ⟨root, parts⟩ := path
  by_cases hne : parts = []
  · subst hne
    have hroot : root ∈ roots := h.root
    simp only [roots, List.mem_cons, List.not_mem_nil, or_false] at hroot
    rcases hroot with rfl | rfl | rfl <;> decide
  · have hsteps : parts.filter (· != here) = parts :=
      List.filter_eq_self.mpr fun name hname => by simpa using (h.parts name hname).ne_here
    rw [ofText, steps, names_toText h hne, hsteps, toText_of_parts hne h,
      rootOf_root_append h.root (head?_join h.parts)]

end Written

/-- The text of a path with steps is a part of the text that the path is read from. -/
theorem toText_ofText_sublist {t : Text} (hne : (ofText t).parts ≠ []) :
    (ofText t).toText.Sublist t := by
  obtain ⟨n, u, hstrokes, rfl⟩ : ∃ n u, t.takeWhile (· = stroke) = List.replicate n stroke ∧
      t = List.replicate n stroke ++ u := by
    have hall : ∀ c ∈ t.takeWhile (· = stroke), c = stroke := fun c hc => by
      simpa using List.mem_takeWhile_imp hc
    have hreplicate := List.eq_replicate_of_mem hall
    refine ⟨_, t.dropWhile (· = stroke), hreplicate, ?_⟩
    rw [← hreplicate, List.takeWhile_append_dropWhile]
  have hroot : (rootOf (List.replicate n stroke ++ u)).Sublist (List.replicate n stroke) := by
    rw [rootOf, hstrokes, List.length_replicate]
    match n with
    | 0 => exact List.Sublist.refl _
    | 2 => exact List.Sublist.refl _
    | 1 => exact List.Sublist.refl _
    | n + 3 => exact List.singleton_sublist.mpr (by simp)
  have hjoin : (Text.join [stroke] (steps u)).Sublist u := by
    have hsub : (steps u).Sublist (split u) := List.filter_sublist.trans List.filter_sublist
    have hpart := Text.join_sublist [stroke] hsub
    rwa [join_split] at hpart
  rw [toText_of_parts hne (isWritten_ofText _)]
  refine hroot.append ?_
  rw [ofText, steps, names_replicate_append]
  exact hjoin

/-! A suffix is put behind a part of the last name. -/

theorem stem_isPrefix (name : Text) : stem name <+: name := by
  unfold stem
  dsimp only
  split_ifs
  · exact List.prefix_refl name
  · rw [← List.reverse_suffix, List.reverse_reverse, List.drop_drop]
    exact List.drop_suffix _ _

theorem isStep_stem_append {name suffix : Text} (h : IsStep name) (hlong : 2 ≤ suffix.length)
    (hsuffix : stroke ∉ suffix) : IsStep (stem name ++ suffix) where
  ne_nil := List.append_ne_nil_of_right_ne_nil _ (List.ne_nil_of_length_pos (by omega))
  ne_here := by
    intro hhere
    have hlength := congrArg List.length hhere
    rw [List.length_append] at hlength
    have hone : here.length = 1 := by decide
    omega
  stroke_not_mem hmem := (List.mem_append.mp hmem).elim
    (fun hstem => h.stroke_not_mem ((stem_isPrefix name).subset hstem)) hsuffix

theorem withSuffix_of_getLast? {path : Path} {name : Text} (h : path.parts.getLast? = some name)
    (suffix : Text) : path.withSuffix suffix =
      { path with parts := path.parts.dropLast ++ [stem name ++ suffix] } := by
  rw [withSuffix, h]

theorem IsWritten.withSuffix {path : Path} (h : path.IsWritten) {suffix : Text}
    (hlong : 2 ≤ suffix.length) (hsuffix : stroke ∉ suffix) :
    (path.withSuffix suffix).IsWritten := by
  cases hlast : path.parts.getLast? with
  | none => rwa [Path.withSuffix, hlast]
  | some name =>
    rw [withSuffix_of_getLast? hlast]
    refine ⟨h.root, List.forall_mem_append.mpr ⟨fun part hpart =>
      h.parts part (List.mem_of_mem_dropLast hpart), List.forall_mem_singleton.mpr ?_⟩⟩
    exact isStep_stem_append (h.parts name (List.mem_of_getLast? hlast)) hlong hsuffix

end Path
end TrioScore
