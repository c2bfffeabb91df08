import TrioScore.Proofs.Piece.Cadences

/-!
# Repair goes field by field

A field of a repaired piece is made of the field of the same name and of no other, but for one
thing: the cadence of the last section may come from the key. So whatever is wrong with one field of
a document does no harm to the others. In the same way a section is made of its own item, and of its
place when it has no name.
-/

namespace TrioScore

namespace Piece

inductive Field where
  | key
  | tempo
  | timeSignature
  | form
  | sections
  | instrumentation
  | character
  | reasoning
deriving DecidableEq

namespace Field

def name : Field → Text
  | key => "key"
  | tempo => "tempo"
  | timeSignature => "timeSignature"
  | form => "form"
  | sections => "sections"
  | instrumentation => "instrumentation"
  | character => "character"
  | reasoning => "reasoning"

/-- The fields of a document that a field of the repaired piece is made of. -/
def sources : Field → List Field
  | sections => [sections, key]
  | f => [f]

theorem eq_of_name_eq {f g : Field} (h : f.name = g.name) : f = g := by
  cases f <;> cases g <;> first | rfl | exact absurd h (by decide)

theorem ne_of_mem_sources {f g changed : Field} (hg : g ∈ f.sources) (hf : f ≠ changed)
    (hkey : changed = key → f ≠ sections) : g ≠ changed := by
  cases f with
  | sections =>
    rcases List.mem_cons.mp hg with rfl | hg
    · exact hf
    · obtain rfl := List.mem_singleton.mp hg
      exact fun h => hkey h.symm rfl
  | _ =>
    obtain rfl := List.mem_singleton.mp hg
    exact hf

end Field

/-- Two pieces have the same value of a field. -/
def SameIn (p q : Piece) : Field → Prop
  | .key => p.key = q.key
  | .tempo => p.tempo = q.tempo
  | .timeSignature => p.timeSignature = q.timeSignature
  | .form => p.form = q.form
  | .sections => p.sections = q.sections
  | .instrumentation => p.instrumentation = q.instrumentation
  | .character => p.character = q.character
  | .reasoning => p.reasoning = q.reasoning

end Piece

namespace Json

/-- Two objects have the same values of the fields of a piece, but for one. A missing field is
null. -/
def AgreeApart (changed : Piece.Field) (a b : List (Text × Json)) : Prop :=
  ∀ f : Piece.Field, f ≠ changed → field f.name a = field f.name b

theorem field_cons_of_ne {name given : Text} (h : name ≠ given) (value : Json)
    (fields : List (Text × Json)) : field name ((given, value) :: fields) = field name fields := by
  rw [field, field, List.lookup_cons, beq_eq_false_iff_ne.mpr h]

theorem field_setField_of_ne {name other : Text} (h : name ≠ other) (value : Json)
    (fields : List (Text × Json)) :
    field name (setField other value fields) = field name fields := by
  induction fields with
  | nil => exact field_cons_of_ne h value []
  | cons entry rest ih =>
    obtain ⟨given, old⟩ := entry
    rw [setField]
    split
    · next hgiven =>
      subst hgiven
      rw [field_cons_of_ne h, field_cons_of_ne h]
    · simp only [field, List.lookup_cons] at ih ⊢
      cases name == given with
      | true => rfl
      | false => exact ih

theorem agreeApart_setField (changed : Piece.Field) (value : Json) (fields : List (Text × Json)) :
    AgreeApart changed fields (setField changed.name value fields) := fun _ hf =>
  (field_setField_of_ne (fun h => hf (Piece.Field.eq_of_name_eq h)) value fields).symm

end Json

namespace Piece

/-- Documents that agree in what a field is made of are repaired to the same value of it. -/
theorem sameIn_of_sources {a b : List (Text × Json)} {p q : Piece}
    (hp : repair (.object a) = .ok p) (hq : repair (.object b) = .ok q) {f : Field}
    (h : ∀ g ∈ f.sources, Json.field g.name a = Json.field g.name b) : p.SameIn q f := by
  obtain ⟨t, ht, rfl⟩ := repair_object_eq_ok hp
  obtain ⟨u, hu, rfl⟩ := repair_object_eq_ok hq
  cases f with
  | key => exact congrArg (Repair.text "C major") (h .key List.mem_cons_self)
  | tempo => exact congrArg Repair.tempo (h .tempo List.mem_cons_self)
  | timeSignature =>
    have hmeter : Json.field "timeSignature" a = Json.field "timeSignature" b :=
      h .timeSignature List.mem_cons_self
    rw [hmeter] at ht
    exact Except.ok.inj (ht.symm.trans hu)
  | form => exact congrArg (Repair.text "free") (h .form List.mem_cons_self)
  | sections =>
    have hkey : Json.field "key" a = Json.field "key" b :=
      h .key (List.mem_cons_of_mem _ List.mem_cons_self)
    have hlisted : Json.field "sections" a = Json.field "sections" b :=
      h .sections List.mem_cons_self
    simp only [SameIn, Repair.pieceOf, hkey, hlisted]
  | instrumentation => exact congrArg (Repair.text []) (h .instrumentation List.mem_cons_self)
  | character => exact congrArg (Repair.text []) (h .character List.mem_cons_self)
  | reasoning => exact congrArg Repair.text? (h .reasoning List.mem_cons_self)

/-- Whatever the key, closing reaches no further than the cadence of the last section. -/
theorem exists_last_closeSections {sections : List Section} (hne : sections ≠ []) :
    ∃ before last, sections = before ++ [last] ∧ ∀ key, ∃ cadence,
      closeSections key sections = before ++ [{ last with cadence := cadence }] := by
  refine ⟨_, _, (List.dropLast_append_getLast hne).symm, fun key => ?_⟩
  rcases closeSections_cases key sections with ⟨hsame, -⟩ | ⟨before, last, rfl, -, hclosed⟩
  · refine ⟨(sections.getLast hne).cadence, ?_⟩
    rw [hsame]
    exact (List.dropLast_append_getLast hne).symm
  · rw [hclosed, List.dropLast_concat, List.getLast_concat]
    exact ⟨_, rfl⟩

/-- The sections of a repaired piece, where some item is an object: one for each such item, made of
the item and its place among them, the cadence of the last one apart. -/
theorem sections_of_repair {fields : List (Text × Json)} {piece : Piece}
    (h : repair (.object fields) = .ok piece)
    (hne : (Json.field "sections" fields).objects ≠ []) :
    piece.sections.length = (Json.field "sections" fields).objects.length ∧
      ∀ (i : ℕ) (entry : List (Text × Json)),
        (Json.field "sections" fields).objects[i]? = some entry →
          ∃ s, piece.sections[i]? = some s ∧
            s.withoutCadence = (Repair.sectionAt i entry).withoutCadence ∧
            (i + 1 < (Json.field "sections" fields).objects.length →
              s = Repair.sectionAt i entry) := by
  obtain ⟨timeSignature, -, rfl⟩ := repair_object_eq_ok h
  set objects := (Json.field "sections" fields).objects with hobjects
  have hmapped : objects.mapIdx Repair.sectionAt ≠ [] := by
    rwa [ne_eq, List.mapIdx_eq_nil_iff]
  have husable : Repair.usableSections (Json.field "sections" fields) =
      objects.mapIdx Repair.sectionAt := by
    rw [Repair.usableSections, Repair.lacksSections, Repair.sections_eq_mapIdx, ← hobjects,
      if_neg]
    rwa [List.isEmpty_iff]
  obtain ⟨before, last, hsplit, hclose⟩ := exists_last_closeSections hmapped
  obtain ⟨cadence, hclosed⟩ := hclose (Repair.text "C major" (Json.field "key" fields))
  have hlength : objects.length = before.length + 1 := by
    rw [← List.length_mapIdx (f := Repair.sectionAt), hsplit, List.length_append]
    rfl
  have hsections : (Repair.pieceOf fields timeSignature).sections =
      before ++ [{ last with cadence := cadence }] := by
    rw [Repair.pieceOf, husable, hclosed]
  rw [hsections]
  refine ⟨by rw [List.length_append, List.length_singleton, hlength], fun i entry hentry => ?_⟩
  have hmade : (before ++ [last])[i]? = some (Repair.sectionAt i entry) := by
    rw [← hsplit, List.getElem?_mapIdx, hentry]
    rfl
  rcases Nat.lt_or_ge i before.length with hi | hi
  · rw [List.getElem?_append_left hi] at hmade ⊢
    exact ⟨_, hmade, rfl, fun _ => rfl⟩
  · have hlt : i < objects.length := (List.getElem?_eq_some_iff.mp hentry).1
    obtain rfl : i = before.length := by omega
    rw [List.getElem?_concat_length] at hmade ⊢
    obtain rfl := Option.some.inj hmade
    exact ⟨_, rfl, rfl, fun h => by omega⟩

/-- Documents that differ in one field only are repaired to pieces that differ at most in that
field, and where it is the key in the cadence of the last section as well. The items of a document
that are objects become the sections one by one, in order and at their places. -/
theorem repair_changes_fieldwise :
    (∀ (changed : Field) (a b : List (Text × Json)) (p q : Piece),
      Json.AgreeApart changed a b → repair (.object a) = .ok p → repair (.object b) = .ok q →
        (∀ f, f ≠ changed → (changed = .key → f ≠ .sections) → p.SameIn q f) ∧
        (changed = .key → ∃ (before : List Section) (last : Section) (c d : Option Text),
          p.sections = before ++ [{ last with cadence := c }] ∧
          q.sections = before ++ [{ last with cadence := d }])) ∧
    ∀ (fields : List (Text × Json)) (piece : Piece), repair (.object fields) = .ok piece →
      (Json.field "sections" fields).objects ≠ [] →
        piece.sections.length = (Json.field "sections" fields).objects.length ∧
        ∀ (i : ℕ) (entry : List (Text × Json)),
          (Json.field "sections" fields).objects[i]? = some entry →
            ∃ s, piece.sections[i]? = some s ∧
              s.withoutCadence = (Repair.sectionAt i entry).withoutCadence ∧
              (i + 1 < (Json.field "sections" fields).objects.length →
                s = Repair.sectionAt i entry) := by
  refine ⟨fun changed a b p q h hp hq => ⟨fun f hf hkey => ?_, fun hkey => ?_⟩,
    fun fields piece h hne => sections_of_repair h hne⟩
  · exact sameIn_of_sources hp hq fun g hg => h g (Field.ne_of_mem_sources hg hf hkey)
  · have hlisted : Json.field "sections" a = Json.field "sections" b :=
      h .sections (by rw [hkey]; decide)
    obtain ⟨before, last, -, hclose⟩ := exists_last_closeSections
      (Repair.usableSections_ne_nil (Json.field "sections" b))
    obtain ⟨t, -, rfl⟩ := repair_object_eq_ok hp
    obtain ⟨u, -, rfl⟩ := repair_object_eq_ok hq
    obtain ⟨c, hc⟩ := hclose (Repair.text "C major" (Json.field "key" a))
    obtain ⟨d, hd⟩ := hclose (Repair.text "C major" (Json.field "key" b))
    refine ⟨before, last, c, d, ?_, hd⟩
    rw [Repair.pieceOf, hlisted, hc]

/-- The fields of a document with two sections, behind each of which is an item that is none. -/
def twoSections : List (Text × Json) :=
  [("key", .text "C major"), ("tempo", .ofInt 100),
   ("sections", .array [.object [("name", .text "Verse")], .null, .object [], .bool true])]

/-- The same with a tempo that is no number. -/
def twoSectionsUntimed : List (Text × Json) :=
  Json.setField "tempo" (.text "fast") twoSections

/-- A tempo that is no number leaves the sections as they are, and another key leaves all of them
but the last one's cadence. -/
theorem repair_changes_fieldwise_twoSections : ∃ p q r : Piece,
    repair (.object twoSections) = .ok p ∧ repair (.object twoSectionsUntimed) = .ok q ∧
    repair (.object (Json.setField "key" (.text "a minor") twoSectionsUntimed)) = .ok r ∧
    p.tempo = 100 ∧ q.tempo = 90 ∧ p.sections = q.sections ∧ q.tempo = r.tempo ∧
    q.sections.length = 2 ∧ q.sections[0]? = some (Repair.sectionAt 0 [("name", .text "Verse")]) ∧
    ∃ (before : List Section) (last : Section) (c d : Option Text),
      q.sections = before ++ [{ last with cadence := c }] ∧
      r.sections = before ++ [{ last with cadence := d }] := by
  have hslow : tempo <$> repair (.object twoSections) = .ok 100 := rfl
  have hdefault : tempo <$> repair (.object twoSectionsUntimed) = .ok 90 := rfl
  have hminor : key <$> repair
      (.object (Json.setField "key" (.text "a minor") twoSectionsUntimed)) = .ok "a minor" := rfl
  obtain ⟨p, hp, hptempo⟩ := map_eq_ok_iff.mp hslow
  obtain ⟨q, hq, hqtempo⟩ := map_eq_ok_iff.mp hdefault
  obtain ⟨r, hr, -⟩ := map_eq_ok_iff.mp hminor
  obtain ⟨hchange, hsections⟩ := repair_changes_fieldwise
  obtain ⟨hsame, -⟩ := hchange .tempo _ _ _ _ (Json.agreeApart_setField .tempo _ _) hp hq
  obtain ⟨hsame', hlast⟩ := hchange .key _ _ _ _ (Json.agreeApart_setField .key _ _) hq hr
  have hobjects : (Json.field "sections" twoSectionsUntimed).objects =
      [[(("name" : Text), Json.text "Verse")], []] := rfl
  obtain ⟨hlength, hitem⟩ := hsections _ _ hq (hobjects ▸ List.cons_ne_nil _ _)
  rw [hobjects] at hlength hitem
  obtain ⟨s, hs, -, hmade⟩ := hitem 0 _ rfl
  obtain rfl := hmade (by decide)
  exact ⟨p, q, r, hp, hq, hr, hptempo, hqtempo, hsame .sections (by decide) (by decide),
    hsame' .tempo (by decide) (by decide), hlength, hs, hlast rfl⟩

end Piece
end TrioScore
