import TrioScore.Proofs.Piece.Repaired

/-!
# Cadences

A section declares a cadence by a text that is one of the marks when it is trimmed and in capitals.
If some section of a document does, the repaired piece has the declared cadences and no other. If
none does, its last section, which may be the default one, closes as the key asks for. Closing
touches nothing but that cadence, and a second closing changes nothing.
-/

namespace TrioScore

/-- A word occurs in a text where it stands as a whole. -/
theorem Text.contains_iff_infix {t word : Text} : t.contains word = true ↔ word <:+: t := by
  induction t with
  | nil => rw [contains, List.isEmpty_iff, List.infix_nil]
  | cons c t ih =>
    rw [contains, Bool.or_eq_true, List.isPrefixOf_iff_prefix, ih, List.infix_cons_iff]

namespace Cadence

/-- The text is one of the four marks. -/
def IsMark (t : Text) : Prop := t = "HC" ∨ t = "PAC" ∨ t = "DC" ∨ t = "PICARDY"

instance (t : Text) : Decidable (IsMark t) := inferInstanceAs (Decidable (_ ∨ _))

theorem mem_marks_iff {t : Text} : t ∈ marks ↔ IsMark t := by
  simp only [marks, IsMark, List.mem_cons, List.not_mem_nil, or_false]

theorem mark?_eq (t : Text) :
    mark? t = if IsMark t.trim.capitals then some t.trim.capitals else none := by
  cases h : mark? t with
  | none =>
    have hnot : ¬ IsMark t.trim.capitals := fun hmark =>
      List.find?_eq_none.mp h _ (mem_marks_iff.mpr hmark) (decide_eq_true rfl)
    rw [if_neg hnot]
  | some mark =>
    have hmark : decide (mark = t.trim.capitals) = true :=
      List.find?_some (p := fun mark => decide (mark = t.trim.capitals)) h
    obtain rfl := of_decide_eq_true hmark
    rw [if_pos (mem_marks_iff.mp (List.mem_of_find?_eq_some h))]

theorem closing_eq (key : Text) : closing key =
    if Text.ofString "minor" <:+: key.smalls then Text.ofString "PICARDY"
    else Text.ofString "PAC" := by
  simp only [closing, Key.isMinorName, Text.contains_iff_infix]

end Cadence

namespace Json

def objects : Json → List (List (Text × Json))
  | array items => items.filterMap fun
    | object fields => some fields
    | _ => none
  | _ => []

/-- The cadence that the fields of a section declare: a text that is a mark when it is trimmed and
in capitals. -/
def declaredCadence (fields : List (Text × Json)) : Option Text :=
  match field "cadence" fields with
  | text t => if Cadence.IsMark t.trim.capitals then some t.trim.capitals else none
  | _ => none

end Json

def Section.withoutCadence (s : Section) : Section := { s with cadence := none }

namespace Repair

theorem sections_eq_mapIdx (listed : Json) : sections listed = listed.objects.mapIdx sectionAt := by
  cases listed with
  | array items =>
    have hfields : fields? = fun
        | .object fields => some fields
        | _ => none := by
      funext item
      cases item <;> rfl
    rw [sections, hfields]
    rfl
  | _ => rfl

theorem cadence_sectionAt (index : ℕ) (fields : List (Text × Json)) :
    (sectionAt index fields).cadence = Json.declaredCadence fields := by
  unfold sectionAt cadence? Json.declaredCadence
  cases Json.field "cadence" fields with
  | text t => exact Cadence.mark?_eq t
  | _ => rfl

theorem map_cadence_sections (listed : Json) :
    (sections listed).map Section.cadence = listed.objects.map Json.declaredCadence := by
  rw [sections_eq_mapIdx]
  refine List.ext_getElem (by simp) fun i h₁ h₂ => ?_
  rw [List.getElem_map, List.getElem_map, List.getElem_mapIdx, cadence_sectionAt]

/-- The default section declares no cadence. -/
theorem map_cadence_usableSections (listed : Json) :
    (usableSections listed).map Section.cadence =
      if listed.objects = [] then [none] else listed.objects.map Json.declaredCadence := by
  have hempty : lacksSections listed = true ↔ listed.objects = [] := by
    rw [lacksSections, sections_eq_mapIdx, List.isEmpty_iff, List.mapIdx_eq_nil_iff]
  unfold usableSections
  split_ifs with hlacks hnone hnone
  · rfl
  · exact absurd (hempty.mp hlacks) hnone
  · exact absurd (hempty.mpr hnone) hlacks
  · exact map_cadence_sections listed

end Repair

namespace Piece

/-- Closing the sections changes nothing but a cadence. -/
theorem map_withoutCadence_closeSections (key : Text) (sections : List Section) :
    (closeSections key sections).map Section.withoutCadence =
      sections.map Section.withoutCadence := by
  rcases closeSections_cases key sections with ⟨hsame, -⟩ | ⟨before, last, rfl, -, hclosed⟩
  · rw [hsame]
  · rw [hclosed, List.map_append, List.map_append]
    rfl

theorem closeSections_idem (key : Text) (sections : List Section) :
    closeSections key (closeSections key sections) = closeSections key sections := by
  rcases closeSections_cases key sections with ⟨hsame, -⟩ | ⟨before, last, -, -, hclosed⟩
  · rw [hsame, hsame]
  · have hmark : ∀ mark ∈ Cadence.marks, mark.isEmpty = false := by decide
    have hcadence : Section.hasCadence
        { last with cadence := some (Cadence.closing key) } = true := by
      simp [Section.hasCadence, hmark _ (closing_mem_marks key)]
    rw [hclosed]
    exact closeSections_eq_self key
      ⟨_, List.mem_append_right _ (List.mem_singleton_self _), hcadence⟩

/-- Where no section has a cadence, the last one gets the only cadence there is. -/
theorem map_cadence_closeSections (key : Text) {sections : List Section} (hne : sections ≠ [])
    (h : ∀ s ∈ sections, s.cadence = none) :
    (closeSections key sections).map Section.cadence =
      List.replicate (sections.length - 1) none ++ [some (Cadence.closing key)] := by
  rcases closeSections_cases key sections with ⟨-, hnil | ⟨s, hs, hc⟩⟩ |
    ⟨before, last, rfl, -, hclosed⟩
  · exact absurd hnil hne
  · rw [Section.hasCadence, h s hs] at hc
    cases hc
  · have hbefore : before.map Section.cadence = List.replicate before.length none :=
      List.eq_replicate_iff.mpr ⟨List.length_map _, fun c hc => by
        obtain ⟨s, hs, rfl⟩ := List.mem_map.mp hc
        exact h s (List.mem_append_left _ hs)⟩
    rw [hclosed, List.map_append, hbefore, List.length_append, List.length_singleton,
      Nat.add_sub_cancel]
    rfl

theorem map_cadence_of_declared (key : Text) {listed : Json} {mark : Text}
    (h : some mark ∈ listed.objects.map Json.declaredCadence) :
    (closeSections key (Repair.usableSections listed)).map Section.cadence =
      listed.objects.map Json.declaredCadence := by
  have hobjects : listed.objects ≠ [] := by
    intro hnil
    rw [hnil] at h
    cases h
  have husable := Repair.map_cadence_usableSections listed
  rw [if_neg hobjects] at husable
  have hsome : ∃ s ∈ Repair.usableSections listed, s.hasCadence = true := by
    rw [← husable] at h
    obtain ⟨s, hs, hc⟩ := List.mem_map.mp h
    refine ⟨s, hs, (Section.hasCadence_iff (Repair.usableSections_isSane listed s hs)).mpr ?_⟩
    rw [hc]
    exact Option.some_ne_none mark
  rw [closeSections_eq_self _ hsome, husable]

/-- Where no item declares a cadence, the last section gets the only one there is. -/
theorem map_cadence_of_undeclared (key : Text) {listed : Json}
    (h : ∀ cadence ∈ listed.objects.map Json.declaredCadence, cadence = none) :
    (closeSections key (Repair.usableSections listed)).map Section.cadence =
      List.replicate ((listed.objects.map Json.declaredCadence).length - 1) none ++
        [some (Cadence.closing key)] := by
  have husable := Repair.map_cadence_usableSections listed
  have hnone : ∀ s ∈ Repair.usableSections listed, s.cadence = none := by
    intro s hs
    have hmem := List.mem_map_of_mem (f := Section.cadence) hs
    rw [husable] at hmem
    split_ifs at hmem
    · exact List.mem_singleton.mp hmem
    · exact h _ hmem
  have hlength : (Repair.usableSections listed).length - 1 =
      (listed.objects.map Json.declaredCadence).length - 1 := by
    rw [← List.length_map Section.cadence, husable]
    split_ifs with hnil
    · rw [hnil]
      rfl
    · rfl
  rw [map_cadence_closeSections key (Repair.usableSections_ne_nil listed) hnone, hlength]

/-- The cadences of a repaired piece are the declared ones, one for each item that is an object, if
any of these declares one. If none does, the last section closes, with a Picardy third in a key that
says minor and with a perfect cadence else, and it alone. Apart from that cadence closing changes no
section, and closed sections stay as they are. -/
theorem repair_cadences {document : Json} {piece : Piece} (h : repair document = .ok piece) :
    ∃ fields declared, document = .object fields ∧
      declared = (Json.field "sections" fields).objects.map Json.declaredCadence ∧
      ((∃ mark, some mark ∈ declared) → piece.sections.map Section.cadence = declared) ∧
      ((∀ cadence ∈ declared, cadence = none) → piece.sections.map Section.cadence =
        List.replicate (declared.length - 1) none ++
          [some (if Text.ofString "minor" <:+: piece.key.smalls then Text.ofString "PICARDY"
            else Text.ofString "PAC")]) ∧
      piece.sections =
        closeSections piece.key (Repair.usableSections (Json.field "sections" fields)) ∧
      ∀ (key : Text) (sections : List Section),
        (closeSections key sections).map Section.withoutCadence =
          sections.map Section.withoutCadence ∧
        closeSections key (closeSections key sections) = closeSections key sections := by
  obtain ⟨fields, timeSignature, rfl, -, rfl⟩ := repair_eq_ok h
  refine ⟨fields, _, rfl, rfl, fun ⟨mark, hmark⟩ => map_cadence_of_declared _ hmark,
    fun hnone => ?_, rfl, fun key sections =>
      ⟨map_withoutCadence_closeSections key sections, closeSections_idem key sections⟩⟩
  rw [← Cadence.closing_eq]
  exact map_cadence_of_undeclared _ hnone

/-- A dotless i is the small letter of I too, and a mark that is no cadence does not count. Without
marks the last section closes in minor, and so does the default section of a piece that has none. -/
theorem repair_cadences_dotless : ∃ declared closed default : Piece,
    repair (.object [("sections", .array [.null,
      .object [("cadence", .text " p\u0131cardy ")], .object [("cadence", .text "plagal")]])]) =
        .ok declared ∧
      declared.sections.map Section.cadence = [some (Text.ofString "PICARDY"), none] ∧
    repair (.object [("key", .text " A MINOR "), ("sections", .array [.object [], .object []])]) =
        .ok closed ∧
      closed.sections.map Section.cadence = [none, some (Text.ofString "PICARDY")] ∧
    repair (.object [("sections", .array [.null])]) = .ok default ∧
      default.sections.map Section.cadence = [some (Text.ofString "PAC")] := by
  have hdeclared : repair (.object [("sections", .array [.null,
      .object [("cadence", .text " p\u0131cardy ")], .object [("cadence", .text "plagal")]])]) =
        .ok _ := rfl
  have hclosed : repair (.object [("key", .text " A MINOR "),
      ("sections", .array [.object [], .object []])]) = .ok _ := rfl
  have hdefault : repair (.object [("sections", .array [.null])]) = .ok _ := rfl
  refine ⟨_, _, _, hdeclared, ?_, hclosed, ?_, hdefault, ?_⟩
  · obtain ⟨fields, declared, hobject, rfl, hkept, -⟩ := repair_cadences hdeclared
    obtain rfl := Json.object.inj hobject
    exact hkept ⟨"PICARDY", by decide⟩
  · obtain ⟨fields, declared, hobject, rfl, -, hadded, -⟩ := repair_cadences hclosed
    obtain rfl := Json.object.inj hobject
    exact hadded (by decide)
  · obtain ⟨fields, declared, hobject, rfl, -, hadded, -⟩ := repair_cadences hdefault
    obtain rfl := Json.object.inj hobject
    exact hadded (by decide)

end Piece
end TrioScore
