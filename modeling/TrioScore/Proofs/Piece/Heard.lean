import TrioScore.Proofs.Piece.Defaults
import TrioScore.Smf.File

/-!
# What is heard of a document

Of a document the key, the tempo, the meter and the sections are heard, and of a section the
measures, the chords, the melody and the dynamics. Names, textures, cadences and the texts for
readers are not: documents that differ in these and in unknown fields only have the same music.
-/

namespace TrioScore

/-- The fields of two objects are the same for some names; a missing field is null. -/
def Json.AgreeOn (names : List Text) (a b : List (Text × Json)) : Prop :=
  ∀ name ∈ names, field name a = field name b

/-- The fields of a section that are heard. -/
def Section.heard : List Text := ["measures", "chordProgression", "melody", "dynamics"]

/-- Items of two lists of sections that are both no sections, or sections that agree in what is
heard. -/
inductive Json.SameSection : Json → Json → Prop
  | objects {a b : List (Text × Json)} (h : AgreeOn Section.heard a b) :
      SameSection (.object a) (.object b)
  | others {a b : Json} (ha : a.kind ≠ .object) (hb : b.kind ≠ .object) : SameSection a b

/-- The fields of two documents that agree in what is heard. -/
structure Json.SameMusic (a b : List (Text × Json)) : Prop where
  fields : AgreeOn ["key", "tempo", "timeSignature"] a b
  sections : ∃ as bs, field "sections" a = .array as ∧ field "sections" b = .array bs ∧
    List.Forall₂ SameSection as bs

/-- Items that a partial function reads into related items, or both not at all. -/
theorem forall₂_filterMap {α β : Type} {R : α → α → Prop} {S : β → β → Prop} {f : α → Option β}
    {as bs : List α} (h : List.Forall₂ R as bs)
    (hf : ∀ a b, R a b →
      (f a = none ∧ f b = none) ∨ ∃ x y, f a = some x ∧ f b = some y ∧ S x y) :
    List.Forall₂ S (as.filterMap f) (bs.filterMap f) := by
  induction h with
  | nil => exact .nil
  | cons hr _ ih =>
    rcases hf _ _ hr with ⟨ha, hb⟩ | ⟨x, y, ha, hb, hs⟩
    · rwa [List.filterMap_cons_none ha, List.filterMap_cons_none hb]
    · rw [List.filterMap_cons_some ha, List.filterMap_cons_some hb]
      exact .cons hs ih

namespace Repair

theorem fields?_eq_none {value : Json} (h : value.kind ≠ .object) : fields? value = none := by
  cases value with
  | object fields => exact absurd rfl h
  | _ => rfl

/-- The place of a section in its list is not heard. -/
theorem sectionAt_alike_of_agreeOn (i j : ℕ) {a b : List (Text × Json)}
    (h : Json.AgreeOn Section.heard a b) : (sectionAt i a).Alike (sectionAt j b) := by
  have hprogression : (sectionAt i a).progression = (sectionAt j b).progression :=
    congrArg progression (h "chordProgression" (by decide))
  have hmotifs : (sectionAt i a).motifs = (sectionAt j b).motifs :=
    congrArg motifs (h "melody" (by decide))
  refine ⟨?_, fun measure => ?_, ?_, ?_⟩
  · exact congrArg measures (h "measures" (by decide))
  · rw [Measure.chordSymbol, Measure.chordSymbol, hprogression]
  · rw [hmotifs]
    exact List.forall₂_same.mpr fun m _ => .refl m
  · exact congrArg (fun value => Dynamics.velocity (dynamics value)) (h "dynamics" (by decide))

theorem sections_alike_of_sameSection {as bs : List Json}
    (h : List.Forall₂ Json.SameSection as bs) :
    List.Forall₂ Section.Alike (sections (.array as)) (sections (.array bs)) := by
  have hfields : List.Forall₂ (Json.AgreeOn Section.heard)
      (as.filterMap fields?) (bs.filterMap fields?) := by
    refine forall₂_filterMap h fun a b hab => ?_
    cases hab with
    | objects hagree => exact .inr ⟨_, _, rfl, rfl, hagree⟩
    | others ha hb => exact .inl ⟨fields?_eq_none ha, fields?_eq_none hb⟩
  simp only [sections, items, List.forall₂_iff_get]
  refine ⟨by simpa using hfields.length_eq, fun i ha hb => ?_⟩
  simp only [List.get_eq_getElem, List.getElem_mapIdx]
  simp only [List.length_mapIdx] at ha hb
  exact sectionAt_alike_of_agreeOn i i (hfields.get ha hb)

/-- Where one list has no section, neither has the other, and both get the default one. -/
theorem usableSections_alike {as bs : List Json} (h : List.Forall₂ Json.SameSection as bs) :
    List.Forall₂ Section.Alike (usableSections (.array as)) (usableSections (.array bs)) := by
  have hempty : ∀ {l m : List Section}, List.Forall₂ Section.Alike l m → l.isEmpty = m.isEmpty := by
    rintro _ _ (_ | _) <;> rfl
  have hsections := sections_alike_of_sameSection h
  unfold usableSections
  rw [lacksSections, lacksSections, hempty hsections]
  split_ifs
  · exact .cons (.refl defaultSection) .nil
  · exact hsections

end Repair

namespace Score

theorem ofPiece_pieceOf (fields : List (Text × Json)) (timeSignature : Text) :
    ofPiece (Repair.pieceOf fields timeSignature) =
      ofPiece { Repair.pieceOf fields timeSignature with
        sections := Repair.usableSections (Json.field "sections" fields) } :=
  ofPiece_of_alike rfl rfl rfl (Piece.closeSections_alike _ _)

theorem ofPiece_pieceOf_of_sameMusic {a b : List (Text × Json)} (h : Json.SameMusic a b)
    (timeSignature : Text) :
    ofPiece (Repair.pieceOf a timeSignature) = ofPiece (Repair.pieceOf b timeSignature) := by
  obtain ⟨as, bs, ha, hb, hsections⟩ := h.sections
  rw [ofPiece_pieceOf a, ofPiece_pieceOf b, ha, hb]
  apply ofPiece_of_alike
  · exact congrArg (fun value => Key.named (Repair.text "C major" value))
      (h.fields "key" (by decide))
  · exact congrArg Repair.tempo (h.fields "tempo" (by decide))
  · rfl
  · exact Repair.usableSections_alike hsections

/-- Documents with the same music are repaired to pieces of one score. So they have one file at
every division, or none. -/
theorem ofPiece_repair_of_sameMusic {a b : List (Text × Json)} (h : Json.SameMusic a b)
    {p q : Piece} (hp : Piece.repair (.object a) = .ok p) (hq : Piece.repair (.object b) = .ok q) :
    ∃ score, ofPiece p = .ok score ∧ ofPiece q = .ok score ∧
      ∀ (division : ℤ) (bytes : Bytes), ofPiece p >>= Smf.ofScore division = .ok bytes ↔
        ofPiece q >>= Smf.ofScore division = .ok bytes := by
  obtain ⟨score, hscore, -⟩ := exists_regular_ofPiece hp
  have hsame : ofPiece p = ofPiece q := by
    obtain ⟨t, ht, rfl⟩ := Piece.repair_object_eq_ok hp
    obtain ⟨u, hu, rfl⟩ := Piece.repair_object_eq_ok hq
    rw [h.fields "timeSignature" (by decide)] at ht
    obtain rfl := Except.ok.inj (ht.symm.trans hu)
    exact ofPiece_pieceOf_of_sameMusic h t
  exact ⟨score, hscore, hsame ▸ hscore, fun division bytes => by rw [hsame]⟩

def bareFields : List (Text × Json) :=
  [("timeSignature", .text "1/4"),
   ("sections", .array [.null, .object [("measures", .ofInt 1)]])]

def describedFields : List (Text × Json) :=
  [("form", .text "rondo"), ("timeSignature", .text "1/4"),
   ("sections", .array [.bool true,
     .object [("name", .text "Coda"), ("cadence", .text " dc "), ("measures", .ofInt 1)]])]

theorem sameMusic_bareFields : Json.SameMusic bareFields describedFields := by
  refine ⟨?_, _, _, rfl, rfl, .cons (.others ?_ ?_) (.cons (.objects ?_) .nil)⟩
  · intro name hname
    simp only [List.mem_cons, List.not_mem_nil, or_false] at hname
    rcases hname with rfl | rfl | rfl <;> rfl
  · decide
  · decide
  · intro name hname
    simp only [Section.heard, List.mem_cons, List.not_mem_nil, or_false] at hname
    rcases hname with rfl | rfl | rfl | rfl <;> rfl

theorem ofPiece_repair_bareFields : ∃ p q bytes, Piece.repair (.object bareFields) = .ok p ∧
    Piece.repair (.object describedFields) = .ok q ∧ p.form = "free" ∧ q.form = "rondo" ∧
    ofPiece p >>= Smf.ofScore 960 = .ok bytes ∧ ofPiece q >>= Smf.ofScore 960 = .ok bytes := by
  have hbare : Piece.form <$> Piece.repair (.object bareFields) = .ok "free" := rfl
  have hdescribed : Piece.form <$> Piece.repair (.object describedFields) = .ok "rondo" := rfl
  obtain ⟨p, hp, hfree⟩ := map_eq_ok_iff.mp hbare
  obtain ⟨q, hq, hrondo⟩ := map_eq_ok_iff.mp hdescribed
  obtain ⟨-, -, -, hfile⟩ := ofPiece_repair_of_sameMusic sameMusic_bareFields hp hq
  have hwritten : (Piece.repair (.object bareFields) >>= fun p =>
      ofPiece p >>= Smf.ofScore 960).isOk = true := by
    decide +kernel
  rw [hp, ok_bind] at hwritten
  cases hbytes : ofPiece p >>= Smf.ofScore 960 with
  | error fault =>
    rw [hbytes] at hwritten
    cases hwritten
  | ok bytes => exact ⟨p, q, bytes, hp, hq, hfree, hrondo, hbytes, (hfile 960 bytes).mp hbytes⟩

end Score
end TrioScore
