import TrioScore.Proofs.Json.Readable
import TrioScore.Proofs.Piece.FixedPoint

/-!
# Pieces are readable documents

The document of a piece that is repaired from a readable one is readable: what repair puts in is
ASCII, and what it keeps of a text is a part of it. So it can be printed and read again.
-/

namespace TrioScore

namespace Text

/-- The text is one of characters, none of which is a surrogate. -/
def IsOfChars (t : Text) : Prop := ∃ chars, t = ofChars chars

theorem isOfChars_ofString (s : String) : (ofString s).IsOfChars := ⟨_, rfl⟩

theorem isOfChars_ofNat (n : ℕ) : (ofNat n).IsOfChars := ⟨_, rfl⟩

theorem IsOfChars.append {t u : Text} (ht : t.IsOfChars) (hu : u.IsOfChars) :
    (t ++ u).IsOfChars := by
  obtain ⟨chars, rfl⟩ := ht
  obtain ⟨chars', rfl⟩ := hu
  exact ⟨chars ++ chars', (List.map_append ..).symm⟩

theorem isOfChars_append_iff {t u : Text} :
    (t ++ u).IsOfChars ↔ t.IsOfChars ∧ u.IsOfChars := by
  refine ⟨fun ⟨chars, h⟩ => ?_, fun ⟨ht, hu⟩ => ht.append hu⟩
  obtain ⟨front, back, -, hfront, hback⟩ := List.map_eq_append_iff.mp h.symm
  exact ⟨⟨front, hfront.symm⟩, back, hback.symm⟩

theorem isSurrogate_ofChar (c : Char) : (CodePoint.ofChar c).isSurrogate = false := by
  have h := c.valid
  simp only [UInt32.isValidChar, Nat.isValidChar] at h
  have hvalue : (CodePoint.ofChar c).value = c.val.toNat := rfl
  simp only [CodePoint.isSurrogate, CodePoint.isHighSurrogate, CodePoint.isLowSurrogate,
    Bool.or_eq_false_iff, Bool.and_eq_false_iff, decide_eq_false_iff_not]
  omega

theorem IsOfChars.isSurrogate_eq_false {t : Text} (h : t.IsOfChars) :
    ∀ c ∈ t, c.isSurrogate = false := by
  obtain ⟨chars, rfl⟩ := h
  exact List.forall_mem_map.mpr fun c _ => isSurrogate_ofChar c

theorem IsOfChars.isJoined {t : Text} (h : t.IsOfChars) : t.IsJoined := by
  obtain ⟨chars, rfl⟩ := h
  induction chars with
  | nil => exact List.isChain_nil
  | cons c chars ih =>
    have hhigh := (Bool.or_eq_false_iff.mp (isSurrogate_ofChar c)).1
    refine List.isChain_cons.mpr ⟨fun d _ hpair => ?_, ih⟩
    rw [hhigh] at hpair
    exact Bool.false_ne_true hpair.1

theorem IsJoined.trim {t : Text} (h : t.IsJoined) : t.trim.IsJoined := by
  have hinfix : t.trim <:+: t := by
    rw [trim_eq_rdropWhile]
    exact (List.rdropWhile_prefix _ _).isInfix.trans (List.dropWhile_suffix _).isInfix
  exact List.IsChain.infix h hinfix

end Text

theorem Meter.IsWritten.isJoined {t : Text} (h : Meter.IsWritten t) : t.IsJoined := by
  obtain ⟨n, d, -, -, -, rfl⟩ := h
  exact (((Text.isOfChars_ofNat n).append (Text.isOfChars_ofString "/")).append
    (Text.isOfChars_ofNat d)).isJoined

namespace Json

/-- The value of a field is readable, also when the field is not there. -/
theorem isReadable_field {fields : List (Text × Json)} (h : (object fields).IsReadable)
    (name : Text) : (field name fields).IsReadable := by
  cases h with
  | object _ _ hvalues =>
    rw [field]
    cases hfound : fields.lookup name with
    | none => exact .null
    | some value =>
      obtain ⟨before, after, rfl, -⟩ := List.lookup_eq_some_iff.mp hfound
      exact hvalues (name, value) (by simp)

theorem isReadable_object (names : List Text) {fields : List (Text × Json)}
    (hfields : fields.map Prod.fst = names)
    (hnames : names.Nodup ∧ ∀ name ∈ names, name.IsJoined)
    (hvalues : ∀ field ∈ fields, field.2.IsReadable) : (object fields).IsReadable := by
  subst hfields
  exact .object hnames.1 (List.forall_mem_map.mp hnames.2) hvalues

theorem isReadable_ofInt {n : ℤ} (h : n.natAbs < 1000) : (ofInt n).IsReadable := by
  have hlength : (Nat.toDigits 10 n.natAbs).length ≤ 3 :=
    (Nat.length_toDigits_le_iff (by decide) (by decide)).mpr h
  exact .number (hlength.trans (by decide))

theorem isReadable_ofTexts {texts : List Text} (h : ∀ t ∈ texts, t.IsJoined) :
    (ofTexts texts).IsReadable :=
  .array (List.forall_mem_map.mpr fun t ht => .text (h t ht))

end Json

namespace Repair

theorem isJoined_text {default : Text} (hdefault : default.IsJoined) {value : Json}
    (h : value.IsReadable) : (text default value).IsJoined := by
  unfold text
  split
  · cases h with
    | text h =>
      split_ifs
      · exact hdefault
      · exact h.trim
  · exact hdefault

theorem isJoined_text? {value : Json} (h : value.IsReadable) : ∀ t ∈ text? value, t.IsJoined := by
  unfold text?
  split
  · cases h with
    | text h => exact fun t ht => Option.some.inj ht ▸ h
  · exact fun _ ht => nomatch ht

theorem isReadable_items {value : Json} (h : value.IsReadable) :
    ∀ item ∈ items value, item.IsReadable := by
  unfold items
  split
  · cases h with
    | array h => exact h
  · exact fun _ hmem => absurd hmem List.not_mem_nil

theorem isJoined_progression {value : Json} (h : value.IsReadable) :
    ∀ symbol ∈ progression value, symbol.IsJoined := by
  unfold progression
  dsimp only
  split_ifs
  · decide
  · intro symbol hsymbol
    obtain ⟨item, hitem, hkept⟩ := List.mem_filterMap.mp hsymbol
    have hreadable := isReadable_items h item hitem
    split at hkept
    · split_ifs at hkept
      obtain rfl := Option.some.inj hkept
      cases hreadable with
      | text h => exact h.trim
    · cases hkept

end Repair

/-- The texts of a section that are not from a list of marks. -/
structure Section.IsJoined (s : Section) : Prop where
  name : s.name.IsJoined
  progression : ∀ symbol ∈ s.progression, symbol.IsJoined
  texture : s.texture.IsJoined

structure Piece.IsJoined (p : Piece) : Prop where
  key : p.key.IsJoined
  form : p.form.IsJoined
  sections : ∀ s ∈ p.sections, s.IsJoined
  instrumentation : p.instrumentation.IsJoined
  character : p.character.IsJoined
  reasoning : ∀ t ∈ p.reasoning, t.IsJoined

theorem Motif.IsSane.isReadable_toJson {m : Motif} (h : m.IsSane) : m.toJson.IsReadable := by
  have hdegrees : (Json.array (m.degrees.map .ofInt)).IsReadable := by
    refine .array (List.forall_mem_map.mpr fun d hd => Json.isReadable_ofInt ?_)
    have := h.degrees_mem d hd
    omega
  have hrhythm : (Json.array (m.rhythm.map .ofBinary64)).IsReadable :=
    .array (List.forall_mem_map.mpr fun w _ => .number trivial)
  refine Json.isReadable_object ["degrees", "rhythm"] rfl (by decide) ?_
  exact List.forall_mem_cons.mpr ⟨hdegrees, List.forall_mem_cons.mpr ⟨hrhythm, by simp⟩⟩

theorem Section.IsSane.isReadable_toJson {s : Section} (h : s.IsSane) (hjoined : s.IsJoined) :
    s.toJson.IsReadable := by
  have hmarks : ∀ mark ∈ Cadence.marks, mark.IsJoined := by decide
  have hdynamics : ∀ mark ∈ Dynamics.table.map fun entry => Text.ofString entry.1,
      mark.IsJoined := by
    decide
  have hmotifs : ∀ m ∈ s.motifs.map Motif.toJson, m.IsReadable :=
    List.forall_mem_map.mpr fun m hm => (h.motifs m hm).isReadable_toJson
  have hmelody : (Json.object [("motifs", .array (s.motifs.map Motif.toJson))]).IsReadable :=
    Json.isReadable_object ["motifs"] rfl (by decide) (by simpa using .array hmotifs)
  have hmeasures : (Json.ofInt s.measures).IsReadable := by
    have := h.measures_mem
    exact Json.isReadable_ofInt (by omega)
  have hfields : ∀ field ∈ s.fields, field.2.IsReadable := by
    simp only [Section.fields, List.forall_mem_cons]
    exact ⟨.text hjoined.name, hmeasures, Json.isReadable_ofTexts hjoined.progression, hmelody,
      .text (hdynamics _ h.dynamics_mem), .text hjoined.texture, by simp⟩
  rw [Section.toJson]
  cases hcadence : s.cadence with
  | none =>
    rw [Json.optionalField, List.append_nil]
    exact Json.isReadable_object
      ["name", "measures", "chordProgression", "melody", "dynamics", "texture"] rfl (by decide)
      hfields
  | some mark =>
    refine Json.isReadable_object
      ["name", "measures", "chordProgression", "melody", "dynamics", "texture", "cadence"] rfl
      (by decide) (List.forall_mem_append.mpr ⟨hfields, ?_⟩)
    exact List.forall_mem_singleton.mpr (.text (hmarks mark (h.cadence_mem mark hcadence)))

theorem Piece.IsSane.isReadable_toJson {p : Piece} (h : p.IsSane) (hjoined : p.IsJoined) :
    p.toJson.IsReadable := by
  have htempo : (Json.ofInt p.tempo).IsReadable := by
    have := h.tempo_mem
    exact Json.isReadable_ofInt (by omega)
  have hsections : (Json.array (p.sections.map Section.toJson)).IsReadable :=
    .array (List.forall_mem_map.mpr fun s hs =>
      (h.sections s hs).isReadable_toJson (hjoined.sections s hs))
  have hfields : ∀ field ∈ p.fields, field.2.IsReadable := by
    simp only [Piece.fields, List.forall_mem_cons]
    exact ⟨.text hjoined.key, htempo, .text h.timeSignature.isJoined, .text hjoined.form,
      hsections, .text hjoined.instrumentation, .text hjoined.character, by simp⟩
  rw [Piece.toJson]
  cases hreasoning : p.reasoning with
  | none =>
    rw [Json.optionalField, List.append_nil]
    exact Json.isReadable_object
      ["key", "tempo", "timeSignature", "form", "sections", "instrumentation", "character"] rfl
      (by decide) hfields
  | some t =>
    refine Json.isReadable_object
      ["key", "tempo", "timeSignature", "form", "sections", "instrumentation", "character",
        "reasoning"] rfl (by decide) (List.forall_mem_append.mpr ⟨hfields, ?_⟩)
    exact List.forall_mem_singleton.mpr (.text (hjoined.reasoning t hreasoning))

namespace Repair

theorem isJoined_sectionAt (index : ℕ) {fields : List (Text × Json)}
    (h : (Json.object fields).IsReadable) : (sectionAt index fields).IsJoined where
  name := isJoined_text
    ((Text.isOfChars_ofString "Section ").append (Text.isOfChars_ofNat (index + 1))).isJoined
    (Json.isReadable_field h _)
  progression := isJoined_progression (Json.isReadable_field h _)
  texture := isJoined_text (by decide) (Json.isReadable_field h _)

theorem isJoined_usableSections {listed : Json} (h : listed.IsReadable) :
    ∀ s ∈ usableSections listed, s.IsJoined := by
  unfold usableSections
  split_ifs
  · intro s hs
    obtain rfl := List.mem_singleton.mp hs
    exact ⟨by decide, by decide, by decide⟩
  · intro s hs
    obtain ⟨i, hi, rfl⟩ := List.mem_mapIdx.mp hs
    refine isJoined_sectionAt i ?_
    obtain ⟨item, hitem, hfields⟩ := List.mem_filterMap.mp (List.getElem_mem hi)
    have hreadable := isReadable_items h item hitem
    unfold fields? at hfields
    split at hfields
    · exact Option.some.inj hfields ▸ hreadable
    · cases hfields

end Repair

namespace Piece

theorem isJoined_closeSections (key : Text) {sections : List Section}
    (h : ∀ s ∈ sections, s.IsJoined) : ∀ s ∈ closeSections key sections, s.IsJoined := by
  rcases closeSections_cases key sections with ⟨hself, -⟩ | ⟨before, last, rfl, -, hclosed⟩
  · rwa [hself]
  · obtain ⟨hbefore, hlast⟩ := List.forall_mem_append.mp h
    obtain ⟨hname, hprogression, htexture⟩ := List.forall_mem_singleton.mp hlast
    rw [hclosed]
    exact List.forall_mem_append.mpr
      ⟨hbefore, List.forall_mem_singleton.mpr ⟨hname, hprogression, htexture⟩⟩

theorem isReadable_toJson_of_repair {document : Json} {piece : Piece}
    (hdocument : document.IsReadable) (h : repair document = .ok piece) :
    piece.toJson.IsReadable := by
  refine (isSane_of_repair h).isReadable_toJson ?_
  obtain ⟨fields, timeSignature, rfl, -, rfl⟩ := repair_eq_ok h
  have hfield := Json.isReadable_field hdocument
  exact {
    key := Repair.isJoined_text (by decide) (hfield _)
    form := Repair.isJoined_text (by decide) (hfield _)
    sections := isJoined_closeSections _ (Repair.isJoined_usableSections (hfield _))
    instrumentation := Repair.isJoined_text (by decide) (hfield _)
    character := Repair.isJoined_text (by decide) (hfield _)
    reasoning := Repair.isJoined_text? (hfield _) }

end Piece
end TrioScore
