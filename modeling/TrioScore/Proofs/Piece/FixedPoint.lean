import TrioScore.Proofs.Piece.Repaired

/-!
# Sane pieces are fixed

A sane piece is what repair makes of its own document: every rule leaves a value in range as it is.
With the sanity of repaired pieces, the sane pieces are exactly those that repair leaves alone.
-/

namespace TrioScore

theorem filterMap_map_eq_self {α β : Type} {f : β → Option α} {g : α → β} {l : List α}
    (h : ∀ a ∈ l, f (g a) = some a) : (l.map g).filterMap f = l := by
  have hs : (l.map g).filterMap f = l.filterMap some := by
    rw [List.filterMap_map]
    exact List.filterMap_congr h
  rw [hs, List.filterMap_some]

namespace Repair

theorem text_eq_self (default : Text) {t : Text} (h : t.IsProper) : text default (.text t) = t := by
  have hb := Text.isBlank_eq_false h.isTrimmed h.ne_nil
  simp only [text, hb, Bool.false_eq_true, if_false]
  exact Text.trim_eq_self h.isTrimmed

/-- Where nothing is the default, repair is trimming. -/
theorem text_nil (t : Text) : text [] (.text t) = t.trim := by
  simp only [text]
  split_ifs with h
  · exact (Text.trim_eq_nil_iff.mpr h).symm
  · rfl

theorem tempo_ofInt {n : Int} (h : 40 ≤ n ∧ n ≤ 220) : tempo (.ofInt n) = n :=
  limit_eq_self h.1 h.2

theorem measures_ofInt {n : Int} (h : 1 ≤ n ∧ n ≤ 256) : measures (.ofInt n) = n :=
  limit_eq_self h.1 h.2

theorem timeSignature_eq_self {t : Text} (h : Meter.IsWritten t) :
    timeSignature (.text t) = .ok t := by
  obtain ⟨m, hm, rfl⟩ := Meter.isWritten_iff.mp h
  have hp : meter (.text m.toText) = .ok m := Meter.parse_toText hm
  rw [timeSignature, hp]
  rfl

theorem degree?_ofInt {d : Int} (h : -20 ≤ d ∧ d ≤ 29) : degree? (.ofInt d) = some d := by
  have hq : degree? (.ofInt d) = some (limit (-20) 29 d) := by
    simp [degree?, Json.ofInt, Json.finite?, Number.isFinite, Number.toRat]
  rw [hq, limit_eq_self h.1 h.2]

theorem weight_ofBinary64 {w : Binary64} (hf : w.isFinite = true) (hpos : 0 < w.toRat) :
    weight (.ofBinary64 w) = w := by
  have hx : (Json.ofBinary64 w).finite? = some (.real w) := by
    simp [Json.ofBinary64, Json.finite?, Number.isFinite, hf]
  have hw : weight (.ofBinary64 w) = if w.toRat ≤ 0 then .ofRat 1
      else if Binary64.greatest.toRat ≤ w.toRat then .greatest else .ofRat w.toRat := by
    rw [weight, hx]
    rfl
  rw [hw, if_neg hpos.not_ge]
  split_ifs with hg
  · exact (Binary64.eq_greatest_of_le hg).symm
  · exact Binary64.ofRat_toRat hf hpos

/-- No weight is without a degree, and so none is lost. -/
theorem weights_eq_self {degrees : List Int} {rhythm : List Binary64}
    (hd : ∀ d ∈ degrees, -20 ≤ d ∧ d ≤ 29) (hl : rhythm.length ≤ degrees.length)
    (hw : ∀ w ∈ rhythm, w.isFinite = true ∧ 0 < w.toRat) :
    weights (degrees.map .ofInt) (rhythm.map .ofBinary64) = rhythm := by
  induction rhythm generalizing degrees with
  | nil => simp [weights]
  | cons w rhythm ih =>
    cases degrees with
    | nil => simp at hl
    | cons d degrees =>
      obtain ⟨hd₀, hd⟩ := List.forall_mem_cons.mp hd
      obtain ⟨hw₀, hw⟩ := List.forall_mem_cons.mp hw
      have h := ih hd (Nat.le_of_succ_le_succ hl) hw
      rw [weights] at h
      simp only [weights, List.map_cons, List.zip_cons_cons, List.filterMap_cons, degree?_ofInt hd₀,
        Option.map_some, weight_ofBinary64 hw₀.1 hw₀.2, h]

theorem motif?_toJson {m : Motif} (h : m.IsSane) : motif? m.toJson = some m := by
  have hd : (m.degrees.map Json.ofInt).filterMap degree? = m.degrees :=
    filterMap_map_eq_self fun d hd => degree?_ofInt (h.degrees_mem d hd)
  have hw := weights_eq_self h.degrees_mem h.length_rhythm_le h.rhythm_pos
  have hm : motif? m.toJson =
      if ((m.degrees.map Json.ofInt).filterMap degree?).isEmpty then none
      else some ⟨(m.degrees.map Json.ofInt).filterMap degree?,
        weights (m.degrees.map Json.ofInt) (m.rhythm.map Json.ofBinary64)⟩ := rfl
  rw [hm, hd, hw, if_neg fun he => h.degrees_ne_nil (List.isEmpty_iff.mp he)]

theorem progression_ofTexts {symbols : List Text} (hne : symbols ≠ [])
    (h : ∀ symbol ∈ symbols, symbol.IsProper) : progression (.ofTexts symbols) = symbols := by
  have hi : items (.ofTexts symbols) = symbols.map .text := rfl
  unfold progression
  dsimp only
  rw [hi, filterMap_map_eq_self fun t ht => ?_]
  · exact if_neg fun he => hne (List.isEmpty_iff.mp he)
  · have hb := Text.isBlank_eq_false (h t ht).isTrimmed (h t ht).ne_nil
    simp only [hb, Bool.false_eq_true, if_false, Text.trim_eq_self (h t ht).isTrimmed]

theorem dynamics_eq_self {t : Text}
    (h : t ∈ Dynamics.table.map fun entry => Text.ofString entry.1) : dynamics (.text t) = t := by
  have hall : ∀ mark ∈ Dynamics.table.map fun entry => Text.ofString entry.1,
      dynamics (.text mark) = mark := by
    decide
  exact hall t h

theorem cadence?_optionalField {fields : List (Text × Json)} {cadence : Option Text}
    (hf : fields.lookup (Text.ofString "cadence") = none)
    (h : ∀ mark ∈ cadence, mark ∈ Cadence.marks) :
    cadence? (Json.field "cadence" (fields ++ Json.optionalField "cadence" cadence)) = cadence := by
  rw [Json.field, List.lookup_append, hf]
  cases cadence with
  | none => rfl
  | some mark =>
    have hall : ∀ mark ∈ Cadence.marks, Cadence.mark? mark = some mark := by decide
    exact hall mark (h mark rfl)

theorem sectionAt_toJson (index : ℕ) {s : Section} (h : s.IsSane) :
    sectionAt index (s.fields ++ Json.optionalField "cadence" s.cadence) = s := by
  have hmotifs : (s.motifs.map Motif.toJson).filterMap motif? = s.motifs :=
    filterMap_map_eq_self fun m hm => motif?_toJson (h.motifs m hm)
  have hs : sectionAt index (s.fields ++ Json.optionalField "cadence" s.cadence) =
      { name := text (defaultName index) (.text s.name)
        measures := measures (.ofInt s.measures)
        progression := progression (.ofTexts s.progression)
        motifs := (s.motifs.map Motif.toJson).filterMap motif?
        dynamics := dynamics (.text s.dynamics)
        texture := text "simple" (.text s.texture)
        cadence := cadence? (Json.field "cadence"
          (s.fields ++ Json.optionalField "cadence" s.cadence)) } := rfl
  rw [hs, text_eq_self _ h.name, measures_ofInt h.measures_mem,
    progression_ofTexts h.progression_ne_nil h.progression, hmotifs,
    dynamics_eq_self h.dynamics_mem, text_eq_self _ h.texture,
    cadence?_optionalField rfl h.cadence_mem]

theorem sections_toJson {l : List Section} (h : ∀ s ∈ l, s.IsSane) :
    sections (.array (l.map Section.toJson)) = l := by
  have hf : (l.map Section.toJson).filterMap fields? =
      l.map fun s => s.fields ++ Json.optionalField "cadence" s.cadence := by
    rw [List.filterMap_map]
    exact congrFun List.filterMap_eq_map _
  rw [sections, items, hf]
  refine List.ext_getElem (by simp) fun i h₁ h₂ => ?_
  rw [List.getElem_mapIdx, List.getElem_map]
  exact sectionAt_toJson i (h _ (List.getElem_mem h₂))

end Repair

namespace Piece

/-- What each rule of repair is given when a piece is written and repaired. -/
theorem repair_toJson (p : Piece) : repair p.toJson =
    (fun timeSignature =>
      { key := Repair.text "C major" (.text p.key)
        tempo := Repair.tempo (.ofInt p.tempo)
        timeSignature := timeSignature
        form := Repair.text "free" (.text p.form)
        sections := closeSections (Repair.text "C major" (.text p.key))
          (Repair.usableSections (.array (p.sections.map Section.toJson)))
        instrumentation := Repair.text [] (.text p.instrumentation)
        character := Repair.text [] (.text p.character)
        reasoning := p.reasoning }) <$> Repair.timeSignature (.text p.timeSignature) := by
  rw [toJson, repair_object]
  cases p.reasoning <;> rfl

theorem repair_toJson_of_isSane {p : Piece} (h : p.IsSane) : repair p.toJson = .ok p := by
  have hs : Repair.usableSections (.array (p.sections.map Section.toJson)) = p.sections := by
    have hl := Repair.sections_toJson h.sections
    rw [Repair.usableSections, Repair.lacksSections, hl, if_neg]
    exact fun he => h.sections_ne_nil (List.isEmpty_iff.mp he)
  obtain ⟨s, hmem, hc⟩ := h.exists_cadence
  have hclosed := closeSections_eq_self p.key
    ⟨s, hmem, (Section.hasCadence_iff (h.sections s hmem)).mpr hc⟩
  rw [repair_toJson, Repair.timeSignature_eq_self h.timeSignature, ok_map,
    Repair.text_eq_self _ h.key, Repair.tempo_ofInt h.tempo_mem, Repair.text_eq_self _ h.form, hs,
    hclosed, Repair.text_nil, Text.trim_eq_self h.instrumentation, Repair.text_nil,
    Text.trim_eq_self h.character]

/-- Of an instrumentation, repair takes away the blanks around it and nothing else. -/
theorem repair_toJson_trim (p : Piece) :
    repair { p with instrumentation := p.instrumentation.trim }.toJson = repair p.toJson := by
  simp only [repair_toJson, Repair.text_nil, Text.trim_eq_self (Text.isTrimmed_trim _)]

/-- Repair lands among the sane pieces, whatever it is given, and the sane pieces are exactly those
that it leaves as they are. So another repair changes nothing. -/
theorem repair_eq_self_iff_isSane :
    (∀ document piece, repair document = .ok piece → piece.IsSane) ∧
      (∀ piece : Piece, repair piece.toJson = .ok piece ↔ piece.IsSane) ∧
      ∀ document piece, repair document = .ok piece → repair piece.toJson = .ok piece := by
  have hsane : ∀ document piece, repair document = .ok piece → piece.IsSane :=
    fun document piece h => isSane_of_repair h
  refine ⟨hsane, fun piece => ⟨hsane piece.toJson piece, repair_toJson_of_isSane⟩, ?_⟩
  intro document piece h
  exact repair_toJson_of_isSane (hsane document piece h)

theorem isSane_of_loose_document : ∃ piece : Piece,
    repair (.object [("tempo", .ofInt 500)]) = .ok piece ∧ piece.tempo = 220 ∧
      piece.timeSignature = "4/4" ∧ piece.IsSane ∧ repair piece.toJson = .ok piece := by
  have h : repair (.object [("tempo", .ofInt 500)]) = .ok _ := rfl
  obtain ⟨hsane, -, hagain⟩ := repair_eq_self_iff_isSane
  exact ⟨_, h, rfl, rfl, hsane _ _ h, hagain _ _ h⟩

end Piece
end TrioScore
