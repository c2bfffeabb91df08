import TrioScore.Proofs.Meter.Written
import TrioScore.Proofs.Piece.FixedPoint
import TrioScore.Proofs.Score.Alike
import TrioScore.Proofs.Score.Rendered

/-!
# Defaults

A score is made of any piece, repaired or not: what is missing or not usable has a default there
too. The defaults are those of repair, so a piece whose numbers and texts are in range sounds alike
before and after, whatever its weights, its dynamics, its cadences and its meter are.
-/

namespace TrioScore

/-- There are degrees, all in reach; the weights are arbitrary. -/
structure Motif.InReach (m : Motif) : Prop where
  degrees_ne_nil : m.degrees ≠ []
  degrees_mem : ∀ d ∈ m.degrees, -20 ≤ d ∧ d ≤ 29

structure Section.InReach (s : Section) : Prop where
  measures_mem : 1 ≤ s.measures ∧ s.measures ≤ 256
  progression : ∀ symbol ∈ s.progression, symbol.IsProper
  motifs : ∀ m ∈ s.motifs, m.InReach

/-- What repair does not change is in range; the rest is left to the defaults. -/
structure Piece.InReach (p : Piece) : Prop where
  key : p.key.isBlank = true ∨ p.key.IsTrimmed
  tempo_mem : 40 ≤ p.tempo ∧ p.tempo ≤ 220
  timeSignature : ¬ Meter.Overlong p.timeSignature
  sections_ne_nil : p.sections ≠ []
  sections : ∀ s ∈ p.sections, s.InReach

namespace Measure

theorem weight_ofBinary64 (w : Binary64) :
    Repair.weight (.ofBinary64 w) = usableWeight (some w) := by
  cases hf : w.isFinite with
  | false => simp [Repair.weight, Json.ofBinary64, Json.finite?, Number.isFinite, usableWeight, hf]
  | true =>
    have hless := NoteLength.zero_less_eq hf
    rcases le_or_gt w.toRat 0 with h | h
    · have hw : Repair.weight (.ofBinary64 w) = .ofRat 1 := by
        simp [Repair.weight, Json.ofBinary64, Json.finite?, Number.isFinite, Number.toRat, hf, h]
      simp [hw, usableWeight, hf, hless, h.not_gt]
    · rw [Repair.weight_ofBinary64 hf h]
      simp [usableWeight, hf, hless, h]

theorem usableWeight_of_pos {w : Binary64} (hf : w.isFinite = true) (hpos : 0 < w.toRat) :
    usableWeight (some w) = w := by
  rw [← weight_ofBinary64, Repair.weight_ofBinary64 hf hpos]

theorem usableWeight_idem (w : Binary64) :
    usableWeight (some (usableWeight (some w))) = usableWeight (some w) := by
  have hone : usableWeight (some (.ofRat 1)) = .ofRat 1 := by decide +kernel
  by_cases h : w.isFinite && (Binary64.zero false).less w
  · simp only [usableWeight, h, if_true]
  · simpa only [usableWeight, h, Bool.false_eq_true, if_false] using hone

end Measure

namespace Repair

theorem weights_toJson {degrees : List ℤ} (hd : ∀ d ∈ degrees, -20 ≤ d ∧ d ≤ 29)
    (rhythm : List Binary64) : weights (degrees.map .ofInt) (rhythm.map .ofBinary64) =
      (rhythm.take degrees.length).map fun w => Measure.usableWeight (some w) := by
  induction degrees generalizing rhythm with
  | nil => simp [weights]
  | cons d degrees ih =>
    obtain ⟨hd₀, hd⟩ := List.forall_mem_cons.mp hd
    cases rhythm with
    | nil => simp [weights]
    | cons w rhythm =>
      have h := ih hd rhythm
      rw [weights] at h
      simp only [weights, List.map_cons, List.zip_cons_cons, List.filterMap_cons, degree?_ofInt hd₀,
        Option.map_some, Measure.weight_ofBinary64, h, List.length_cons, List.take_succ_cons]

/-- Missing weights, weights without a degree and unusable weights are played the same when they
are repaired. -/
theorem motif?_toJson_alike {m : Motif} (h : m.InReach) :
    ∃ repaired, motif? m.toJson = some repaired ∧ repaired.Alike m := by
  have hd : (m.degrees.map Json.ofInt).filterMap degree? = m.degrees :=
    filterMap_map_eq_self fun d hd => degree?_ofInt (h.degrees_mem d hd)
  have hm : motif? m.toJson =
      if ((m.degrees.map Json.ofInt).filterMap degree?).isEmpty then none
      else some ⟨(m.degrees.map Json.ofInt).filterMap degree?,
        weights (m.degrees.map Json.ofInt) (m.rhythm.map Json.ofBinary64)⟩ := rfl
  rw [hd, if_neg fun he => h.degrees_ne_nil (List.isEmpty_iff.mp he),
    weights_toJson h.degrees_mem] at hm
  refine ⟨_, hm, rfl, ?_⟩
  apply List.ext_getElem
  · simp [Measure.weights]
  · intro i hi _
    simp only [Measure.weights, List.length_mapIdx] at hi
    simp only [Measure.weights, List.getElem_mapIdx, List.getElem?_map, List.getElem?_take, hi,
      if_true]
    cases m.rhythm[i]? with
    | none => rfl
    | some w => exact Measure.usableWeight_idem w

theorem motifs_alike {l : List Motif} (h : ∀ m ∈ l, m.InReach) :
    List.Forall₂ Motif.Alike ((l.map Motif.toJson).filterMap motif?) l := by
  induction l with
  | nil => exact .nil
  | cons m l ih =>
    obtain ⟨hm, hl⟩ := List.forall_mem_cons.mp h
    obtain ⟨repaired, hrepaired, halike⟩ := motif?_toJson_alike hm
    rw [List.map_cons, List.filterMap_cons_some hrepaired]
    exact .cons halike (ih hl)

/-- An empty progression gets the chords that it is played with. -/
theorem progression_ofTexts_of_isProper {symbols : List Text}
    (h : ∀ symbol ∈ symbols, symbol.IsProper) :
    progression (.ofTexts symbols) =
      if symbols.isEmpty then Chord.defaultProgression else symbols := by
  cases symbols with
  | nil => rfl
  | cons symbol rest => exact progression_ofTexts (List.cons_ne_nil _ _) h

theorem velocity_dynamics (mark : Text) :
    Dynamics.velocity (dynamics (.text mark)) = Dynamics.velocity mark := by
  unfold dynamics
  cases h : Dynamics.velocity? mark with
  | some v => simp [h]
  | none =>
    simp only [h, Option.isSome_none, Bool.false_eq_true, if_false, Dynamics.velocity]
    rfl

theorem sectionAt_alike (index : ℕ) {s : Section} (h : s.InReach) :
    (sectionAt index (s.fields ++ Json.optionalField "cadence" s.cadence)).Alike s where
  measures := measures_ofInt h.measures_mem
  chordSymbol := by
    intro measure
    have hp := progression_ofTexts_of_isProper h.progression
    change Measure.chordSymbol
      { s with progression := progression (.ofTexts s.progression) } measure = _
    unfold Measure.chordSymbol
    rw [hp]
    split_ifs <;> rfl
  motifs := motifs_alike h.motifs
  velocity := velocity_dynamics s.dynamics

theorem sections_alike {l : List Section} (h : ∀ s ∈ l, s.InReach) :
    List.Forall₂ Section.Alike (sections (.array (l.map Section.toJson))) l := by
  have hf : (l.map Section.toJson).filterMap fields? =
      l.map fun s => s.fields ++ Json.optionalField "cadence" s.cadence := by
    rw [List.filterMap_map]
    exact congrFun List.filterMap_eq_map _
  rw [sections, items, hf, List.forall₂_iff_get]
  refine ⟨by simp, fun i h₁ h₂ => ?_⟩
  simp only [List.get_eq_getElem, List.getElem_mapIdx, List.getElem_map]
  exact sectionAt_alike i (h _ (List.getElem_mem h₂))

theorem named_text {key : Text} (h : key.isBlank = true ∨ key.IsTrimmed) :
    Key.named (text "C major" (.text key)) = Key.named key := by
  have hnames : ∀ entry ∈ Key.table, Text.isBlank entry.1 = false := by decide
  by_cases hb : key.isBlank = true
  · have hnone : Key.table.lookup key = none := by
      cases hl : Key.table.lookup key with
      | none => rfl
      | some other =>
        obtain ⟨before, after, hmem, -⟩ := List.lookup_eq_some_iff.mp hl
        have hname := hnames (key, other) (by simp [hmem])
        rw [hb] at hname
        cases hname
    have hmajor : Key.named "C major" = Key.cMajor := rfl
    rw [text, if_pos hb, hmajor, Key.named, hnone]
    rfl
  · rw [text, if_neg hb, Text.trim_eq_self (h.resolve_left hb)]

end Repair

namespace Piece

/-- Closing the sections is not heard. -/
theorem closeSections_alike (key : Text) (sections : List Section) :
    List.Forall₂ Section.Alike (closeSections key sections) sections := by
  have hsame : ∀ l : List Section, List.Forall₂ Section.Alike l l := fun l =>
    List.forall₂_same.mpr fun s _ => .refl s
  rcases closeSections_cases key sections with ⟨hself, -⟩ | ⟨before, last, rfl, -, hclosed⟩
  · rw [hself]
    exact hsame sections
  · rw [hclosed]
    exact List.rel_append (hsame before)
      (.cons ⟨rfl, fun _ => rfl, (Section.Alike.refl last).motifs, rfl⟩ .nil)

end Piece

namespace Score

/-- Repair keeps the score of a piece in reach, and there is one. -/
theorem ofPiece_repair_toJson {piece : Piece} (h : piece.InReach) : ∃ repaired score,
    Piece.repair piece.toJson = .ok repaired ∧ ofPiece repaired = .ok score ∧
      ofPiece piece = .ok score := by
  obtain ⟨meter, hmeter, hrange⟩ := Meter.parse_of_not_overlong h.timeSignature
  have ht : Repair.timeSignature (Json.field "timeSignature"
      (piece.fields ++ Json.optionalField "reasoning" piece.reasoning)) = .ok meter.toText := by
    have hread : Repair.meter (.text piece.timeSignature) = .ok meter := hmeter
    change Repair.timeSignature (.text piece.timeSignature) = _
    rw [Repair.timeSignature, hread, ok_map]
  have hrepair : Piece.repair piece.toJson = .ok (Repair.pieceOf
      (piece.fields ++ Json.optionalField "reasoning" piece.reasoning) meter.toText) := by
    rw [Piece.toJson, Piece.repair_object, ht, ok_map]
  have hsections := Repair.sections_alike h.sections
  have husable : Repair.usableSections (.array (piece.sections.map Section.toJson)) =
      Repair.sections (.array (piece.sections.map Section.toJson)) := by
    rw [Repair.usableSections, Repair.lacksSections, if_neg]
    intro he
    have hlength := hsections.length_eq
    rw [List.isEmpty_iff.mp he] at hlength
    exact h.sections_ne_nil (List.eq_nil_of_length_eq_zero hlength.symm)
  obtain ⟨score, hscore, -⟩ := exists_regular_ofPiece hrepair
  refine ⟨_, score, hrepair, hscore, ?_⟩
  rw [← hscore]
  symm
  calc ofPiece (Repair.pieceOf
        (piece.fields ++ Json.optionalField "reasoning" piece.reasoning) meter.toText)
      = ofPiece { piece with
          sections := Repair.sections (.array (piece.sections.map Section.toJson)) } := by
        apply ofPiece_of_alike
        · exact Repair.named_text h.key
        · exact Repair.tempo_ofInt h.tempo_mem
        · exact (Meter.parse_toText hrange).trans hmeter.symm
        · rw [← husable]
          exact Piece.closeSections_alike _ _
    _ = ofPiece piece := ofPiece_of_alike rfl rfl rfl hsections

/-- A piece without a key, whose chords are missing and whose weights are one too few, one too many
and no numbers, is played as it is repaired. -/
theorem ofPiece_repair_toJson_loose : ∃ repaired score,
    Piece.repair (Piece.toJson ⟨"", 90, "7", "", [⟨"", 2, [], [⟨[1, 5], [.nan]⟩,
      ⟨[3], [.infinity false, .ofRat 2]⟩], "loud", "", none⟩], "", "", none⟩) = .ok repaired ∧
    ofPiece repaired = .ok score ∧
    ofPiece ⟨"", 90, "7", "", [⟨"", 2, [], [⟨[1, 5], [.nan]⟩,
      ⟨[3], [.infinity false, .ofRat 2]⟩], "loud", "", none⟩], "", "", none⟩ = .ok score := by
  have hmeter : ¬ Meter.Overlong "7" := by
    intro h
    obtain ⟨digits, -, herror⟩ := Meter.parse_of_overlong h
    cases herror
  apply ofPiece_repair_toJson
  refine ⟨.inl rfl, by decide, hmeter, by simp, ?_⟩
  intro s hs
  obtain rfl := List.mem_singleton.mp hs
  refine ⟨by decide, by simp, ?_⟩
  intro m hm
  simp only [List.mem_cons, List.not_mem_nil, or_false] at hm
  rcases hm with rfl | rfl
  · exact ⟨by simp, by decide⟩
  · exact ⟨by simp, by decide⟩

end Score
end TrioScore
