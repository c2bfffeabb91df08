import TrioScore.Piece.Repair
import TrioScore.Proofs.Faults
import TrioScore.Proofs.Piece.Sane

/-!
# Repaired pieces are sane

Every rule of repair gives a value in the range of its field, whatever it is given. The sections are
closed last, and closing them keeps them sane.
-/

namespace TrioScore
namespace Repair

theorem text_isTrimmed {default : Text} (h : default.IsTrimmed) (value : Json) :
    (text default value).IsTrimmed := by
  unfold text
  split
  · split_ifs
    · exact h
    · exact Text.isTrimmed_trim _
  · exact h

theorem text_isProper {default : Text} (h : default.IsProper) (value : Json) :
    (text default value).IsProper := by
  refine ⟨?_, text_isTrimmed h.isTrimmed value⟩
  unfold text
  split
  · split_ifs with hb
    · exact h.ne_nil
    · exact fun hn => hb (Text.trim_eq_nil_iff.mp hn)
  · exact h.ne_nil

theorem clampRounded_mem {low high : Int} (h : low ≤ high) (x : Number) :
    low ≤ clampRounded low high x ∧ clampRounded low high x ≤ high := by
  unfold clampRounded
  split
  · exact ⟨le_limit low high _, limit_le h _⟩
  · split
    · exact ⟨le_limit low high _, limit_le h _⟩
    · exact ⟨le_rfl, h⟩

theorem tempo_mem (value : Json) : 40 ≤ tempo value ∧ tempo value ≤ 220 := by
  unfold tempo
  cases number? value with
  | none => decide
  | some x => exact clampRounded_mem (by decide) x

theorem measures_mem (value : Json) : 1 ≤ measures value ∧ measures value ≤ 256 := by
  unfold measures
  cases number? value with
  | none => decide
  | some x => exact clampRounded_mem (by decide) x

theorem inRange_of_meter {value : Json} {m : Meter} (h : meter value = .ok m) : m.InRange := by
  unfold meter at h
  split at h
  · exact Meter.inRange_of_parse h
  · cases h
    exact Meter.inRange_common

theorem timeSignature_isWritten {value : Json} {t : Text} (h : timeSignature value = .ok t) :
    Meter.IsWritten t := by
  obtain ⟨m, hm, rfl⟩ := map_eq_ok_iff.mp h
  exact Meter.isWritten_iff.mpr ⟨m, inRange_of_meter hm, rfl⟩

theorem degree?_mem {value : Json} {d : Int} (h : degree? value = some d) : -20 ≤ d ∧ d ≤ 29 := by
  unfold degree? at h
  cases hx : value.finite? with
  | none => simp [hx] at h
  | some x =>
    simp only [hx, Option.bind_eq_bind, Option.bind_some, Option.ite_none_right_eq_some,
      Option.some.injEq] at h
    rw [← h.2]
    exact ⟨le_limit _ _ _, limit_le (by decide) _⟩

/-- A positive number that is no more than the greatest finite one stays positive and finite. An
integer is at least 1 and so does not fall to zero. -/
theorem weight_pos (value : Json) : (weight value).isFinite = true ∧ 0 < (weight value).toRat := by
  have h1 : Binary64.IsExact 1 := by exact_mod_cast Binary64.isExact_int (m := 1) (by decide)
  have hone : (Binary64.ofRat 1).isFinite = true ∧ 0 < (Binary64.ofRat 1).toRat := by
    rw [Binary64.toRat_ofRat h1]
    exact ⟨Binary64.isFinite_ofRat h1, one_pos⟩
  unfold weight
  split
  · exact hone
  · next x _ =>
    split_ifs with h₁ h₂
    · exact hone
    · exact ⟨rfl, by decide +kernel⟩
    · cases x with
      | real x =>
        simp only [Number.toRat] at h₁ ⊢
        have hx := Binary64.isExact_toRat x
        rw [Binary64.toRat_ofRat hx]
        exact ⟨Binary64.isFinite_ofRat hx, not_le.mp h₁⟩
      | int n =>
        simp only [Number.toRat] at h₁ h₂ ⊢
        have hn : (1 : ℚ) ≤ n := by exact_mod_cast not_le.mp h₁
        obtain ⟨hf, hlow, -⟩ := Binary64.ofRat_bounds h1 (Binary64.isExact_toRat Binary64.greatest)
          hn (not_le.mp h₂).le
        exact ⟨hf, one_pos.trans_le hlow⟩

theorem length_weights_le (degrees rhythm : List Json) :
    (weights degrees rhythm).length ≤ (degrees.filterMap degree?).length := by
  unfold weights
  induction degrees generalizing rhythm with
  | nil => simp
  | cons d degrees ih =>
    cases rhythm with
    | nil => simp
    | cons r rhythm =>
      have h := ih rhythm
      cases hd : degree? d with
      | none => simpa [hd] using h
      | some n => simpa [hd] using h

theorem motif?_isSane {value : Json} {m : Motif} (h : motif? value = some m) : m.IsSane := by
  unfold motif? at h
  split at h
  · next fields =>
    dsimp only at h
    split_ifs at h with hu
    obtain rfl := Option.some.inj h
    refine ⟨fun hn => hu (List.isEmpty_iff.mpr hn), ?_, length_weights_le _ _, ?_⟩
    · intro d hd
      obtain ⟨v, -, hv⟩ := List.mem_filterMap.mp hd
      exact degree?_mem hv
    · intro w hw
      obtain ⟨⟨v, r⟩, -, hr⟩ := List.mem_filterMap.mp hw
      obtain ⟨_, -, rfl⟩ := Option.map_eq_some_iff.mp hr
      exact weight_pos r
  · cases h

theorem progression_isProper (value : Json) :
    progression value ≠ [] ∧ ∀ symbol ∈ progression value, symbol.IsProper := by
  unfold progression
  dsimp only
  split_ifs with he
  · exact ⟨by decide, by decide⟩
  · refine ⟨fun hn => he (List.isEmpty_iff.mpr hn), fun symbol hs => ?_⟩
    obtain ⟨v, -, hv⟩ := List.mem_filterMap.mp hs
    split at hv
    · next t =>
      split_ifs at hv with hb
      obtain rfl := Option.some.inj hv
      exact ⟨fun hn => hb (Text.trim_eq_nil_iff.mp hn), Text.isTrimmed_trim t⟩
    · cases hv

theorem motifs_isSane (value : Json) : ∀ m ∈ motifs value, m.IsSane := by
  unfold motifs
  split
  · intro m hm
    obtain ⟨v, -, hv⟩ := List.mem_filterMap.mp hm
    exact motif?_isSane hv
  · exact fun m hm => (List.not_mem_nil hm).elim

theorem dynamics_mem (value : Json) :
    dynamics value ∈ Dynamics.table.map fun entry => Text.ofString entry.1 := by
  unfold dynamics
  split
  · next t =>
    split_ifs with h
    · unfold Dynamics.velocity? at h
      rw [Option.isSome_map, List.find?_isSome] at h
      obtain ⟨entry, he, ht⟩ := h
      exact List.mem_map.mpr ⟨entry, he, of_decide_eq_true ht⟩
    · decide
  · decide

theorem cadence?_mem {value : Json} {mark : Text} (h : cadence? value = some mark) :
    mark ∈ Cadence.marks := by
  unfold cadence? at h
  split at h
  · exact List.mem_of_find?_eq_some h
  · cases h

theorem defaultName_isProper (index : ℕ) : (defaultName index).IsProper := by
  have hne := Text.ofNat_ne_nil (index + 1)
  refine ⟨by simp [defaultName, hne], fun h => ⟨rfl, ?_⟩⟩
  unfold defaultName at h ⊢
  rw [List.getLast_append_of_ne_nil h hne]
  exact Text.isBlank_of_mem_ofNat (List.getLast_mem hne)

theorem sectionAt_isSane (index : ℕ) (fields : List (Text × Json)) :
    (sectionAt index fields).IsSane where
  name := text_isProper (defaultName_isProper index) _
  measures_mem := measures_mem _
  progression_ne_nil := (progression_isProper _).1
  progression := (progression_isProper _).2
  motifs := motifs_isSane _
  dynamics_mem := dynamics_mem _
  texture := text_isProper (by decide) _
  cadence_mem := fun _ h => cadence?_mem h

theorem defaultSection_isSane : defaultSection.IsSane := by decide +kernel

theorem sections_isSane (value : Json) : ∀ s ∈ sections value, s.IsSane := by
  intro s hs
  obtain ⟨i, hi, rfl⟩ := List.mem_mapIdx.mp hs
  exact sectionAt_isSane i _

def usableSections (listed : Json) : List Section :=
  if lacksSections listed then [defaultSection] else sections listed

theorem usableSections_isSane (listed : Json) : ∀ s ∈ usableSections listed, s.IsSane := by
  unfold usableSections
  split_ifs
  · intro s hs
    obtain rfl := List.mem_singleton.mp hs
    exact defaultSection_isSane
  · exact sections_isSane listed

theorem usableSections_ne_nil (listed : Json) : usableSections listed ≠ [] := by
  unfold usableSections
  split_ifs with h
  · exact List.cons_ne_nil _ _
  · exact fun hn => h (List.isEmpty_iff.mpr hn)

def pieceOf (fields : List (Text × Json)) (timeSignature : Text) : Piece where
  key := text "C major" (Json.field "key" fields)
  tempo := tempo (Json.field "tempo" fields)
  timeSignature := timeSignature
  form := text "free" (Json.field "form" fields)
  sections := Piece.closeSections (text "C major" (Json.field "key" fields))
    (usableSections (Json.field "sections" fields))
  instrumentation := text [] (Json.field "instrumentation" fields)
  character := text [] (Json.field "character" fields)
  reasoning := text? (Json.field "reasoning" fields)

end Repair

namespace Piece

theorem closing_mem_marks (key : Text) : Cadence.closing key ∈ Cadence.marks := by
  unfold Cadence.closing
  split_ifs <;> decide

theorem closeSections_eq_self (key : Text) {sections : List Section}
    (h : ∃ s ∈ sections, s.hasCadence = true) : closeSections key sections = sections := by
  rw [closeSections, if_pos (List.any_eq_true.mpr h)]

/-- Where no section says how it closes, the last one is closed as the key asks for. Otherwise all
sections stay as they are. -/
theorem closeSections_cases (key : Text) (sections : List Section) :
    (closeSections key sections = sections ∧
      (sections = [] ∨ ∃ s ∈ sections, s.hasCadence = true)) ∨
    ∃ before last, sections = before ++ [last] ∧ (∀ s ∈ sections, s.hasCadence = false) ∧
      closeSections key sections =
        before ++ [{ last with cadence := some (Cadence.closing key) }] := by
  cases hany : sections.any Section.hasCadence with
  | true =>
    have hsome := List.any_eq_true.mp hany
    exact .inl ⟨closeSections_eq_self key hsome, .inr hsome⟩
  | false =>
    cases hlast : sections.getLast? with
    | none =>
      obtain rfl := List.getLast?_eq_none_iff.mp hlast
      exact .inl ⟨rfl, .inl rfl⟩
    | some last =>
      obtain ⟨before, rfl⟩ := List.getLast?_eq_some_iff.mp hlast
      refine .inr ⟨before, last, rfl, fun s hs => ?_, ?_⟩
      · exact Bool.eq_false_iff.mpr (List.any_eq_false.mp hany s hs)
      · rw [closeSections, hany, hlast, List.dropLast_concat]
        rfl

theorem closeSections_isSane (key : Text) {sections : List Section}
    (h : ∀ s ∈ sections, s.IsSane) (hne : sections ≠ []) :
    (∀ s ∈ closeSections key sections, s.IsSane) ∧
      ∃ s ∈ closeSections key sections, s.cadence ≠ none := by
  rcases closeSections_cases key sections with ⟨hsame, hnil | ⟨s, hs, hc⟩⟩ |
    ⟨before, last, rfl, -, hclosed⟩
  · exact absurd hnil hne
  · rw [hsame]
    exact ⟨h, s, hs, (Section.hasCadence_iff (h s hs)).mp hc⟩
  · obtain ⟨hbefore, hlast⟩ := List.forall_mem_append.mp h
    rw [hclosed]
    refine ⟨List.forall_mem_append.mpr ⟨hbefore, List.forall_mem_singleton.mpr ?_⟩, _,
      List.mem_append_right _ (List.mem_singleton_self _), by simp⟩
    exact { List.forall_mem_singleton.mp hlast with
      cadence_mem := fun mark hm => by
        obtain rfl := Option.some.inj hm
        exact closing_mem_marks key }

/-- Repair of an object fails in its meter only. -/
theorem repair_object (fields : List (Text × Json)) : repair (.object fields) =
    Repair.pieceOf fields <$> Repair.timeSignature (Json.field "timeSignature" fields) := by
  cases h : Repair.timeSignature (Json.field "timeSignature" fields) with
  | error fault => simp only [repair, h]; rfl
  | ok t => simp only [repair, h]; rfl

theorem repair_object_eq_ok {fields : List (Text × Json)} {piece : Piece}
    (h : repair (.object fields) = .ok piece) : ∃ timeSignature,
      Repair.timeSignature (Json.field "timeSignature" fields) = .ok timeSignature ∧
        piece = Repair.pieceOf fields timeSignature := by
  rw [repair_object] at h
  obtain ⟨t, ht, rfl⟩ := map_eq_ok_iff.mp h
  exact ⟨t, ht, rfl⟩

theorem repair_eq_ok {document : Json} {piece : Piece} (h : repair document = .ok piece) :
    ∃ fields timeSignature, document = .object fields ∧
      Repair.timeSignature (Json.field "timeSignature" fields) = .ok timeSignature ∧
      piece = Repair.pieceOf fields timeSignature := by
  cases document with
  | object fields =>
    obtain ⟨timeSignature, hpiece⟩ := repair_object_eq_ok h
    exact ⟨fields, timeSignature, rfl, hpiece⟩
  | _ => cases h

theorem isSane_of_repair {document : Json} {piece : Piece} (h : repair document = .ok piece) :
    piece.IsSane := by
  obtain ⟨fields, timeSignature, rfl, ht, rfl⟩ := repair_eq_ok h
  obtain ⟨hs, hc⟩ := closeSections_isSane (Repair.text "C major" (Json.field "key" fields))
    (Repair.usableSections_isSane (Json.field "sections" fields)) (Repair.usableSections_ne_nil _)
  exact {
    key := Repair.text_isProper (by decide) _
    tempo_mem := Repair.tempo_mem _
    timeSignature := Repair.timeSignature_isWritten ht
    form := Repair.text_isProper (by decide) _
    sections_ne_nil := by
      obtain ⟨s, hs, -⟩ := hc
      exact List.ne_nil_of_mem hs
    sections := hs
    exists_cadence := hc
    instrumentation := Repair.text_isTrimmed Text.isTrimmed_nil _
    character := Repair.text_isTrimmed Text.isTrimmed_nil _ }

end Piece
end TrioScore
