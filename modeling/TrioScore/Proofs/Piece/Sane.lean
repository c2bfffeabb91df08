import TrioScore.Piece.Basic
import TrioScore.Proofs.Meter.Range
import TrioScore.Proofs.Text.Trim
import Mathlib.Tactic.MkIffOfInductiveProp

/-!
# Sane pieces

What a repaired piece looks like, field by field. The bounds are those of the fields themselves; the
only condition on several of them is that some section says how it closes.
-/

namespace TrioScore

/-- Something is written, without blanks around it. -/
@[mk_iff]
structure Text.IsProper (t : Text) : Prop where
  ne_nil : t ≠ []
  isTrimmed : t.IsTrimmed

/-- The writing of a meter in range, numerals without zeros in front. -/
def Meter.IsWritten (t : Text) : Prop :=
  ∃ n d : ℕ, 1 ≤ n ∧ n ≤ 12 ∧ (d = 2 ∨ d = 4 ∨ d = 8 ∨ d = 16) ∧
    t = Text.ofNat n ++ Text.ofString "/" ++ Text.ofNat d

/-- There are degrees, all in reach, and no weight without a degree or without effect. -/
@[mk_iff]
structure Motif.IsSane (m : Motif) : Prop where
  degrees_ne_nil : m.degrees ≠ []
  degrees_mem : ∀ d ∈ m.degrees, -20 ≤ d ∧ d ≤ 29
  length_rhythm_le : m.rhythm.length ≤ m.degrees.length
  rhythm_pos : ∀ w ∈ m.rhythm, w.isFinite = true ∧ 0 < w.toRat

@[mk_iff]
structure Section.IsSane (s : Section) : Prop where
  name : s.name.IsProper
  measures_mem : 1 ≤ s.measures ∧ s.measures ≤ 256
  progression_ne_nil : s.progression ≠ []
  progression : ∀ symbol ∈ s.progression, symbol.IsProper
  motifs : ∀ m ∈ s.motifs, m.IsSane
  dynamics_mem : s.dynamics ∈ Dynamics.table.map fun entry => Text.ofString entry.1
  texture : s.texture.IsProper
  cadence_mem : ∀ mark ∈ s.cadence, mark ∈ Cadence.marks

structure Piece.IsSane (p : Piece) : Prop where
  key : p.key.IsProper
  tempo_mem : 40 ≤ p.tempo ∧ p.tempo ≤ 220
  timeSignature : Meter.IsWritten p.timeSignature
  form : p.form.IsProper
  sections_ne_nil : p.sections ≠ []
  sections : ∀ s ∈ p.sections, s.IsSane
  exists_cadence : ∃ s ∈ p.sections, s.cadence ≠ none
  instrumentation : p.instrumentation.IsTrimmed
  character : p.character.IsTrimmed

instance (t : Text) : Decidable t.IsTrimmed := decidable_of_iff _ Text.trim_eq_self_iff

instance (t : Text) : Decidable t.IsProper := decidable_of_iff _ (Text.isProper_iff t).symm

instance (m : Motif) : Decidable m.IsSane := decidable_of_iff _ (Motif.isSane_iff m).symm

instance (s : Section) : Decidable s.IsSane := decidable_of_iff _ (Section.isSane_iff s).symm

theorem Meter.isWritten_iff {t : Text} :
    IsWritten t ↔ ∃ meter, InRange meter ∧ t = meter.toText := by
  constructor
  · rintro ⟨n, d, h₁, h₂, hd, rfl⟩
    exact ⟨⟨n, d⟩, ⟨by simp only; omega, by simp only; omega⟩, rfl⟩
  · rintro ⟨⟨n, d⟩, ⟨⟨h₁, h₂⟩, hd⟩, rfl⟩
    simp only at h₁ h₂ hd
    lift n to ℕ using by omega
    lift d to ℕ using by omega
    exact ⟨n, d, by omega, by omega, by omega, rfl⟩

theorem Section.hasCadence_iff {s : Section} (h : s.IsSane) :
    s.hasCadence = true ↔ s.cadence ≠ none := by
  cases hc : s.cadence with
  | none => simp [hasCadence, hc]
  | some mark =>
    have hm : ∀ mark ∈ Cadence.marks, mark.isEmpty = false := by decide
    simp [hasCadence, hc, hm mark (h.cadence_mem mark hc)]

end TrioScore
