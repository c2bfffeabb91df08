import Mathlib.Data.List.Forall2
import TrioScore.Proofs.Faults
import TrioScore.Score.Rendering

/-!
# Sections that sound alike

Of a section the score takes the number of measures, the chord of each measure, the degrees and
usable weights of the motifs, and the velocity of the dynamics. Sections that agree in these sound
alike, and pieces of such sections have the same score.
-/

namespace TrioScore

structure Motif.Alike (a b : Motif) : Prop where
  degrees : a.degrees = b.degrees
  weights : Measure.weights a = Measure.weights b

structure Section.Alike (a b : Section) : Prop where
  measures : a.measures = b.measures
  chordSymbol : ∀ measure, Measure.chordSymbol a measure = Measure.chordSymbol b measure
  motifs : List.Forall₂ Motif.Alike a.motifs b.motifs
  velocity : Dynamics.velocity a.dynamics = Dynamics.velocity b.dynamics

theorem Motif.Alike.refl (m : Motif) : m.Alike m := ⟨rfl, rfl⟩

theorem Section.Alike.refl (s : Section) : s.Alike s :=
  ⟨rfl, fun _ => rfl, List.forall₂_same.mpr fun m _ => .refl m, rfl⟩

namespace Measure

theorem melodyNotes_of_alike {a b : Motif} (h : a.Alike b) (key : Key) (pulses velocity : ℤ) :
    melodyNotes key pulses (some a) velocity = melodyNotes key pulses (some b) velocity := by
  simp only [melodyNotes, motifNotes, h.degrees, h.weights]

/-- Motifs with the same melodies come round together. -/
theorem melodyNotes_cycle? {as bs : List Motif} {key : Key} {pulses velocity : ℤ}
    (h : List.Forall₂ (fun a b => melodyNotes key pulses (some a) velocity =
      melodyNotes key pulses (some b) velocity) as bs) (index : ℤ) :
    melodyNotes key pulses (cycle? as index) velocity =
      melodyNotes key pulses (cycle? bs index) velocity := by
  have hlength := h.length_eq
  simp only [cycle?, hlength]
  generalize (index % (bs.length : ℤ)).toNat = i
  by_cases hi : i < as.length
  · have hi' : i < bs.length := hlength ▸ hi
    rw [List.getElem?_eq_getElem hi, List.getElem?_eq_getElem hi']
    exact h.get hi hi'
  · rw [List.getElem?_eq_none (not_lt.mp hi), List.getElem?_eq_none (hlength ▸ not_lt.mp hi)]

theorem parts_of_alike {a b : Section} (h : a.Alike b) (key : Key) (pulses measure : ℤ) :
    parts key pulses a measure = parts key pulses b measure := by
  have hmelody : ∀ velocity, melodyNotes key pulses (motif? a measure) velocity =
      melodyNotes key pulses (motif? b measure) velocity := fun velocity =>
    melodyNotes_cycle?
      (h.motifs.imp fun _ _ h => melodyNotes_of_alike h key pulses velocity) measure
  simp only [parts, h.chordSymbol, h.velocity, hmelody]

end Measure

namespace Score

theorem foldlM_congr {key : Key} {pulses : ℤ} {as bs : List Section}
    (h : List.Forall₂ (fun a b => a.measures = b.measures ∧ ∀ measure,
      Measure.parts key pulses a measure = Measure.parts key pulses b measure) as bs)
    (score : Score) :
    as.foldlM (appendSection key pulses) score = bs.foldlM (appendSection key pulses) score := by
  induction h generalizing score with
  | nil => rfl
  | @cons a b _ _ hs _ ih =>
    have hsection : appendSection key pulses score a = appendSection key pulses score b := by
      simp only [appendSection, Section.measureIndices, hs.1, appendMeasure, hs.2]
    simp only [List.foldlM_cons, hsection, ih]

/-- Pieces of one tempo whose keys and meters are read alike have one score if their sections sound
alike. -/
theorem ofPiece_of_alike {a b : Piece} (hk : Key.named a.key = Key.named b.key)
    (ht : a.tempo = b.tempo) (hm : Meter.parse a.timeSignature = Meter.parse b.timeSignature)
    (hs : List.Forall₂ Section.Alike a.sections b.sections) : ofPiece a = ofPiece b := by
  have hsections : ∀ key pulses score, a.sections.foldlM (appendSection key pulses) score =
      b.sections.foldlM (appendSection key pulses) score := fun key pulses =>
    foldlM_congr (hs.imp fun _ _ h => ⟨h.measures, Measure.parts_of_alike h key pulses⟩)
  simp only [ofPiece, hk, ht, hm, hsections]

end Score
end TrioScore
