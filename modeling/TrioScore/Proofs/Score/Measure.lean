import TrioScore.Proofs.Faults
import TrioScore.Proofs.Score.Cursor
import TrioScore.Score.Measure

/-!
# Measures of named keys

A named key has a scale, so a measure in it can always be made. Harmony and bass take notes of one
length; the lengths of the melody depend on the motif and on the pulses only.
-/

namespace TrioScore

theorem Key.isEmpty_scale_named (name : Text) : (named name).scale.isEmpty = false := by
  have htable : ∀ entry ∈ table, entry.2.scale.isEmpty = false := by decide
  unfold named
  cases hn : table.lookup name with
  | none => rfl
  | some key =>
    obtain ⟨before, after, hmem, -⟩ := List.lookup_eq_some_iff.mp hn
    exact htable (name, key) (by rw [hmem]; simp)

theorem Key.exists_degreePitch {key : Key} (hk : key.scale.isEmpty = false) :
    ∃ pitch : ℤ → ℤ, ∀ degree, key.degreePitch degree = .ok (pitch degree) := by
  have hok : ∀ degree, ∃ pitch, key.degreePitch degree = .ok pitch := by
    intro degree
    rw [degreePitch, hk]
    exact ⟨_, rfl⟩
  exact Classical.axiomOfChoice hok

theorem Chord.exists_pitches {key : Key} (hk : key.scale.isEmpty = false) (symbol : Text)
    (register : ℤ) : ∃ pitches, Chord.pitches symbol key register = .ok pitches := by
  rw [Chord.pitches, hk]
  exact ⟨_, rfl⟩

namespace Measure

/-- The time that falls to each note of a motif. -/
def shares (pulses : ℤ) (motif : Motif) : List Binary64 :=
  (weights motif).map (· * (.ofRat pulses / (weights motif).foldl (· + ·) (.ofRat 0)))

/-- The lengths of the notes of a motif and of those that fill the measure after it. -/
def motifLengths (pulses : ℤ) (motif : Motif) : List NoteLength :=
  (fitLengths (4 * pulses) (shares pulses motif)).1 ++
    fillLengths (fitLengths (4 * pulses) (shares pulses motif)).2

def melodyLengths (pulses : ℤ) : Option Motif → List NoteLength
  | none => List.replicate pulses.toNat .quarter
  | some motif =>
    if motif.degrees.isEmpty then List.replicate pulses.toNat .quarter
    else motifLengths pulses motif

theorem length_fitLengths_le (remaining : ℤ) (shares : List Binary64) :
    (fitLengths remaining shares).1.length ≤ shares.length := by
  induction shares generalizing remaining with
  | nil => exact le_rfl
  | cons share shares ih =>
    unfold fitLengths
    split_ifs
    · exact Nat.zero_le _
    · exact Nat.succ_le_succ (ih _)

theorem length_fitLengths_shares_le (pulses : ℤ) (motif : Motif) :
    (fitLengths (4 * pulses) (shares pulses motif)).1.length ≤ motif.degrees.length := by
  refine (length_fitLengths_le _ _).trans (le_of_eq ?_)
  simp [shares, weights]

/-- The notes of a motif: its degrees as far as there is time, then the tonic. -/
theorem motifNotes_eq {key : Key} {pitch : ℤ → ℤ}
    (hpitch : ∀ degree, key.degreePitch degree = .ok (pitch degree)) (pulses : ℤ) (motif : Motif)
    (velocity : ℤ) : motifNotes key pulses motif velocity = .ok
      ((motif.degrees.zip (fitLengths (4 * pulses) (shares pulses motif)).1).map
          (fun note => single (pitch note.1) note.2.beats velocity) ++
        (fillLengths (fitLengths (4 * pulses) (shares pulses motif)).2).map fun length =>
          single (sustainPitch key) length.beats (scaleVelocity velocity (mkRat 45 100))) := by
  have hplaced := mapM_eq_ok
    (f := fun note => do
      return single (← key.degreePitch note.1) (NoteLength.beats note.2) velocity)
    (g := fun note => single (pitch note.1) (NoteLength.beats note.2) velocity)
    (l := motif.degrees.zip (fitLengths (4 * pulses) (shares pulses motif)).1)
    fun note _ => by
      rw [hpitch, ok_bind]
      rfl
  exact congrArg (· >>= _) hplaced

theorem motifNotes_eq_ok {key : Key} (hk : key.scale.isEmpty = false) (pulses : ℤ) (motif : Motif)
    (velocity : ℤ) : ∃ notes, motifNotes key pulses motif velocity = .ok notes ∧
      notes.map Note.beats = (motifLengths pulses motif).map NoteLength.beats := by
  obtain ⟨pitch, hpitch⟩ := Key.exists_degreePitch hk
  refine ⟨_, motifNotes_eq hpitch pulses motif velocity, ?_⟩
  simp only [List.map_append, List.map_map, motifLengths]
  congr 1
  conv_rhs => rw [← List.map_snd_zip (length_fitLengths_shares_le pulses motif), List.map_map]
  rfl

theorem melodyNotes_eq_ok {key : Key} (hk : key.scale.isEmpty = false) (pulses : ℤ)
    (motif : Option Motif) (velocity : ℤ) : ∃ notes,
      melodyNotes key pulses motif velocity = .ok notes ∧
      notes.map Note.beats = (melodyLengths pulses motif).map NoteLength.beats := by
  have hpulses : (pulseNotes key pulses velocity).map Note.beats =
      (List.replicate pulses.toNat NoteLength.quarter).map NoteLength.beats := by
    simp [pulseNotes, single]
  cases motif with
  | none => exact ⟨_, rfl, hpulses⟩
  | some motif =>
    dsimp only [melodyNotes, melodyLengths]
    split_ifs
    · exact ⟨_, rfl, hpulses⟩
    · exact motifNotes_eq_ok hk pulses motif velocity

theorem melody_of_parts {key : Key} {pulses : ℤ} {s : Section} {measure : ℤ} {notes : Parts}
    (h : parts key pulses s measure = .ok notes) :
    melodyNotes key pulses (motif? s measure) (Dynamics.velocity s.dynamics) =
      .ok notes.melody := by
  obtain ⟨_, -, h⟩ := bind_eq_ok_iff.mp h
  obtain ⟨_, -, h⟩ := bind_eq_ok_iff.mp h
  obtain ⟨melody, hmelody, h⟩ := bind_eq_ok_iff.mp h
  cases h
  exact hmelody

theorem parts_eq_ok {key : Key} (hk : key.scale.isEmpty = false) (pulses : ℤ) (s : Section)
    (measure : ℤ) : ∃ notes, parts key pulses s measure = .ok notes ∧
      notes.melody.map Note.beats =
        (melodyLengths pulses (motif? s measure)).map NoteLength.beats ∧
      (∃ chord velocity, notes.harmony = harmonyNotes chord pulses velocity) ∧
      ∃ root velocity, notes.bass = bassNotes root pulses velocity := by
  obtain ⟨chord, hchord⟩ := Chord.exists_pitches hk (chordSymbol s measure) harmonyRegister
  obtain ⟨low, hlow⟩ := Chord.exists_pitches hk (chordSymbol s measure) bassRegister
  obtain ⟨melody, hmelody, hbeats⟩ :=
    melodyNotes_eq_ok hk pulses (motif? s measure) (Dynamics.velocity s.dynamics)
  unfold parts
  simp only [hchord, hlow, hmelody]
  exact ⟨_, rfl, hbeats, ⟨_, _, rfl⟩, _, _, rfl⟩

end Measure

theorem Score.appendMeasure_eq_ok {key : Key} {pulses : ℤ} {s : Section} {measure : ℤ}
    {notes : Parts} (h : Measure.parts key pulses s measure = .ok notes) (score : Score) :
    score.appendMeasure key pulses s measure = .ok (score.appendParts notes) := by
  rw [appendMeasure, h]
  rfl

end TrioScore
