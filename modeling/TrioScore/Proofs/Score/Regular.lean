import TrioScore.Proofs.Key.Named
import TrioScore.Proofs.NoteLength.Nearest

/-!
# Regular notes

A note is regular when its pitches are in range and stay apart as data bytes, its velocity is one
that is heard, and its length is a number of sixteenths of a beat, at most 24 beats. A measure whose
motif has its degrees in reach is made of regular notes.
-/

namespace TrioScore
open Binary64

structure Note.Regular (note : Note) : Prop where
  pitches_ne_nil : note.pitches ≠ []
  pitches_mem : ∀ pitch ∈ note.pitches, 36 ≤ pitch ∧ pitch ≤ 142
  pitches_nodup : (note.pitches.map (limit 0 127)).Nodup
  velocity_mem : 1 ≤ note.velocity ∧ note.velocity ≤ 127
  beats : ∃ k : ℕ, 1 ≤ k ∧ k ≤ 384 ∧ note.beats = ofRat (k / 16)

theorem NoteLength.exists_beats (length : NoteLength) :
    ∃ k : ℕ, 1 ≤ k ∧ k ≤ 384 ∧ length.beats = ofRat (k / 16) := by
  have hpos := length.sixteenths_pos
  have hle := length.sixteenths_le
  refine ⟨4 * length.sixteenths, by omega, by omega, ?_⟩
  rw [length.beats_eq, NoteLength.quarters]
  congr 1
  push_cast
  ring

theorem Measure.single_regular {pitch velocity : ℤ} (hp : 36 ≤ pitch ∧ pitch ≤ 142)
    (hv : 1 ≤ velocity ∧ velocity ≤ 127) (length : NoteLength) :
    (single pitch length.beats velocity).Regular where
  pitches_ne_nil := List.cons_ne_nil _ _
  pitches_mem := by simpa [single] using hp
  pitches_nodup := by simp [single]
  velocity_mem := hv
  beats := length.exists_beats

namespace Dynamics

theorem velocity_mem (mark : Text) : velocity mark ∈ [40, 60, 75, 90, 105, 120] := by
  have hmap : table.map (·.2) = [40, 60, 75, 90, 105, 120] := rfl
  unfold velocity velocity?
  cases h : table.find? fun entry => Text.ofString entry.1 = mark with
  | none => decide
  | some entry =>
    rw [← hmap]
    exact List.mem_map_of_mem (List.mem_of_find?_eq_some h)

theorem scaleVelocity_mem (mark : Text) (share : ℚ)
    (h : share ∈ [mkRat 45 100, mkRat 55 100, mkRat 62 100, mkRat 72 100]) :
    1 ≤ Measure.scaleVelocity (velocity mark) share ∧
      Measure.scaleVelocity (velocity mark) share ≤ 127 := by
  have hall : ∀ v ∈ [40, 60, 75, 90, 105, 120],
      ∀ share ∈ [mkRat 45 100, mkRat 55 100, mkRat 62 100, mkRat 72 100],
        1 ≤ Measure.scaleVelocity v share ∧ Measure.scaleVelocity v share ≤ 127 := by
    decide +kernel
  exact hall _ (velocity_mem mark) share h

theorem velocity_bounds (mark : Text) : 1 ≤ velocity mark ∧ velocity mark ≤ 127 := by
  have hall : ∀ v ∈ [40, 60, 75, 90, 105, 120], (1 : ℤ) ≤ v ∧ v ≤ 127 := by decide
  exact hall _ (velocity_mem mark)

end Dynamics

structure Parts.Regular (notes : Parts) : Prop where
  melody : ∀ note ∈ notes.melody, note.Regular
  harmony : ∀ note ∈ notes.harmony, note.Regular
  bass : ∀ note ∈ notes.bass, note.Regular

namespace Measure

theorem motifNotes_regular (name : Text) (pulses : ℤ) {motif : Motif}
    (hd : ∀ d ∈ motif.degrees, -20 ≤ d ∧ d ≤ 29) (mark : Text) :
    ∃ notes, motifNotes (Key.named name) pulses motif (Dynamics.velocity mark) = .ok notes ∧
      ∀ note ∈ notes, note.Regular := by
  obtain ⟨placed, hplaced, -, hregular⟩ := exists_mapM_eq_ok
    (f := fun note : ℤ × NoteLength => do
      return single (← (Key.named name).degreePitch note.1) note.2.beats (Dynamics.velocity mark))
    (P := Note.Regular)
    (l := motif.degrees.zip (fitLengths (4 * pulses) (shares pulses motif)).1)
    fun note hnote => by
      obtain ⟨pitch, hpitch, hp⟩ := Key.degreePitch_named name (hd _ (List.of_mem_zip hnote).1)
      refine ⟨single pitch note.2.beats (Dynamics.velocity mark), ?_, ?_⟩
      · rw [hpitch]
        rfl
      · exact single_regular hp (Dynamics.velocity_bounds mark) note.2
  unfold motifNotes
  refine ⟨_, congrArg (· >>= _) hplaced, ?_⟩
  intro note hnote
  rcases List.mem_append.mp hnote with hnote | hnote
  · exact hregular note hnote
  · obtain ⟨length, -, rfl⟩ := List.mem_map.mp hnote
    exact single_regular (Key.sustainPitch_named name)
      (Dynamics.scaleVelocity_mem mark _ (by simp)) length

theorem pulseNotes_regular (name : Text) (pulses : ℤ) (mark : Text) :
    ∀ note ∈ pulseNotes (Key.named name) pulses (Dynamics.velocity mark), note.Regular := by
  intro note hnote
  rw [List.eq_of_mem_replicate hnote]
  exact single_regular (Key.sustainPitch_named name) (Dynamics.scaleVelocity_mem mark _ (by simp)) _

theorem melodyNotes_regular (name : Text) (pulses : ℤ) {motif : Option Motif}
    (hd : ∀ m ∈ motif, ∀ d ∈ m.degrees, -20 ≤ d ∧ d ≤ 29) (mark : Text) :
    ∃ notes, melodyNotes (Key.named name) pulses motif (Dynamics.velocity mark) = .ok notes ∧
      ∀ note ∈ notes, note.Regular := by
  cases motif with
  | none => exact ⟨_, rfl, pulseNotes_regular name pulses mark⟩
  | some motif =>
    dsimp only [melodyNotes]
    split_ifs
    · exact ⟨_, rfl, pulseNotes_regular name pulses mark⟩
    · exact motifNotes_regular name pulses (hd motif rfl) mark

theorem harmonyNotes_regular (name symbol : Text) (pulses : ℤ) (mark : Text) :
    ∀ note ∈ harmonyNotes ((Chord.intervals symbol).map (Chord.pitch (Key.named name)
      harmonyRegister)) pulses (scaleVelocity (Dynamics.velocity mark) (mkRat 62 100)),
        note.Regular := by
  intro note hnote
  rw [List.eq_of_mem_replicate hnote]
  obtain ⟨hnodup, hmem⟩ := Chord.map_pitch_named name symbol _ (.inr rfl)
  exact ⟨mt List.map_eq_nil_iff.mp (Chord.intervals_ne_nil symbol), hmem, hnodup,
    Dynamics.scaleVelocity_mem mark _ (by simp), NoteLength.quarter.exists_beats⟩

theorem bassNotes_regular {root : ℤ} (hr : 36 ≤ root ∧ root ≤ 142) (pulses : ℤ) (mark : Text) :
    ∀ note ∈ bassNotes root pulses (scaleVelocity (Dynamics.velocity mark) (mkRat 72 100)),
      note.Regular := by
  intro note hnote
  have hv := Dynamics.scaleVelocity_mem mark (mkRat 72 100) (by simp)
  unfold bassNotes at hnote
  split_ifs at hnote
  · rw [List.eq_of_mem_replicate hnote]
    exact single_regular hr hv .half
  · rw [List.eq_of_mem_replicate hnote]
    exact single_regular hr hv .quarter

/-- A measure of a section whose degrees are in reach is made of regular notes. -/
theorem parts_regular (name : Text) (pulses : ℤ) {s : Section}
    (hd : ∀ m ∈ s.motifs, ∀ d ∈ m.degrees, -20 ≤ d ∧ d ≤ 29) (measure : ℤ) :
    ∃ notes, parts (Key.named name) pulses s measure = .ok notes ∧ notes.Regular := by
  have hmotif : ∀ m ∈ motif? s measure, ∀ d ∈ m.degrees, -20 ≤ d ∧ d ≤ 29 :=
    fun m hm => hd m (List.mem_of_getElem? hm)
  obtain ⟨melody, hmelody, hregular⟩ := melodyNotes_regular name pulses hmotif s.dynamics
  have hk := Key.isEmpty_scale_named name
  obtain ⟨-, hlow⟩ := Chord.map_pitch_named name (chordSymbol s measure) bassRegister (.inl rfl)
  obtain ⟨interval, rest, hstack⟩ :=
    List.exists_cons_of_ne_nil (Chord.intervals_ne_nil (chordSymbol s measure))
  unfold parts
  simp only [Chord.pitches_eq_ok hk, hmelody]
  refine ⟨_, rfl, hregular, harmonyNotes_regular name _ pulses s.dynamics, ?_⟩
  refine bassNotes_regular ?_ pulses s.dynamics
  rw [hstack] at hlow ⊢
  exact hlow _ (List.mem_cons_self ..)

end Measure

namespace Parts

def append (a b : Parts) : Parts :=
  ⟨a.melody ++ b.melody, a.harmony ++ b.harmony, a.bass ++ b.bass⟩

theorem Regular.append {a b : Parts} (ha : a.Regular) (hb : b.Regular) : (a.append b).Regular where
  melody := List.forall_mem_append.mpr ⟨ha.melody, hb.melody⟩
  harmony := List.forall_mem_append.mpr ⟨ha.harmony, hb.harmony⟩
  bass := List.forall_mem_append.mpr ⟨ha.bass, hb.bass⟩

end Parts

end TrioScore
