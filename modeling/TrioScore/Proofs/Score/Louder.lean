import TrioScore.Proofs.Binary64.Monotone
import TrioScore.Proofs.Score.Regular
import TrioScore.Score.Rendering

/-!
# Louder sections

The dynamics of a section go into the velocities of its notes and nowhere else. So sections that
differ in their dynamics only are played with the same pitches at the same times, and each note of
the louder one is at least as loud; a fault in one of them is a fault in the other.
-/

namespace TrioScore

structure Note.NoSofter (quiet loud : Note) : Prop where
  pitches : quiet.pitches = loud.pitches
  beats : quiet.beats = loud.beats
  velocity : quiet.velocity ≤ loud.velocity

structure Event.NoSofter (quiet loud : Event) : Prop where
  pitches : quiet.pitches = loud.pitches
  start : quiet.start = loud.start
  duration : quiet.duration = loud.duration
  velocity : quiet.velocity ≤ loud.velocity

structure Track.NoSofter (quiet loud : Track) : Prop where
  name : quiet.name = loud.name
  channel : quiet.channel = loud.channel
  events : List.Forall₂ Event.NoSofter quiet.events.toList loud.events.toList
  cursor : quiet.cursor = loud.cursor

structure Parts.NoSofter (quiet loud : Parts) : Prop where
  melody : List.Forall₂ Note.NoSofter quiet.melody loud.melody
  harmony : List.Forall₂ Note.NoSofter quiet.harmony loud.harmony
  bass : List.Forall₂ Note.NoSofter quiet.bass loud.bass

/-- Scores of one meter with the same notes; the tempo is left open. -/
structure Score.NoSofter (quiet loud : Score) : Prop where
  meter : quiet.meter = loud.meter
  melody : quiet.melody.NoSofter loud.melody
  harmony : quiet.harmony.NoSofter loud.harmony
  bass : quiet.bass.NoSofter loud.bass

/-- Sections that differ in their dynamics only. -/
structure Section.NoSofter (quiet loud : Section) : Prop where
  same : loud = { quiet with dynamics := loud.dynamics }
  velocity : Dynamics.velocity quiet.dynamics ≤ Dynamics.velocity loud.dynamics

section Tracks
variable {quiet loud : Track}

/-- One note more leaves the cursors together. -/
theorem Track.NoSofter.append (h : quiet.NoSofter loud) {note louder : Note}
    (hnote : note.NoSofter louder) : (quiet.append note).NoSofter (loud.append louder) where
  name := h.name
  channel := h.channel
  events := by
    simp only [Track.append, Array.toList_push]
    apply List.rel_append h.events
    exact .cons ⟨hnote.pitches, h.cursor, hnote.beats, hnote.velocity⟩ .nil
  cursor := by
    simp only [Track.append, h.cursor, hnote.beats]

theorem Track.NoSofter.appendAll (h : quiet.NoSofter loud) {notes louder : List Note}
    (hnotes : List.Forall₂ Note.NoSofter notes louder) :
    (quiet.appendAll notes).NoSofter (loud.appendAll louder) := by
  induction hnotes generalizing quiet loud with
  | nil => exact h
  | cons hnote _ ih =>
    rw [Track.appendAll_cons, Track.appendAll_cons]
    exact ih (h.append hnote)

theorem Track.noSofter_empty (name : Text) (channel : ℤ) :
    (empty name channel).NoSofter (empty name channel) :=
  ⟨rfl, rfl, .nil, rfl⟩

end Tracks

theorem Score.NoSofter.appendParts {quiet loud : Score} (h : quiet.NoSofter loud)
    {notes louder : Parts} (hnotes : notes.NoSofter louder) :
    (quiet.appendParts notes).NoSofter (loud.appendParts louder) where
  meter := h.meter
  melody := h.melody.appendAll hnotes.melody
  harmony := h.harmony.appendAll hnotes.harmony
  bass := h.bass.appendAll hnotes.bass

theorem Score.noSofter_empty (tempo faster : ℤ) (meter : Meter) :
    (empty tempo meter).NoSofter (empty faster meter) :=
  ⟨rfl, Track.noSofter_empty _ _, Track.noSofter_empty _ _, Track.noSofter_empty _ _⟩

namespace Measure

theorem scaleVelocity_mono {percent : ℤ} (h₀ : 0 ≤ percent) (h₁ : percent ≤ 100) {quiet loud : ℤ}
    (hquiet : 0 ≤ quiet) (h : quiet ≤ loud) (hloud : loud ≤ 127) :
    scaleVelocity quiet (mkRat percent 100) ≤ scaleVelocity loud (mkRat percent 100) := by
  have hsize : Binary64.IsExact (127 : ℕ) := Binary64.isExact_natCast (by decide)
  have hproduct : Binary64.IsExact (127 * 1 : ℕ) := hsize
  have hone : Binary64.IsExact (1 : ℕ) := Binary64.isExact_natCast (by decide)
  have hshare : (Binary64.ofRat (mkRat percent 100)).Within 1 := by
    apply Binary64.within_ofRat hone
    · exact Rat.mkRat_nonneg h₀ 100
    · rw [Rat.mkRat_eq_div, div_le_iff₀ (by norm_num)]
      exact_mod_cast h₁
  have hwithin : ∀ v : ℤ, 0 ≤ v → v ≤ 127 → (Binary64.ofRat v).Within 127 := by
    intro v hv hv'
    exact Binary64.within_ofRat hsize (by exact_mod_cast hv) (by exact_mod_cast hv')
  have hq := hwithin quiet hquiet (h.trans hloud)
  have hl := hwithin loud (hquiet.trans h) hloud
  apply Rat.floor_monotone
  apply Binary64.toRat_mul_mono hq hshare hl hshare
  · exact (hq.mul hshare hproduct).isFinite
  · exact (hl.mul hshare hproduct).isFinite
  · exact Binary64.toRat_ofRat_mono hq.isFinite hl.isFinite (by exact_mod_cast h)
  · exact le_rfl

theorem forall₂_replicate {α β : Type} {R : α → β → Prop} {a : α} {b : β} (h : R a b) (n : ℕ) :
    List.Forall₂ R (List.replicate n a) (List.replicate n b) := by
  induction n with
  | zero => exact .nil
  | succ n ih => exact .cons h ih

section Louder
variable {quiet loud : ℤ} (hquiet : 0 ≤ quiet) (h : quiet ≤ loud) (hloud : loud ≤ 127)
include h

theorem bassNotes_noSofter (root pulses : ℤ) :
    List.Forall₂ Note.NoSofter (bassNotes root pulses quiet) (bassNotes root pulses loud) := by
  rw [bassNotes, bassNotes]
  split_ifs
  · exact forall₂_replicate ⟨rfl, rfl, h⟩ 2
  · exact forall₂_replicate ⟨rfl, rfl, h⟩ _

theorem harmonyNotes_noSofter (chord : List ℤ) (pulses : ℤ) :
    List.Forall₂ Note.NoSofter (harmonyNotes chord pulses quiet)
      (harmonyNotes chord pulses loud) :=
  forall₂_replicate ⟨rfl, rfl, h⟩ _

include hquiet hloud

theorem pulseNotes_noSofter (key : Key) (pulses : ℤ) :
    List.Forall₂ Note.NoSofter (pulseNotes key pulses quiet) (pulseNotes key pulses loud) := by
  apply forall₂_replicate
  exact ⟨rfl, rfl, scaleVelocity_mono (by decide) (by decide) hquiet h hloud⟩

/-- The lengths of a motif's notes come from its weights, so only their velocities differ. -/
theorem motifNotes_sameFault (key : Key) (pulses : ℤ) (motif : Motif) :
    SameFault (List.Forall₂ Note.NoSofter) (motifNotes key pulses motif quiet)
      (motifNotes key pulses motif loud) := by
  have hsustained : ∀ lengths : List NoteLength, List.Forall₂ Note.NoSofter
      (lengths.map fun length => single (sustainPitch key) length.beats
        (scaleVelocity quiet (mkRat 45 100)))
      (lengths.map fun length => single (sustainPitch key) length.beats
        (scaleVelocity loud (mkRat 45 100))) := by
    intro lengths
    rw [List.forall₂_map_left_iff, List.forall₂_map_right_iff]
    apply List.forall₂_same.mpr
    intro length _
    exact ⟨rfl, rfl, scaleVelocity_mono (by decide) (by decide) hquiet h hloud⟩
  rw [motifNotes, motifNotes]
  apply (SameFault.mapM (List.forall₂_same.mpr fun _ _ => rfl) _).bind
  · intro placed louder hplaced
    exact .ok (List.rel_append hplaced (hsustained _))
  · rintro note _ rfl
    apply (SameFault.refl (fun _ => rfl) (key.degreePitch note.1)).bind
    rintro pitch _ rfl
    exact .ok ⟨rfl, rfl, h⟩

theorem melodyNotes_sameFault (key : Key) (pulses : ℤ) (motif : Option Motif) :
    SameFault (List.Forall₂ Note.NoSofter) (melodyNotes key pulses motif quiet)
      (melodyNotes key pulses motif loud) := by
  have hpulses := pulseNotes_noSofter hquiet h hloud key pulses
  cases motif with
  | none => exact .ok hpulses
  | some motif =>
    rw [melodyNotes, melodyNotes]
    split_ifs
    · exact .ok hpulses
    · exact motifNotes_sameFault hquiet h hloud key pulses motif

end Louder

/-- What a louder section puts on the tracks in a measure. -/
theorem parts_sameFault {quiet loud : Section} (h : quiet.NoSofter loud) (key : Key)
    (pulses measure : ℤ) : SameFault Parts.NoSofter (parts key pulses quiet measure)
      (parts key pulses loud measure) := by
  have hpos := (Dynamics.velocity_bounds quiet.dynamics).1
  have hquiet : 0 ≤ Dynamics.velocity quiet.dynamics := by omega
  have hlimit := (Dynamics.velocity_bounds loud.dynamics).2
  have hmotif : motif? quiet measure = motif? loud measure := by
    rw [h.same]
    rfl
  have hsymbol : chordSymbol quiet measure = chordSymbol loud measure := by
    rw [h.same]
    rfl
  rw [parts, parts, hmotif, hsymbol]
  apply (SameFault.refl (fun _ => rfl) (Chord.pitches _ key harmonyRegister)).bind
  rintro chord _ rfl
  apply (SameFault.refl (fun _ => rfl) (Chord.pitches _ key bassRegister)).bind
  rintro low _ rfl
  apply (melodyNotes_sameFault hquiet h.velocity hlimit key pulses _).bind
  intro melody louder hmelody
  apply SameFault.ok
  constructor
  · exact hmelody
  · apply harmonyNotes_noSofter
    exact scaleVelocity_mono (by decide) (by decide) hquiet h.velocity hlimit
  · apply bassNotes_noSofter
    exact scaleVelocity_mono (by decide) (by decide) hquiet h.velocity hlimit

end Measure

namespace Score

theorem appendSection_sameFault {quiet loud : Section} (h : quiet.NoSofter loud) (key : Key)
    (pulses : ℤ) {before after : Score} (hscore : before.NoSofter after) :
    SameFault NoSofter (appendSection key pulses before quiet)
      (appendSection key pulses after loud) := by
  have hindices : quiet.measureIndices = loud.measureIndices := by
    rw [h.same]
    rfl
  rw [appendSection, appendSection, ← hindices]
  apply SameFault.foldlM (List.forall₂_same.mpr fun _ _ => rfl) _ hscore
  intro score louder measure _ hscores heq
  rw [← heq]
  apply (Measure.parts_sameFault h key pulses measure).map
  intro notes more hnotes
  exact hscores.appendParts hnotes

/-- Pieces in one key and meter whose sections differ in their dynamics only. -/
theorem ofPiece_sameFault {quiet loud : Piece} (hkey : quiet.key = loud.key)
    (hmeter : quiet.timeSignature = loud.timeSignature)
    (h : List.Forall₂ Section.NoSofter quiet.sections loud.sections) :
    SameFault NoSofter (ofPiece quiet) (ofPiece loud) := by
  rw [ofPiece, ofPiece, hkey, hmeter]
  apply (SameFault.refl (fun _ => rfl) (Meter.parse loud.timeSignature)).bind
  rintro meter _ rfl
  apply (SameFault.refl (fun _ => rfl) (Meter.pulses _)).bind
  rintro pulses _ rfl
  apply SameFault.foldlM h _ (noSofter_empty _ _ meter)
  intro before after a b hscore hsection
  exact appendSection_sameFault hsection _ pulses hscore

end Score
end TrioScore
