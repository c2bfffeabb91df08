import TrioScore.Proofs.Binary64.Within
import TrioScore.Score.Basic

/-!
# Playable tracks

A track is playable within a limit when its cursor and all its events lie within it and the pitches
and velocities are integers that binary64 holds. A track that takes notes stays playable, within a
limit that grows by the lengths of the notes.
-/

namespace TrioScore

/-- An integer that binary64 holds. -/
def Number.IsSmall (n : ℤ) : Prop := |n| ≤ 2 * octaveSize

structure Note.Playable (limit : ℕ) (note : Note) : Prop where
  pitches : ∀ pitch ∈ note.pitches, Number.IsSmall pitch
  beats : note.beats.Within limit
  velocity : Number.IsSmall note.velocity

structure Event.Playable (limit : ℕ) (e : Event) : Prop where
  pitches : ∀ pitch ∈ e.pitches, Number.IsSmall pitch
  start : e.start.Within limit
  duration : e.duration.Within limit
  velocity : Number.IsSmall e.velocity

structure Track.Playable (limit : ℕ) (track : Track) : Prop where
  events : ∀ e ∈ track.events, e.Playable limit
  cursor : track.cursor.Within limit

theorem Event.Playable.mono {a b : ℕ} {e : Event} (h : e.Playable a) (hab : a ≤ b) :
    e.Playable b where
  pitches := h.pitches
  start := h.start.mono hab
  duration := h.duration.mono hab
  velocity := h.velocity

theorem Track.Playable.mono {a b : ℕ} {track : Track} (h : track.Playable a) (hab : a ≤ b) :
    track.Playable b where
  events := fun e he => (h.events e he).mono hab
  cursor := h.cursor.mono hab

namespace Track

theorem playable_empty (name : Text) (channel : ℤ) : (empty name channel).Playable 0 where
  events := fun e he => by simp [empty] at he
  cursor := Binary64.within_ofRat (Binary64.isExact_natCast (Nat.zero_le _)) le_rfl (by norm_num)

variable {a b : ℕ} {track : Track}

theorem Playable.append {note : Note} (h : track.Playable a) (hn : note.Playable b)
    (hl : a + b ≤ 2 * octaveSize) : (track.append note).Playable (a + b) where
  events := by
    intro e he
    rcases Array.mem_push.mp he with he | rfl
    · exact (h.events e he).mono (Nat.le_add_right a b)
    · exact {
        pitches := hn.pitches
        start := h.cursor.mono (Nat.le_add_right a b)
        duration := hn.beats.mono (Nat.le_add_left b a)
        velocity := hn.velocity }
  cursor := h.cursor.add hn.beats (Binary64.isExact_natCast hl)

theorem Playable.appendAll {notes : List Note} (h : track.Playable a)
    (hn : ∀ note ∈ notes, note.Playable b) (hl : a + b * notes.length ≤ 2 * octaveSize) :
    (track.appendAll notes).Playable (a + b * notes.length) := by
  induction notes generalizing track a with
  | nil => exact h
  | cons note notes ih =>
    obtain ⟨hnote, hnotes⟩ := List.forall_mem_cons.mp hn
    have hlength : a + b * (note :: notes).length = a + b + b * notes.length := by
      rw [List.length_cons]
      ring
    rw [hlength] at hl ⊢
    rw [appendAll_cons]
    exact ih (h.append hnote (by omega)) hnotes hl

/-- How many pitches the events of a track have. -/
def pitchCount (track : Track) : ℕ := (track.events.toList.map fun e => e.pitches.length).sum

theorem pitchCount_appendAll (track : Track) (notes : List Note) :
    (track.appendAll notes).pitchCount =
      track.pitchCount + (notes.map fun note => note.pitches.length).sum := by
  induction notes generalizing track with
  | nil => simp
  | cons note notes ih =>
    have happend : (track.append note).pitchCount = track.pitchCount + note.pitches.length := by
      simp [pitchCount, append, place]
    rw [appendAll_cons, ih, happend, List.map_cons, List.sum_cons, Nat.add_assoc]

theorem name_appendAll (track : Track) (notes : List Note) :
    (track.appendAll notes).name = track.name ∧
      (track.appendAll notes).channel = track.channel := by
  induction notes generalizing track with
  | nil => exact ⟨rfl, rfl⟩
  | cons note notes ih =>
    rw [appendAll_cons]
    exact ih (track.append note)

end Track
end TrioScore
