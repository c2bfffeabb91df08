import TrioScore.Proofs.Score.Rendered

/-!
# Timelines

The events of a regular track lie one right after the other, at exact places in sixteenths of a
beat, as long as binary64 holds the places.
-/

namespace TrioScore
open Binary64

theorem Binary64.isExact_sixteenths {n : ℕ} (h : n ≤ 2 * octaveSize) :
    IsExact ((n : ℚ) / 16) := by
  have hn : |(n : ℤ)| ≤ 2 * octaveSize := by
    rw [abs_of_nonneg (by omega)]
    exact_mod_cast h
  have h16 : (2 : ℚ) ^ 4 = 16 := by norm_num
  exact h16 ▸ isExact_div_two_pow hn (by decide)

/-- A regular event from one time to another, in sixteenths of a beat. -/
structure Event.Lies (time length : ℕ) (e : Event) : Prop where
  start : e.start = ofRat (time / 16)
  duration : e.duration = ofRat (length / 16)
  length_pos : 1 ≤ length
  length_le : length ≤ 384
  regular : Note.Regular ⟨e.pitches, e.duration, e.velocity⟩

/-- Events from a time on, each where the one before it ends. -/
inductive Timeline : ℕ → List Event → Prop
  | nil (time : ℕ) : Timeline time []
  | cons {time length : ℕ} {e : Event} {events : List Event} (first : e.Lies time length)
      (rest : Timeline (time + length) events) : Timeline time (e :: events)

theorem Timeline.exists_lies {time : ℕ} {events : List Event} (h : Timeline time events) :
    ∀ e ∈ events, ∃ t length, e.Lies t length ∧ time ≤ t ∧
      t + length ≤ time + 384 * events.length := by
  induction h with
  | nil => simp
  | cons first rest ih =>
    have hle := first.length_le
    rw [List.length_cons, List.forall_mem_cons]
    refine ⟨⟨_, _, first, le_rfl, by omega⟩, fun e he => ?_⟩
    obtain ⟨t, length, hlies, htime, hbound⟩ := ih e he
    exact ⟨t, length, hlies, by omega, by omega⟩

namespace Track

/-- On the grid of sixteenths of a beat a note moves the cursor by exactly its length. -/
theorem cursor_append_sixteenths {track : Track} {note : Note} {time k : ℕ}
    (ht : track.cursor = ofRat (time / 16)) (hk : note.beats = ofRat (k / 16))
    (hl : time + k ≤ 2 * octaveSize) :
    (track.append note).cursor = ofRat ((time + k : ℕ) / 16) := by
  rw [cursor_append, ht, hk, ofRat_add_ofRat (isExact_sixteenths (by omega))
    (isExact_sixteenths (by omega)), Nat.cast_add, add_div]

theorem exists_timeline_appendAll {notes : List Note} (hnotes : ∀ note ∈ notes, note.Regular)
    {track : Track} {time : ℕ} (ht : track.cursor = ofRat (time / 16))
    (hl : time + 384 * notes.length ≤ 2 * octaveSize) : ∃ events,
      (track.appendAll notes).events.toList = track.events.toList ++ events ∧
        Timeline time events := by
  induction notes generalizing track time with
  | nil => exact ⟨[], by simp, .nil time⟩
  | cons note notes ih =>
    obtain ⟨hnote, hnotes⟩ := List.forall_mem_cons.mp hnotes
    obtain ⟨k, h₁, hk, hbeats⟩ := hnote.beats
    rw [List.length_cons] at hl
    have hcursor := cursor_append_sixteenths ht hbeats (by omega)
    obtain ⟨events, hevents, htimeline⟩ := ih hnotes hcursor (by omega)
    refine ⟨track.place note :: events, ?_, .cons ⟨ht, hbeats, h₁, hk, hnote⟩ htimeline⟩
    rw [appendAll_cons, hevents, append, Array.toList_push, List.append_assoc]
    rfl

/-- The events of a regular track that is not too long for binary64. -/
theorem Regular.timeline {track : Track} (h : track.Regular)
    (hsize : 384 * track.events.size ≤ 2 * octaveSize) : Timeline 0 track.events.toList := by
  obtain ⟨notes, hnotes, htrack⟩ := h.notes
  have hlength : track.events.size = notes.length := by
    rw [htrack, size_events_appendAll, empty, List.size_toArray, List.length_nil, Nat.zero_add]
  have hstart : (empty track.name track.channel).cursor = ofRat ((0 : ℕ) / 16) := by
    rw [Nat.cast_zero, zero_div]
    rfl
  obtain ⟨events, hevents, htimeline⟩ :=
    exists_timeline_appendAll hnotes hstart (by rwa [zero_add, ← hlength])
  rw [htrack, hevents]
  exact htimeline

end Track
end TrioScore
