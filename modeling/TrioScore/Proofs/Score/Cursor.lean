import TrioScore.Proofs.Binary64.Exact
import TrioScore.Score.Basic

/-!
# Cursors

The cursor of a track is the running sum of the lengths on it. Steps of one beat, or of two, are
summed without error up to 2^53 steps; there the sum stays where it is.
-/

namespace TrioScore

namespace Binary64

/-- The sum of `n` steps of some beats, as far as a running sum gets. -/
def steps (beats n : ℕ) : Binary64 := ofRat (beats * min n (2 * octaveSize) : ℕ)

theorem steps_zero (beats : ℕ) : steps beats 0 = ofRat 0 := by simp [steps]

theorem isExact_steps {beats : ℕ} (hb : beats = 1 ∨ beats = 2) {n : ℕ} (hn : n ≤ 2 * octaveSize) :
    IsExact ((beats * n : ℕ) : ℚ) := by
  have hm : |(n : ℤ)| ≤ 2 * octaveSize := by
    rw [abs_of_nonneg (by omega)]
    exact_mod_cast hn
  rcases hb with rfl | rfl
  · simpa using isExact_int hm
  · simpa [mul_comm] using isExact_dyadic (e := 1) hm (by norm_num) (by norm_num)

theorem steps_inj {a b : ℕ} (ha : a = 1 ∨ a = 2) (hb : b = 1 ∨ b = 2) (m n : ℕ) :
    steps a m = steps b n ↔ a * min m (2 * octaveSize) = b * min n (2 * octaveSize) := by
  unfold steps
  rw [ofRat_inj (isExact_steps ha (min_le_right _ _)) (isExact_steps hb (min_le_right _ _))]
  exact Nat.cast_inj

theorem steps_add {beats : ℕ} (hb : beats = 1 ∨ beats = 2) (n : ℕ) :
    steps beats n + ofRat beats = steps beats (n + 1) := by
  rcases lt_or_ge n (2 * octaveSize) with hn | hn
  · -- the sum is still on the grid
    have hone : IsExact ((beats * 1 : ℕ) : ℚ) := isExact_steps hb (by decide)
    rw [mul_one] at hone
    rw [steps, steps, min_eq_left hn.le, min_eq_left hn,
      ofRat_add_ofRat (isExact_steps hb hn.le) hone]
    congr 1
    push_cast
    ring
  · -- the step is half the spacing, and the tie goes back
    have hstay : ofRat (beats * (2 * octaveSize) : ℕ) + ofRat beats =
        ofRat (beats * (2 * octaveSize) : ℕ) := by
      rcases hb with rfl | rfl <;> decide +kernel
    rw [steps, steps, min_eq_right hn, min_eq_right (hn.trans n.le_succ), hstay]

end Binary64

namespace Track

theorem cursor_append (track : Track) (note : Note) :
    (track.append note).cursor = track.cursor + note.beats := rfl

theorem cursor_appendAll (track : Track) (notes : List Note) :
    (track.appendAll notes).cursor = (notes.map Note.beats).foldl (· + ·) track.cursor := by
  induction notes generalizing track with
  | nil => rfl
  | cons note notes ih => rw [appendAll_cons, ih, cursor_append, List.map_cons, List.foldl_cons]

/-- Notes of one length move a cursor by as many steps. -/
theorem cursor_appendAll_replicate {beats : ℕ} (hb : beats = 1 ∨ beats = 2) {track : Track}
    {note : Note} (hn : note.beats = .ofRat beats) {m : ℕ}
    (ht : track.cursor = Binary64.steps beats m) (k : ℕ) :
    (track.appendAll (List.replicate k note)).cursor = Binary64.steps beats (m + k) := by
  induction k generalizing track m with
  | zero => exact ht
  | succ k ih =>
    have hnext : (track.append note).cursor = Binary64.steps beats (m + 1) := by
      rw [cursor_append, ht, hn, Binary64.steps_add hb]
    rw [List.replicate_succ, appendAll_cons, ih hnext, Nat.add_right_comm, Nat.add_assoc]

theorem getElem?_events_appendAll (track : Track) (notes : List Note) {i : ℕ}
    (hi : i < track.events.size) : (track.appendAll notes).events[i]? = track.events[i]? := by
  induction notes generalizing track with
  | nil => rfl
  | cons note notes ih =>
    have hlt : i < (track.append note).events.size := by
      rw [size_events_append]
      exact Nat.lt_succ_of_lt hi
    rw [appendAll_cons, ih _ hlt, append, Array.getElem?_push_lt hi]
    exact (Array.getElem?_eq_getElem hi).symm

theorem getElem?_events_appendAll_cons (track : Track) (note : Note) (notes : List Note) :
    (track.appendAll (note :: notes)).events[track.events.size]? = some (track.place note) := by
  have hlt : track.events.size < (track.append note).events.size := by
    rw [size_events_append]
    exact Nat.lt_succ_self _
  rw [appendAll_cons, getElem?_events_appendAll _ _ hlt, append, Array.getElem?_push_size]

/-- The first of the notes that a track takes starts at its cursor. -/
theorem exists_event_appendAll (track : Track) {notes : List Note} (h : notes ≠ []) :
    ∃ e : Event, (track.appendAll notes).events[track.events.size]? = some e ∧
      e.start = track.cursor := by
  obtain ⟨note, rest, rfl⟩ := List.exists_cons_of_ne_nil h
  exact ⟨track.place note, track.getElem?_events_appendAll_cons note rest, rfl⟩

end Track
end TrioScore
