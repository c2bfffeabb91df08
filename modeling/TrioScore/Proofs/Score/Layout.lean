import TrioScore.Proofs.Score.Melody
import TrioScore.Proofs.Score.Rendered

/-!
# Layout

A track puts its notes end to end. Notes of the written lengths have their places on the grid of
quarters of a beat, where a cursor moves without error up to 2^53 quarters: there the events of a
track are the layout of its notes at exact times.

Every measure is made of such notes. So is a list of measures, of the same notes on whatever score,
and the harmony tells how long it is: the bass is not longer, and the melody not longer than twice
that.
-/

namespace TrioScore
open Binary64

theorem Binary64.isExact_natQuarters {n : ℕ} (h : n ≤ 2 * octaveSize) :
    IsExact ((n : ℚ) / 4) := by
  have hn : |(n : ℤ)| ≤ 2 * octaveSize := by
    rw [abs_of_nonneg (by omega)]
    exact_mod_cast h
  have hexact := isExact_quarters hn
  rwa [Int.cast_natCast] at hexact

/-- A sum on the grid of quarters of a beat is not rounded. -/
theorem Binary64.ofRat_quarters_add {m n : ℕ} (h : m + n ≤ 2 * octaveSize) :
    ofRat (m / 4) + ofRat (n / 4) = ofRat ((m + n : ℕ) / 4) := by
  rw [ofRat_add_ofRat (isExact_natQuarters (by omega)) (isExact_natQuarters (by omega)),
    Nat.cast_add, add_div]

theorem NoteLength.quarters_add (c : ℕ) (length : NoteLength) :
    (c : ℚ) / 4 + length.beats.toRat = (c + length.sixteenths : ℕ) / 4 := by
  rw [toRat_beats, quarters, Nat.cast_add, add_div]

/-- What is sounded, without the place. -/
def Event.note (e : Event) : Note := ⟨e.pitches, e.duration, e.velocity⟩

/-- Notes of the written lengths, which last so many quarters of a beat together. -/
inductive Lasting : ℕ → List Note → Prop
  | nil : Lasting 0 []
  | cons {k : ℕ} {note : Note} {notes : List Note} {length : NoteLength}
      (beats : note.beats = length.beats) (rest : Lasting k notes) :
      Lasting (length.sixteenths + k) (note :: notes)

namespace Lasting
variable {k l : ℕ} {notes more : List Note}

theorem append (h : Lasting k notes) (hmore : Lasting l more) :
    Lasting (k + l) (notes ++ more) := by
  induction h with
  | nil => rwa [Nat.zero_add]
  | cons beats _ ih =>
    rw [Nat.add_assoc]
    exact ih.cons beats

theorem take (h : Lasting k notes) (i : ℕ) : ∃ j ≤ k, Lasting j (notes.take i) := by
  induction h generalizing i with
  | nil => exact ⟨0, le_rfl, by rw [List.take_nil]; exact .nil⟩
  | cons beats _ ih =>
    cases i with
    | zero => exact ⟨0, Nat.zero_le _, .nil⟩
    | succ i =>
      obtain ⟨j, hj, htake⟩ := ih i
      exact ⟨_, Nat.add_le_add_left hj _, htake.cons beats⟩

theorem of_map_beats {lengths : List NoteLength}
    (h : notes.map Note.beats = lengths.map NoteLength.beats) :
    Lasting (Measure.total lengths) notes := by
  induction notes generalizing lengths with
  | nil =>
    obtain rfl := List.map_eq_nil_iff.mp h.symm
    exact .nil
  | cons note notes ih =>
    obtain ⟨length, lengths, rfl, hlength, hlengths⟩ := List.map_eq_cons_iff.mp h.symm
    rw [Measure.total_cons]
    exact (ih hlengths.symm).cons hlength.symm

theorem replicate {note : Note} (length : NoteLength) (h : note.beats = length.beats) (n : ℕ) :
    Lasting (n * length.sixteenths) (List.replicate n note) := by
  induction n with
  | zero =>
    rw [Nat.zero_mul]
    exact .nil
  | succ n ih =>
    rw [Nat.succ_mul, Nat.add_comm]
    exact ih.cons h

theorem exists_length (h : Lasting k notes) : ∀ note ∈ notes, ∃ length : NoteLength,
    note.beats = length.beats := by
  induction h with
  | nil => simp
  | cons beats _ ih => exact List.forall_mem_cons.mpr ⟨⟨_, beats⟩, ih⟩

theorem sum_beats (h : Lasting k notes) : (notes.map fun note => note.beats.toRat).sum = k / 4 := by
  induction h with
  | nil => simp
  | cons beats _ ih =>
    rw [List.map_cons, List.sum_cons, ih, beats, NoteLength.toRat_beats, NoteLength.quarters]
    push_cast
    ring

end Lasting

/-- Notes end to end from a time on, every one at the exact sum of the lengths before it. -/
def layOut : ℚ → List Note → List Event
  | _, [] => []
  | time, note :: notes =>
    ⟨note.pitches, ofRat time, note.beats, note.velocity⟩ ::
      layOut (time + note.beats.toRat) notes

theorem map_note_layOut (time : ℚ) (notes : List Note) :
    (layOut time notes).map Event.note = notes := by
  induction notes generalizing time with
  | nil => rfl
  | cons note notes ih => exact congrArg (note :: ·) (ih _)

theorem layOut_append (time : ℚ) (notes more : List Note) : layOut time (notes ++ more) =
    layOut time notes ++ layOut (time + (notes.map fun note => note.beats.toRat).sum) more := by
  induction notes generalizing time with
  | nil => simp [layOut]
  | cons note notes ih => simp [layOut, ih, add_assoc]

theorem take_layOut (time : ℚ) (notes : List Note) (i : ℕ) :
    (layOut time notes).take i = layOut time (notes.take i) := by
  induction notes generalizing time i with
  | nil => rw [List.take_nil, layOut, List.take_nil]
  | cons note notes ih =>
    cases i with
    | zero => rfl
    | succ i => exact congrArg (_ :: ·) (ih _ i)

theorem start_layOut {time : ℚ} {notes : List Note} {i : ℕ} {e : Event}
    (h : (layOut time notes)[i]? = some e) :
    e.start = ofRat (time + ((notes.take i).map fun note => note.beats.toRat).sum) := by
  induction notes generalizing time i with
  | nil => cases h
  | cons note notes ih =>
    cases i with
    | zero =>
      cases h
      simp
    | succ i =>
      rw [ih h, List.take_succ_cons, List.map_cons, List.sum_cons, add_assoc]

/-- From 0 on, an event starts on the grid, after what has been played. -/
theorem exists_start_layOut {k : ℕ} {notes : List Note} (h : Lasting k notes) {i : ℕ} {e : Event}
    (he : (layOut 0 notes)[i]? = some e) : ∃ j ≤ k, e.start = ofRat (j / 4) ∧
      ((notes.take i).map fun note => note.beats.toRat).sum = j / 4 := by
  obtain ⟨j, hj, hprior⟩ := h.take i
  refine ⟨j, hj, ?_, hprior.sum_beats⟩
  rw [start_layOut he, hprior.sum_beats, zero_add]

namespace Track

theorem exists_events_appendAll (track : Track) (notes : List Note) : ∃ events,
    (track.appendAll notes).events.toList = track.events.toList ++ events ∧
      events.map Event.note = notes := by
  induction notes generalizing track with
  | nil => exact ⟨[], by simp, rfl⟩
  | cons note notes ih =>
    obtain ⟨events, hevents, hnotes⟩ := ih (track.append note)
    refine ⟨track.place note :: events, ?_, congrArg (note :: ·) hnotes⟩
    rw [appendAll_cons, hevents, append, Array.toList_push, List.append_assoc]
    rfl

variable {track : Track} {c k : ℕ} {notes : List Note}

/-- On the grid of quarters of a beat the events of a track are the layout of its notes. -/
theorem appendAll_quarters (hc : track.cursor = ofRat (c / 4)) (h : Lasting k notes)
    (hl : c + k ≤ 2 * octaveSize) :
    (track.appendAll notes).events.toList = track.events.toList ++ layOut (c / 4) notes ∧
      (track.appendAll notes).cursor = ofRat ((c + k : ℕ) / 4) := by
  induction h generalizing track c with
  | nil => simp [layOut, hc]
  | @cons k note notes length beats _ ih =>
    have hcursor : (track.append note).cursor = ofRat ((c + length.sixteenths : ℕ) / 4) := by
      rw [cursor_append, hc, beats, NoteLength.beats_eq, NoteLength.quarters,
        ofRat_quarters_add (by omega)]
    rw [← Nat.add_assoc] at hl ⊢
    obtain ⟨hevents, hend⟩ := ih hcursor hl
    refine ⟨?_, hend⟩
    rw [appendAll_cons, hevents, append, Array.toList_push, List.append_assoc, layOut, beats,
      NoteLength.quarters_add, place, hc, beats]
    rfl

theorem empty_appendAll_quarters (h : Lasting k notes) (hk : k ≤ 2 * octaveSize) (name : Text)
    (channel : ℤ) : ((empty name channel).appendAll notes).events.toList = layOut 0 notes ∧
      ((empty name channel).appendAll notes).cursor = ofRat (k / 4) := by
  have hzero : (empty name channel).cursor = ofRat ((0 : ℕ) / 4) := by
    rw [Nat.cast_zero, zero_div]
    rfl
  obtain ⟨hevents, hcursor⟩ := appendAll_quarters hzero h (by rwa [Nat.zero_add])
  rw [Nat.cast_zero, zero_div] at hevents
  rw [Nat.zero_add] at hcursor
  exact ⟨hevents, hcursor⟩

end Track

/-- Notes of the written lengths for `n` measures of `p` pulses. A melody runs over by a beat at
most, which doubles a measure of one pulse. -/
structure Parts.Lasting (p n : ℕ) (notes : Parts) : Prop where
  melody : ∃ k ≤ 8 * (n * p), TrioScore.Lasting k notes.melody
  harmony : TrioScore.Lasting (4 * (n * p)) notes.harmony
  bass : ∃ k ≤ 4 * (n * p), TrioScore.Lasting k notes.bass

theorem Parts.Lasting.append {p m n : ℕ} {a b : Parts} (ha : a.Lasting p m) (hb : b.Lasting p n) :
    (a.append b).Lasting p (m + n) := by
  obtain ⟨⟨k, hk, hmelody⟩, hharmony, l, hl, hbass⟩ := ha
  obtain ⟨⟨k', hk', hmelody'⟩, hharmony', l', hl', hbass'⟩ := hb
  have hsum := hharmony.append hharmony'
  rw [← Nat.mul_add, ← Nat.add_mul] at hsum
  refine ⟨⟨_, ?_, hmelody.append hmelody'⟩, hsum, _, ?_, hbass.append hbass'⟩
  · rw [Nat.add_mul]
    omega
  · rw [Nat.add_mul]
    omega

/-- A measure has a chord on every pulse. -/
theorem Measure.parts_lasting {key : Key} (hk : key.scale.isEmpty = false) {p : ℕ} (h₁ : 1 ≤ p)
    (hp : p ≤ 16) (s : Section) (measure : ℤ) :
    ∃ notes, parts key p s measure = .ok notes ∧ notes.Lasting p 1 := by
  obtain ⟨notes, hok, hmelody, ⟨chord, v, hharmony⟩, root, w, hbass⟩ := parts_eq_ok hk p s measure
  obtain ⟨excess, htotal, hexcess, -⟩ := total_melodyLengths hp (motif? s measure)
  refine ⟨notes, hok, ⟨_, by omega, .of_map_beats hmelody⟩, ?_, ?_⟩
  · have hquarters : p * NoteLength.quarter.sixteenths = 4 * (1 * p) := by
      rw [NoteLength.sixteenths, Nat.one_mul, Nat.mul_comm]
    rw [hharmony, harmonyNotes, Int.toNat_natCast, ← hquarters]
    exact .replicate .quarter rfl p
  · rw [hbass, bassNotes, Int.toNat_natCast]
    split_ifs with h₄
    · refine ⟨_, ?_, .replicate .half rfl 2⟩
      rw [NoteLength.sixteenths]
      omega
    · refine ⟨_, ?_, .replicate .quarter rfl p⟩
      rw [NoteLength.sixteenths]
      omega

namespace Score

/-- Measures put the same notes on every score. -/
theorem appendMeasures_lasting {key : Key} (hk : key.scale.isEmpty = false) {p : ℕ} (h₁ : 1 ≤ p)
    (hp : p ≤ 16) (measures : List (Section × ℤ)) : ∃ notes : Parts,
      notes.Lasting p measures.length ∧
      ∀ score, appendMeasures key p score measures = .ok (score.appendParts notes) := by
  induction measures with
  | nil =>
    refine ⟨⟨[], [], []⟩, ⟨⟨0, by simp, .nil⟩, ?_, 0, by simp, .nil⟩, fun _ => rfl⟩
    simpa using TrioScore.Lasting.nil
  | cons m measures ih =>
    obtain ⟨first, hfirst, hlasting⟩ := Measure.parts_lasting hk h₁ hp m.1 m.2
    obtain ⟨rest, hrest, hnext⟩ := ih
    refine ⟨first.append rest, ?_, fun score => ?_⟩
    · rw [List.length_cons, Nat.add_comm]
      exact hlasting.append hrest
    · rw [appendMeasures, List.foldlM_cons, appendMeasure_eq_ok hfirst, appendParts_append]
      exact hnext _

/-- The notes of a piece whose meter can be read. -/
theorem ofPiece_lasting {piece : Piece} {meter : Meter}
    (h : Meter.parse piece.timeSignature = .ok meter) : ∃ (p : ℕ) (notes : Parts),
      notes.Lasting p piece.measureList.length ∧
        ofPiece piece = .ok ((empty piece.tempo meter).appendParts notes) := by
  obtain ⟨p, hp, h₁, h₂⟩ :=
    Meter.pulses_of_isFinite (Meter.isFinite_quarterBeats (Meter.inRange_of_parse h))
  obtain ⟨notes, hlasting, hok⟩ :=
    appendMeasures_lasting (Key.isEmpty_scale_named piece.key) h₁ h₂ piece.measureList
  exact ⟨p, notes, hlasting, (ofPiece_eq h hp).trans (hok _)⟩

theorem exists_parse_of_ofPiece {piece : Piece} {score : Score} (h : ofPiece piece = .ok score) :
    ∃ meter, Meter.parse piece.timeSignature = .ok meter := by
  obtain ⟨meter, hmeter, -⟩ := bind_eq_ok_iff.mp h
  exact ⟨meter, hmeter⟩

end Score
end TrioScore
