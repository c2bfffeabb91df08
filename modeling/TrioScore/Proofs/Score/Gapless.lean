import TrioScore.Proofs.Score.Aligned
import TrioScore.Proofs.Score.Layout

/-!
# Gapless tracks

A track is gapless when each of its events starts exactly when those before it have been played. The
tracks of a score are, unless its harmony is 2^50 beats long or longer.
-/

namespace TrioScore
open Binary64

def durations (events : List Event) : ℚ := (events.map fun e => e.duration.toRat).sum

def Track.length (track : Track) : ℚ := durations track.events.toList

/-- Events end to end from 0 on without any rounding, on the grid of quarters of a beat and each of
a written length. -/
structure Track.IsGapless (track : Track) : Prop where
  start : ∀ (i : ℕ) (e : Event), track.events[i]? = some e →
    e.start.HasValue (durations (track.events.toList.take i))
  cursor : track.cursor.HasValue track.length
  quarters : ∀ e ∈ track.events, ∃ k : ℕ, e.start.toRat = k / 4
  duration : ∀ e ∈ track.events, e.duration.isFinite = true ∧
    e.duration.toRat ∈ ([4, 2, 1, 1 / 2, 1 / 4] : List ℚ)
  increasing : track.events.toList.Pairwise fun a b => a.start.toRat < b.start.toRat

theorem durations_append (events more : List Event) :
    durations (events ++ more) = durations events + durations more := by
  simp [durations]

theorem durations_layOut (time : ℚ) (notes : List Note) : durations (layOut time notes) =
    (notes.map fun note => note.beats.toRat).sum := by
  conv_rhs => rw [← map_note_layOut time notes, List.map_map]
  rfl

theorem NoteLength.toRat_beats_mem (length : NoteLength) :
    length.beats.toRat ∈ ([4, 2, 1, 1 / 2, 1 / 4] : List ℚ) := by
  rw [toRat_beats]
  cases length <;> norm_num [quarters, sixteenths]

/-- Where every event lasts and starts when those before it have been played, the starts
increase. -/
theorem pairwise_start_lt {events : List Event}
    (hstart : ∀ (i : ℕ) (e : Event), events[i]? = some e →
      e.start.toRat = durations (events.take i))
    (hpos : ∀ e ∈ events, 0 < e.duration.toRat) :
    events.Pairwise fun a b => a.start.toRat < b.start.toRat := by
  rw [List.pairwise_iff_getElem]
  intro i j hi hj hij
  have hsplit : events.take j = events.take i ++ (events.take j).drop i := by
    have htake : (events.take j).take i = events.take i := by
      rw [List.take_take, Nat.min_eq_left hij.le]
    rw [← htake, List.take_append_drop]
  have hbetween : 0 < durations ((events.take j).drop i) := by
    apply List.sum_pos
    · intro q hq
      obtain ⟨e, he, rfl⟩ := List.mem_map.mp hq
      exact hpos e (List.mem_of_mem_take (List.mem_of_mem_drop he))
    · rw [Ne, List.map_eq_nil_iff, List.drop_eq_nil_iff, List.length_take]
      omega
  rw [hstart i _ (List.getElem?_eq_getElem hi), hstart j _ (List.getElem?_eq_getElem hj), hsplit,
    durations_append]
  exact lt_add_of_pos_right _ hbetween

theorem Track.length_appendAll (track : Track) (notes : List Note) :
    (track.appendAll notes).length =
      track.length + (notes.map fun note => note.beats.toRat).sum := by
  obtain ⟨events, hevents, rfl⟩ := track.exists_events_appendAll notes
  rw [length, hevents, durations_append, List.map_map]
  rfl

section Grid
variable {k : ℕ} {notes : List Note} (h : Lasting k notes)
include h

/-- What has been played is a number of quarters of a beat that binary64 holds. -/
theorem start_layOut_zero (hk : k ≤ 2 * octaveSize) {i : ℕ} {e : Event}
    (he : (layOut 0 notes)[i]? = some e) : ∃ j : ℕ,
      durations ((layOut 0 notes).take i) = j / 4 ∧ e.start.HasValue (j / 4) := by
  obtain ⟨j, hj, hstart, hsum⟩ := exists_start_layOut h he
  refine ⟨j, ?_, ?_⟩
  · rw [take_layOut, durations_layOut, hsum]
  · rw [hstart]
    exact hasValue_ofRat (isExact_natQuarters (hj.trans hk))

theorem exists_length_of_mem_layOut {time : ℚ} {e : Event} (he : e ∈ layOut time notes) :
    ∃ length : NoteLength, e.duration = length.beats := by
  have hnote := List.mem_map_of_mem (f := Event.note) he
  rw [map_note_layOut] at hnote
  exact h.exists_length _ hnote

/-- Notes of the written lengths on an empty track are gapless, up to 2^53 quarters of a beat. -/
theorem Track.isGapless_appendAll (hk : k ≤ 2 * octaveSize) (name : Text) (channel : ℤ) :
    ((empty name channel).appendAll notes).IsGapless := by
  obtain ⟨hevents, hcursor⟩ := empty_appendAll_quarters h hk name channel
  generalize (empty name channel).appendAll notes = track at *
  have hlaid (e : Event) (he : e ∈ track.events) : e ∈ layOut 0 notes := by
    rwa [← hevents, Array.mem_toList_iff]
  refine ⟨fun i e he => ?_, ?_, fun e he => ?_, fun e he => ?_, ?_⟩
  · rw [← Array.getElem?_toList, hevents] at he
    obtain ⟨j, hsum, hvalue⟩ := start_layOut_zero h hk he
    rwa [hevents, hsum]
  · rw [hcursor, length, hevents, durations_layOut, h.sum_beats]
    exact hasValue_ofRat (isExact_natQuarters hk)
  · obtain ⟨i, hi⟩ := List.mem_iff_getElem?.mp (hlaid e he)
    obtain ⟨j, -, hvalue⟩ := start_layOut_zero h hk hi
    exact ⟨j, hvalue.toRat⟩
  · obtain ⟨length, hlength⟩ := exists_length_of_mem_layOut h (hlaid e he)
    rw [hlength]
    exact ⟨length.isFinite_beats, length.toRat_beats_mem⟩
  · rw [hevents]
    refine pairwise_start_lt (fun i e he => ?_) fun e he => ?_
    · obtain ⟨j, hsum, hvalue⟩ := start_layOut_zero h hk he
      rw [hsum, hvalue.toRat]
    · obtain ⟨length, hlength⟩ := exists_length_of_mem_layOut h he
      rw [hlength, NoteLength.toRat_beats]
      exact length.quarters_pos

end Grid

namespace Score

theorem length_harmony {p n : ℕ} {notes : Parts} (h : notes.Lasting p n) (tempo : ℤ)
    (meter : Meter) : ((empty tempo meter).appendParts notes).harmony.length = (n * p : ℕ) := by
  have hempty : (empty tempo meter).harmony.length = 0 := rfl
  rw [appendParts, Track.length_appendAll, hempty, h.harmony.sum_beats]
  push_cast
  ring

/-- Every track of a score is gapless, when its harmony, with a chord on every beat, is shorter than
2^50 beats. -/
theorem tracks_isGapless {piece : Piece} {score : Score} (h : ofPiece piece = .ok score)
    (hlength : score.harmony.length < 2 ^ 50) : ∀ track ∈ score.tracks, track.IsGapless := by
  obtain ⟨meter, hmeter⟩ := exists_parse_of_ofPiece h
  obtain ⟨p, notes, hlasting, hscore⟩ := ofPiece_lasting hmeter
  obtain rfl := Except.ok.inj (h.symm.trans hscore)
  rw [length_harmony hlasting] at hlength
  have hbeats : piece.measureList.length * p < 2 ^ 50 := by exact_mod_cast hlength
  -- twice as many beats, for the melody, are within 2^53 quarters of a beat
  have hsize : 8 * (piece.measureList.length * p) ≤ 2 * octaveSize := by
    have hgrid : 2 * octaveSize = 8 * 2 ^ 50 := by norm_num [octaveSize]
    omega
  obtain ⟨⟨k, hk, hmelody⟩, hharmony, l, hl, hbass⟩ := hlasting
  exact forall_mem_tracks.mpr ⟨Track.isGapless_appendAll hmelody (by omega) _ _,
    Track.isGapless_appendAll hharmony (by omega) _ _,
    Track.isGapless_appendAll hbass (by omega) _ _⟩

/-- Sixteen measures of 5/4, with a motif that runs over. -/
def longPiece : Piece where
  key := "A minor"
  tempo := 90
  timeSignature := "5/4"
  form := "free"
  sections := [Repair.defaultSection, { Repair.defaultSection with
    motifs := [⟨[1, 2, 3], [ofRat 1, ofRat (3 / 10)]⟩] }]
  instrumentation := []
  character := []
  reasoning := none

theorem length_longPiece : ∃ score, ofPiece longPiece = .ok score ∧
    score.harmony.length = 80 := by
  have hrun : (fun score : Score => score.harmony.length) <$> ofPiece longPiece = .ok 80 := by
    decide +kernel
  exact map_eq_ok_iff.mp hrun

theorem tracks_isGapless_longPiece : ∃ score, ofPiece longPiece = .ok score ∧
    score.harmony.length = 80 ∧ ∀ track ∈ score.tracks, track.IsGapless := by
  obtain ⟨score, hscore, hlength⟩ := length_longPiece
  refine ⟨score, hscore, hlength, tracks_isGapless hscore ?_⟩
  rw [hlength]
  norm_num

end Score
end TrioScore
