import TrioScore.Proofs.Score.Gapless
import Mathlib.Data.Int.ModEq

/-!
# Joined scores

The score of two lists of sections is the score of the first with that of the second after it, every
voice later by what the first has in that voice. Within a section a measure depends on its index by
the chord and the motif whose turn it is, so measures recur.
-/

namespace TrioScore
open Binary64

/-- The event, later by a time. -/
def Event.later (time : Binary64) (e : Event) : Event := { e with start := e.start + time }

/-- On the grid of quarters of a beat a layout is moved without error. -/
theorem map_later_layOut {k : ℕ} {notes : List Note} (h : Lasting k notes) {c d : ℕ}
    (hl : c + d + k ≤ 2 * octaveSize) :
    (layOut (d / 4) notes).map (Event.later (ofRat (c / 4))) = layOut ((c + d : ℕ) / 4) notes := by
  induction h generalizing d with
  | nil => rfl
  | @cons k note notes length beats _ ih =>
    have hstart : ofRat (d / 4) + ofRat (c / 4) = ofRat ((c + d : ℕ) / 4) := by
      rw [ofRat_quarters_add (by omega), Nat.add_comm]
    rw [layOut, layOut, List.map_cons, beats, NoteLength.quarters_add, NoteLength.quarters_add,
      ih (by omega), Event.later, hstart, Nat.add_assoc]

/-- The whole has the events of the first and, later by the cursor of the first, those of the
second. No start is rounded. -/
structure Track.IsJoined (first second whole : Track) : Prop where
  name : whole.name = first.name
  channel : whole.channel = first.channel
  events : whole.events.toList =
    first.events.toList ++ second.events.toList.map (Event.later first.cursor)
  start : ∀ e ∈ second.events,
    (e.later first.cursor).start.HasValue (e.start.toRat + first.cursor.toRat)
  cursor : whole.cursor.HasValue (first.cursor.toRat + second.cursor.toRat)

theorem Track.isJoined_appendAll {k l : ℕ} {notes more : List Note} (h : Lasting k notes)
    (hmore : Lasting l more) (hl : k + l ≤ 2 * octaveSize) (name : Text) (channel : ℤ) :
    IsJoined ((empty name channel).appendAll notes) ((empty name channel).appendAll more)
      ((empty name channel).appendAll (notes ++ more)) := by
  obtain ⟨hevents, hcursor⟩ := empty_appendAll_quarters h (by omega) name channel
  obtain ⟨hevents', hcursor'⟩ := empty_appendAll_quarters hmore (by omega) name channel
  obtain ⟨hwhole, hend⟩ := empty_appendAll_quarters (h.append hmore) hl name channel
  have hkeeps := name_appendAll (empty name channel)
  have hexact (n : ℕ) (hn : n ≤ k + l) : IsExact ((n : ℚ) / 4) := isExact_natQuarters (hn.trans hl)
  refine ⟨?_, ?_, ?_, fun e he => ?_, ?_⟩
  · rw [(hkeeps _).1, (hkeeps _).1]
  · rw [(hkeeps _).2, (hkeeps _).2]
  · have hlater := map_later_layOut hmore (c := k) (d := 0) (by omega)
    rw [Nat.cast_zero, zero_div, Nat.add_zero] at hlater
    rw [hwhole, hevents, hevents', hcursor, layOut_append, h.sum_beats, hlater, zero_add]
  · rw [← Array.mem_toList_iff, hevents'] at he
    obtain ⟨i, hi⟩ := List.mem_iff_getElem?.mp he
    obtain ⟨j, hj, hstart, -⟩ := exists_start_layOut hmore hi
    rw [Event.later, hstart, hcursor, ofRat_quarters_add (by omega),
      toRat_ofRat (hexact j (by omega)), toRat_ofRat (hexact k (by omega)), ← add_div,
      ← Nat.cast_add]
    exact hasValue_ofRat (hexact (j + k) (by omega))
  · rw [hend, hcursor, hcursor', toRat_ofRat (hexact k (by omega)),
      toRat_ofRat (hexact l (by omega)), ← add_div, ← Nat.cast_add]
    exact hasValue_ofRat (hexact (k + l) le_rfl)

/-- Tracks that take the same notes sound alike from there on. -/
theorem Track.exists_same_events (track other : Track) (notes : List Note) : ∃ events events',
    (track.appendAll notes).events.toList = track.events.toList ++ events ∧
      (other.appendAll notes).events.toList = other.events.toList ++ events' ∧
      events.map Event.note = events'.map Event.note := by
  obtain ⟨events, hevents, hnotes⟩ := track.exists_events_appendAll notes
  obtain ⟨events', hevents', hnotes'⟩ := other.exists_events_appendAll notes
  exact ⟨events, events', hevents, hevents', hnotes.trans hnotes'.symm⟩

namespace Measure

theorem cycle?_of_modEq {α : Type} {items : List α} {m n : ℤ} (h : m ≡ n [ZMOD items.length]) :
    cycle? items m = cycle? items n := by
  rw [cycle?, cycle?, h]

/-- After how many measures the chords of a section recur. -/
def chordPeriod (s : Section) : ℕ :=
  if s.progression.isEmpty then 4 else s.progression.length

section Recurrence
variable {s : Section} {m n : ℤ}

theorem chordSymbol_of_modEq (h : m ≡ n [ZMOD chordPeriod s]) :
    chordSymbol s m = chordSymbol s n := by
  unfold chordPeriod at h
  unfold chordSymbol
  split_ifs at h ⊢
  · exact congrArg (fun symbol : Option Text => symbol.getD "I") (cycle?_of_modEq h)
  · exact congrArg (fun symbol : Option Text => symbol.getD "I") (cycle?_of_modEq h)

theorem motif?_of_modEq (h : s.motifs ≠ [] → m ≡ n [ZMOD s.motifs.length]) :
    motif? s m = motif? s n := by
  by_cases hne : s.motifs = []
  · rw [motif?, motif?, cycle?, cycle?, hne]
    rfl
  · exact cycle?_of_modEq (h hne)

/-- Measures whose indices agree about the chord and about the motif are of the same notes. -/
theorem parts_of_modEq (hchord : m ≡ n [ZMOD chordPeriod s])
    (hmotif : s.motifs ≠ [] → m ≡ n [ZMOD s.motifs.length]) (key : Key) (pulses : ℤ) :
    parts key pulses s m = parts key pulses s n := by
  rw [parts, parts, chordSymbol_of_modEq hchord, motif?_of_modEq hmotif]

end Recurrence
end Measure

namespace Score

def voices : List (Score → Track) := [melody, harmony, bass]

theorem forall_mem_voices {P : (Score → Track) → Prop} :
    (∀ voice ∈ voices, P voice) ↔ P melody ∧ P harmony ∧ P bass := by
  simp [voices]

/-- Two lists of measures of so many pulses, one list after the other. -/
theorem isJoined_appendParts {p m n : ℕ} {first second : Parts} (h : first.Lasting p m)
    (hsecond : second.Lasting p n) (tempo : ℤ) (meter : Meter)
    (hlength : ((empty tempo meter).appendParts (first.append second)).harmony.length < 2 ^ 50) :
    ∀ voice ∈ voices, Track.IsJoined (voice ((empty tempo meter).appendParts first))
      (voice ((empty tempo meter).appendParts second))
      (voice ((empty tempo meter).appendParts (first.append second))) := by
  rw [length_harmony (h.append hsecond)] at hlength
  have hbeats : (m + n) * p < 2 ^ 50 := by exact_mod_cast hlength
  rw [Nat.add_mul] at hbeats
  have hgrid : 2 * octaveSize = 8 * 2 ^ 50 := by norm_num [octaveSize]
  obtain ⟨⟨k, hk, hmelody⟩, hharmony, l, hl, hbass⟩ := h
  obtain ⟨⟨k', hk', hmelody'⟩, hharmony', l', hl', hbass'⟩ := hsecond
  exact forall_mem_voices.mpr ⟨Track.isJoined_appendAll hmelody hmelody' (by omega) _ _,
    Track.isJoined_appendAll hharmony hharmony' (by omega) _ _,
    Track.isJoined_appendAll hbass hbass' (by omega) _ _⟩

theorem ofPiece_append {piece : Piece} {meter : Meter}
    (h : Meter.parse piece.timeSignature = .ok meter) (sections more : List Section) :
    ∃ first second whole : Score, ofPiece { piece with sections := sections } = .ok first ∧
      ofPiece { piece with sections := more } = .ok second ∧
      ofPiece { piece with sections := sections ++ more } = .ok whole ∧
      (whole.harmony.length < 2 ^ 50 →
        ∀ voice ∈ voices, Track.IsJoined (voice first) (voice second) (voice whole)) := by
  obtain ⟨p, hp, h₁, h₂⟩ :=
    Meter.pulses_of_isFinite (Meter.isFinite_quarterBeats (Meter.inRange_of_parse h))
  have hk := Key.isEmpty_scale_named piece.key
  obtain ⟨a, ha, hfirst⟩ := appendMeasures_lasting hk h₁ h₂
    (Piece.measureList { piece with sections := sections })
  obtain ⟨b, hb, hsecond⟩ := appendMeasures_lasting hk h₁ h₂
    (Piece.measureList { piece with sections := more })
  have hscore (l : List Section) : ofPiece { piece with sections := l } = appendMeasures
      (Key.named piece.key) p (empty piece.tempo meter)
        (Piece.measureList { piece with sections := l }) := ofPiece_eq h hp
  have hjoined : Piece.measureList { piece with sections := sections ++ more } =
      Piece.measureList { piece with sections := sections } ++
        Piece.measureList { piece with sections := more } := List.flatMap_append
  refine ⟨_, _, _, (hscore sections).trans (hfirst _), (hscore more).trans (hsecond _), ?_,
    isJoined_appendParts ha hb piece.tempo meter⟩
  have hstart := hfirst (empty piece.tempo meter)
  rw [appendMeasures] at hstart
  rw [hscore, hjoined, appendMeasures, List.foldlM_append, hstart, ok_bind, appendParts_append]
  exact hsecond _

/-- Measures whose indices agree about the chord and about the motif add the same notes to any two
scores, after what is on them. -/
theorem appendMeasure_of_modEq {key : Key} (hk : key.scale.isEmpty = false) (pulses : ℤ)
    {s : Section} {m n : ℤ} (hchord : m ≡ n [ZMOD Measure.chordPeriod s])
    (hmotif : s.motifs ≠ [] → m ≡ n [ZMOD s.motifs.length]) (score other : Score) :
    ∃ next next' : Score, score.appendMeasure key pulses s m = .ok next ∧
      other.appendMeasure key pulses s n = .ok next' ∧
      ∀ voice ∈ voices, ∃ events events',
        (voice next).events.toList = (voice score).events.toList ++ events ∧
        (voice next').events.toList = (voice other).events.toList ++ events' ∧
        events.map Event.note = events'.map Event.note := by
  obtain ⟨notes, hnotes, -⟩ := Measure.parts_eq_ok hk pulses s m
  have hnotes' := hnotes
  rw [Measure.parts_of_modEq hchord hmotif] at hnotes'
  refine ⟨_, _, appendMeasure_eq_ok hnotes score, appendMeasure_eq_ok hnotes' other, ?_⟩
  exact forall_mem_voices.mpr
    ⟨Track.exists_same_events score.melody other.melody notes.melody,
      Track.exists_same_events score.harmony other.harmony notes.harmony,
      Track.exists_same_events score.bass other.bass notes.bass⟩

/-- Scores join section by section, and measures recur: for any two lists of sections, in a meter
that can be read and up to 2^50 beats, and for any section, in a key with a scale. -/
theorem sections_join_and_measures_recur :
    (∀ (piece : Piece) (meter : Meter) (sections more : List Section),
      Meter.parse piece.timeSignature = .ok meter →
      ∃ first second whole : Score, ofPiece { piece with sections := sections } = .ok first ∧
        ofPiece { piece with sections := more } = .ok second ∧
        ofPiece { piece with sections := sections ++ more } = .ok whole ∧
        (whole.harmony.length < 2 ^ 50 →
          ∀ voice ∈ voices, Track.IsJoined (voice first) (voice second) (voice whole))) ∧
    ∀ (key : Key) (pulses : ℤ) (s : Section) (m n : ℤ), key.scale.isEmpty = false →
      m ≡ n [ZMOD Measure.chordPeriod s] → (s.motifs ≠ [] → m ≡ n [ZMOD s.motifs.length]) →
      ∀ score other : Score, ∃ next next' : Score,
        score.appendMeasure key pulses s m = .ok next ∧
        other.appendMeasure key pulses s n = .ok next' ∧
        ∀ voice ∈ voices, ∃ events events',
          (voice next).events.toList = (voice score).events.toList ++ events ∧
          (voice next').events.toList = (voice other).events.toList ++ events' ∧
          events.map Event.note = events'.map Event.note :=
  ⟨fun _ _ sections more h => ofPiece_append h sections more,
    fun _ pulses _ _ _ hk hchord hmotif => appendMeasure_of_modEq hk pulses hchord hmotif⟩

/-- The two sections of a piece in 5/4; and the measures -1 and 3 of a section with two motifs and
no chords, in a key of one note. -/
theorem sections_join_and_measures_recur_longPiece :
    (∃ first second whole : Score,
      ofPiece { longPiece with sections := longPiece.sections.take 1 } = .ok first ∧
      ofPiece { longPiece with sections := longPiece.sections.drop 1 } = .ok second ∧
      ofPiece longPiece = .ok whole ∧
      ∀ voice ∈ voices, Track.IsJoined (voice first) (voice second) (voice whole)) ∧
    ∃ s : Section, s.motifs.length = 2 ∧ s.progression = [] ∧ ∃ next next' : Score,
      (empty 90 .common).appendMeasure ⟨60, [0]⟩ 4 s (-1) = .ok next ∧
      (empty 90 .common).appendMeasure ⟨60, [0]⟩ 4 s 3 = .ok next' ∧
      ∀ voice ∈ voices, (voice next).events.toList.map Event.note =
        (voice next').events.toList.map Event.note := by
  obtain ⟨hjoin, hrecur⟩ := sections_join_and_measures_recur
  constructor
  · obtain ⟨first, second, whole, hfirst, hsecond, hwhole, hjoined⟩ := hjoin longPiece ⟨5, 4⟩
      (longPiece.sections.take 1) (longPiece.sections.drop 1) rfl
    obtain ⟨score, hscore, hlength⟩ := length_longPiece
    rw [List.take_append_drop] at hwhole
    obtain rfl := Except.ok.inj (hscore.symm.trans hwhole)
    refine ⟨first, second, score, hfirst, hsecond, hscore, hjoined ?_⟩
    rw [hlength]
    norm_num
  · obtain ⟨next, next', hnext, hnext', hsame⟩ := hrecur ⟨60, [0]⟩ 4
      { Repair.defaultSection with progression := [], motifs := [⟨[1, 2], []⟩, ⟨[3], []⟩] } (-1) 3
      rfl (by decide) (fun _ => by decide) (empty 90 .common) (empty 90 .common)
    refine ⟨_, rfl, rfl, next, next', hnext, hnext', fun voice hvoice => ?_⟩
    obtain ⟨events, events', hevents, hevents', hnotes⟩ := hsame voice hvoice
    rw [hevents, hevents', List.map_append, List.map_append, hnotes]

end Score
end TrioScore
