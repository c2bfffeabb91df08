import TrioScore.Proofs.Score.Layout
import TrioScore.Proofs.Smf.Notes

/-!
# Pitches and velocities as data bytes

Every note of a score is a note of one of its measures. Harmony and bass play the pitches of chords,
the melody plays the tonic and the degrees of motifs. So the limit of the data bytes is met by the
highest degrees of a melody in the highest keys and by nothing else.
-/

namespace TrioScore

inductive Voice where
  | melody
  | harmony
  | bass

namespace Voice

def notes (parts : Parts) : Voice → List Note
  | melody => parts.melody
  | harmony => parts.harmony
  | bass => parts.bass

def track (score : Score) : Voice → Track
  | melody => score.melody
  | harmony => score.harmony
  | bass => score.bass

theorem notes_append (a b : Parts) (voice : Voice) :
    voice.notes (a.append b) = voice.notes a ++ voice.notes b := by
  cases voice <;> rfl

theorem regular_of_mem {parts : Parts} (h : parts.Regular) (voice : Voice) :
    ∀ note ∈ voice.notes parts, note.Regular := by
  cases voice with
  | melody => exact h.melody
  | harmony => exact h.harmony
  | bass => exact h.bass

theorem map_note_events (tempo : ℤ) (meter : Meter) (notes : Parts) (voice : Voice) :
    (voice.track ((Score.empty tempo meter).appendParts notes)).events.toList.map Event.note =
      voice.notes notes := by
  have happend : ∀ (name : Text) (channel : ℤ) (notes : List Note),
      ((Track.empty name channel).appendAll notes).events.toList.map Event.note = notes := by
    intro name channel notes
    obtain ⟨events, hevents, hnotes⟩ := (Track.empty name channel).exists_events_appendAll notes
    rw [hevents]
    exact hnotes
  cases voice <;> exact happend _ _ _

theorem note_mem {tempo : ℤ} {meter : Meter} {notes : Parts} {voice : Voice} {e : Event}
    (he : e ∈ (voice.track ((Score.empty tempo meter).appendParts notes)).events) :
    e.note ∈ voice.notes notes := by
  rw [← map_note_events tempo meter notes voice]
  exact List.mem_map_of_mem (Array.mem_toList_iff.mpr he)

end Voice

namespace Measure
variable {key : Key} {pulses : ℤ} {s : Section} {measure : ℤ} {notes : Parts}

theorem pitches_of_mem_bassNotes {root pulses velocity : ℤ} {note : Note}
    (h : note ∈ bassNotes root pulses velocity) : note.pitches = [root] := by
  unfold bassNotes at h
  split_ifs at h
  · rw [List.eq_of_mem_replicate h]
    rfl
  · rw [List.eq_of_mem_replicate h]
    rfl

theorem pitches_of_mem_pulseNotes {velocity : ℤ} {note : Note}
    (h : note ∈ pulseNotes key pulses velocity) : note.pitches = [sustainPitch key] := by
  rw [List.eq_of_mem_replicate h]
  rfl

/-- Harmony and bass of a measure play pitches of its chord, each over its own register. -/
theorem chords_of_parts (hk : key.scale.isEmpty = false)
    (h : parts key pulses s measure = .ok notes) :
    (∀ note ∈ notes.harmony, ∀ pitch ∈ note.pitches,
      ∃ interval ∈ Chord.intervals (chordSymbol s measure),
        pitch = Chord.pitch key harmonyRegister interval) ∧
    ∀ note ∈ notes.bass, ∀ pitch ∈ note.pitches,
      ∃ interval ∈ Chord.intervals (chordSymbol s measure),
        pitch = Chord.pitch key bassRegister interval := by
  obtain ⟨chord, hchord, h⟩ := bind_eq_ok_iff.mp h
  obtain ⟨low, hlow, h⟩ := bind_eq_ok_iff.mp h
  obtain ⟨_, -, h⟩ := bind_eq_ok_iff.mp h
  cases h
  rw [Chord.pitches_eq_ok hk] at hchord hlow
  obtain rfl := Except.ok.inj hchord
  obtain rfl := Except.ok.inj hlow
  constructor
  · intro note hnote pitch hpitch
    rw [List.eq_of_mem_replicate hnote] at hpitch
    obtain ⟨interval, hinterval, rfl⟩ := List.mem_map.mp hpitch
    exact ⟨interval, hinterval, rfl⟩
  · intro note hnote pitch hpitch
    obtain ⟨root, rest, hstack⟩ :=
      List.exists_cons_of_ne_nil (Chord.intervals_ne_nil (chordSymbol s measure))
    rw [pitches_of_mem_bassNotes hnote, hstack] at hpitch
    exact ⟨root, hstack ▸ List.mem_cons_self, List.mem_singleton.mp hpitch⟩

/-- A degree of the motif of a measure is played as a note. -/
structure PlaysDegree (key : Key) (s : Section) (measure degree : ℤ) (note : Note) : Prop where
  degree_mem : ∃ motif, motif? s measure = some motif ∧ degree ∈ motif.degrees
  note_eq : ∃ (pitch : ℤ) (length : NoteLength), key.degreePitch degree = .ok pitch ∧
    note = single pitch length.beats (Dynamics.velocity s.dynamics)

/-- A note of the melody is the tonic or a degree of the motif of its measure. -/
theorem melody_cases_of_parts (hk : key.scale.isEmpty = false)
    (h : parts key pulses s measure = .ok notes) :
    ∀ note ∈ notes.melody, note.pitches = [sustainPitch key] ∨
      ∃ degree, PlaysDegree key s measure degree note := by
  intro note hnote
  have hmelody := melody_of_parts h
  cases hmotif : motif? s measure with
  | none =>
    rw [hmotif] at hmelody
    rw [← Except.ok.inj hmelody] at hnote
    exact .inl (pitches_of_mem_pulseNotes hnote)
  | some motif =>
    rw [hmotif] at hmelody
    dsimp only [melodyNotes] at hmelody
    split_ifs at hmelody
    · rw [← Except.ok.inj hmelody] at hnote
      exact .inl (pitches_of_mem_pulseNotes hnote)
    · obtain ⟨pitch, hpitch⟩ := Key.exists_degreePitch hk
      rw [motifNotes_eq hpitch] at hmelody
      rw [← Except.ok.inj hmelody] at hnote
      rcases List.mem_append.mp hnote with hnote | hnote
      · obtain ⟨⟨degree, length⟩, hplaced, rfl⟩ := List.mem_map.mp hnote
        exact .inr ⟨degree, ⟨motif, hmotif, (List.of_mem_zip hplaced).1⟩, pitch degree, length,
          hpitch degree, rfl⟩
      · obtain ⟨length, -, rfl⟩ := List.mem_map.mp hnote
        exact .inl rfl

/-- The chords of a measure are within the data bytes, and the melody goes beyond them with a degree
of its motif only. -/
theorem high_pitch_of_parts {name : Text}
    (hreach : ∀ motif ∈ s.motifs, ∀ d ∈ motif.degrees, -20 ≤ d ∧ d ≤ 29)
    (h : parts (Key.named name) pulses s measure = .ok notes) {voice : Voice} {note : Note}
    (hnote : note ∈ voice.notes notes) {pitch : ℤ} (hpitch : pitch ∈ note.pitches)
    (hhigh : 127 < pitch) : voice = .melody ∧ 68 ≤ (Key.named name).tonic ∧
      ∃ degree, 27 ≤ degree ∧ PlaysDegree (Key.named name) s measure degree note := by
  have hk := Key.isEmpty_scale_named name
  obtain ⟨hharmony, hbass⟩ := chords_of_parts hk h
  cases voice with
  | harmony =>
    obtain ⟨interval, hinterval, rfl⟩ := hharmony note hnote pitch hpitch
    have hmem := Chord.pitch_named_mem name harmonyRegister hinterval
    rw [harmonyRegister] at hmem hhigh
    omega
  | bass =>
    obtain ⟨interval, hinterval, rfl⟩ := hbass note hnote pitch hpitch
    have hmem := Chord.pitch_named_mem name bassRegister hinterval
    rw [bassRegister] at hmem hhigh
    omega
  | melody =>
    refine ⟨rfl, ?_⟩
    rcases melody_cases_of_parts hk h note hnote with hsustained | ⟨degree, hplays⟩
    · obtain ⟨⟨-, htonic⟩, -⟩ := Key.named_bounds name
      rw [hsustained, List.mem_singleton, sustainPitch, octave] at hpitch
      omega
    · obtain ⟨motif, hmotif, hdegree⟩ := hplays.degree_mem
      obtain ⟨played, length, hplayed, rfl⟩ := hplays.note_eq
      obtain rfl : pitch = played := List.mem_singleton.mp hpitch
      have hmem := hreach motif (List.mem_of_getElem? hmotif) degree hdegree
      obtain ⟨hlow, htonic⟩ := Key.degree_of_high_pitch hmem.2 hplayed hhigh
      exact ⟨htonic, degree, hlow, hplays⟩

end Measure

/-- Every note is a note of one of the measures, of the same voice. -/
def Parts.OfMeasures (key : Key) (pulses : ℤ) (measures : List (Section × ℤ)) (notes : Parts) :
    Prop :=
  ∀ voice : Voice, ∀ note ∈ voice.notes notes, ∃ m ∈ measures, ∃ one,
    Measure.parts key pulses m.1 m.2 = .ok one ∧ note ∈ voice.notes one

theorem Parts.OfMeasures.append {key : Key} {pulses : ℤ} {measures : List (Section × ℤ)}
    {a b : Parts} (ha : a.OfMeasures key pulses measures) (hb : b.OfMeasures key pulses measures) :
    (a.append b).OfMeasures key pulses measures := by
  intro voice note hnote
  rw [Voice.notes_append] at hnote
  exact (List.mem_append.mp hnote).elim (ha voice note) (hb voice note)

namespace Score

theorem appendMeasures_ofMeasures {key : Key} (hk : key.scale.isEmpty = false) (pulses : ℤ)
    (measures : List (Section × ℤ)) (score : Score) : ∃ notes : Parts,
      notes.OfMeasures key pulses measures ∧
      appendMeasures key pulses score measures = .ok (score.appendParts notes) := by
  refine @exists_appendMeasures (fun _ notes => notes.OfMeasures key pulses measures) ?_
    (fun ha hb => ha.append hb) _ _ _ (fun m hm => ?_) score
  · intro voice note hnote
    cases voice <;> cases hnote
  · obtain ⟨notes, hnotes, -⟩ := Measure.parts_eq_ok hk pulses m.1 m.2
    exact ⟨notes, hnotes, fun voice note hnote => ⟨m, hm, notes, hnotes, hnote⟩⟩

/-- Every event of the score of a piece is a note of one of its measures. -/
theorem exists_measure_of_ofPiece {piece : Piece} {score : Score} (h : ofPiece piece = .ok score) :
    ∃ pulses : ℤ, ∀ voice : Voice, ∀ e ∈ (voice.track score).events, ∃ m ∈ piece.measureList,
      ∃ one, Measure.parts (Key.named piece.key) pulses m.1 m.2 = .ok one ∧
        e.note ∈ voice.notes one := by
  obtain ⟨meter, hmeter⟩ := exists_parse_of_ofPiece h
  obtain ⟨p, hp, -⟩ :=
    Meter.pulses_of_isFinite (Meter.isFinite_quarterBeats (Meter.inRange_of_parse hmeter))
  obtain ⟨notes, hnotes, hscore⟩ := appendMeasures_ofMeasures
    (Key.isEmpty_scale_named piece.key) p piece.measureList (empty piece.tempo meter)
  rw [ofPiece_eq hmeter hp, hscore] at h
  obtain rfl := Except.ok.inj h
  exact ⟨p, fun voice e he => hnotes voice e.note (Voice.note_mem he)⟩

theorem Regular.note {score : Score} (h : score.Regular) (voice : Voice) :
    ∀ e ∈ (voice.track score).events, e.note.Regular := by
  obtain ⟨notes, hregular, hscore⟩ := h.notes
  rw [hscore]
  exact fun e he => voice.regular_of_mem hregular e.note (Voice.note_mem he)

/-- A score whose degrees are in reach passes the data bytes as its measures do. -/
theorem high_pitch_of_ofPiece {piece : Piece} (hsane : piece.IsSane) {score : Score}
    (h : ofPiece piece = .ok score) {voice : Voice} {e : Event}
    (he : e ∈ (voice.track score).events) {pitch : ℤ} (hpitch : pitch ∈ e.pitches)
    (hhigh : 127 < pitch) : voice = .melody ∧ 68 ≤ (Key.named piece.key).tonic ∧
      ∃ m ∈ piece.measureList, ∃ degree, 27 ≤ degree ∧
        Measure.PlaysDegree (Key.named piece.key) m.1 m.2 degree e.note := by
  obtain ⟨pulses, hmeasures⟩ := exists_measure_of_ofPiece h
  obtain ⟨m, hm, one, hone, hnote⟩ := hmeasures voice e he
  obtain ⟨hvoice, htonic, hplays⟩ := Measure.high_pitch_of_parts
    (degrees_mem_of_isSane hsane m hm) hone hnote hpitch hhigh
  exact ⟨hvoice, htonic, m, hm, hplays⟩

/-- The velocities of the score of a repaired piece are data bytes, and so are its pitches, which
are no lower than 36, but for the highest degrees of the melody in the highest keys. -/
theorem data_bytes_of_repair {document : Json} {piece : Piece}
    (h : Piece.repair document = .ok piece) : ∃ score, ofPiece piece = .ok score ∧
      ∀ voice : Voice, ∀ e ∈ (voice.track score).events,
        (1 ≤ e.velocity ∧ e.velocity ≤ 127 ∧
          (Number.int e.velocity).dataByte = .ok e.velocity) ∧
        ∀ pitch ∈ e.pitches, 36 ≤ pitch ∧
          ((Number.int pitch).dataByte = .ok pitch ↔ pitch ≤ 127) ∧
          (voice ≠ .melody → pitch ≤ 127) ∧
          (127 < pitch → 68 ≤ (Key.named piece.key).tonic ∧
            ∃ m ∈ piece.measureList, ∃ degree, 27 ≤ degree ∧
              Measure.PlaysDegree (Key.named piece.key) m.1 m.2 degree e.note) := by
  obtain ⟨score, hscore, hregular, -⟩ := exists_regular_ofPiece h
  refine ⟨score, hscore, fun voice e he => ?_⟩
  have hnote := hregular.note voice e he
  have hvelocity : 1 ≤ e.velocity ∧ e.velocity ≤ 127 := hnote.velocity_mem
  refine ⟨⟨hvelocity.1, hvelocity.2, hnote.dataByte_velocity⟩, fun pitch hpitch => ?_⟩
  have hreach := hnote.pitches_mem pitch hpitch
  have hhigh := high_pitch_of_ofPiece (Piece.isSane_of_repair h) hscore he hpitch
  refine ⟨hreach.1, ?_, fun hvoice => ?_, fun h127 => (hhigh h127).2⟩
  · rw [hnote.dataByte_pitch hpitch, Except.ok.injEq, limit]
    omega
  · by_contra h127
    exact hvoice (hhigh (by omega)).1

/-- The fields of a document of one measure whose motif is the highest degree in reach. -/
def highestDegree (key : Text) : List (Text × Json) :=
  [("key", .text key), ("timeSignature", .text "1/4"),
   ("sections", .array [.object [("measures", .ofInt 1), ("melody", .object [("motifs", .array
     [.object [("degrees", .array [.ofInt 29])]])])]])]

/-- In A flat major the highest degree is 128, which becomes 127. -/
theorem data_bytes_of_repair_highestDegree : ∃ (piece : Piece) (score : Score) (e : Event),
    Piece.repair (.object (highestDegree "Ab major")) = .ok piece ∧ ofPiece piece = .ok score ∧
    e ∈ score.melody.events ∧ e.pitches = [128] ∧ (Number.int 128).dataByte = .ok 127 ∧
    68 ≤ (Key.named piece.key).tonic ∧ (Number.int e.velocity).dataByte = .ok e.velocity ∧
    ∃ m ∈ piece.measureList, ∃ degree, 27 ≤ degree ∧
      Measure.PlaysDegree (Key.named piece.key) m.1 m.2 degree e.note := by
  have hrun : (fun score : Score => score.melody.events.toList.map Event.pitches) <$>
      (Piece.repair (.object (highestDegree "Ab major")) >>= ofPiece) = .ok [[128]] := by
    decide +kernel
  obtain ⟨score, hrendered, hpitches⟩ := map_eq_ok_iff.mp hrun
  obtain ⟨piece, hpiece, hscore⟩ := bind_eq_ok_iff.mp hrendered
  obtain ⟨other, hother, hbytes⟩ := data_bytes_of_repair hpiece
  obtain rfl := Except.ok.inj (hscore.symm.trans hother)
  obtain ⟨e, he, hpitch⟩ : ∃ e ∈ score.melody.events.toList, e.pitches = [128] :=
    List.mem_map.mp (hpitches ▸ List.mem_singleton_self [128])
  have hmem : e ∈ (Voice.melody.track score).events := Array.mem_toList_iff.mp he
  obtain ⟨⟨-, -, hvelocity⟩, heach⟩ := hbytes .melody e hmem
  obtain ⟨-, -, -, horigin⟩ := heach 128 (hpitch ▸ List.mem_singleton_self 128)
  obtain ⟨htonic, hplays⟩ := horigin (by decide)
  exact ⟨piece, score, e, hpiece, hscore, hmem, hpitch, by decide +kernel, htonic, hvelocity,
    hplays⟩

end Score
end TrioScore
