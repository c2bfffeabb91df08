import TrioScore.Proofs.Chord.Triad
import TrioScore.Proofs.Score.Layout

/-!
# The bass under the chords

In a measure the harmony repeats one triad and the bass its root, two octaves lower. The bass takes
its root from a triad of its own, in its own register; registers transpose triads, so it is the
same. A root is in the octave over its floor, so two octaves down it is below every chord of every
measure, and a run of measures adds one block of chords and one of bass notes for each.
-/

namespace TrioScore

theorem Track.map_pitches_appendAll (track : Track) (notes : List Note) :
    (track.appendAll notes).events.toList.map Event.pitches =
      track.events.toList.map Event.pitches ++ notes.map Note.pitches := by
  obtain ⟨events, hevents, hnotes⟩ := track.exists_events_appendAll notes
  rw [hevents, List.map_append, ← hnotes, List.map_map]
  rfl

namespace Measure

/-- How many notes the bass has in a measure. -/
def bassCount (pulses : ℤ) : ℕ := if 4 ≤ pulses then 2 else pulses.toNat

def chord (key : Key) (m : Section × ℤ) : Triad :=
  Chord.triad (chordSymbol m.1 m.2) key harmonyRegister

theorem map_pitches_bassNotes (root pulses velocity : ℤ) :
    (bassNotes root pulses velocity).map Note.pitches =
      List.replicate (bassCount pulses) [root] := by
  unfold bassNotes bassCount
  split_ifs
  · rfl
  · rw [List.map_replicate]
    rfl

/-- The triad of the bass register is that of the middle one, two octaves lower. -/
theorem pitches_triad_bass (symbol : Text) (key : Key) :
    (Chord.triad symbol key bassRegister).pitches =
      (Chord.triad symbol key harmonyRegister).pitches.map (· - 24) := by
  have hregister : bassRegister = harmonyRegister + -24 := rfl
  rw [hregister, Chord.triad_add_register]
  rfl

theorem exists_blocks {key : Key} (hk : key.scale.isEmpty = false) (pulses : ℤ)
    (m : Section × ℤ) : ∃ notes, parts key pulses m.1 m.2 = .ok notes ∧
      notes.harmony.map Note.pitches = List.replicate pulses.toNat (chord key m).pitches ∧
      notes.bass.map Note.pitches =
        List.replicate (bassCount pulses) [(chord key m).root - 24] := by
  obtain ⟨melody, hmelody, -⟩ :=
    melodyNotes_eq_ok hk pulses (motif? m.1 m.2) (Dynamics.velocity m.1.dynamics)
  have hmiddle := Chord.pitches_eq_triad hk (chordSymbol m.1 m.2) harmonyRegister
  have hlow := Chord.pitches_eq_triad hk (chordSymbol m.1 m.2) bassRegister
  rw [pitches_triad_bass] at hlow
  unfold parts
  simp only [hmiddle, hlow, hmelody]
  refine ⟨_, rfl, ?_, ?_⟩
  · rw [harmonyNotes, List.map_replicate]
    rfl
  · exact map_pitches_bassNotes _ _ _

end Measure

namespace Score

/-- A run of measures adds their chords to the harmony and their roots to the bass, block by
block. -/
theorem appendMeasures_blocks {key : Key} (hk : key.scale.isEmpty = false) (pulses : ℤ)
    (measures : List (Section × ℤ)) (score : Score) : ∃ next,
      appendMeasures key pulses score measures = .ok next ∧
      next.harmony.events.toList.map Event.pitches =
        score.harmony.events.toList.map Event.pitches ++ measures.flatMap (fun m =>
          List.replicate pulses.toNat (Measure.chord key m).pitches) ∧
      next.bass.events.toList.map Event.pitches =
        score.bass.events.toList.map Event.pitches ++ measures.flatMap (fun m =>
          List.replicate (Measure.bassCount pulses) [(Measure.chord key m).root - 24]) := by
  induction measures generalizing score with
  | nil => exact ⟨score, rfl, (List.append_nil _).symm, (List.append_nil _).symm⟩
  | cons m measures ih =>
    obtain ⟨notes, hnotes, hharmony, hbass⟩ := Measure.exists_blocks hk pulses m
    obtain ⟨next, hnext, hchords, hroots⟩ := ih (score.appendParts notes)
    refine ⟨next, ?_, ?_, ?_⟩
    · rw [appendMeasures, List.foldlM_cons, appendMeasure_eq_ok hnotes]
      exact hnext
    · rw [hchords, appendParts, Track.map_pitches_appendAll, hharmony, List.flatMap_cons,
        List.append_assoc]
    · rw [hroots, appendParts, Track.map_pitches_appendAll, hbass, List.flatMap_cons,
        List.append_assoc]

/-- In a key of seven steps within the octave every symbol, known or not, has a triad in every
register: three different pitches, the root the lowest, all within two octaves over the floor and
of offsets of the key. The triad of the bass register is that of the middle register two octaves
lower. So in any run of measures the bass plays the root of each measure's chord two octaves lower,
which is below the pitches of all chords. -/
theorem bass_under_chords {key : Key} (h : key.IsHeptatonic) :
    (∀ (symbol : Text) (register : ℤ),
      Chord.pitches symbol key register = .ok (Chord.triad symbol key register).pitches ∧
        (Chord.triad symbol key register).StandsOn key (register + key.pitchClass)) ∧
    (∀ symbol : Text, Chord.pitches symbol key Measure.bassRegister =
      List.map (· - 24) <$> Chord.pitches symbol key Measure.harmonyRegister) ∧
    ∀ (pulses : ℤ) (measures : List (Section × ℤ)) (score : Score), ∃ next,
      appendMeasures key pulses score measures = .ok next ∧
      next.harmony.events.toList.map Event.pitches =
        score.harmony.events.toList.map Event.pitches ++ measures.flatMap (fun m =>
          List.replicate pulses.toNat (Measure.chord key m).pitches) ∧
      next.bass.events.toList.map Event.pitches =
        score.bass.events.toList.map Event.pitches ++ measures.flatMap (fun m =>
          List.replicate (Measure.bassCount pulses) [(Measure.chord key m).root - 24]) ∧
      ∀ m m' : Section × ℤ, ∀ pitch ∈ (Measure.chord key m').pitches,
        (Measure.chord key m).root - 24 < pitch := by
  have hk : key.scale.isEmpty = false := by simpa using h.isAscending.ne_nil
  refine ⟨fun symbol register => ⟨Chord.pitches_eq_triad hk symbol register,
    Chord.triad_standsOn h symbol register⟩, fun symbol => ?_, fun pulses measures score => ?_⟩
  · rw [Chord.pitches_eq_triad hk, Chord.pitches_eq_triad hk, Measure.pitches_triad_bass]
    rfl
  · obtain ⟨next, hnext, hchords, hroots⟩ := appendMeasures_blocks hk pulses measures score
    refine ⟨next, hnext, hchords, hroots, fun m m' pitch hpitch => ?_⟩
    have hroot := (Chord.triad_standsOn h (Measure.chordSymbol m.1 m.2)
      Measure.harmonyRegister).root_le
    have hfloor := (Chord.triad_standsOn h (Measure.chordSymbol m'.1 m'.2)
      Measure.harmonyRegister).pitch_mem pitch hpitch
    rw [Measure.chord]
    omega

/-- A key whose scale is of no named key, the highest symbol and one that is not known, in five
pulses. -/
theorem bass_under_chords_doubleHarmonic :
    (⟨62, [0, 1, 4, 5, 7, 8, 11]⟩ : Key).IsHeptatonic ∧
    (Chord.triad "VII" ⟨62, [0, 1, 4, 5, 7, 8, 11]⟩ 60).StandsOn ⟨62, [0, 1, 4, 5, 7, 8, 11]⟩ 62 ∧
    ∃ next, appendMeasures ⟨62, [0, 1, 4, 5, 7, 8, 11]⟩ 5 (empty 90 .common)
        [({ Repair.defaultSection with progression := ["VII", "?"] }, 0),
          ({ Repair.defaultSection with progression := ["VII", "?"] }, 1)] = .ok next ∧
      next.harmony.events.toList.map Event.pitches =
        List.replicate 5 [70, 74, 75] ++ List.replicate 5 [62, 66, 67] ∧
      next.bass.events.toList.map Event.pitches = [[46], [46], [38], [38]] := by
  have hkey : (⟨62, [0, 1, 4, 5, 7, 8, 11]⟩ : Key).IsHeptatonic := by decide
  obtain ⟨htriad, -, hrun⟩ := bass_under_chords hkey
  obtain ⟨next, hnext, hchords, hroots, -⟩ := hrun 5
    [({ Repair.defaultSection with progression := ["VII", "?"] }, 0),
      ({ Repair.defaultSection with progression := ["VII", "?"] }, 1)] (empty 90 .common)
  exact ⟨hkey, (htriad "VII" 60).2, next, hnext, hchords, hroots⟩

end Score
end TrioScore
