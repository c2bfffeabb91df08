import TrioScore.Proofs.Score.Melody
import TrioScore.Proofs.Score.Timeline

/-!
# Aligned scores

A score is aligned at a time when each of its tracks ends exactly there. Measures of up to four
pulses, none of whose motifs runs over, keep a score aligned; so does each measure of the emergency
phrase, whose four notes add up to the measure they are a fourth of.
-/

namespace TrioScore

/-- The number is exactly this value. -/
structure Binary64.HasValue (x : Binary64) (q : ℚ) : Prop where
  isFinite : x.isFinite = true
  toRat : x.toRat = q

theorem Binary64.hasValue_ofRat {q : ℚ} (h : IsExact q) : (ofRat q).HasValue q :=
  ⟨isFinite_ofRat h, toRat_ofRat h⟩

theorem Meter.hasValue_quarterBeats {meter : Meter} (h : meter.InRange) :
    meter.quarterBeats.HasValue ((4 * meter.numerator : ℤ) / meter.denominator) :=
  Binary64.hasValue_ofRat (isExact_quarterBeats h)

theorem Measure.not_melodyRunsOver_motif? {pulses : ℤ} {s : Section}
    (h : ∀ motif ∈ s.motifs, ¬ MelodyRunsOver pulses (some motif)) (measure : ℤ) :
    ¬ MelodyRunsOver pulses (motif? s measure) := by
  cases hm : motif? s measure with
  | none => exact id
  | some motif => exact h motif (List.mem_of_getElem? hm)

/-- Every track ends exactly at this time. -/
def Score.AlignedAt (score : Score) (time : ℚ) : Prop :=
  ∀ track ∈ score.tracks, track.cursor.HasValue time

namespace Score
open Binary64

theorem alignedAt_iff {score : Score} {time : ℚ} : score.AlignedAt time ↔
    score.melody.cursor.HasValue time ∧ score.harmony.cursor.HasValue time ∧
      score.bass.cursor.HasValue time :=
  forall_mem_tracks

/-- After `n` measures of `p` pulses the melody is at the barline too. -/
structure AtBarline (p n : ℕ) (score : Score) : Prop extends After p n score where
  melody : score.melody.cursor = ofRat (n * p : ℕ)

theorem atBarline_empty (p : ℕ) (tempo : ℤ) (meter : Meter) :
    AtBarline p 0 (empty tempo meter) where
  toAfter := after_empty p tempo meter
  melody := by
    rw [Nat.zero_mul, Nat.cast_zero]
    rfl

section Measures
variable {p n : ℕ} {score : Score} {key : Key}

/-- A measure whose motif does not run over takes the melody to the next barline. -/
theorem AtBarline.appendParts (h : AtBarline p n score) (hp : p ≤ 16)
    (hsize : (n + 1) * p ≤ 2 ^ 51) (hk : key.scale.isEmpty = false) {s : Section} {measure : ℤ}
    {notes : Parts} (hn : Measure.parts key p s measure = .ok notes)
    (hfit : ¬ Measure.MelodyRunsOver p (Measure.motif? s measure)) :
    AtBarline p (n + 1) (score.appendParts notes) where
  toAfter := h.toAfter.appendParts hk hn
  melody := by
    obtain ⟨_, hok, hbeats, -⟩ := Measure.parts_eq_ok hk p s measure
    obtain rfl := Except.ok.inj (hn.symm.trans hok)
    obtain ⟨excess, htotal, -, hiff⟩ :=
      Measure.total_melodyLengths hp (Measure.motif? s measure)
    rw [hiff.mpr hfit, Nat.add_zero] at htotal
    -- the lengths of a melody are summed exactly in quarters of a beat, up to 2^53 of them
    have hsize' : (2 * octaveSize : ℤ) = 4 * 2 ^ 51 := by norm_num [octaveSize]
    have hbound : ((n * p + p : ℕ) : ℤ) ≤ 2 ^ 51 := by
      rw [← Nat.succ_mul]
      exact_mod_cast hsize
    have hstart : score.melody.cursor = ofRat ((4 * (n * p : ℕ) : ℤ) / 4) := by
      rw [h.melody]
      congr 1
      push_cast
      ring
    have hsum := foldl_beats (c := 4 * (n * p : ℕ))
      (Measure.melodyLengths p (Measure.motif? s measure)) (by omega) (by omega)
    rw [Score.appendParts, Track.cursor_appendAll, hbeats, hstart, hsum, htotal]
    congr 1
    push_cast
    ring

/-- Measures whose motifs do not run over take all voices from barline to barline. -/
theorem AtBarline.appendMeasures (h : AtBarline p n score) (hp : p ≤ 16)
    (hk : key.scale.isEmpty = false) {measures : List (Section × ℤ)}
    (hsize : (n + measures.length) * p ≤ 2 ^ 51)
    (hfit : ∀ m ∈ measures, ¬ Measure.MelodyRunsOver p (Measure.motif? m.1 m.2)) : ∃ next,
      appendMeasures key p score measures = .ok next ∧ AtBarline p (n + measures.length) next := by
  induction measures generalizing score n with
  | nil => exact ⟨score, rfl, h⟩
  | cons m measures ih =>
    obtain ⟨hm, hmeasures⟩ := List.forall_mem_cons.mp hfit
    obtain ⟨notes, hn, -⟩ := Measure.parts_eq_ok hk p m.1 m.2
    rw [List.length_cons, ← Nat.succ_add_eq_add_succ] at hsize ⊢
    have hfirst : (n + 1) * p ≤ 2 ^ 51 :=
      (Nat.mul_le_mul_right p (Nat.le_add_right _ _)).trans hsize
    obtain ⟨next, hnext, hnextBarline⟩ := ih (h.appendParts hp hfirst hk hn hm) hsize hmeasures
    refine ⟨next, ?_, hnextBarline⟩
    rw [Score.appendMeasures, List.foldlM_cons, appendMeasure_eq_ok hn]
    exact hnext

/-- In measures of up to four pulses the bass is at the barline too. -/
theorem AtBarline.alignedAt (h : AtBarline p n score) (hp : p ≤ 4) (hsize : n * p ≤ 2 ^ 51) :
    score.AlignedAt (n * p : ℕ) := by
  have hharmony : score.harmony.cursor = ofRat (n * p : ℕ) := by
    have hmin : min (n * p) (2 * octaveSize) = n * p :=
      min_eq_left (hsize.trans (by norm_num [octaveSize]))
    rw [h.harmony, steps, hmin, one_mul]
  have hbass : score.bass.cursor = score.harmony.cursor := by
    rw [h.bass_eq_harmony_iff]
    rcases Nat.lt_or_ge 3 p with h₄ | h₃
    · obtain rfl : p = 4 := by omega
      omega
    · exact .inl h₃
  have hvalue : (ofRat (n * p : ℕ)).HasValue (n * p : ℕ) :=
    hasValue_ofRat (isExact_natCast (hsize.trans (by norm_num [octaveSize])))
  rw [alignedAt_iff, h.melody, hbass, hharmony]
  exact ⟨hvalue, hvalue, hvalue⟩

end Measures

end Score

namespace Track
open Binary64

/-- Notes of one length lie end to end from the cursor on, each at its multiple of the length. -/
theorem appendAll_of_equal_beats {k : ℕ} {notes : List Note}
    (hnotes : ∀ note ∈ notes, note.beats = ofRat (k / 16)) {track : Track} {time : ℕ}
    (ht : track.cursor = ofRat (time / 16))
    (hl : time + k * notes.length ≤ 2 * octaveSize) :
    (track.appendAll notes).cursor = ofRat ((time + k * notes.length : ℕ) / 16) ∧
      ∀ i, (hi : i < notes.length) →
        ∃ e : Event, (track.appendAll notes).events[track.events.size + i]? = some e ∧
          e.pitches = notes[i].pitches ∧ e.start = ofRat ((time + k * i : ℕ) / 16) := by
  induction notes generalizing track time with
  | nil => exact ⟨ht, fun i hi => absurd hi (Nat.not_lt_zero i)⟩
  | cons note notes ih =>
    obtain ⟨hnote, hnotes⟩ := List.forall_mem_cons.mp hnotes
    rw [List.length_cons, Nat.mul_succ] at hl
    have hcursor := cursor_append_sixteenths ht hnote (by omega)
    obtain ⟨hend, hevents⟩ := ih hnotes hcursor (by omega)
    have hshift (j : ℕ) : time + k + k * j = time + k * (j + 1) := by ring
    refine ⟨?_, fun i hi => ?_⟩
    · rw [appendAll_cons, hend, hshift, List.length_cons]
    · cases i with
      | zero =>
        exact ⟨track.place note, track.getElem?_events_appendAll_cons note notes, rfl, ht⟩
      | succ i =>
        obtain ⟨e, he, hpitches, hstart⟩ := hevents i (Nat.lt_of_succ_lt_succ hi)
        refine ⟨e, ?_, hpitches, hstart.trans (by rw [hshift])⟩
        rw [appendAll_cons, ← he, size_events_append]
        congr 1
        omega

/-- On an empty track, `c` such notes to a bar, every bar starts at its multiple of the length of
one. -/
theorem empty_appendAll_of_equal_beats (name : Text) (channel : ℤ) (c bars : ℕ) {k : ℕ}
    {notes : List Note} (hnotes : ∀ note ∈ notes, note.beats = ofRat (k / 16))
    (hlength : notes.length = c * bars) (hl : k * (c * bars) ≤ 2 * octaveSize) {beats : ℚ}
    (hbeats : beats = k * c / 16) :
    ((empty name channel).appendAll notes).cursor.HasValue (bars * beats) ∧
      ∀ bar, (hi : c * bar < notes.length) →
        ∃ e : Event, ((empty name channel).appendAll notes).events[c * bar]? = some e ∧
          e.pitches = notes[c * bar].pitches ∧ e.start.HasValue (bar * beats) := by
  have hvalue (bar : ℕ) (hbar : c * bar ≤ c * bars) :
      ∀ x, x = ofRat ((0 + k * (c * bar) : ℕ) / 16) → x.HasValue (bar * beats) := by
    rintro _ rfl
    have hq : bar * beats = (k * (c * bar) : ℕ) / 16 := by
      rw [hbeats]
      push_cast
      ring
    rw [Nat.zero_add, hq]
    exact hasValue_ofRat (isExact_sixteenths ((Nat.mul_le_mul_left k hbar).trans hl))
  have hstart : (empty name channel).cursor = ofRat ((0 : ℕ) / 16) := by
    rw [Nat.cast_zero, zero_div]
    rfl
  obtain ⟨hend, hevents⟩ :=
    appendAll_of_equal_beats hnotes hstart (by rwa [Nat.zero_add, hlength])
  rw [hlength] at hend
  refine ⟨hvalue bars le_rfl _ hend, fun bar hi => ?_⟩
  obtain ⟨e, he, hpitches, htime⟩ := hevents (c * bar) hi
  refine ⟨e, ?_, hpitches, hvalue bar (hlength ▸ hi.le) _ htime⟩
  rwa [← Nat.zero_add (c * bar)]

end Track

namespace Score
open Binary64

/-- The emergency phrase fills its two measures, and in each of them the first note of the melody,
the chord and the bass start at the barline. -/
theorem emergency_alignedAt (tempo : ℤ) {meter : Meter} (h : meter.InRange) :
    (emergency tempo meter).AlignedAt (2 * meter.quarterBeats.toRat) ∧
      ∀ (k : ℕ) bar, emergencyMeasures[k]? = some bar → ∃ note chord root : Event,
        (emergency tempo meter).melody.events[4 * k]? = some note ∧
        (emergency tempo meter).harmony.events[k]? = some chord ∧
        (emergency tempo meter).bass.events[k]? = some root ∧
        note.pitches = bar.1.take 1 ∧ chord.pitches = bar.2.1 ∧ root.pitches = [bar.2.2] ∧
        ∀ e ∈ [note, chord, root], e.start.HasValue (k * meter.quarterBeats.toRat) := by
  obtain ⟨m, h₁, h₂, hbeats, hfourth⟩ := Meter.exists_sixteenths h
  have hroom : 192 * 4 ≤ 2 * octaveSize := by decide
  have hmeasure := toRat_ofRat (isExact_sixteenths (n := 4 * m) (by omega))
  rw [← hbeats] at hmeasure
  push_cast at hmeasure
  have hmelodyBeats : ∀ note ∈ (emergencyParts meter).melody, note.beats = ofRat (m / 16) := by
    simp [emergencyParts, emergencyMeasures, hfourth]
  have hharmonyBeats : ∀ note ∈ (emergencyParts meter).harmony,
      note.beats = ofRat ((4 * m : ℕ) / 16) := by
    simp [emergencyParts, emergencyMeasures, hbeats]
  have hbassBeats : ∀ note ∈ (emergencyParts meter).bass,
      note.beats = ofRat ((4 * m : ℕ) / 16) := by
    simp [emergencyParts, emergencyMeasures, hbeats]
  obtain ⟨hmelody, hnotes⟩ := Track.empty_appendAll_of_equal_beats "Melody" 0 4 2
    hmelodyBeats rfl (by omega) (hmeasure.trans (by ring))
  obtain ⟨hharmony, hchords⟩ := Track.empty_appendAll_of_equal_beats "Harmony" 1 1 2
    hharmonyBeats rfl (by omega) (hmeasure.trans (by push_cast; ring))
  obtain ⟨hbass, hroots⟩ := Track.empty_appendAll_of_equal_beats "Bass" 2 1 2
    hbassBeats rfl (by omega) (hmeasure.trans (by push_cast; ring))
  simp only [one_mul] at hchords hroots
  refine ⟨alignedAt_iff.mpr ⟨hmelody, hharmony, hbass⟩, fun k bar hbar => ?_⟩
  have hk : k < 2 := (List.getElem?_eq_some_iff.mp hbar).1
  have hmelodyLength : 4 * k < (emergencyParts meter).melody.length :=
    Nat.mul_lt_mul_of_pos_left hk four_pos
  have hharmonyLength : k < (emergencyParts meter).harmony.length := hk
  have hbassLength : k < (emergencyParts meter).bass.length := hk
  obtain ⟨note, hnote, hnotePitches, hnoteStart⟩ := hnotes k hmelodyLength
  obtain ⟨chord, hchord, hchordPitches, hchordStart⟩ := hchords k hharmonyLength
  obtain ⟨root, hroot, hrootPitches, hrootStart⟩ := hroots k hbassLength
  have hpitches : (emergencyParts meter).melody[4 * k].pitches = bar.1.take 1 ∧
      (emergencyParts meter).harmony[k].pitches = bar.2.1 ∧
      (emergencyParts meter).bass[k].pitches = [bar.2.2] := by
    interval_cases k <;> cases hbar <;> exact ⟨rfl, rfl, rfl⟩
  exact ⟨note, chord, root, hnote, hchord, hroot, hnotePitches.trans hpitches.1,
    hchordPitches.trans hpitches.2.1, hrootPitches.trans hpitches.2.2,
    by simp [hnoteStart, hchordStart, hrootStart]⟩

end Score
end TrioScore
