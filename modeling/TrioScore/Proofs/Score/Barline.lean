import Mathlib.Algebra.Group.Action.Defs
import TrioScore.Proofs.Score.Gapless

/-!
# Up to the barline

The melody of a measure is a block of notes that fills the measure: every note but the last ends
before the barline, and the last one ends there or up to a beat behind it. Of a motif the block
plays as many degrees as find room, in their order, and the tonic only after all of them.

The time left is counted down in binary64 and a measure counts as full when a hundredth of a beat or
less is left. Every difference is exact, so the countdown is that in sixteenths, and it ends.
-/

namespace TrioScore
open Binary64

namespace Measure

/-- There is room for another note. -/
def hasRoom (left : Binary64) : Bool := (ofRat (1 / 100)).less left

/-- Notes of given shares are placed while there is room, and some time is left after them. -/
inductive Places : Binary64 → List Binary64 → List NoteLength → Binary64 → Prop
  | nil (left : Binary64) : Places left [] [] left
  | full {left share : Binary64} (shares : List Binary64) (h : hasRoom left = false) :
      Places left (share :: shares) [] left
  | cons {left share rest : Binary64} {shares : List Binary64} {length : NoteLength}
      {lengths : List NoteLength} (h : hasRoom left = true)
      (hlength : length = .nearest (if share.less left then share else left))
      (hrest : Places (left - length.beats) shares lengths rest) :
      Places left (share :: shares) (length :: lengths) rest

/-- Notes fill a time until there is no room. -/
inductive Fills : Binary64 → List NoteLength → Prop
  | full {left : Binary64} (h : hasRoom left = false) : Fills left []
  | cons {left : Binary64} {length : NoteLength} {lengths : List NoteLength}
      (h : hasRoom left = true) (hlength : length = .nearest left)
      (hrest : Fills (left - length.beats) lengths) : Fills left (length :: lengths)

theorem hasRoom_sixteenthBeats {remaining : ℤ} (h : |remaining| ≤ 64) :
    hasRoom (sixteenthBeats remaining) = decide (0 < remaining) := by
  rw [Bool.eq_iff_iff, decide_eq_true_iff]
  exact hundredth_less_iff h

/-- A note that begins in the measure leaves no more than the measure, and is at most a quarter too
long for what is left. -/
theorem abs_sub_sixteenths_le {remaining : ℤ} (h₀ : 0 < remaining) (h₁ : remaining ≤ 64) {n : ℕ}
    (hn : n ≤ remaining + 4) : |remaining - n| ≤ 64 :=
  abs_le.mpr ⟨by omega, by omega⟩

theorem places_fitLengths {remaining : ℤ} (h : |remaining| ≤ 64) (shares : List Binary64) :
    Places (sixteenthBeats remaining) shares (fitLengths remaining shares).1
      (sixteenthBeats (fitLengths remaining shares).2) := by
  induction shares generalizing remaining with
  | nil => exact .nil _
  | cons share shares ih =>
    have hroom := hasRoom_sixteenthBeats h
    rcases le_or_gt remaining 0 with hle | hpos
    · rw [fitLengths_of_nonpos hle]
      exact .full shares (hroom.trans (decide_eq_false hle.not_gt))
    · have h₁ := (abs_le.mp h).2
      have hshort := (fitLength_spec hpos h₁ share).1
      have hrest := ih (abs_sub_sixteenths_le hpos h₁ hshort)
      rw [← sixteenthBeats_sub h] at hrest
      rw [fitLengths_of_pos hpos]
      exact .cons (hroom.trans (decide_eq_true hpos)) rfl hrest

theorem fills_fillLengths {remaining : ℤ} (h : |remaining| ≤ 64) :
    Fills (sixteenthBeats remaining) (fillLengths remaining) := by
  induction remaining using fillLengths.induct with
  | case1 remaining hle =>
    rw [fillLengths_of_nonpos hle]
    exact .full ((hasRoom_sixteenthBeats h).trans (decide_eq_false hle.not_gt))
  | case2 remaining hpos length ih =>
    have h₁ := (abs_le.mp h).2
    have hlength : length.sixteenths = _ := sixteenths_nearest_remaining (not_le.mp hpos) h₁
    have hshort : length.sixteenths ≤ remaining + 4 := by
      split_ifs at hlength
      all_goals omega
    have hrest := ih (abs_sub_sixteenths_le (not_le.mp hpos) h₁ hshort)
    rw [← sixteenthBeats_sub h] at hrest
    rw [fillLengths_of_pos (not_le.mp hpos)]
    exact .cons ((hasRoom_sixteenthBeats h).trans (decide_eq_true (not_le.mp hpos))) rfl hrest

/-- Every note that fills a time begins before its end. -/
theorem total_take_fillLengths (remaining : ℤ) : ∀ i < (fillLengths remaining).length,
    (total ((fillLengths remaining).take i) : ℤ) < remaining := by
  induction remaining using fillLengths.induct with
  | case1 remaining hle =>
    rw [fillLengths_of_nonpos hle]
    intro i hi
    cases hi
  | case2 remaining hpos length ih =>
    rw [fillLengths_of_pos (not_le.mp hpos)]
    intro i hi
    cases i with
    | zero => exact not_le.mp hpos
    | succ i =>
      have hrest := ih i (Nat.lt_of_succ_lt_succ hi)
      rw [List.take_succ_cons, total_cons, Nat.cast_add]
      exact lt_sub_iff_add_lt'.mp hrest

/-- So does every note that is placed before those. -/
theorem total_take_lengths {remaining : ℤ} {shares : List Binary64} {i : ℕ}
    (hi : i < ((fitLengths remaining shares).1 ++
      fillLengths (fitLengths remaining shares).2).length) :
    (total (((fitLengths remaining shares).1 ++
      fillLengths (fitLengths remaining shares).2).take i) : ℤ) < remaining := by
  induction shares generalizing remaining i with
  | nil => exact total_take_fillLengths remaining i hi
  | cons share shares ih =>
    rcases le_or_gt remaining 0 with hle | hpos
    · rw [fitLengths_of_nonpos hle, List.nil_append, fillLengths_of_nonpos hle] at hi
      cases hi
    · rw [fitLengths_of_pos hpos] at hi ⊢
      cases i with
      | zero => exact hpos
      | succ i =>
        have hrest := ih (Nat.lt_of_succ_lt_succ hi)
        rw [List.cons_append, List.take_succ_cons, total_cons, Nat.cast_add]
        exact lt_sub_iff_add_lt'.mp hrest

theorem left_fitLengths (remaining : ℤ) (shares : List Binary64) :
    (fitLengths remaining shares).2 = remaining - total (fitLengths remaining shares).1 := by
  induction shares generalizing remaining with
  | nil => exact (sub_zero remaining).symm
  | cons share shares ih =>
    unfold fitLengths
    split_ifs
    · exact (sub_zero remaining).symm
    · dsimp only
      rw [ih, total_cons, Nat.cast_add, sub_sub]

/-- A note finds no place only where nothing is left. -/
theorem left_fitLengths_nonpos {remaining : ℤ} {shares : List Binary64}
    (h : (fitLengths remaining shares).1.length < shares.length) :
    (fitLengths remaining shares).2 ≤ 0 := by
  induction shares generalizing remaining with
  | nil => exact absurd h (Nat.lt_irrefl 0)
  | cons share shares ih =>
    unfold fitLengths at h ⊢
    split_ifs at h ⊢ with hle
    · exact hle
    · exact ih (Nat.lt_of_succ_lt_succ h)

theorem total_append (lengths more : List NoteLength) :
    total (lengths ++ more) = total lengths + total more := by
  rw [total, List.map_append, List.sum_append]
  rfl

theorem length_le_total (lengths : List NoteLength) : lengths.length ≤ total lengths := by
  induction lengths with
  | nil => exact le_rfl
  | cons length lengths ih =>
    rw [total_cons, List.length_cons]
    have := length.sixteenths_pos
    omega

theorem total_replicate (n : ℕ) (length : NoteLength) :
    total (List.replicate n length) = n * length.sixteenths := by
  rw [total, List.map_replicate, List.sum_replicate, smul_eq_mul]

theorem total_take_melodyLengths {q : ℕ} {motif : Option Motif} {i : ℕ}
    (hi : i < (melodyLengths q motif).length) : total ((melodyLengths q motif).take i) < 4 * q := by
  have hpulses : i < (List.replicate (q : ℤ).toNat NoteLength.quarter).length →
      total ((List.replicate (q : ℤ).toNat NoteLength.quarter).take i) < 4 * q := by
    intro h
    rw [List.length_replicate, Int.toNat_natCast] at h
    rw [List.take_replicate, total_replicate, Int.toNat_natCast, min_eq_left h.le,
      NoteLength.sixteenths]
    omega
  cases motif with
  | none => exact hpulses hi
  | some motif =>
    dsimp only [melodyLengths] at hi ⊢
    split_ifs at hi ⊢
    · exact hpulses hi
    · have h := total_take_lengths hi
      rw [motifLengths]
      omega

/-- How many beats notes last, exactly. -/
def playingTime (notes : List Note) : ℚ := (notes.map fun note => note.beats.toRat).sum

theorem playingTime_take {notes : List Note} {lengths : List NoteLength}
    (h : notes.map Note.beats = lengths.map NoteLength.beats) (i : ℕ) :
    playingTime (notes.take i) = (total (lengths.take i) : ℚ) / 4 := by
  refine (Lasting.of_map_beats ?_).sum_beats
  rw [List.map_take, h, List.map_take]

theorem playingTime_eq {notes : List Note} {lengths : List NoteLength}
    (h : notes.map Note.beats = lengths.map NoteLength.beats) :
    playingTime notes = (total lengths : ℚ) / 4 := (Lasting.of_map_beats h).sum_beats

/-- Notes of the written lengths that fill a measure of so many beats: all but the last end before
the barline, and the last one ends at most a beat behind it, on a quarter of a beat. -/
structure IsBlock (q : ℕ) (notes : List Note) : Prop where
  length_le : notes.length ≤ 4 * q
  beats_mem : ∀ note ∈ notes, note.beats.isFinite = true ∧
    note.beats.toRat ∈ ([4, 2, 1, 1 / 2, 1 / 4] : List ℚ)
  before_barline : ∀ i, i + 1 < notes.length → playingTime (notes.take (i + 1)) < q
  overrun : ∃ k : ℕ, k ≤ 4 ∧ playingTime notes = q + k / 4

theorem isBlock_of_map_beats {q : ℕ} (hq : q ≤ 16) {motif : Option Motif} {notes : List Note}
    (h : notes.map Note.beats = (melodyLengths q motif).map NoteLength.beats) :
    IsBlock q notes := by
  have hlength : notes.length = (melodyLengths q motif).length := by
    simpa only [List.length_map] using congrArg List.length h
  refine ⟨?_, fun note hnote => ?_, fun i hi => ?_, ?_⟩
  · -- the notes before the last last at least a sixteenth each
    rw [hlength]
    rcases Nat.eq_zero_or_pos (melodyLengths q motif).length with hzero | hpos
    · omega
    · have hbegins := total_take_melodyLengths (Nat.sub_one_lt_of_lt hpos)
      have hcount := length_le_total ((melodyLengths q motif).take
        ((melodyLengths q motif).length - 1))
      rw [List.length_take] at hcount
      omega
  · obtain ⟨length, hbeats⟩ := (Lasting.of_map_beats h).exists_length note hnote
    rw [hbeats]
    exact ⟨length.isFinite_beats, length.toRat_beats_mem⟩
  · rw [playingTime_take h, div_lt_iff₀ four_pos]
    have hbegins := total_take_melodyLengths (hlength ▸ hi)
    exact_mod_cast hbegins.trans_eq (Nat.mul_comm 4 q)
  · obtain ⟨excess, hsum, hexcess, -⟩ := total_melodyLengths hq motif
    refine ⟨excess, hexcess, ?_⟩
    rw [playingTime_eq h, hsum]
    push_cast
    ring

/-- Notes that play degrees in their order, as many as find room in a measure, and behind all of
them the tonic. -/
def PlaysDegrees (key : Key) (q : ℕ) (degrees : List ℤ) (notes : List Note) : Prop :=
  ∃ (placed : ℕ) (pitches : List ℤ) (sustained : ℕ), placed ≤ degrees.length ∧
    (degrees.take placed).mapM key.degreePitch = .ok pitches ∧
    notes.map Note.pitches =
      pitches.map (fun pitch => [pitch]) ++ List.replicate sustained [key.tonic + 12] ∧
    (0 < sustained → placed = degrees.length) ∧
    (placed < degrees.length → q ≤ playingTime (notes.take placed))

theorem playsDegrees_of_motifNotes {key : Key} (hk : key.scale.isEmpty = false) {q : ℕ}
    {motif : Motif} {velocity : ℤ} {notes : List Note}
    (h : motifNotes key q motif velocity = .ok notes) : PlaysDegrees key q motif.degrees notes := by
  obtain ⟨pitch, hpitch⟩ := Key.exists_degreePitch hk
  rw [motifNotes_eq hpitch] at h
  obtain rfl := Except.ok.inj h
  have hlength := length_fitLengths_shares_le q motif
  have hshares : (shares q motif).length = motif.degrees.length := by simp [shares, weights]
  have hleft := left_fitLengths (4 * q) (shares q motif)
  have hfull := @left_fitLengths_nonpos (4 * q) (shares q motif)
  rw [hshares] at hfull
  generalize fitLengths (4 * (q : ℤ)) (shares q motif) = placed at *
  have hdegrees : (motif.degrees.zip placed.1).map Prod.fst =
      motif.degrees.take placed.1.length := by
    rw [List.zip_eq_zip_take_min, Nat.min_eq_right hlength, List.map_fst_zip]
    simp [hlength]
  refine ⟨placed.1.length, (motif.degrees.take placed.1.length).map pitch,
    (fillLengths placed.2).length, hlength, mapM_eq_ok fun d _ => hpitch d, ?_, ?_, ?_⟩
  · rw [List.map_append, List.map_map, List.map_map, ← hdegrees, List.map_map, List.map_map]
    congr 1
    exact List.map_const'
  · intro hsustained
    by_contra hne
    rw [fillLengths_of_nonpos (hfull (lt_of_le_of_ne hlength hne))] at hsustained
    exact lt_irrefl 0 hsustained
  · intro hlt
    have htime : 4 * q ≤ total placed.1 := by
      have := hfull hlt
      omega
    have hbeats : ((motif.degrees.zip placed.1).map fun note =>
        single (pitch note.1) note.2.beats velocity).map Note.beats =
          placed.1.map NoteLength.beats := by
      conv_rhs => rw [← List.map_snd_zip hlength, List.map_map]
      rw [List.map_map]
      rfl
    rw [List.take_left' (by simp [hlength]), playingTime_eq hbeats, le_div_iff₀ four_pos]
    exact_mod_cast (Nat.mul_comm q 4).trans_le htime

/-- The lengths of a melody are what the countdown in binary64 comes to. -/
theorem motifLengths_of_countdown {q : ℕ} (hq : q ≤ 16) (motif : Motif) :
    ∃ (placed sustained : List NoteLength) (left : Binary64),
      Places (ofRat q) (shares q motif) placed left ∧ Fills left sustained ∧
      motifLengths q motif = placed ++ sustained := by
  have hsize : |4 * (q : ℤ)| ≤ 64 := abs_le.mpr ⟨by omega, by omega⟩
  have hstart : sixteenthBeats (4 * q) = ofRat q := by
    rw [sixteenthBeats_eq]
    congr 1
    push_cast
    ring
  have hplaces := places_fitLengths hsize (shares q motif)
  rw [hstart] at hplaces
  refine ⟨_, _, _, hplaces, fills_fillLengths ?_, rfl⟩
  obtain ⟨excess, hsum, hexcess, -⟩ :=
    total_fitLengths (by omega : 0 ≤ 4 * (q : ℤ)) (by omega) (shares q motif)
  rw [total_append] at hsum
  rw [left_fitLengths] at hsum ⊢
  exact abs_le.mpr ⟨by omega, by omega⟩

end Measure

/-- The melody that a measure of any finite length puts on a score, in any key with a scale and of
any section: a block that fills the measure. The notes of a motif are those of the countdown in
binary64, which ends, and a degree is left out only when the measure is full. -/
theorem Score.melody_block {key : Key} (hk : key.scale ≠ []) {beats : Binary64}
    (hb : beats.isFinite = true) (s : Section) (measure : ℤ) (score : Score) :
    ∃ (q : ℕ) (next : Score) (notes : List Note),
      Meter.pulses (.real beats) = .ok q ∧ 1 ≤ q ∧ q ≤ 16 ∧
      score.appendMeasure key q s measure = .ok next ∧
      next.melody = score.melody.appendAll notes ∧ Measure.IsBlock q notes ∧
      ∀ motif, Measure.motif? s measure = some motif → motif.degrees ≠ [] →
        Measure.PlaysDegrees key q motif.degrees notes ∧
        ∃ placed sustained left, Measure.Places (ofRat q) (Measure.shares q motif) placed left ∧
          Measure.Fills left sustained ∧
          notes.map Note.beats = (placed ++ sustained).map NoteLength.beats := by
  have hscale : key.scale.isEmpty = false := List.isEmpty_eq_false_iff.mpr hk
  obtain ⟨q, hq, hq₁, hq₂⟩ := Meter.pulses_of_isFinite hb
  obtain ⟨notes, hnotes, hbeats, -⟩ := Measure.parts_eq_ok hscale q s measure
  refine ⟨q, score.appendParts notes, notes.melody, hq, hq₁, hq₂, appendMeasure_eq_ok hnotes score,
    rfl, Measure.isBlock_of_map_beats hq₂ hbeats, fun motif hmotif hne => ?_⟩
  have hdegrees : motif.degrees.isEmpty = false := List.isEmpty_eq_false_iff.mpr hne
  have hmelody := Measure.melody_of_parts hnotes
  rw [hmotif, Measure.melodyNotes, hdegrees, if_neg Bool.false_ne_true] at hmelody
  rw [hmotif, Measure.melodyLengths, hdegrees, if_neg Bool.false_ne_true] at hbeats
  obtain ⟨placed, sustained, left, hplaces, hfills, hlengths⟩ :=
    Measure.motifLengths_of_countdown hq₂ motif
  exact ⟨Measure.playsDegrees_of_motifNotes hscale hmelody, placed, sustained, left, hplaces,
    hfills, hlengths ▸ hbeats⟩

/-- A section whose one motif has weights that are no use, one too many, and degrees far out. -/
def looseSection : Section :=
  ⟨"", -1, ["?"], [⟨[1, -40, 99], [.nan, .infinity false, ofRat (-1), ofRat (5 / 2)]⟩], "", "",
    none⟩

/-- Three and three tenths are three beats, which that motif fills in a key of three steps. -/
theorem Score.melody_block_looseSection : ∃ (next : Score) (notes : List Note),
    Meter.pulses (.real (ofRat (33 / 10))) = .ok 3 ∧
    (empty 0 .common).appendMeasure ⟨61, [0, 1, 5]⟩ 3 looseSection (-3) = .ok next ∧
    next.melody = (empty 0 .common).melody.appendAll notes ∧ Measure.IsBlock 3 notes ∧
    Measure.PlaysDegrees ⟨61, [0, 1, 5]⟩ 3 [1, -40, 99] notes := by
  have hpulses : Meter.pulses (.real (ofRat (33 / 10))) = .ok 3 := by decide +kernel
  have hb : (ofRat (33 / 10)).isFinite = true := by decide +kernel
  obtain ⟨q, next, notes, hq, -, -, hnext, hmelody, hblock, hplays⟩ :=
    @melody_block ⟨61, [0, 1, 5]⟩ (by decide) _ hb looseSection (-3) (empty 0 .common)
  obtain rfl : q = 3 := by exact_mod_cast Except.ok.inj (hq.symm.trans hpulses)
  exact ⟨next, notes, hpulses, hnext, hmelody, hblock, (hplays _ rfl (by decide)).1⟩

end TrioScore
