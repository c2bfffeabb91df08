import TrioScore.Proofs.Binary64.Overflow
import TrioScore.Proofs.Binary64.Scaled
import TrioScore.Proofs.Piece.Defaults
import TrioScore.Proofs.Score.Alike
import TrioScore.Proofs.Score.Countdown

/-!
# Weights are relative

The weights of a motif are scaled to the length of a measure by one factor, the pulses over the
total weight. Times a power of two, weights and total grow and the factor shrinks with them, so
every note has the same share as before, as long as the total stays finite and the factor is a
normal number. When the total overflows the factor is zero and every note is a sixteenth; when the
factor overflows the first notes fill the measure.
-/

namespace TrioScore
open Binary64

namespace Measure

/-- The weights of a motif together. -/
def totalWeight (motif : Motif) : Binary64 := (weights motif).foldl (· + ·) (.ofRat 0)

/-- The time that falls to a weight of one. -/
def shareScale (pulses : ℤ) (motif : Motif) : Binary64 := .ofRat pulses / totalWeight motif

theorem shares_eq (pulses : ℤ) (motif : Motif) :
    shares pulses motif = (weights motif).map (· * shareScale pulses motif) := rfl

end Measure

/-- There is a weight for each degree, and the second motif has them times a power of two, all of
them normal numbers. -/
structure Motif.Rescaled (k : ℤ) (a b : Motif) : Prop where
  degrees : a.degrees = b.degrees
  length_rhythm : a.rhythm.length = a.degrees.length
  rhythm : List.Forall₂ (Scaled k) a.rhythm b.rhythm

/-- The total weight of the motif is finite, and so is the time for a weight of one, which is a
normal number besides. -/
structure Motif.InProportion (pulses : ℤ) (m : Motif) : Prop where
  isFinite_total : (Measure.totalWeight m).isFinite = true
  total_le : (Measure.totalWeight m).toRat ≤ pulses * 2 ^ 1022
  isFinite_scale : (Measure.shareScale pulses m).isFinite = true

/-- The second section is the first with other motifs. Each is the same as before or has its weights
times a power of two, in proportion to the measure before and after. -/
structure Section.Rescaled (pulses : ℤ) (s t : Section) : Prop where
  eq_with : t = { s with motifs := t.motifs }
  motifs : List.Forall₂ (fun a b => a = b ∨
    ∃ k, a.Rescaled k b ∧ a.InProportion pulses ∧ b.InProportion pulses) s.motifs t.motifs

namespace Measure

theorem weights_pos (m : Motif) : ∀ w ∈ weights m, w.isFinite = true ∧ 0 < w.toRat := by
  intro w hw
  obtain ⟨i, hi, rfl⟩ := List.mem_mapIdx.mp hw
  cases m.rhythm[i]? with
  | none => exact Repair.weight_pos .null
  | some w => exact weight_ofBinary64 w ▸ Repair.weight_pos (.ofBinary64 w)

theorem weights_eq_rhythm {m : Motif} (hlength : m.rhythm.length = m.degrees.length)
    (hpos : ∀ w ∈ m.rhythm, w.isFinite = true ∧ 0 < w.toRat) : weights m = m.rhythm := by
  apply List.ext_getElem
  · rw [weights, List.length_mapIdx, hlength]
  · intro i _ hi
    obtain ⟨hf, hw⟩ := hpos _ (List.getElem_mem hi)
    simp only [weights, List.getElem_mapIdx, List.getElem?_eq_getElem hi]
    exact usableWeight_of_pos hf hw

theorem isExact_pulses {pulses : ℤ} (h₀ : 0 < pulses) (h₁ : pulses ≤ 16) :
    IsExact (pulses : ℚ) := by
  refine isExact_int ?_
  rw [abs_of_pos h₀]
  unfold octaveSize
  omega

section Rescaled
variable {k : ℤ} {a b : Motif} (h : a.Rescaled k b)
include h

theorem scaled_weights : List.Forall₂ (Scaled k) (weights a) (weights b) := by
  have hleft := h.rhythm.imp fun _ _ hw => And.intro (And.intro hw.isFinite_left hw.pos_left) hw
  have hright := h.rhythm.flip.imp fun _ _ hw =>
    And.intro (And.intro hw.isFinite_right hw.pos_right) hw
  have hlength : b.rhythm.length = b.degrees.length := by
    rw [← h.rhythm.length_eq, h.length_rhythm, h.degrees]
  rw [weights_eq_rhythm h.length_rhythm ((List.forall₂_and_left _ _).mp hleft).1,
    weights_eq_rhythm hlength ((List.forall₂_and_left _ _).mp hright).1]
  exact h.rhythm

theorem scaled_totalWeight (hne : a.degrees ≠ []) (ha : (totalWeight a).isFinite = true)
    (hb : (totalWeight b).isFinite = true) : Scaled k (totalWeight a) (totalWeight b) := by
  have hweights := scaled_weights h
  have hsome : weights a ≠ [] := by
    rwa [weights, Ne, List.mapIdx_eq_nil_iff]
  unfold totalWeight at *
  generalize weights a = as at *
  generalize weights b = bs at *
  cases hweights with
  | nil => exact absurd rfl hsome
  | cons hfirst hrest =>
    rw [List.foldl_cons, ofRat_zero_add hfirst.isFinite_left hfirst.pos_left] at ha ⊢
    rw [List.foldl_cons, ofRat_zero_add hfirst.isFinite_right hfirst.pos_right] at hb ⊢
    exact hfirst.foldl_add hrest ha hb

theorem shares_of_rescaled {pulses : ℤ} (h₀ : 0 < pulses) (h₁ : pulses ≤ 16)
    (hne : a.degrees ≠ []) (ha : a.InProportion pulses) (hb : b.InProportion pulses) :
    shares pulses a = shares pulses b := by
  have hexact := isExact_pulses h₀ h₁
  have hnormal : ∀ t : ℚ, 0 < t → t ≤ pulses * 2 ^ 1022 → leastNormal ≤ pulses / t := by
    intro t ht hle
    have hinverse : leastNormal * 2 ^ 1022 = 1 := by
      rw [leastNormal, zpow_neg]
      exact inv_mul_cancel₀ (two_zpow_pos 1022).ne'
    rw [le_div_iff₀ ht]
    calc leastNormal * t ≤ leastNormal * (pulses * 2 ^ 1022) :=
          mul_le_mul_of_nonneg_left hle leastNormal_pos.le
      _ = pulses := by rw [mul_left_comm, hinverse, mul_one]
  have htotal := scaled_totalWeight h hne ha.isFinite_total hb.isFinite_total
  have hscale : Scaled (-k) (shareScale pulses a) (shareScale pulses b) :=
    htotal.div hexact (by exact_mod_cast h₀.le) (hnormal _ htotal.pos_left ha.total_le)
      (hnormal _ htotal.pos_right hb.total_le) ha.isFinite_scale hb.isFinite_scale
  have hshares : List.Forall₂ (· = ·) ((weights a).map (· * shareScale pulses a))
      ((weights b).map (· * shareScale pulses b)) := by
    rw [List.forall₂_map_left_iff, List.forall₂_map_right_iff]
    exact (scaled_weights h).imp fun _ _ hw => hw.mul hscale
  rwa [List.forall₂_eq_eq_eq] at hshares

end Rescaled

theorem melodyNotes_of_shares {a b : Motif} {pulses : ℤ} (hd : a.degrees = b.degrees)
    (hs : a.degrees ≠ [] → shares pulses a = shares pulses b) (key : Key) (velocity : ℤ) :
    melodyNotes key pulses (some a) velocity = melodyNotes key pulses (some b) velocity := by
  have hnotes : ∀ m, motifNotes key pulses m velocity = (do
      let placed ← (m.degrees.zip (fitLengths (4 * pulses) (shares pulses m)).1).mapM
        fun note => return single (← key.degreePitch note.1) note.2.beats velocity
      return placed ++ (fillLengths (fitLengths (4 * pulses) (shares pulses m)).2).map
        fun length => single (sustainPitch key) length.beats
          (scaleVelocity velocity (mkRat 45 100))) := fun _ => rfl
  simp only [melodyNotes, ← hd]
  split_ifs with hempty
  · rfl
  · rw [hnotes, hnotes, hd, hs fun hnil => hempty (List.isEmpty_iff.mpr hnil)]

theorem parts_of_rescaled {pulses : ℤ} (h₀ : 0 < pulses) (h₁ : pulses ≤ 16) {s t : Section}
    (h : s.Rescaled pulses t) (key : Key) (measure : ℤ) :
    parts key pulses s measure = parts key pulses t measure := by
  have hmelody : ∀ velocity, melodyNotes key pulses (motif? s measure) velocity =
      melodyNotes key pulses (motif? t measure) velocity := by
    refine fun velocity => melodyNotes_cycle? (h.motifs.imp fun a b hab => ?_) measure
    rcases hab with rfl | ⟨k, hk, ha, hb⟩
    · rfl
    · exact melodyNotes_of_shares hk.degrees
        (fun hne => shares_of_rescaled hk h₀ h₁ hne ha hb) key velocity
  have hsymbol : chordSymbol s measure = chordSymbol t measure := by rw [h.eq_with]; rfl
  have hdynamics : s.dynamics = t.dynamics := by rw [h.eq_with]
  simp only [parts, hsymbol, hdynamics, hmelody]

/-- A finite total is no less than the first weight. -/
theorem exists_weight_le_totalWeight {m : Motif} (hne : m.degrees ≠ [])
    (hf : (totalWeight m).isFinite = true) : ∃ w ∈ weights m, w.toRat ≤ (totalWeight m).toRat := by
  have hpos := weights_pos m
  have hsome : weights m ≠ [] := by rwa [weights, Ne, List.mapIdx_eq_nil_iff]
  unfold totalWeight at *
  obtain ⟨w, ws, hweights⟩ := List.exists_cons_of_ne_nil hsome
  rw [hweights] at hf hpos ⊢
  obtain ⟨hw, hws⟩ := List.forall_mem_cons.mp hpos
  rw [List.foldl_cons, ofRat_zero_add hw.1 hw.2] at hf ⊢
  exact ⟨w, List.mem_cons_self, toRat_le_foldl_add hws hf⟩

theorem totalWeight_pos {m : Motif} (hne : m.degrees ≠ [])
    (hf : (totalWeight m).isFinite = true) : 0 < (totalWeight m).toRat := by
  obtain ⟨w, hw, hle⟩ := exists_weight_le_totalWeight hne hf
  exact (weights_pos m w hw).2.trans_le hle

/-- Where every weight has the same share, the shares are that many of it. -/
theorem shares_eq_replicate {pulses : ℤ} {m : Motif} {share : Binary64}
    (h : ∀ w ∈ weights m, w * shareScale pulses m = share) :
    shares pulses m = List.replicate m.degrees.length share := by
  have hlength : (weights m).length = m.degrees.length := List.length_mapIdx
  rw [shares_eq, List.map_congr_left h, List.map_const', hlength]

section Overflow
variable {pulses : ℤ} (h₀ : 0 < pulses) (h₁ : pulses ≤ 16)
include h₀ h₁

theorem ofRat_pulses : (ofRat pulses).isFinite = true ∧ 0 < (ofRat pulses).toRat := by
  have hexact := isExact_pulses h₀ h₁
  rw [toRat_ofRat hexact]
  exact ⟨isFinite_ofRat hexact, by exact_mod_cast h₀⟩

theorem shareScale_of_infinite_total {m : Motif} (h : (totalWeight m).isFinite = false) :
    shareScale pulses m = zero false := by
  have hplus : (totalWeight m).IsPlus :=
    (isPlus_ofRat le_rfl).foldl_add fun w hw =>
      isPlus_of_pos (weights_pos m w hw).1 (weights_pos m w hw).2
  obtain ⟨hf, hpos⟩ := ofRat_pulses h₀ h₁
  rw [shareScale, hplus.eq_infinity h, div_infinity hf hpos]

/-- When the total overflows, no note has a share. -/
theorem shares_of_infinite_total {m : Motif} (h : (totalWeight m).isFinite = false) :
    shares pulses m = List.replicate m.degrees.length (zero false) := by
  refine shares_eq_replicate fun w hw => ?_
  rw [shareScale_of_infinite_total h₀ h₁ h,
    mul_zero_eq (weights_pos m w hw).1 (weights_pos m w hw).2]

/-- When the factor overflows, every share is infinite. -/
theorem shares_of_infinite_scale {m : Motif} (hne : m.degrees ≠ [])
    (h : (shareScale pulses m).isFinite = false) :
    shares pulses m = List.replicate m.degrees.length (infinity false) := by
  obtain ⟨hf, hpos⟩ := ofRat_pulses h₀ h₁
  have hplus : (shareScale pulses m).IsPlus := by
    cases htotal : (totalWeight m).isFinite with
    | true => exact isPlus_div hf hpos htotal (totalWeight_pos hne htotal)
    | false => exact shareScale_of_infinite_total h₀ h₁ htotal ▸ .finite _
  refine shares_eq_replicate fun w hw => ?_
  rw [hplus.eq_infinity h, mul_infinity (weights_pos m w hw).1 (weights_pos m w hw).2]

end Overflow

theorem fitLength_zero {remaining : ℤ} (h₀ : 0 < remaining) (h₁ : remaining ≤ 64) :
    fitLength remaining (zero false) = .sixteenth := by
  have habs : |remaining| ≤ 64 := by rwa [abs_of_pos h₀]
  have hless : (zero false).less (sixteenthBeats remaining) = true := by
    rw [NoteLength.zero_less_eq (isFinite_sixteenthBeats habs), toRat_sixteenthBeats habs]
    have hpos : (0 : ℚ) < remaining := by exact_mod_cast h₀
    exact decide_eq_true (by positivity)
  have hzero : NoteLength.nearest (zero false) = .sixteenth := by decide +kernel
  simp only [fitLength, hless, if_true, hzero]

theorem fitLength_infinity (remaining : ℤ) :
    fitLength remaining (infinity false) = .nearest (sixteenthBeats remaining) := by
  have hless : (infinity false).less (sixteenthBeats remaining) = false := by
    cases sixteenthBeats remaining <;> rfl
  simp only [fitLength, hless, Bool.false_eq_true, if_false]

/-- Notes without a share are sixteenths while time remains. -/
theorem lengths_replicate_zero {remaining : ℤ} (h : remaining ≤ 64) (n : ℕ) :
    (fitLengths remaining (List.replicate n (zero false))).1 ++
      fillLengths (fitLengths remaining (List.replicate n (zero false))).2 =
      List.replicate (min n remaining.toNat) .sixteenth ++ fillLengths (remaining - n) := by
  induction n generalizing remaining with
  | zero => simp [fitLengths]
  | succ n ih =>
    rcases le_or_gt remaining 0 with hdone | hpos
    · rw [fitLengths_of_nonpos hdone, fillLengths_of_nonpos hdone,
        fillLengths_of_nonpos (by omega), Int.toNat_of_nonpos hdone, Nat.min_zero]
      rfl
    · have hmin : min (n + 1) remaining.toNat = min n (remaining - 1).toNat + 1 := by omega
      have hrest : remaining - 1 - (n : ℤ) = remaining - (n + 1 : ℕ) := by omega
      have hsixteenth : (NoteLength.sixteenth.sixteenths : ℤ) = 1 := rfl
      rw [List.replicate_succ, fitLengths_of_pos hpos, fitLength_zero hpos h, hsixteenth,
        List.cons_append, ih (by omega), hmin, List.replicate_succ, List.cons_append, hrest]

/-- Notes with infinite shares fill what remains as if they were none. -/
theorem lengths_replicate_infinity (remaining : ℤ) (n : ℕ) :
    (fitLengths remaining (List.replicate n (infinity false))).1 ++
      fillLengths (fitLengths remaining (List.replicate n (infinity false))).2 =
      fillLengths remaining := by
  induction n generalizing remaining with
  | zero => rfl
  | succ n ih =>
    rcases le_or_gt remaining 0 with hdone | hpos
    · rw [fitLengths_of_nonpos hdone, List.nil_append]
    · rw [List.replicate_succ, fitLengths_of_pos hpos, fitLength_infinity, List.cons_append, ih,
        ← fillLengths_of_pos hpos]

section Overflow
variable {pulses : ℤ} (h₀ : 0 < pulses) (h₁ : pulses ≤ 16) {m : Motif} (hne : m.degrees ≠ [])
include h₀ h₁ hne

theorem melodyLengths_of_infinite_total (h : (totalWeight m).isFinite = false) :
    melodyLengths pulses (some m) =
      List.replicate (min m.degrees.length (4 * pulses).toNat) .sixteenth ++
        fillLengths (4 * pulses - m.degrees.length) := by
  rw [melodyLengths, if_neg (List.isEmpty_iff.not.mpr hne), motifLengths,
    shares_of_infinite_total h₀ h₁ h, lengths_replicate_zero (by omega)]

theorem melodyLengths_of_infinite_scale (h : (shareScale pulses m).isFinite = false) :
    melodyLengths pulses (some m) = fillLengths (4 * pulses) := by
  rw [melodyLengths, if_neg (List.isEmpty_iff.not.mpr hne), motifLengths,
    shares_of_infinite_scale h₀ h₁ hne h, lengths_replicate_infinity]

end Overflow

end Measure

/-- Weights between 2^-1018 and 2^969, no more than 2^53 of them, are in proportion to every
measure. -/
theorem Motif.inProportion_of_moderate {m : Motif} {pulses : ℤ} (h₀ : 0 < pulses)
    (h₁ : pulses ≤ 16) (hne : m.degrees ≠ []) (hlength : m.degrees.length ≤ 2 * octaveSize)
    (hlow : ∀ w ∈ Measure.weights m, (2 : ℚ) ^ (-1018 : ℤ) ≤ w.toRat)
    (hhigh : ∀ w ∈ Measure.weights m, w.toRat ≤ (2 ^ 969 : ℕ)) : m.InProportion pulses := by
  have hcount : (Measure.weights m).length = m.degrees.length := List.length_mapIdx
  have hterms : ∀ w ∈ Measure.weights m, w.Within (2 ^ 969) := fun w hw =>
    ⟨(Measure.weights_pos m w hw).1, (Measure.weights_pos m w hw).2.le, hhigh w hw⟩
  have hstart : (ofRat 0).Within (0 * 2 ^ 969) := by
    rw [ofRat_zero]
    exact within_zero false _
  have htotal : (Measure.totalWeight m).Within ((0 + (Measure.weights m).length) * 2 ^ 969) :=
    within_foldl_add (by decide) (by rwa [Nat.zero_add, hcount]) hstart hterms
  have hpulses : (1 : ℚ) ≤ pulses := by exact_mod_cast h₀
  refine ⟨htotal.isFinite, ?_, ?_⟩
  · have hsize : ((2 * octaveSize : ℕ) : ℚ) = 2 ^ 53 := by norm_num [octaveSize]
    have hmany : (0 + (Measure.weights m).length) * 2 ^ 969 ≤ 2 * octaveSize * 2 ^ 969 :=
      Nat.mul_le_mul_right _ (by rwa [Nat.zero_add, hcount])
    calc
      (Measure.totalWeight m).toRat ≤ ((0 + (Measure.weights m).length) * 2 ^ 969 : ℕ) := htotal.le
      _ ≤ (2 * octaveSize * 2 ^ 969 : ℕ) := by exact_mod_cast hmany
      _ = 2 ^ 1022 := by rw [Nat.cast_mul, hsize, Nat.cast_pow, Nat.cast_ofNat, ← pow_add]
      _ ≤ pulses * 2 ^ 1022 := le_mul_of_one_le_left (by positivity) hpulses
  · obtain ⟨w, hw, hle⟩ := Measure.exists_weight_le_totalWeight hne htotal.isFinite
    have hpos := Measure.totalWeight_pos hne htotal.isFinite
    have hquotient := ofRat_div_ofRat (Measure.isExact_pulses h₀ h₁)
      (isExact_toRat (Measure.totalWeight m)) (zero_le_one.trans hpulses) hpos
    rw [ofRat_toRat htotal.isFinite hpos] at hquotient
    have htop : IsExact ((2 : ℚ) ^ (1022 : ℤ)) := by
      have h := isExact_dyadic (m := octaveSize) (e := 970) (by decide) (by decide) le_rfl
      have hsize : ((octaveSize : ℤ) : ℚ) = 2 ^ (52 : ℤ) := by norm_num [octaveSize]
      rwa [hsize, ← zpow_add₀ two_ne_zero] at h
    have hquotient_le : pulses / (Measure.totalWeight m).toRat ≤ (2 : ℚ) ^ (1022 : ℤ) := by
      rw [div_le_iff₀ hpos]
      calc (pulses : ℚ) ≤ 16 := by exact_mod_cast h₁
        _ = 2 ^ (1022 : ℤ) * 2 ^ (-1018 : ℤ) := by
          rw [← zpow_add₀ two_ne_zero]
          norm_num
        _ ≤ 2 ^ (1022 : ℤ) * (Measure.totalWeight m).toRat :=
          mul_le_mul_of_nonneg_left ((hlow w hw).trans hle) (two_zpow_pos _).le
    rw [Measure.shareScale, hquotient]
    exact (ofRat_bounds isExact_zero htop (by positivity) hquotient_le).1

namespace Score

/-- Weights times a power of two leave the score as it is, note by note, in every key, meter and
section, where both totals are in proportion to the measure. A total that overflows makes every note
a sixteenth, and a factor that overflows gives the measure to its first notes, whatever the weights
are. -/
theorem ofPiece_of_rescaled {pulses : ℤ} (h₀ : 0 < pulses) (h₁ : pulses ≤ 16) :
    (∀ s t : Section, s.Rescaled pulses t → ∀ key measure,
      Measure.parts key pulses s measure = Measure.parts key pulses t measure ∧
      ∀ score : Score, score.appendMeasure key pulses s measure =
        score.appendMeasure key pulses t measure) ∧
    (∀ (piece : Piece) (sections : List Section) (meter : Meter),
      Meter.parse piece.timeSignature = .ok meter →
      Meter.pulses (.real meter.quarterBeats) = .ok pulses →
      List.Forall₂ (Section.Rescaled pulses) piece.sections sections →
      ofPiece piece = ofPiece { piece with sections := sections }) ∧
    ∀ (m : Motif) (key : Key) (velocity : ℤ), m.degrees ≠ [] → key.scale.isEmpty = false →
      ∃ notes, Measure.melodyNotes key pulses (some m) velocity = .ok notes ∧
        ((Measure.totalWeight m).isFinite = false → notes.map Note.beats =
          (List.replicate (min m.degrees.length (4 * pulses).toNat) NoteLength.sixteenth ++
            Measure.fillLengths (4 * pulses - m.degrees.length)).map NoteLength.beats) ∧
        ((Measure.shareScale pulses m).isFinite = false → notes.map Note.beats =
          (Measure.fillLengths (4 * pulses)).map NoteLength.beats) := by
  have hparts : ∀ s t : Section, s.Rescaled pulses t → ∀ key measure,
      Measure.parts key pulses s measure = Measure.parts key pulses t measure :=
    fun s t h => Measure.parts_of_rescaled h₀ h₁ h
  refine ⟨fun s t h key measure => ⟨hparts s t h key measure, fun score => ?_⟩,
    fun piece sections meter hm hp hs => ?_, fun m key velocity hne hk => ?_⟩
  · rw [appendMeasure, appendMeasure, hparts s t h]
  · have hsections := foldlM_congr (hs.imp fun s t h =>
      ⟨(congrArg Section.measures h.eq_with).symm, hparts s t h (Key.named piece.key)⟩)
      (empty piece.tempo meter)
    simp only [ofPiece, hm, ok_bind, hp, hsections]
  · obtain ⟨notes, hnotes, hbeats⟩ := Measure.melodyNotes_eq_ok hk pulses (some m) velocity
    refine ⟨notes, hnotes, fun h => ?_, fun h => ?_⟩
    · rw [hbeats, Measure.melodyLengths_of_infinite_total h₀ h₁ hne h]
    · rw [hbeats, Measure.melodyLengths_of_infinite_scale h₀ h₁ hne h]

/-- One part to three, times a power of two. -/
def oneToThree (k : ℤ) : Motif := ⟨[1, 5], [ofRat (2 ^ k), ofRat (3 * 2 ^ k)]⟩

def oneToThreeSection (k : ℤ) : Section := { Repair.defaultSection with motifs := [oneToThree k] }

theorem rescaled_oneToThree : (oneToThreeSection 0).Rescaled 4 (oneToThreeSection 900) where
  eq_with := rfl
  motifs := by
    have hmoderate : ∀ k : ℤ, k = 0 ∨ k = 900 → (oneToThree k).InProportion 4 := by
      rintro k (rfl | rfl)
      all_goals
        refine Motif.inProportion_of_moderate (by decide) (by decide) (List.cons_ne_nil 1 [5])
          (by decide) ?_ ?_
        all_goals decide +kernel
    refine .cons (.inr ⟨900, ⟨rfl, rfl, ?_⟩, hmoderate 0 (.inl rfl), hmoderate 900 (.inr rfl)⟩) .nil
    refine .cons ?_ (.cons ?_ .nil)
    · constructor <;> decide +kernel
    · constructor <;> decide +kernel

def oneToThreePiece (k : ℤ) : Piece where
  key := "C major"
  tempo := 90
  timeSignature := "4/4"
  form := "free"
  sections := [oneToThreeSection k]
  instrumentation := []
  character := []
  reasoning := none

def equalPair (k : ℤ) : Motif := ⟨[1, 5], [ofRat (2 ^ k), ofRat (2 ^ k)]⟩

theorem isFinite_totalWeight_equalPair :
    (Measure.totalWeight (equalPair 1023)).isFinite = false := by decide +kernel

theorem ofPiece_of_rescaled_oneToThree :
    ofPiece (oneToThreePiece 0) = ofPiece (oneToThreePiece 900) ∧
    ∃ notes, Measure.melodyNotes (Key.named "C major") 4 (some (equalPair 1023)) 80 = .ok notes ∧
      notes.map Note.beats =
        (List.replicate 2 NoteLength.sixteenth ++ Measure.fillLengths 14).map NoteLength.beats := by
  obtain ⟨-, hpieces, hoverflow⟩ := @ofPiece_of_rescaled 4 (by decide) (by decide)
  constructor
  · exact hpieces (oneToThreePiece 0) [oneToThreeSection 900] .common rfl (by decide +kernel)
      (.cons rescaled_oneToThree .nil)
  · obtain ⟨notes, hnotes, htotal, -⟩ := hoverflow (equalPair 1023) (Key.named "C major") 80
      (List.cons_ne_nil 1 [5]) (Key.isEmpty_scale_named _)
    exact ⟨notes, hnotes, htotal isFinite_totalWeight_equalPair⟩

/-- Two equal weights are two half notes in a measure of four quarters. Times 2^1023 they are still
normal numbers, and the two notes are sixteenths before a whole note on the tonic. -/
theorem equal_weights_lose_their_shares :
    (equalPair 0).IsSane ∧ (equalPair 1023).IsSane ∧ (equalPair 0).Rescaled 1023 (equalPair 1023) ∧
    ∃ before after,
      Measure.melodyNotes (Key.named "C major") 4 (some (equalPair 0)) 80 = .ok before ∧
      Measure.melodyNotes (Key.named "C major") 4 (some (equalPair 1023)) 80 = .ok after ∧
      before.map Note.beats = [NoteLength.half.beats, NoteLength.half.beats] ∧
      after.map Note.beats =
        [NoteLength.sixteenth.beats, NoteLength.sixteenth.beats, NoteLength.whole.beats] ∧
      before ≠ after := by
  have hrescaled : (equalPair 0).Rescaled 1023 (equalPair 1023) := by
    have hweight : Scaled 1023 (ofRat (2 ^ (0 : ℤ))) (ofRat (2 ^ (1023 : ℤ))) := by
      constructor <;> decide +kernel
    exact ⟨rfl, rfl, .cons hweight (.cons hweight .nil)⟩
  obtain ⟨before, hbefore, hlengths⟩ :=
    Measure.melodyNotes_eq_ok (Key.isEmpty_scale_named "C major") 4 (some (equalPair 0)) 80
  obtain ⟨after, hafter, hlengths'⟩ :=
    Measure.melodyNotes_eq_ok (Key.isEmpty_scale_named "C major") 4 (some (equalPair 1023)) 80
  have heven : Measure.melodyLengths 4 (some (equalPair 0)) = [.half, .half] := by decide +kernel
  have hheavy : Measure.melodyLengths 4 (some (equalPair 1023)) =
      [.sixteenth, .sixteenth, .whole] := by
    decide +kernel
  rw [heven] at hlengths
  rw [hheavy] at hlengths'
  refine ⟨by decide +kernel, by decide +kernel, hrescaled, before, after, hbefore, hafter, hlengths,
    hlengths', ?_⟩
  rintro rfl
  have hcount := congrArg List.length (hlengths.symm.trans hlengths')
  cases hcount

end Score
end TrioScore
