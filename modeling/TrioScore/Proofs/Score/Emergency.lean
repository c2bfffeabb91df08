import TrioScore.Proofs.Smf.Writable
import TrioScore.Score.Rendering

/-!
# The emergency phrase is written

The emergency phrase of every tempo and every meter in range is a file at every division: its notes
are a few, none longer than 24 quarter beats.
-/

namespace TrioScore.Score
open Binary64

theorem within_quarterBeats {meter : Meter} (h : meter.InRange) : meter.quarterBeats.Within 24 := by
  obtain ⟨m, h₁, h₂, hm⟩ := Meter.quarterBeats_eq h
  have hlow : (1 : ℚ) ≤ m := by exact_mod_cast h₁
  have hhigh : (m : ℚ) ≤ 96 := by exact_mod_cast h₂
  rw [hm]
  exact within_ofRat (isExact_natCast (by decide)) (by linarith) (by norm_num; linarith)

theorem playable_emergencyParts {meter : Meter} (h : meter.InRange) :
    (∀ note ∈ (emergencyParts meter).melody, note.Playable 24) ∧
      (∀ note ∈ (emergencyParts meter).harmony, note.Playable 24) ∧
      ∀ note ∈ (emergencyParts meter).bass, note.Playable 24 := by
  have hmeasure := within_quarterBeats h
  have hfour : IsExact (4 : ℚ) := by exact_mod_cast isExact_natCast (n := 4) (by decide)
  have hquarter : (meter.quarterBeats / ofRat 4).Within 24 :=
    hmeasure.div (isFinite_ofRat hfour) (by rw [toRat_ofRat hfour]; norm_num)
      (isExact_natCast (by decide))
  have hsmall : ∀ m ∈ emergencyMeasures, (∀ pitch ∈ m.1, Number.IsSmall pitch) ∧
      (∀ pitch ∈ m.2.1, Number.IsSmall pitch) ∧ Number.IsSmall m.2.2 := by
    simp [emergencyMeasures, Number.IsSmall, octaveSize]
  have hvelocity : Number.IsSmall 80 ∧ Number.IsSmall 56 ∧ Number.IsSmall 64 := by
    simp [Number.IsSmall, octaveSize]
  refine ⟨fun note hnote => ?_, fun note hnote => ?_, fun note hnote => ?_⟩
  · obtain ⟨m, hm, hnote⟩ := List.mem_flatMap.mp hnote
    obtain ⟨pitch, hp, rfl⟩ := List.mem_map.mp hnote
    exact ⟨List.forall_mem_singleton.mpr ((hsmall m hm).1 pitch hp), hquarter, hvelocity.1⟩
  · obtain ⟨m, hm, rfl⟩ := List.mem_map.mp hnote
    exact ⟨(hsmall m hm).2.1, hmeasure, hvelocity.2.1⟩
  · obtain ⟨m, hm, rfl⟩ := List.mem_map.mp hnote
    exact ⟨List.forall_mem_singleton.mpr (hsmall m hm).2.2, hmeasure, hvelocity.2.2⟩

theorem writableTrack_appendAll {name : Text} {channel : ℤ} {notes : List Note}
    (hnotes : ∀ note ∈ notes, note.Playable 24) {n : ℕ} (hlength : notes.length ≤ n)
    (hn : n ≤ 2 ^ 11) (hcount : (notes.map fun note => note.pitches.length).sum ≤ 2 ^ 18)
    (hchannel : 0 ≤ channel ∧ channel < 16)
    (hname : ∃ bytes, Smf.latin1 name = .ok bytes ∧ bytes.length ≤ 13) :
    Smf.WritableTrack (24 * n) ((Track.empty name channel).appendAll notes) := by
  have hsize : 24 * 2 ^ 11 ≤ 2 * octaveSize := by decide
  have hbound : 0 + 24 * notes.length ≤ 24 * n := by omega
  have hplayable := (Track.playable_empty name channel).appendAll hnotes (by omega)
  obtain ⟨hn, hc⟩ := Track.name_appendAll (Track.empty name channel) notes
  refine ⟨hplayable.mono hbound, ?_, ?_, ?_⟩
  · rw [hc]
    exact hchannel
  · have hzero : (Track.empty name channel).pitchCount = 0 := rfl
    rwa [Track.pitchCount_appendAll, hzero, Nat.zero_add]
  · rw [hn]
    exact hname

theorem ofScore_emergency_eq_ok {tempo : ℤ} (ht : 1 ≤ tempo) {meter : Meter} (h : meter.InRange)
    {division : ℕ} (hd : division ≤ 65535) :
    ∃ bytes, Smf.ofScore division (emergency tempo meter) = .ok bytes := by
  obtain ⟨hmelody, hharmony, hbass⟩ := playable_emergencyParts h
  have hlength : (emergencyParts meter).harmony.length = 2 ∧
      (emergencyParts meter).bass.length = 2 := ⟨rfl, rfl⟩
  have hcount : ∀ n : ℕ, n ≤ 8 → n ≤ 2 ^ 18 := fun n hn => hn.trans (by norm_num)
  have height : 8 ≤ 2 ^ 11 := by decide
  refine Smf.ofScore_eq_ok (24 * 8) division (by omega) hd ht h
    (forall_mem_tracks.mpr ⟨?_, ?_, ?_⟩)
  · exact writableTrack_appendAll hmelody le_rfl height (hcount 8 (by decide)) (by decide)
      ⟨_, rfl, by decide⟩
  · exact writableTrack_appendAll hharmony (by omega) height (hcount 6 (by decide)) (by decide)
      ⟨_, rfl, by decide⟩
  · exact writableTrack_appendAll hbass (by omega) height (hcount 2 (by decide)) (by decide)
      ⟨_, rfl, by decide⟩

end TrioScore.Score
