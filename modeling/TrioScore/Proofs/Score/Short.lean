import Mathlib.Data.Int.Interval
import TrioScore.Proofs.Score.Barline
import TrioScore.Proofs.Score.Emergency
import TrioScore.Proofs.Score.Rendered

/-!
# Short scores

A measure puts at most four notes for each of its pulses on a track, and a regular note has no more
pitches than there are data bytes. So the score of a few measures is written.
-/

namespace TrioScore

/-- At most so many notes on each track. -/
structure Parts.AtMost (n : ℕ) (notes : Parts) : Prop where
  melody : notes.melody.length ≤ n
  harmony : notes.harmony.length ≤ n
  bass : notes.bass.length ≤ n

theorem Parts.AtMost.append {m n : ℕ} {a b : Parts} (ha : a.AtMost m) (hb : b.AtMost n) :
    (a.append b).AtMost (m + n) where
  melody := List.length_append.trans_le (Nat.add_le_add ha.melody hb.melody)
  harmony := List.length_append.trans_le (Nat.add_le_add ha.harmony hb.harmony)
  bass := List.length_append.trans_le (Nat.add_le_add ha.bass hb.bass)

theorem Measure.parts_atMost {key : Key} (hk : key.scale.isEmpty = false) {p : ℕ} (hp : p ≤ 16)
    {s : Section} {measure : ℤ} {notes : Parts} (h : parts key p s measure = .ok notes) :
    notes.AtMost (4 * p) := by
  obtain ⟨_, hok, hbeats, ⟨chord, v, hharmony⟩, root, w, hbass⟩ := parts_eq_ok hk p s measure
  obtain rfl := Except.ok.inj (h.symm.trans hok)
  refine ⟨(isBlock_of_map_beats hp hbeats).length_le, ?_, ?_⟩
  · rw [hharmony, harmonyNotes, List.length_replicate, Int.toNat_natCast]
    omega
  · rw [hbass, bassNotes]
    split_ifs
    · rw [List.length_replicate]
      omega
    · rw [List.length_replicate, Int.toNat_natCast]
      omega

/-- Its pitches are different data bytes. -/
theorem Note.Regular.length_pitches_le {note : Note} (h : note.Regular) :
    note.pitches.length ≤ 128 := by
  have hsub : (note.pitches.map (limit 0 127)).toFinset ⊆ Finset.Icc 0 127 := by
    intro byte hbyte
    obtain ⟨pitch, -, rfl⟩ := List.mem_map.mp (List.mem_toFinset.mp hbyte)
    exact Finset.mem_Icc.mpr ⟨le_limit _ _ _, limit_le (by decide) _⟩
  have hcard := Finset.card_le_card hsub
  rw [List.toFinset_card_of_nodup h.pitches_nodup, List.length_map] at hcard
  exact hcard

namespace Score

theorem exists_appendMeasures_atMost (name : Text) {p : ℕ} (hp : p ≤ 16)
    {measures : List (Section × ℤ)}
    (h : ∀ m ∈ measures, ∀ motif ∈ m.1.motifs, ∀ d ∈ motif.degrees, -20 ≤ d ∧ d ≤ 29)
    (score : Score) : ∃ notes : Parts,
      (notes.Regular ∧ notes.AtMost (4 * p * measures.length)) ∧
      appendMeasures (Key.named name) p score measures = .ok (score.appendParts notes) := by
  refine @exists_appendMeasures (fun n notes => notes.Regular ∧ notes.AtMost (4 * p * n))
    ⟨⟨by simp, by simp, by simp⟩, by simp, by simp, by simp⟩
    (fun ha hb => ⟨ha.1.append hb.1, ?_⟩) _ _ _ (fun m hm => ?_) score
  · rw [Nat.mul_add]
    exact ha.2.append hb.2
  · obtain ⟨notes, hnotes, hregular⟩ := Measure.parts_regular name p (h m hm) m.2
    refine ⟨notes, hnotes, hregular, ?_⟩
    rw [Nat.mul_one]
    exact Measure.parts_atMost (Key.isEmpty_scale_named name) hp hnotes

/-- A score of a few regular notes is written, at a division that is not too great for them. -/
theorem ofScore_appendParts_eq_ok {notes : Parts} (hregular : notes.Regular) {n : ℕ}
    (hnotes : notes.AtMost n) (hn : n ≤ 2 ^ 11) {division : ℕ}
    (hsize : 24 * n * division ≤ 2 ^ 26) (hd : division ≤ 65535) {tempo : ℤ} (ht : 1 ≤ tempo)
    {meter : Meter} (hm : meter.InRange) :
    ∃ bytes, Smf.ofScore division ((empty tempo meter).appendParts notes) = .ok bytes := by
  have hcount : ∀ l : List Note, (∀ note ∈ l, note.Regular) → l.length ≤ n →
      (l.map fun note => note.pitches.length).sum ≤ 2 ^ 18 := by
    intro l hl hlength
    have hsum := List.sum_le_card_nsmul (l.map fun note => note.pitches.length) 128
      (List.forall_mem_map.mpr fun note hnote => (hl note hnote).length_pitches_le)
    rw [List.length_map, smul_eq_mul] at hsum
    omega
  have hplayable : ∀ l : List Note, (∀ note ∈ l, note.Regular) → ∀ note ∈ l, note.Playable 24 :=
    fun l hl note hnote => (hl note hnote).playable
  obtain ⟨hmelody, hharmony, hbass⟩ := hregular
  refine Smf.ofScore_eq_ok (24 * n) division hsize hd ht hm (forall_mem_tracks.mpr ⟨?_, ?_, ?_⟩)
  · exact writableTrack_appendAll (hplayable _ hmelody) hnotes.melody hn
      (hcount _ hmelody hnotes.melody) (by decide) ⟨_, rfl, by decide⟩
  · exact writableTrack_appendAll (hplayable _ hharmony) hnotes.harmony hn
      (hcount _ hharmony hnotes.harmony) (by decide) ⟨_, rfl, by decide⟩
  · exact writableTrack_appendAll (hplayable _ hbass) hnotes.bass hn
      (hcount _ hbass hnotes.bass) (by decide) ⟨_, rfl, by decide⟩

end Score
end TrioScore
