import TrioScore.Proofs.Score.Measure

/-!
# Named keys

The tonics of the named keys lie in the octave of middle C and their scales have seven steps within
an octave. So the degrees in reach are pitches from 36 to 142, and a chord has three pitches that
are apart.
-/

namespace TrioScore

namespace Key

theorem named_mem (name : Text) : named name ∈ table.map Prod.snd := by
  unfold named
  cases h : table.lookup name with
  | none => decide
  | some key =>
    obtain ⟨before, after, hmem, -⟩ := List.lookup_eq_some_iff.mp h
    exact List.mem_map.mpr ⟨(name, key), by simp [hmem], rfl⟩

theorem named_bounds (name : Text) : (60 ≤ (named name).tonic ∧ (named name).tonic ≤ 71) ∧
    (named name).scale.length = 7 ∧ ∀ offset ∈ (named name).scale, 0 ≤ offset ∧ offset ≤ 11 := by
  have hall : ∀ key ∈ table.map Prod.snd, (60 ≤ key.tonic ∧ key.tonic ≤ 71) ∧
      key.scale.length = 7 ∧ ∀ offset ∈ key.scale, 0 ≤ offset ∧ offset ≤ 11 := by
    decide
  exact hall _ (named_mem name)

theorem offset_named_mem (name : Text) (step : ℤ) :
    0 ≤ (named name).offset step ∧ (named name).offset step ≤ 11 := by
  obtain ⟨-, hlength, hscale⟩ := named_bounds name
  have hlt : (step % ((named name).scale.length : ℤ)).toNat < (named name).scale.length := by
    rw [hlength]
    omega
  rw [offset, List.getD_eq_getElem?_getD, List.getElem?_eq_getElem hlt, Option.getD_some]
  exact hscale _ (List.getElem_mem hlt)

/-- A step of the scale lies at most that many whole tones above the tonic. -/
theorem offset_named_le (name : Text) (step : ℤ) : (named name).offset step ≤ 2 * (step % 7) := by
  have hall : ∀ key ∈ table.map Prod.snd, ∀ i < 7, key.scale.getD i 0 ≤ 2 * (i : ℤ) := by
    decide
  obtain ⟨-, hlength, -⟩ := named_bounds name
  have hoffset := hall _ (named_mem name) (step % 7).toNat (by omega)
  rw [offset, hlength, Nat.cast_ofNat]
  omega

theorem degreePitch_named_eq (name : Text) (degree : ℤ) : (named name).degreePitch degree =
    .ok ((named name).tonic + octave + (named name).offset (degree - 1) +
      (degree - 1) / 7 * octave) := by
  obtain ⟨-, hlength, -⟩ := named_bounds name
  rw [degreePitch, isEmpty_scale_named, hlength]
  rfl

theorem degreePitch_named (name : Text) {degree : ℤ} (h : -20 ≤ degree ∧ degree ≤ 29) :
    ∃ pitch, (named name).degreePitch degree = .ok pitch ∧ 36 ≤ pitch ∧ pitch ≤ 142 := by
  obtain ⟨htonic, -⟩ := named_bounds name
  have hoffset := offset_named_mem name (degree - 1)
  refine ⟨_, degreePitch_named_eq name degree, ?_⟩
  unfold octave
  omega

/-- Of the degrees in reach only the three highest can pass the greatest data byte, and only in the
four highest keys. -/
theorem degree_of_high_pitch {name : Text} {degree pitch : ℤ} (h : degree ≤ 29)
    (hpitch : (named name).degreePitch degree = .ok pitch) (hhigh : 127 < pitch) :
    27 ≤ degree ∧ 68 ≤ (named name).tonic := by
  obtain ⟨htonic, -⟩ := named_bounds name
  have hoffset := offset_named_mem name (degree - 1)
  have hstep := offset_named_le name (degree - 1)
  rw [degreePitch_named_eq] at hpitch
  obtain rfl := Except.ok.inj hpitch
  unfold octave at hhigh
  omega

theorem sustainPitch_named (name : Text) :
    36 ≤ Measure.sustainPitch (named name) ∧ Measure.sustainPitch (named name) ≤ 142 := by
  obtain ⟨htonic, -⟩ := named_bounds name
  unfold Measure.sustainPitch octave
  omega

end Key

namespace Chord

theorem pitches_eq_ok {key : Key} (hk : key.scale.isEmpty = false) (symbol : Text)
    (register : ℤ) :
    pitches symbol key register = .ok ((intervals symbol).map (pitch key register)) := by
  rw [pitches, hk]
  rfl

theorem intervals_mem (symbol : Text) : intervals symbol ∈ table.map Prod.snd := by
  unfold intervals
  split
  · next entry h => exact List.mem_map_of_mem (List.mem_of_find?_eq_some h)
  · decide

theorem intervals_ne_nil (symbol : Text) : intervals symbol ≠ [] := by
  have hall : ∀ stack ∈ table.map Prod.snd, stack ≠ [] := by decide
  exact hall _ (intervals_mem symbol)

theorem intervals_bounds {symbol : Text} {interval : ℤ} (h : interval ∈ intervals symbol) :
    0 ≤ interval ∧ interval ≤ 17 := by
  have hall : ∀ stack ∈ table.map Prod.snd, ∀ interval ∈ stack, 0 ≤ interval ∧ interval ≤ 17 := by
    decide
  exact hall _ (intervals_mem symbol) _ h

/-- The pitches of a chord in a named key lie within three octaves over the floor of a register. -/
theorem pitch_named_mem (name : Text) (register : ℤ) {symbol : Text} {interval : ℤ}
    (h : interval ∈ intervals symbol) : register ≤ pitch (Key.named name) register interval ∧
      pitch (Key.named name) register interval ≤ register + 34 := by
  have hinterval := intervals_bounds h
  have hoffset := Key.offset_named_mem name (interval / 2)
  unfold pitch Key.pitchClass octave
  omega

/-- The pitches of a chord in a named key are apart and in range, in both registers. -/
theorem map_pitch_named (name symbol : Text) (register : ℤ) (h : register = 36 ∨ register = 60) :
    (((intervals symbol).map (pitch (Key.named name) register)).map (limit 0 127)).Nodup ∧
      ∀ p ∈ (intervals symbol).map (pitch (Key.named name) register), 36 ≤ p ∧ p ≤ 142 := by
  have hall : ∀ key ∈ Key.table.map Prod.snd, ∀ stack ∈ table.map Prod.snd,
      ∀ register ∈ [(36 : ℤ), 60],
        ((stack.map (pitch key register)).map (limit 0 127)).Nodup := by
    decide +kernel
  refine ⟨hall _ (Key.named_mem name) _ (intervals_mem symbol) register (by simpa using h),
    fun p hp => ?_⟩
  obtain ⟨interval, hinterval, rfl⟩ := List.mem_map.mp hp
  have hmem := pitch_named_mem name register hinterval
  omega

end Chord
end TrioScore
