import TrioScore.Proofs.Key.Ascending
import TrioScore.Proofs.Key.Named

/-!
# Triads

A chord takes three rungs of its key: half an interval, folded onto the seven steps of the scale, is
the step, and the octave of the interval is that of the rung. Of every stack the root has the lowest
rung, below the octave, and no two have the same. As the rungs of an ascending scale are in order,
the pitches keep that order in every key of seven steps, whatever its offsets.
-/

namespace TrioScore

/-- Seven steps that ascend within the octave over the tonic. -/
structure Key.IsHeptatonic (key : Key) : Prop where
  length : key.scale.length = 7
  ascends : key.scale.Pairwise (· < ·)
  within : ∀ offset ∈ key.scale, 0 ≤ offset ∧ offset ≤ 11

instance (key : Key) : Decidable key.IsHeptatonic :=
  decidable_of_iff (key.scale.length = 7 ∧ key.scale.Pairwise (· < ·) ∧
      ∀ offset ∈ key.scale, 0 ≤ offset ∧ offset ≤ 11)
    ⟨fun ⟨hlength, hascends, hwithin⟩ => ⟨hlength, hascends, hwithin⟩,
      fun h => ⟨h.length, h.ascends, h.within⟩⟩

theorem Key.IsHeptatonic.isAscending {key : Key} (h : key.IsHeptatonic) : key.IsAscending where
  ne_nil := by
    intro hnil
    have hlength := h.length
    rw [hnil] at hlength
    cases hlength
  ascends := h.ascends
  span low hlow high hhigh := by
    have hlow' := h.within low hlow
    have hhigh' := h.within high hhigh
    unfold octave
    omega

/-- The pitches of a chord in the order of its stack. -/
structure Triad where
  root : ℤ
  third : ℤ
  fifth : ℤ
deriving DecidableEq

namespace Triad

def pitches (triad : Triad) : List ℤ := [triad.root, triad.third, triad.fifth]

/-- The pitches are different, the root is the lowest and in the octave over the floor, and all are
offsets of the key over the floor, or an octave over these. -/
structure StandsOn (triad : Triad) (key : Key) (floor : ℤ) : Prop where
  root_lt_third : triad.root < triad.third
  root_lt_fifth : triad.root < triad.fifth
  third_ne_fifth : triad.third ≠ triad.fifth
  root_le : triad.root ≤ floor + 11
  pitch_mem : ∀ pitch ∈ triad.pitches, floor ≤ pitch ∧ pitch ≤ floor + 23
  offset_mem : ∀ pitch ∈ triad.pitches, ∃ offset ∈ key.scale,
    pitch = floor + offset ∨ pitch = floor + offset + 12

end Triad

namespace Chord

/-- The rung that an interval is folded onto, in a scale of seven steps. -/
def fold (interval : ℤ) : ℤ := interval / 2 % 7 + interval / octave * 7

/-- Every stack has three intervals, on different rungs, the lowest of them the first and below the
octave. -/
theorem exists_stack (symbol : Text) : ∃ root third fifth : ℤ,
    intervals symbol = [root, third, fifth] ∧ root < octave ∧ fold root < fold third ∧
      fold root < fold fifth ∧ fold third ≠ fold fifth := by
  have hall : ∀ stack ∈ table.map Prod.snd, stack.length = 3 ∧
      (∀ root ∈ stack.head?, root < octave ∧ ∀ interval ∈ stack.tail, fold root < fold interval) ∧
      (stack.map fold).Nodup := by
    decide
  obtain ⟨hlength, hroot, hnodup⟩ := hall _ (intervals_mem symbol)
  obtain ⟨root, third, fifth, hstack⟩ := List.length_eq_three.mp hlength
  rw [hstack] at hroot hnodup
  obtain ⟨hlow, hlowest⟩ := hroot root rfl
  refine ⟨root, third, fifth, hstack, hlow, hlowest third (by simp), hlowest fifth (by simp), ?_⟩
  intro heq
  simp [heq] at hnodup

theorem rung_fold {key : Key} (h : key.scale.length = 7) (interval : ℤ) :
    key.rung (fold interval) = key.offset (interval / 2) + interval / octave * octave := by
  have hstep : (interval / 2 % 7 + interval / octave * 7) % 7 = interval / 2 % 7 := by omega
  have hround : (interval / 2 % 7 + interval / octave * 7) / 7 = interval / octave := by omega
  rw [Key.rung, fold, Key.offset, Key.offset, h, Nat.cast_ofNat, hstep, hround]

theorem pitch_eq_rung {key : Key} (h : key.scale.length = 7) (register interval : ℤ) :
    pitch key register interval = register + key.pitchClass + key.rung (fold interval) := by
  rw [pitch, rung_fold h]
  ring

theorem pitch_add_register (key : Key) (register shift interval : ℤ) :
    pitch key (register + shift) interval = pitch key register interval + shift := by
  unfold pitch
  ring

/-- The triad of a symbol, which has its pitches in any key with a scale. -/
def triad (symbol : Text) (key : Key) (register : ℤ) : Triad :=
  let stack := intervals symbol
  ⟨pitch key register (stack.getD 0 0), pitch key register (stack.getD 1 0),
    pitch key register (stack.getD 2 0)⟩

theorem pitches_eq_triad {key : Key} (hk : key.scale.isEmpty = false) (symbol : Text)
    (register : ℤ) : pitches symbol key register = .ok (triad symbol key register).pitches := by
  obtain ⟨root, third, fifth, hstack, -⟩ := exists_stack symbol
  rw [pitches_eq_ok hk, triad, hstack]
  rfl

theorem triad_add_register (symbol : Text) (key : Key) (register shift : ℤ) :
    (triad symbol key (register + shift)).pitches =
      (triad symbol key register).pitches.map (· + shift) := by
  simp only [triad, Triad.pitches, pitch_add_register, List.map_cons, List.map_nil]

section Heptatonic
variable {key : Key} (h : key.IsHeptatonic)
include h

/-- A pitch of a chord lies over the floor as an offset does, or an octave higher. -/
theorem exists_offset_of_mem {symbol : Text} {interval : ℤ} (hi : interval ∈ intervals symbol)
    (register : ℤ) : ∃ offset ∈ key.scale,
      pitch key register interval = register + key.pitchClass + offset ∨ octave ≤ interval ∧
        pitch key register interval = register + key.pitchClass + offset + 12 := by
  have hbounds := intervals_bounds hi
  refine ⟨_, Key.offset_mem h.isAscending.ne_nil (interval / 2), ?_⟩
  unfold pitch octave
  omega

theorem triad_standsOn (symbol : Text) (register : ℤ) :
    (triad symbol key register).StandsOn key (register + key.pitchClass) := by
  obtain ⟨root, third, fifth, hstack, hlow, hthird, hfifth, hne⟩ := exists_stack symbol
  have hmono := h.isAscending.rung_strictMono
  have htriad : triad symbol key register = ⟨pitch key register root, pitch key register third,
      pitch key register fifth⟩ := by
    rw [triad, hstack]
    rfl
  have hmem : ∀ p ∈ (triad symbol key register).pitches, ∃ interval ∈ intervals symbol,
      p = pitch key register interval := by
    simp [htriad, hstack, Triad.pitches]
  rw [htriad] at hmem ⊢
  constructor
  · simpa only [pitch_eq_rung h.length, add_lt_add_iff_left] using hmono hthird
  · simpa only [pitch_eq_rung h.length, add_lt_add_iff_left] using hmono hfifth
  · simpa only [pitch_eq_rung h.length, ne_eq, add_right_inj] using hmono.injective.ne hne
  · obtain ⟨offset, hoffset, heq | ⟨hhigh, -⟩⟩ :=
      exists_offset_of_mem h (hstack ▸ List.mem_cons_self) register
    · have := h.within offset hoffset
      dsimp only
      omega
    · omega
  · intro p hp
    obtain ⟨interval, hinterval, rfl⟩ := hmem p hp
    obtain ⟨offset, hoffset, hpitch⟩ := exists_offset_of_mem h hinterval register
    have := h.within offset hoffset
    omega
  · intro p hp
    obtain ⟨interval, hinterval, rfl⟩ := hmem p hp
    obtain ⟨offset, hoffset, hpitch⟩ := exists_offset_of_mem h hinterval register
    exact ⟨offset, hoffset, hpitch.imp_right And.right⟩

end Heptatonic

end Chord
end TrioScore
