import TrioScore.Mood.Basic
import TrioScore.Proofs.Binary64.Range
import TrioScore.Proofs.Meter.Pulses

/-!
# Readings

A value can be read as a parameter unless it is an integer that has no binary64. The parameters of
a mood are then in their ranges, whatever was read, and so is the tempo.
-/

namespace TrioScore

/-- The value can be read as a parameter: no number, any binary64, or an integer that has one. -/
def Json.IsReading (value : Json) : Prop :=
  ∀ n, value.quantity? = some (.int n) → |n| < 2 ^ 1024 - 2 ^ 970

theorem Json.isReading_ofBinary64 (x : Binary64) : (ofBinary64 x).IsReading := by
  intro n h
  cases h

theorem Json.isReading_null : null.IsReading := by
  intro n h
  cases h

theorem Json.isReading_ofInt_iff {n : ℤ} : (ofInt n).IsReading ↔ |n| < 2 ^ 1024 - 2 ^ 970 := by
  refine ⟨fun h => h n rfl, fun h m hm => ?_⟩
  cases hm
  exact h

namespace Mood

variable {low high default : Binary64} {value : Json}

theorem parameter_of_int {n : ℤ} (h : value.quantity? = some (.int n)) :
    parameter low high default value = Binary64.clamp low high <$> Binary64.ofInt n := by
  rw [parameter, h]
  simp only [Number.checkFinite, Number.toBinary64]
  cases Binary64.ofInt n <;> rfl

theorem parameter_of_real {x : Binary64} (h : value.quantity? = some (.real x)) :
    parameter low high default value =
      .ok (if x.isFinite then Binary64.clamp low high x else default) := by
  rw [parameter, h]
  simp only [Number.checkFinite, Number.toBinary64, ok_bind]
  split_ifs <;> rfl

theorem parameter_of_none (h : value.quantity? = none) :
    parameter low high default value = .ok default := by
  rw [parameter, h]

theorem parameter_isOk_iff (low high default : Binary64) (value : Json) :
    (∃ y, parameter low high default value = .ok y) ↔ value.IsReading := by
  match hq : value.quantity? with
  | none =>
    exact ⟨fun _ n hn => (by cases hq.symm.trans hn), fun _ => ⟨_, parameter_of_none hq⟩⟩
  | some (.real x) =>
    exact ⟨fun _ n hn => (by cases hq.symm.trans hn), fun _ => ⟨_, parameter_of_real hq⟩⟩
  | some (.int n) =>
    have hreading : value.IsReading ↔ |n| < 2 ^ 1024 - 2 ^ 970 := by
      refine ⟨fun h => h n hq, fun h m hm => ?_⟩
      cases hq.symm.trans hm
      exact h
    rw [hreading, ← Binary64.ofInt_isOk_iff, parameter_of_int hq]
    cases Binary64.ofInt n <;> simp

/-- A finite quantity is brought into range; of anything else comes the default. -/
theorem parameter_eq_ok {y : Binary64} (h : parameter low high default value = .ok y) :
    y = default ∨ ∃ x, x.isFinite = true ∧ y = Binary64.clamp low high x := by
  match hq : value.quantity? with
  | none => exact .inl (Except.ok.inj ((parameter_of_none hq).symm.trans h)).symm
  | some (.real x) =>
    rw [parameter_of_real hq] at h
    split_ifs at h with hx
    · exact .inr ⟨x, hx, (Except.ok.inj h).symm⟩
    · exact .inl (Except.ok.inj h).symm
  | some (.int n) =>
    rw [parameter_of_int hq] at h
    obtain ⟨x, hx, hy⟩ := map_eq_ok_iff.mp h
    exact .inr ⟨x, Binary64.isFinite_of_ofInt hx, hy.symm⟩

variable {valence arousal focus : Json} {mood : Mood}

theorem ofValues_eq_ok_iff : ofValues valence arousal focus = .ok mood ↔
    parameter (.ofRat (-1)) (.ofRat 1) (.ofRat 0) valence = .ok mood.valence ∧
      parameter (.ofRat 0) (.ofRat 1) .half arousal = .ok mood.arousal ∧
      parameter (.ofRat 0) (.ofRat 1) .half focus = .ok mood.focus := by
  simp only [ofValues, bind_eq_ok_iff]
  constructor
  · rintro ⟨v, hv, a, ha, f, hf, h⟩
    cases h
    exact ⟨hv, ha, hf⟩
  · rintro ⟨hv, ha, hf⟩
    exact ⟨_, hv, _, ha, _, hf, rfl⟩

theorem ofValues_isOk_iff : (∃ mood, ofValues valence arousal focus = .ok mood) ↔
    valence.IsReading ∧ arousal.IsReading ∧ focus.IsReading := by
  rw [← parameter_isOk_iff (.ofRat (-1)) (.ofRat 1) (.ofRat 0) valence,
    ← parameter_isOk_iff (.ofRat 0) (.ofRat 1) .half arousal,
    ← parameter_isOk_iff (.ofRat 0) (.ofRat 1) .half focus]
  simp only [ofValues_eq_ok_iff]
  constructor
  · rintro ⟨mood, hv, ha, hf⟩
    exact ⟨⟨_, hv⟩, ⟨_, ha⟩, ⟨_, hf⟩⟩
  · rintro ⟨⟨v, hv⟩, ⟨a, ha⟩, ⟨f, hf⟩⟩
    exact ⟨⟨v, a, f⟩, hv, ha, hf⟩

theorem arousal_within (h : ofValues valence arousal focus = .ok mood) :
    mood.arousal.Within 1 := by
  have hone : Binary64.IsExact (1 : ℕ) := Binary64.isExact_natCast (by decide)
  rcases parameter_eq_ok (ofValues_eq_ok_iff.mp h).2.1 with hhalf | ⟨x, hx, he⟩
  · rw [hhalf, Binary64.half_eq]
    exact Binary64.within_ofRat hone (by norm_num) (by norm_num)
  · rw [he]
    exact_mod_cast Binary64.within_clamp hone hx

theorem tempo_mem (h : mood.arousal.Within 1) :
    ∃ n, mood.tempo = .ok n ∧ 60 ≤ n ∧ n ≤ 140 := by
  have hexact (n : ℕ) (hn : n ≤ 2 * octaveSize) := Binary64.isExact_natCast hn
  have h60 : Binary64.IsExact 60 := by exact_mod_cast hexact 60 (by decide)
  have h140 : Binary64.IsExact 140 := by exact_mod_cast hexact 140 (by decide)
  have hsixty := Binary64.toRat_ofRat h60
  have heighty : (Binary64.ofRat 80).Within 80 :=
    Binary64.within_ofRat (hexact 80 (by decide)) (by norm_num) (by norm_num)
  have hrise := h.mul heighty (hexact _ (by decide))
  obtain ⟨hf, hlow, hhigh⟩ : (Binary64.ofRat 60 + mood.arousal * .ofRat 80).isFinite = true ∧
      60 ≤ (Binary64.ofRat 60 + mood.arousal * .ofRat 80).toRat ∧
      (Binary64.ofRat 60 + mood.arousal * .ofRat 80).toRat ≤ 140 := by
    have hnonneg := hrise.nonneg
    have hle := hrise.le
    push_cast at hle
    rcases Binary64.add_eq_of_isFinite (Binary64.isFinite_ofRat h60) hrise.isFinite with
      ⟨_, hzero, -⟩ | he
    · rw [hsixty] at hzero
      linarith
    · rw [he, hsixty]
      exact Binary64.ofRat_bounds h60 h140 (by linarith) (by linarith)
  exact Number.nearestInt_mem hf (by decide) (by decide) (by exact_mod_cast hlow)
    (by exact_mod_cast hhigh)

theorem piece_eq_ok_iff {instrumentation : Text} {composed : Piece} :
    mood.piece instrumentation = .ok composed ↔ ∃ tempo, mood.tempo = .ok tempo ∧ composed =
      { key := mood.key
        tempo := tempo
        timeSignature := mood.timeSignature
        form := mood.form
        sections := mood.sections
        instrumentation := instrumentation
        character := mood.character
        reasoning := some (mood.reasoning tempo) } := by
  simp only [piece, bind_eq_ok_iff]
  constructor
  · rintro ⟨tempo, htempo, h⟩
    exact ⟨tempo, htempo, (Except.ok.inj h).symm⟩
  · rintro ⟨tempo, htempo, rfl⟩
    exact ⟨tempo, htempo, rfl⟩

theorem instrumentation_piece {instrumentation : Text} {composed : Piece}
    (h : mood.piece instrumentation = .ok composed) :
    composed.instrumentation = instrumentation := by
  obtain ⟨_, -, rfl⟩ := piece_eq_ok_iff.mp h
  rfl

end Mood

theorem pieceOfReading_eq_ok_iff {valence arousal focus : Json} {hints : Hints} {piece : Piece} :
    pieceOfReading valence arousal focus hints = .ok piece ↔ ∃ mood instrumentation,
      Mood.ofValues valence arousal focus = .ok mood ∧
      hints.instruments = .ok instrumentation ∧ mood.piece instrumentation = .ok piece := by
  simp only [pieceOfReading, bind_eq_ok_iff]
  constructor
  · rintro ⟨mood, hmood, instrumentation, hi, hpiece⟩
    exact ⟨mood, instrumentation, hmood, hi, hpiece⟩
  · rintro ⟨mood, instrumentation, hmood, hi, hpiece⟩
    exact ⟨mood, hmood, instrumentation, hi, hpiece⟩

/-- The rule composes for every reading, unless the hints about instruments cannot be joined. -/
theorem pieceOfReading_isOk_iff {valence arousal focus : Json} {hints : Hints} :
    (∃ piece, pieceOfReading valence arousal focus hints = .ok piece) ↔
      (valence.IsReading ∧ arousal.IsReading ∧ focus.IsReading) ∧
        ∃ instrumentation, hints.instruments = .ok instrumentation := by
  rw [← Mood.ofValues_isOk_iff]
  constructor
  · rintro ⟨piece, h⟩
    obtain ⟨mood, instrumentation, hmood, hi, -⟩ := pieceOfReading_eq_ok_iff.mp h
    exact ⟨⟨mood, hmood⟩, instrumentation, hi⟩
  · rintro ⟨⟨mood, hmood⟩, instrumentation, hi⟩
    obtain ⟨tempo, htempo, -⟩ := Mood.tempo_mem (Mood.arousal_within hmood)
    exact ⟨_, pieceOfReading_eq_ok_iff.mpr
      ⟨mood, instrumentation, hmood, hi, Mood.piece_eq_ok_iff.mpr ⟨tempo, htempo, rfl⟩⟩⟩

end TrioScore
