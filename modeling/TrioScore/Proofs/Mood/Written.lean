import TrioScore.Proofs.Delivery.Repaired
import TrioScore.Proofs.Mood.Aligned
import TrioScore.Proofs.Mood.Sane
import TrioScore.Proofs.Piece.Readable
import TrioScore.Proofs.Score.Short

/-!
# Composed pieces are written

Without wishes about its instruments a composed piece is sane and readable, so its document is read
from its print, and repair leaves it alone. It has at most 24 measures; its file is never refused.
-/

namespace TrioScore

namespace Mood
variable {mood : Mood}

theorem isOfChars_key : mood.key.IsOfChars := by
  unfold key
  split_ifs <;> exact Text.isOfChars_ofString _

theorem isOfChars_timeSignature : mood.timeSignature.IsOfChars := by
  unfold timeSignature
  split_ifs <;> exact Text.isOfChars_ofString _

theorem isOfChars_form : mood.form.IsOfChars := by
  unfold form
  split_ifs <;> exact Text.isOfChars_ofString _

theorem isOfChars_dynamics : mood.dynamics.IsOfChars := by
  unfold dynamics
  split_ifs <;> exact Text.isOfChars_ofString _

theorem isOfChars_character : mood.character.IsOfChars := by
  simp only [character, Text.isOfChars_append_iff, Text.isOfChars_ofString, and_self]

theorem isOfChars_reasoning (tempo : ℤ) : (mood.reasoning tempo).IsOfChars := by
  have hparameter : ∀ x, (parameterText x).IsOfChars := fun x => ⟨_, rfl⟩
  have htempo : (Text.ofInt tempo).IsOfChars := ⟨_, rfl⟩
  simp only [reasoning, Text.isOfChars_append_iff, Text.isOfChars_ofString, hparameter, htempo,
    isOfChars_key, isOfChars_timeSignature, isOfChars_form, isOfChars_dynamics, and_self]

theorem isJoined_sections : ∀ s ∈ mood.sections, s.IsJoined := by
  have hopening : mood.opening.IsJoined := by
    refine ⟨(Text.isOfChars_ofString "A").isJoined, ?_, (Text.isOfChars_ofString _).isJoined⟩
    unfold opening
    dsimp only
    split_ifs <;> decide
  have hcontrast : mood.contrast.IsJoined := by
    refine ⟨(Text.isOfChars_ofString "B").isJoined, ?_, (Text.isOfChars_ofString _).isJoined⟩
    unfold contrast
    dsimp only
    split_ifs <;> decide
  have hreprise : mood.reprise.IsJoined :=
    ⟨(Text.isOfChars_ofString _).isJoined, hopening.progression, hopening.texture⟩
  unfold sections
  split_ifs <;> simp [hopening, hcontrast, hreprise]

theorem isJoined_piece {instrumentation : Text} (hinstrumentation : instrumentation.IsJoined)
    {composed : Piece} (h : mood.piece instrumentation = .ok composed) : composed.IsJoined := by
  obtain ⟨tempo, -, rfl⟩ := piece_eq_ok_iff.mp h
  exact {
    key := isOfChars_key.isJoined
    form := isOfChars_form.isJoined
    sections := isJoined_sections
    instrumentation := hinstrumentation
    character := isOfChars_character.isJoined
    reasoning := fun t ht => Option.some.inj ht ▸ (isOfChars_reasoning tempo).isJoined }

end Mood

section Composed
variable {valence arousal focus : Json} {piece : Piece}
  (h : pieceOfReading valence arousal focus .empty = .ok piece)
include h

theorem Piece.isSane_of_pieceOfReading : piece.IsSane := by
  obtain ⟨mood, instrumentation, hmood, hi, hpiece⟩ := pieceOfReading_eq_ok_iff.mp h
  obtain rfl : Text.ofString "piano" = instrumentation := Except.ok.inj hi
  have hsane := Mood.piece_isSane (Mood.arousal_within hmood) hpiece
  have htrim : piece.instrumentation.trim = piece.instrumentation := by
    rw [Mood.instrumentation_piece hpiece]
    decide
  rwa [htrim] at hsane

theorem Piece.isReadable_toJson_of_pieceOfReading : piece.toJson.IsReadable := by
  obtain ⟨mood, instrumentation, -, hi, hpiece⟩ := pieceOfReading_eq_ok_iff.mp h
  obtain rfl : Text.ofString "piano" = instrumentation := Except.ok.inj hi
  exact (Piece.isSane_of_pieceOfReading h).isReadable_toJson
    (Mood.isJoined_piece (by decide) hpiece)

/-- The score of a composed piece is written. It has 384 notes on a track at most; the bound on the
division is the one up to which so many notes are known to fit. -/
theorem exists_ofScore_of_pieceOfReading {division : ℕ} (hd : division ≤ 7281) :
    ∃ score bytes, Score.ofPiece piece = .ok score ∧ Smf.ofScore division score = .ok bytes := by
  have hsane := Piece.isSane_of_pieceOfReading h
  obtain ⟨_, _, -, -, hpiece⟩ := pieceOfReading_eq_ok_iff.mp h
  have hlength := Mood.length_measureList_le hpiece
  obtain ⟨meter, p, hparse, hp, hrule⟩ := Mood.exists_pulses_piece hpiece
  obtain ⟨notes, ⟨hregular, hnotes⟩, hscore⟩ := Score.exists_appendMeasures_atMost piece.key
    (by omega : p ≤ 16) (Score.degrees_mem_of_isSane hsane) (.empty piece.tempo meter)
  have hcount : 4 * p * piece.measureList.length ≤ 384 :=
    Nat.mul_le_mul (by omega : 4 * p ≤ 16) hlength
  have hsize : 24 * (4 * p * piece.measureList.length) * division ≤ 2 ^ 26 :=
    (Nat.mul_le_mul (Nat.mul_le_mul_left 24 hcount) hd).trans (by norm_num)
  obtain ⟨htempo, -⟩ := hsane.tempo_mem
  obtain ⟨bytes, hbytes⟩ := Score.ofScore_appendParts_eq_ok hregular hnotes
    (hcount.trans (by decide)) hsize (by omega) (by omega : 1 ≤ piece.tempo)
    (Meter.inRange_of_parse hparse)
  exact ⟨_, bytes, (Score.ofPiece_eq hparse hp).trans hscore, hbytes⟩

theorem deliver_of_pieceOfReading {score : Score} (hscore : Score.ofPiece piece = .ok score)
    {division : ℤ} {bytes : Bytes} (hbytes : Smf.ofScore division score = .ok bytes)
    (provider : Text) : (deliver (.standard division) provider piece.toJson).2 =
      .ok ⟨some piece, bytes, provider, false, []⟩ :=
  deliver_of_ofScore (Piece.repair_toJson_of_isSane (Piece.isSane_of_pieceOfReading h)) hscore
    hbytes provider

end Composed
end TrioScore
