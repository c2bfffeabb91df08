import TrioScore.Proofs.Delivery
import TrioScore.Proofs.Smf.Payload

/-!
# Repaired pieces are delivered

A repaired piece is always rendered, and every message of its score fits. The one thing that can
stop its file is a track that is too long; without such a track the file is delivered, and no
warning.
-/

namespace TrioScore

theorem deliver_of_ofScore {document : Json} {piece : Piece} {score : Score} {bytes : Bytes}
    (hpiece : Piece.repair document = .ok piece) (hscore : Score.ofPiece piece = .ok score)
    {division : ℤ} (hbytes : Smf.ofScore division score = .ok bytes) (provider : Text) :
    (deliver (.standard division) provider document).2 =
      .ok ⟨some piece, bytes, provider, false, []⟩ := by
  have hrendered : document.score = .ok (piece, score) := by
    rw [Json.score, hpiece, ok_bind, hscore]
    rfl
  have hexport : Exporter.standard division 0 score = .ok bytes := hbytes
  rw [deliver, hrendered]
  dsimp only
  rw [hexport]

/-- The file of a repaired piece is refused only for a track of 2^32 bytes or more. Where it is not
refused, it is delivered. -/
theorem deliver_of_repair {document : Json} {piece : Piece}
    (h : Piece.repair document = .ok piece) {division : ℕ} (hd : division ≤ 65535)
    (provider : Text) : ∃ score payloads, Score.ofPiece piece = .ok score ∧
      Smf.payloads division score = .ok payloads ∧ payloads.length = 4 ∧
      ((∃ bytes, Smf.ofScore division score = .ok bytes) ↔ ∀ p ∈ payloads, p.length < 2 ^ 32) ∧
      ∀ bytes, Smf.ofScore division score = .ok bytes →
        (deliver (.standard division) provider document).2 =
          .ok ⟨some piece, bytes, provider, false, []⟩ := by
  obtain ⟨score, hscore, hregular, -⟩ := Score.exists_regular_ofPiece h
  obtain ⟨payloads, hpayloads⟩ := Smf.exists_payloads hregular hd
  refine ⟨score, payloads, hscore, hpayloads, Smf.length_payloads hpayloads, ?_,
    fun bytes hbytes => deliver_of_ofScore h hscore hbytes provider⟩
  simp only [Smf.ofScore_eq_ok_iff hd hpayloads, exists_and_left, exists_eq, and_true]

theorem deliver_oneMeasure : ∃ piece bytes, Piece.repair .oneMeasure = .ok piece ∧
    (deliver (.standard 65535) "input" .oneMeasure).2 =
      .ok ⟨some piece, bytes, "input", false, []⟩ := by
  obtain ⟨piece, hpiece, hshort⟩ := Json.payloads_oneMeasure
  obtain ⟨score, payloads, hscore, hpayloads, -, hfile, hdelivered⟩ :=
    deliver_of_repair hpiece (by decide : 65535 ≤ 65535) "input"
  obtain ⟨bytes, hbytes⟩ := hfile.mpr (hshort 65535 (by simp) score payloads hscore hpayloads)
  exact ⟨piece, bytes, hpiece, hdelivered bytes hbytes⟩

end TrioScore
