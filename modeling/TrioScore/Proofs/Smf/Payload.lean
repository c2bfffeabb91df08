import TrioScore.Proofs.Score.Rendered
import TrioScore.Proofs.Smf.Writable

/-!
# Payloads of regular scores

A regular score has a payload for the conductor and for each of its three tracks, at every division
and whatever its length.
-/

namespace TrioScore
namespace Smf

theorem latin1_eq_ok {name : Text} (h : ∀ c ∈ name, c.value < 256) :
    latin1 name = .ok (name.map fun c => UInt8.ofNat c.value) := by
  have hall : ∀ c ∈ name, (!outsideLatin1 c) = true := by
    intro c hc
    simpa [outsideLatin1] using h c hc
  have hgap : name.gap? outsideLatin1 outsideLatin1 = none := by
    rw [Text.gap?, List.takeWhile_eq_self_iff.mpr hall]
    simp
  rw [latin1, hgap]

theorem exists_trackMessages {track : Track} (h : track.Regular) {division : ℕ}
    (hd : division ≤ 65535) : ∃ messages, trackMessages division track = .ok messages ∧
      ∀ m ∈ messages, m.Writable (2 * (2 ^ 58 * division)) := by
  have hexact : Binary64.IsExact (2 ^ 58 * division : ℕ) := by
    rw [mul_comm]
    exact Binary64.isExact_mul_two_pow (hd.trans (by decide)) (by norm_num)
  obtain ⟨messages, hok, -, hwritable⟩ := trackMessages_eq_ok hexact hd h.playable h.channel_mem
    ⟨_, latin1_eq_ok h.name_mem, by simpa using h.length_name_le⟩
  exact ⟨messages, hok, hwritable⟩

/-- A regular score has payloads at every division that there is. -/
theorem exists_payloads {score : Score} (h : score.Regular) {division : ℕ}
    (hd : division ≤ 65535) : ∃ ps, payloads division score = .ok ps := by
  have ht : 1 ≤ score.tempo := le_trans (by norm_num) h.tempo_mem.1
  obtain ⟨conductor, hconductor, -, hwritable⟩ :=
    conductor_eq_ok ht h.meter (2 * (2 ^ 58 * division))
  obtain ⟨tracks, htracks, -, hall⟩ := exists_mapM_eq_ok
    fun track htrack => exists_trackMessages (h.tracks.1 track htrack) hd
  obtain ⟨ps, hps, -, -⟩ := exists_mapM_eq_ok (l := conductor :: tracks) (f := payload)
    (P := fun _ => True) fun messages hmem => by
      obtain ⟨bytes, hbytes, -⟩ := payload_eq_ok
        ((List.mem_cons.mp hmem).elim (fun he => he ▸ hwritable) (hall messages))
      exact ⟨bytes, hbytes, trivial⟩
  exact ⟨ps, by rw [payloads, hconductor, ok_bind, htracks, ok_bind, hps]⟩

end Smf

def Json.oneMeasure : Json :=
  .object [("timeSignature", .text "1/4"), ("sections", .array [.object [("measures", .text "1")]])]

theorem Json.payloads_oneMeasure : ∃ piece, Piece.repair oneMeasure = .ok piece ∧
    ∀ division ∈ [1, 65535], ∀ score ps, Score.ofPiece piece = .ok score →
      Smf.payloads (division : ℕ) score = .ok ps → ∀ p ∈ ps, p.length < 2 ^ 32 := by
  have hall : (match Piece.repair oneMeasure with
    | .ok piece => [1, 65535].all fun division =>
      match Score.ofPiece piece >>= Smf.payloads (division : ℕ) with
      | .ok ps => ps.all fun p => p.length < 2 ^ 32
      | .error _ => false
    | .error _ => false) = true := by decide +kernel
  cases hpiece : Piece.repair oneMeasure with
  | error fault =>
    rw [hpiece] at hall
    cases hall
  | ok piece =>
    rw [hpiece] at hall
    refine ⟨piece, rfl, fun division hd score ps hscore hps => ?_⟩
    have hdivision := List.all_eq_true.mp hall division hd
    rw [hscore, ok_bind, hps] at hdivision
    simpa using hdivision

end TrioScore
