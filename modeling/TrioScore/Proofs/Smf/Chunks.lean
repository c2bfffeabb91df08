import TrioScore.Proofs.Faults
import TrioScore.Proofs.Smf.Reader
import TrioScore.Smf.File
import Mathlib.Tactic.NormNum

/-!
# Chunks of a file

The chunk of a track holds its messages in order and the end of the track. When every message fits,
there is a payload for the conductor and for each track; the file is made of their chunks after a
header, and is refused only when one of the payloads is too long for its length to be written.
-/

namespace TrioScore.Smf
open Reader (headerTag trackTag)

theorem field_eq_ok {width : ℕ} {n : ℤ} (h₀ : 0 ≤ n) (h : n < 256 ^ width) :
    field width n = .ok (bigEndian width n.toNat) := by
  have hpow : ((Nat.pow 256 width : ℕ) : ℤ) = 256 ^ width := by
    rw [Nat.pow_eq]
    push_cast
    rfl
  rw [field, hpow, if_pos ⟨h₀, h⟩]

theorem Timed.bytesFrom_cons (tick : ℤ) (m : Timed) (ms : List Timed) :
    bytesFrom tick (m :: ms) =
      bytesAfter tick m >>= fun head => (head ++ ·) <$> bytesFrom m.tick ms := by
  have hmapM : bytesFrom tick (m :: ms) = List.flatten <$>
      ((tick, m) :: (m.tick :: ms.map Timed.tick).zip ms).mapM
        fun pair => bytesAfter pair.1 pair.2 := rfl
  rw [hmapM, List.mapM_cons, bytesFrom]
  simp

def headerPayload (division : ℕ) : Bytes := [0, 1, 0, 4] ++ bigEndian 2 division

def payload (messages : List Timed) : Except Fault Bytes :=
  (· ++ endOfTrack) <$> Timed.bytesFrom 0 (Timed.sort messages)

/-- The payloads of the conductor and of the tracks of a score. -/
def payloads (division : ℤ) (score : Score) : Except Fault (List Bytes) := do
  let conductor ← conductor score.tempo score.meter
  let tracks ← score.tracks.mapM (trackMessages division)
  (conductor :: tracks).mapM payload

/-- The chunks of a file: the header and the tracks. -/
def fileChunks (division : ℕ) (payloads : List Bytes) : List Chunk :=
  ⟨headerTag, headerPayload division⟩ :: payloads.map (⟨trackTag, ·⟩)

def Chunk.bytes (chunk : Chunk) : Bytes :=
  chunk.tag ++ bigEndian 4 chunk.payload.length ++ chunk.payload

theorem chunk_eq_ok_iff {tag payload bytes : Bytes} : chunk tag payload = .ok bytes ↔
    payload.length < 2 ^ 32 ∧ bytes = Chunk.bytes ⟨tag, payload⟩ := by
  have hpow : ((Nat.pow 256 4 : ℕ) : ℤ) = 2 ^ 32 := by norm_num
  rw [chunk, field, hpow]
  split_ifs with h
  · have hlength : payload.length < 2 ^ 32 := by omega
    constructor
    · intro he
      cases he
      exact ⟨hlength, rfl⟩
    · rintro ⟨-, rfl⟩
      rfl
  · constructor
    · intro he
      cases he
    · rintro ⟨hlength, -⟩
      omega

theorem trackChunk_eq (messages : List Timed) :
    trackChunk messages = payload messages >>= chunk trackTag := by
  rw [trackChunk, payload, bind_map_left, trackTag]

theorem header_eq {division : ℕ} (h : division ≤ 65535) :
    header division = .ok (Chunk.bytes ⟨headerTag, headerPayload division⟩) := by
  have hfield : field 2 division = .ok (bigEndian 2 (division : ℤ).toNat) :=
    field_eq_ok (Int.natCast_nonneg division) (by omega)
  rw [Int.toNat_natCast] at hfield
  have hshort : (headerPayload division).length < 2 ^ 32 := by
    rw [headerPayload, List.length_append, length_bigEndian]
    norm_num
  have hheader : header division = chunk headerTag (headerPayload division) := by
    rw [header, hfield, ok_bind]
    rfl
  exact hheader.trans (chunk_eq_ok_iff.mpr ⟨hshort, rfl⟩)

theorem ofScore_eq_ok_iff {division : ℕ} (hd : division ≤ 65535) {score : Score} {ps : List Bytes}
    (h : payloads division score = .ok ps) {bytes : Bytes} : ofScore division score = .ok bytes ↔
      (∀ p ∈ ps, p.length < 2 ^ 32) ∧ bytes = (fileChunks division ps).flatMap Chunk.bytes := by
  obtain ⟨conductor, hconductor, h⟩ := bind_eq_ok_iff.mp h
  obtain ⟨tracks, htracks, h⟩ := bind_eq_ok_iff.mp h
  have hchunks : (conductor :: tracks).mapM trackChunk = ps.mapM (chunk trackTag) := by
    rw [← mapM_bind_of_eq_ok h]
    exact congrArg (List.mapM · _) (funext trackChunk_eq)
  have hflat : (fileChunks division ps).flatMap Chunk.bytes =
      Chunk.bytes ⟨headerTag, headerPayload division⟩ ++
        (ps.map fun p => Chunk.bytes ⟨trackTag, p⟩).flatten := by
    rw [fileChunks, List.flatMap_cons, List.flatMap_map, List.flatMap_def]
  rw [ofScore, header_eq hd, ok_bind, hconductor, ok_bind, htracks, ok_bind, hchunks,
    bind_eq_ok_iff, hflat]
  simp only [mapM_eq_ok_iff fun _ _ => chunk_eq_ok_iff]
  constructor
  · rintro ⟨chunks, ⟨hshort, rfl⟩, hbytes⟩
    cases hbytes
    exact ⟨hshort, rfl⟩
  · rintro ⟨hshort, rfl⟩
    exact ⟨_, ⟨hshort, rfl⟩, rfl⟩

theorem head?_of_ofScore {division : ℕ} (hd : division ≤ 65535) {score : Score} {bytes : Bytes}
    (h : ofScore division score = .ok bytes) : bytes.head? = headerTag.head? := by
  obtain ⟨_, hheader, h⟩ := bind_eq_ok_iff.mp h
  obtain ⟨_, -, h⟩ := bind_eq_ok_iff.mp h
  obtain ⟨_, -, h⟩ := bind_eq_ok_iff.mp h
  obtain ⟨_, -, h⟩ := bind_eq_ok_iff.mp h
  obtain rfl := Except.ok.inj ((header_eq hd).symm.trans hheader)
  obtain rfl := Except.ok.inj h
  rfl

/-- The payload of the conductor comes first, then one for each track. -/
theorem exists_of_payloads {division : ℤ} {score : Score} {ps : List Bytes}
    (h : payloads division score = .ok ps) : ∃ first rest, ps = first :: rest ∧
      conductor score.tempo score.meter >>= payload = .ok first ∧
      List.Forall₂ (fun track p => trackMessages division track >>= payload = .ok p)
        score.tracks rest := by
  obtain ⟨messages, hconductor, h⟩ := bind_eq_ok_iff.mp h
  obtain ⟨tracks, htracks, h⟩ := bind_eq_ok_iff.mp h
  rw [List.mapM_cons] at h
  obtain ⟨first, hfirst, h⟩ := bind_eq_ok_iff.mp h
  obtain ⟨rest, hrest, h⟩ := bind_eq_ok_iff.mp h
  cases h
  refine ⟨first, rest, rfl, ?_, ?_⟩
  · rw [hconductor, ok_bind, hfirst]
  · exact forall₂_of_mapM ((mapM_bind_of_eq_ok htracks).trans hrest)

theorem length_payloads {division : ℤ} {score : Score} {ps : List Bytes}
    (h : payloads division score = .ok ps) : ps.length = 4 := by
  obtain ⟨first, rest, rfl, -, hrest⟩ := exists_of_payloads h
  rw [List.length_cons, ← hrest.length_eq]
  rfl

end TrioScore.Smf
