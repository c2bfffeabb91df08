import TrioScore.Proofs.Smf.Readback

/-!
# The order of messages

The messages of a track stand in the file by their ticks. Where no tick is far from the next, each
distance can be written.
-/

namespace TrioScore.Smf
namespace Timed

variable {a b c m : Timed} {messages : List Timed}

theorem precedes_iff : a.precedes b = true ↔
    a.tick < b.tick ∨ a.tick = b.tick ∧ a.message.order ≤ b.message.order := by
  simp [precedes]

theorem precedes_of_not_precedes (h : ¬ a.precedes b = true) : b.precedes a = true := by
  rw [precedes_iff] at h ⊢
  omega

theorem precedes_trans (hab : a.precedes b = true) (hbc : b.precedes c = true) :
    a.precedes c = true := by
  rw [precedes_iff] at *
  omega

theorem pairwise_insert (m : Timed) (h : messages.Pairwise (precedes · ·)) :
    (insert m messages).Pairwise (precedes · ·) := by
  induction messages with
  | nil => exact List.pairwise_singleton _ m
  | cons other rest ih =>
    obtain ⟨hother, hrest⟩ := List.pairwise_cons.mp h
    rw [insert]
    split_ifs with hm
    · refine List.pairwise_cons.mpr ⟨?_, h⟩
      rw [List.forall_mem_cons]
      exact ⟨hm, fun m' hm' => precedes_trans hm (hother m' hm')⟩
    · refine List.pairwise_cons.mpr ⟨fun m' hm' => ?_, ih hrest⟩
      rcases List.mem_cons.mp ((insert_perm m rest).mem_iff.mp hm') with rfl | hm'
      · exact precedes_of_not_precedes hm
      · exact hother m' hm'

theorem pairwise_sort (messages : List Timed) : (sort messages).Pairwise (precedes · ·) := by
  induction messages with
  | nil => exact .nil
  | cons m messages ih => exact pairwise_insert m ih

theorem pairwise_tick_sort (messages : List Timed) :
    (sort messages).Pairwise fun a b => a.tick ≤ b.tick := by
  refine (pairwise_sort messages).imp fun h => ?_
  rw [precedes_iff] at h
  omega

/-- From a tick on, whenever there is a message later on, there is one within a distance. -/
def Dense (distance start : ℤ) (messages : List Timed) : Prop :=
  ∀ tick, start ≤ tick → (∃ m ∈ messages, tick < m.tick) →
    ∃ m ∈ messages, tick < m.tick ∧ m.tick ≤ tick + distance

theorem Dense.tail {distance start : ℤ} (h : Dense distance start (m :: messages))
    (hm : start ≤ m.tick) : Dense distance m.tick messages := by
  intro tick htick hlater
  obtain ⟨m', hm', hlater⟩ := hlater
  obtain ⟨next, hnext, hlt, hle⟩ := h tick (hm.trans htick) ⟨m', List.mem_cons_of_mem m hm', hlater⟩
  rcases List.mem_cons.mp hnext with rfl | hnext
  · omega
  · exact ⟨next, hnext, hlt, hle⟩

theorem Dense.cons {distance start : ℤ} (h : Dense distance start messages)
    (hm : m.tick ≤ start) : Dense distance start (m :: messages) := by
  intro tick htick hlater
  obtain ⟨m', hm', hlater⟩ := hlater
  rcases List.mem_cons.mp hm' with rfl | hm'
  · omega
  · obtain ⟨next, hnext, hnear⟩ := h tick htick ⟨m', hm', hlater⟩
    exact ⟨next, List.mem_cons_of_mem m hnext, hnear⟩

theorem Dense.perm {distance start : ℤ} {others : List Timed} (h : Dense distance start messages)
    (hp : others.Perm messages) : Dense distance start others := by
  intro tick htick hlater
  simp only [hp.mem_iff] at hlater ⊢
  exact h tick htick hlater

/-- Messages in order without a long pause between them can be written. -/
theorem Dense.spaced {distance start : ℤ} (h : Dense distance start messages)
    (h₀ : 0 ≤ distance) (hd : distance < 128 ^ 4)
    (hs : messages.Pairwise fun a b => a.tick ≤ b.tick) (hstart : ∀ m ∈ messages, start ≤ m.tick) :
    Spaced start messages := by
  induction messages generalizing start with
  | nil => trivial
  | cons m messages ih =>
    obtain ⟨hm, hmessages⟩ := List.pairwise_cons.mp hs
    have hle : start ≤ m.tick := hstart m List.mem_cons_self
    refine ⟨hle, ?_, ih (h.tail hle) hmessages hm⟩
    rcases hle.eq_or_lt with heq | hlt
    · omega
    · obtain ⟨next, hnext, -, hnear⟩ := h start le_rfl ⟨m, List.mem_cons_self, hlt⟩
      have hfirst : m.tick ≤ next.tick := by
        rcases List.mem_cons.mp hnext with rfl | hnext
        · exact le_rfl
        · exact hm next hnext
      omega

end Timed

/-- A track of messages that fit, without a long pause, is read back in the order of the file. -/
theorem events?_payload {messages : List Timed}
    (hfits : ∀ m ∈ messages, m.message.Fits ∧ 0 ≤ m.tick)
    (hdense : Timed.Dense (128 ^ 4 - 1) 0 messages) {p : Bytes} (hp : payload messages = .ok p) :
    ∃ last, Reader.events? 0 none p =
      some ((Timed.sort messages).map Timed.heard ++ [(last, .endOfTrack)]) := by
  have hperm := Timed.sort_perm messages
  have hsorted : ∀ m ∈ Timed.sort messages, m.message.Fits ∧ 0 ≤ m.tick :=
    fun m hm => hfits m (hperm.mem_iff.mp hm)
  have hspaced : Timed.Spaced (0 : ℕ) (Timed.sort messages) :=
    (hdense.perm hperm).spaced (by norm_num) (by norm_num) (Timed.pairwise_tick_sort messages)
      fun m hm => (hsorted m hm).2
  obtain ⟨bytes, last, hbytes, hread⟩ := events?_bytesFrom (fun m hm => (hsorted m hm).1) hspaced
  rw [Nat.cast_zero] at hbytes
  rw [payload, hbytes, ok_map] at hp
  cases hp
  exact ⟨last, hread none⟩

end TrioScore.Smf
