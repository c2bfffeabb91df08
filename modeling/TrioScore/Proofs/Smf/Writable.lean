import TrioScore.Proofs.Meter.Pulses
import TrioScore.Proofs.Meter.Range
import TrioScore.Proofs.Score.Playable
import TrioScore.Proofs.Smf.Chunks
import Mathlib.Algebra.BigOperators.Ring.List

/-!
# Scores that can be written

A message that fits its fields is written in few bytes, and so is its distance from the message
before it. A file is refused only when a field does not fit: playable tracks with names in Latin-1
and not too many pitches always become one.
-/

namespace TrioScore.Smf

theorem length_continued_le {n k : ℕ} (h : n < 128 ^ k) : (continued n).length ≤ k := by
  induction k generalizing n with
  | zero =>
    obtain rfl : n = 0 := by omega
    rw [continued]
    exact le_rfl
  | succ k ih =>
    rw [continued]
    split_ifs
    · exact Nat.zero_le _
    · rw [List.length_append]
      exact Nat.succ_le_succ (ih (Nat.div_lt_of_lt_mul (by rwa [pow_succ'] at h)))

theorem length_delta_le {n : ℤ} {k : ℕ} (h : n < 128 ^ (k + 1)) : (delta n).length ≤ k + 1 := by
  unfold delta
  split_ifs with hn
  · exact Nat.zero_le _
  · have hlt : n.toNat < 128 * 128 ^ k := by
      zify
      rw [Int.toNat_of_nonneg (not_lt.mp hn), ← pow_succ']
      exact h
    rw [quantity, List.length_append]
    exact Nat.succ_le_succ (length_continued_le (Nat.div_lt_of_lt_mul hlt))

theorem noteBytes_eq_ok (kind : ℕ) (hkind : kind < 256) {channel pitch velocity : ℤ}
    (hc : 0 ≤ channel ∧ channel < 16) (hp : 0 ≤ pitch ∧ pitch ≤ 127)
    (hv : 0 ≤ velocity ∧ velocity ≤ 127) : ∃ bytes,
      Message.noteBytes kind channel pitch velocity = .ok bytes ∧ bytes.length = 3 := by
  have hbyte : ∀ n : ℤ, 0 ≤ n → n < 256 → field 1 n = .ok (bigEndian 1 n.toNat) :=
    fun n h₀ h => field_eq_ok h₀ (by omega)
  obtain ⟨n, rfl⟩ := Int.eq_ofNat_of_zero_le hc.1
  have hor : kind ||| n < 2 ^ 8 := Nat.or_lt_two_pow hkind (by omega)
  have hstatus : Message.status kind n = .ok (bigEndian 1 (kind ||| n)) :=
    hbyte (kind ||| n : ℕ) (by omega) (by exact_mod_cast hor)
  rw [Message.noteBytes, hstatus, hbyte pitch hp.1 (by omega), hbyte velocity hv.1 (by omega)]
  exact ⟨_, rfl, by simp⟩

structure Timed.Writable (last : ℕ) (timed : Timed) : Prop where
  nonneg : 0 ≤ timed.tick
  le : timed.tick ≤ last
  bytes : ∃ bytes, timed.message.bytes = .ok bytes ∧ bytes.length ≤ 16

/-- Messages that fit have bytes; within four bytes of distance, these are few. -/
theorem bytesFrom_eq_ok {last : ℕ} {messages : List Timed} (h : ∀ m ∈ messages, m.Writable last)
    (before : ℤ) : ∃ bytes, Timed.bytesFrom before messages = .ok bytes ∧
      (last < 128 ^ 4 → 0 ≤ before → bytes.length ≤ 20 * messages.length) := by
  induction messages generalizing before with
  | nil => exact ⟨[], rfl, fun _ _ => Nat.zero_le _⟩
  | cons m messages ih =>
    obtain ⟨hm, hmessages⟩ := List.forall_mem_cons.mp h
    obtain ⟨bytes, hbytes, hlength⟩ := hm.bytes
    obtain ⟨rest, hrest, hsize⟩ := ih hmessages m.tick
    refine ⟨delta (m.tick - before) ++ bytes ++ rest, ?_, fun hlast hbefore => ?_⟩
    · rw [Timed.bytesFrom_cons, Timed.bytesAfter, hbytes, ok_map, ok_bind, hrest, ok_map]
    · have hle := hm.le
      have hdelta : (delta (m.tick - before)).length ≤ 3 + 1 := length_delta_le (by omega)
      have := hsize hlast hm.nonneg
      simp only [List.length_append, List.length_cons]
      omega

theorem payload_eq_ok {last : ℕ} {messages : List Timed} (h : ∀ m ∈ messages, m.Writable last) :
    ∃ bytes, payload messages = .ok bytes ∧
      (last < 128 ^ 4 → messages.length ≤ 2 ^ 20 → bytes.length < 2 ^ 32) := by
  have hperm := Timed.sort_perm messages
  obtain ⟨bytes, hbytes, hsize⟩ := bytesFrom_eq_ok (fun m hm => h m (hperm.mem_iff.mp hm)) 0
  refine ⟨bytes ++ endOfTrack, by rw [payload, hbytes, ok_map], fun hlast hlength => ?_⟩
  have hend : endOfTrack.length = 4 := rfl
  have := hsize hlast le_rfl
  rw [hperm.length_eq] at this
  rw [List.length_append, hend]
  omega

/-- The data byte of an integer that binary64 holds. -/
theorem dataByte_eq_ok {n : ℤ} (h : Number.IsSmall n) :
    ∃ b : ℤ, (Number.int n).dataByte = .ok b ∧ 0 ≤ b ∧ b ≤ 127 := by
  have hexact := Binary64.isExact_int h
  have hofInt := Binary64.ofInt_of_isExact hexact
  have hm := Number.nearestInt_of_isFinite (Binary64.isFinite_ofRat hexact)
  set m := (Binary64.ofRat n + Binary64.half).toRat.floor
  have hnearest : (Number.int n).nearestInt = .ok m := by
    rw [Number.nearestInt, Number.toBinary64, hofInt, ← hm]
    rfl
  refine ⟨limit 0 127 m, ?_, le_limit _ _ _, limit_le (by decide) _⟩
  rw [Number.dataByte, Number.checkFinite, hofInt, hnearest]
  rfl

section Messages
variable {limit division : ℕ} (hd : Binary64.IsExact (limit * division : ℕ)) {channel : ℤ}
  (hc : 0 ≤ channel ∧ channel < 16)
include hd

theorem ticks_eq_ok {time : Binary64} (ht : time.Within limit) (hdivision : division ≤ 65535) :
    ∃ n : ℕ, ticks division time = .ok n ∧ n ≤ limit * division := by
  have hsize : (65535 : ℕ) ≤ 2 * octaveSize := by decide
  have hwithin : (Binary64.ofRat division).Within division :=
    Binary64.within_ofRat (Binary64.isExact_natCast (hdivision.trans hsize)) (Nat.cast_nonneg _)
      le_rfl
  exact (ht.mul hwithin hd).truncate

include hc

theorem noteMessages_eq_ok {e : Event} (he : e.Playable limit) (hdivision : division ≤ 65535)
    {pitch : ℤ} (hp : Number.IsSmall pitch) : ∃ messages,
      noteMessages division channel e pitch = .ok messages ∧ messages.length = 2 ∧
      ∀ m ∈ messages, m.Writable (2 * (limit * division)) := by
  obtain ⟨pitch', hpitch, hp'⟩ := dataByte_eq_ok hp
  obtain ⟨velocity, hvelocity, hv⟩ := dataByte_eq_ok he.velocity
  obtain ⟨start, hstart, hs⟩ := ticks_eq_ok hd he.start hdivision
  obtain ⟨duration, hduration, hd'⟩ := ticks_eq_ok hd he.duration hdivision
  obtain ⟨on, hon, hlon⟩ := noteBytes_eq_ok 0x90 (by decide) hc hp' hv
  obtain ⟨off, hoff, hloff⟩ := noteBytes_eq_ok 0x80 (by decide) hc hp' hv
  have hmessages : noteMessages division channel e pitch = .ok
      [⟨start, .noteOn channel pitch' velocity⟩,
        ⟨start + duration, .noteOff channel pitch' velocity⟩] := by
    simp only [noteMessages, hpitch, hvelocity, hstart, hduration]
    rfl
  refine ⟨_, hmessages, rfl, ?_⟩
  rw [List.forall_mem_cons, List.forall_mem_singleton]
  refine ⟨⟨?_, ?_, on, hon, by omega⟩, ⟨?_, ?_, off, hoff, by omega⟩⟩
  all_goals
    dsimp only
    omega

theorem eventMessages_eq_ok {e : Event} (he : e.Playable limit) (hdivision : division ≤ 65535) :
    ∃ messages, eventMessages division channel e = .ok messages ∧
      messages.length ≤ 2 * e.pitches.length ∧
      ∀ m ∈ messages, m.Writable (2 * (limit * division)) := by
  obtain ⟨parts, hparts, hsize, hwritable⟩ := exists_flatten_mapM (fun _ => 2)
    fun pitch hp => by
      obtain ⟨messages, hok, hlength, hall⟩ :=
        noteMessages_eq_ok hd hc he hdivision (he.pitches pitch hp)
      exact ⟨messages, hok, hlength.le, hall⟩
  refine ⟨parts.flatten, ?_, ?_, hwritable⟩
  · rw [eventMessages, hparts, ok_map]
  · rw [List.map_const', List.sum_replicate, nsmul_eq_mul, Nat.cast_id] at hsize
    exact hsize.trans (Nat.mul_comm _ _).le

end Messages

/-- A playable track of few pitches, with a short name in Latin-1 and a channel that there is. -/
structure WritableTrack (limit : ℕ) (track : Track) : Prop where
  playable : track.Playable limit
  channel_mem : 0 ≤ track.channel ∧ track.channel < 16
  pitchCount_le : track.pitchCount ≤ 2 ^ 18
  name : ∃ bytes, latin1 track.name = .ok bytes ∧ bytes.length ≤ 13

theorem trackMessages_eq_ok {limit division : ℕ} (hd : Binary64.IsExact (limit * division : ℕ))
    (hdivision : division ≤ 65535) {track : Track} (h : track.Playable limit)
    (hc : 0 ≤ track.channel ∧ track.channel < 16)
    (hn : ∃ bytes, latin1 track.name = .ok bytes ∧ bytes.length ≤ 13) :
    ∃ messages, trackMessages division track = .ok messages ∧
      messages.length ≤ 2 * track.pitchCount + 1 ∧
      ∀ m ∈ messages, m.Writable (2 * (limit * division)) := by
  obtain ⟨name, hname, hshort⟩ := hn
  obtain ⟨parts, hparts, hsize, hwritable⟩ := exists_flatten_mapM
    (fun e => 2 * e.pitches.length) fun e he =>
      eventMessages_eq_ok hd hc (h.events e (Array.mem_toList_iff.mp he)) hdivision
  have hmessages : trackMessages division track =
      .ok (⟨0, .trackName name⟩ :: parts.flatten) := by
    rw [trackMessages, hname, ok_bind, hparts]
    rfl
  refine ⟨_, hmessages, ?_, List.forall_mem_cons.mpr ⟨⟨le_rfl, ?_, _, rfl, ?_⟩, hwritable⟩⟩
  · rw [List.length_cons, Track.pitchCount, ← List.sum_map_mul_left]
    exact Nat.succ_le_succ hsize
  · exact Int.natCast_nonneg _
  · have hquantity : (quantity name.length).length ≤ 1 := by
      rw [quantity, List.length_append]
      exact Nat.succ_le_succ (length_continued_le (k := 0) (by omega))
    simp only [List.length_append, List.length_cons, List.length_nil]
    omega

theorem conductor_eq_ok {tempo : ℤ} (ht : 1 ≤ tempo) {meter : Meter} (hm : meter.InRange)
    (last : ℕ) : ∃ messages, conductor tempo meter = .ok messages ∧ messages.length = 2 ∧
      ∀ m ∈ messages, m.Writable last := by
  have htempo : (1 : ℚ) ≤ tempo := by exact_mod_cast ht
  have hsize : (60000000 : ℕ) ≤ 2 * octaveSize := by decide
  have hwithin : (Binary64.ofRat (60000000 / tempo)).Within 60000000 := by
    refine Binary64.within_ofRat (Binary64.isExact_natCast hsize) (by positivity) ?_
    exact_mod_cast div_le_self (by norm_num : (0 : ℚ) ≤ 60000000) htempo
  obtain ⟨n, hn, hle⟩ := hwithin.truncate
  have hmicroseconds : microseconds tempo = .ok n := by
    rw [microseconds, if_neg (by omega), hn]
  have htempoBytes : (Message.tempo n).bytes =
      .ok ([0xFF, 0x51, 0x03] ++ (bigEndian 4 n).drop 1) := by
    rw [Message.bytes, field_eq_ok (Int.natCast_nonneg n) (by omega)]
    rfl
  have hpower : 0 ≤ denominatorPower meter.denominator ∧
      denominatorPower meter.denominator < 256 := by
    rcases hm.denominator_mem with h | h | h | h
    all_goals
      rw [h]
      decide
  have hnumerator := hm.numerator_mem
  have hmeterBytes :
      (Message.timeSignature meter.numerator (denominatorPower meter.denominator)).bytes =
        .ok ([0xFF, 0x58, 0x04] ++ bigEndian 1 meter.numerator.toNat ++
          bigEndian 1 (denominatorPower meter.denominator).toNat ++ [24, 8]) := by
    rw [Message.bytes, field_eq_ok (by omega) (by omega),
      field_eq_ok hpower.1 (by omega)]
    rfl
  refine ⟨_, by rw [conductor, hmicroseconds]; rfl, rfl, ?_⟩
  rw [List.forall_mem_cons, List.forall_mem_singleton]
  exact ⟨⟨le_rfl, Int.natCast_nonneg _, _, htempoBytes, by simp⟩,
    ⟨le_rfl, Int.natCast_nonneg _, _, hmeterBytes, by simp⟩⟩

theorem ofScore_eq_ok (limit division : ℕ) (hd : limit * division ≤ 2 ^ 26)
    (hdivision : division ≤ 65535) {score : Score} (ht : 1 ≤ score.tempo)
    (hm : score.meter.InRange) (h : ∀ track ∈ score.tracks, WritableTrack limit track) :
    ∃ bytes, ofScore division score = .ok bytes := by
  obtain ⟨conductor, hconductor, hlength, hwritable⟩ :=
    conductor_eq_ok ht hm (2 * (limit * division))
  obtain ⟨tracks, htracks, -, hall⟩ := exists_mapM_eq_ok (l := score.tracks)
    (f := trackMessages division) (P := fun messages => messages.length ≤ 2 ^ 20 ∧
      ∀ m ∈ messages, m.Writable (2 * (limit * division))) fun track htrack => by
      obtain ⟨hplayable, hchannel, hcount, hname⟩ := h track htrack
      have hexact := Binary64.isExact_natCast (hd.trans (by decide : 2 ^ 26 ≤ 2 * octaveSize))
      obtain ⟨messages, hok, hsize, hw⟩ :=
        trackMessages_eq_ok hexact hdivision hplayable hchannel hname
      exact ⟨messages, hok, by omega, hw⟩
  obtain ⟨ps, hps, -, hshort⟩ := exists_mapM_eq_ok (l := conductor :: tracks) (f := payload)
    (P := fun p => p.length < 2 ^ 32) fun messages hmem => by
      have hmessages : messages.length ≤ 2 ^ 20 ∧
          ∀ m ∈ messages, m.Writable (2 * (limit * division)) := by
        rcases List.mem_cons.mp hmem with rfl | hmem
        · exact ⟨by omega, hwritable⟩
        · exact hall messages hmem
      obtain ⟨bytes, hbytes, hfit⟩ := payload_eq_ok hmessages.2
      exact ⟨bytes, hbytes, hfit (by omega) hmessages.1⟩
  have hpayloads : payloads division score = .ok ps := by
    rw [payloads, hconductor, ok_bind, htracks, ok_bind, hps]
  exact ⟨_, (ofScore_eq_ok_iff hdivision hpayloads).mpr ⟨hshort, rfl⟩⟩

end TrioScore.Smf
