import Mathlib.Algebra.Group.Action.Defs
import TrioScore.Proofs.Score.Timeline
import TrioScore.Proofs.Smf.Payload
import TrioScore.Proofs.Smf.Readback
import Mathlib.Algebra.Order.Floor.Semifield

/-!
# Notes in ticks

Where the places of events are exact, their ticks are whole parts of exact numbers, and the messages
of a track are those of its events in turn. The number of messages of a track, and so the size of
its payload, bounds the number of its events: a payload whose length can be written is that of a
track with exact places.
-/

namespace TrioScore
open Binary64

theorem Binary64.floor_of_isFinite {x : Binary64} (hx : x.isFinite = true) :
    x.floor = .ok ⌊x.toRat⌋ := by
  match x with
  | finite _ _ => rfl

theorem Number.nearestInt_int {n : ℤ} (h : |n| < octaveSize) :
    (Number.int n).nearestInt = .ok n := by
  have hn : IsExact (n : ℚ) := isExact_int (by omega)
  have hsum := isExact_add_half h
  have hfloor : ⌊(n : ℚ) + 1 / 2⌋ = n := by
    rw [Int.floor_eq_iff]
    constructor <;> linarith
  rw [nearestInt, toBinary64, ofInt_of_isExact hn, ok_bind, half_eq,
    ofRat_add_ofRat hn isExact_half, floor_of_isFinite (isFinite_ofRat hsum), toRat_ofRat hsum,
    hfloor]

theorem Number.dataByte_int {n : ℤ} (h : |n| < octaveSize) :
    (Number.int n).dataByte = .ok (limit 0 127 n) := by
  have hn : IsExact (n : ℚ) := isExact_int (by omega)
  have hcheck : (Number.int n).checkFinite = .ok true := by
    rw [Number.checkFinite, ofInt_of_isExact hn]
    rfl
  rw [dataByte, hcheck, ok_bind, if_pos rfl, nearestInt_int h]
  rfl

namespace Note.Regular
variable {note : Note} (h : note.Regular)
include h

theorem dataByte_velocity : (Number.int note.velocity).dataByte = .ok note.velocity := by
  obtain ⟨hlow, hhigh⟩ := h.velocity_mem
  rw [Number.dataByte_int, limit_eq_self (by omega) hhigh]
  rw [abs_of_nonneg (by omega)]
  exact hhigh.trans_lt (by decide)

theorem dataByte_pitch {pitch : ℤ} (hp : pitch ∈ note.pitches) :
    (Number.int pitch).dataByte = .ok (limit 0 127 pitch) := by
  obtain ⟨hlow, hhigh⟩ := h.pitches_mem pitch hp
  apply Number.dataByte_int
  rw [abs_of_nonneg (by omega)]
  exact hhigh.trans_lt (by decide)

end Note.Regular

namespace Event

/-- The tick at which an event begins. -/
def onset (division : ℕ) (e : Event) : ℕ := ⌊e.start.toRat * division⌋₊

/-- The length of an event in ticks. -/
def ticks (division : ℕ) (e : Event) : ℕ := ⌊e.duration.toRat * division⌋₊

def noteOn (division : ℕ) (channel : ℤ) (e : Event) (pitch : ℤ) : Smf.Timed :=
  ⟨e.onset division, .noteOn channel (limit 0 127 pitch) e.velocity⟩

def noteOff (division : ℕ) (channel : ℤ) (e : Event) (pitch : ℤ) : Smf.Timed :=
  ⟨e.onset division + e.ticks division, .noteOff channel (limit 0 127 pitch) e.velocity⟩

def messages (division : ℕ) (channel : ℤ) (e : Event) : List Smf.Timed :=
  e.pitches.flatMap fun pitch => [e.noteOn division channel pitch, e.noteOff division channel pitch]

end Event

def Track.messages (division : ℕ) (track : Track) : List Smf.Timed :=
  ⟨0, .trackName (track.name.map fun c => UInt8.ofNat c.value)⟩ ::
    track.events.toList.flatMap (Event.messages division track.channel)

namespace Event
variable {time length division : ℕ} {e : Event}

theorem Lies.onset (h : e.Lies time length) (ht : time ≤ 2 * octaveSize) :
    e.onset division = time * division / 16 := by
  have hq : (time : ℚ) / 16 * division = ((time * division : ℕ) : ℚ) / (16 : ℕ) := by
    push_cast
    ring
  rw [Event.onset, h.start, toRat_ofRat (isExact_sixteenths ht), hq, Nat.floor_div_eq_div]

theorem Lies.ticks (h : e.Lies time length) : e.ticks division = length * division / 16 := by
  have hq : (length : ℚ) / 16 * division = ((length * division : ℕ) : ℚ) / (16 : ℕ) := by
    push_cast
    ring
  rw [Event.ticks, h.duration, toRat_ofRat (isExact_sixteenths (h.length_le.trans (by decide))), hq,
    Nat.floor_div_eq_div]

end Event

/-- Every event of a regular track has a pitch. -/
theorem Track.Regular.size_le_pitchCount {track : Track} (h : track.Regular) :
    track.events.size ≤ track.pitchCount := by
  obtain ⟨notes, hnotes, htrack⟩ := h.notes
  have hsum : notes.length ≤ (notes.map fun note => note.pitches.length).sum := by
    have hle := List.card_nsmul_le_sum (notes.map fun note => note.pitches.length) 1 fun n hn => by
      obtain ⟨note, hnote, rfl⟩ := List.mem_map.mp hn
      exact List.length_pos_of_ne_nil (hnotes note hnote).pitches_ne_nil
    simpa using hle
  rw [htrack, size_events_appendAll, pitchCount_appendAll]
  exact Nat.add_le_add (Nat.zero_le _) hsum

namespace Smf

theorem ticks_sixteenths {n division : ℕ} (h₁ : 1 ≤ division) (hd : division ≤ 65535)
    (h : n * division ≤ 2 * octaveSize) :
    ticks division (ofRat (n / 16)) = .ok (n * division / 16 : ℕ) := by
  have hn : n ≤ 2 * octaveSize := (Nat.le_mul_of_pos_right n h₁).trans h
  have hdivision : IsExact (((division : ℕ) : ℤ) : ℚ) :=
    isExact_natCast (hd.trans (by decide))
  have hq : (n : ℚ) / 16 * ((division : ℤ) : ℚ) = ((n * division : ℕ) : ℚ) / 16 := by
    push_cast
    ring
  have hfloor : ⌊((n * division : ℕ) : ℚ) / 16⌋ = ((n * division / 16 : ℕ) : ℤ) := by
    exact_mod_cast Rat.floor_natCast_div_natCast (n * division) 16
  rw [ticks, ofRat_mul_ofRat (isExact_sixteenths hn) hdivision (by positivity) (by positivity), hq,
    truncate_ofRat (isExact_sixteenths h) (by positivity), hfloor]

section Messages
variable {division : ℕ} (h₁ : 1 ≤ division) (hd : division ≤ 65535)
include h₁ hd

theorem eventMessages_of_lies {time length : ℕ} {e : Event} (he : e.Lies time length)
    (h : (time + length) * division ≤ 2 * octaveSize) (channel : ℤ) :
    eventMessages division channel e = .ok (e.messages division channel) := by
  have hsum : (time + length) * division = time * division + length * division := Nat.add_mul ..
  have htime : time ≤ 2 * octaveSize :=
    ((Nat.le_add_right _ _).trans (Nat.le_mul_of_pos_right _ h₁)).trans h
  have hstart : ticks division e.start = .ok (e.onset division) := by
    rw [he.start, ticks_sixteenths h₁ hd (by omega), he.onset htime]
  have hduration : ticks division e.duration = .ok (e.ticks division) := by
    rw [he.duration, ticks_sixteenths h₁ hd (by omega), he.ticks]
  have hvelocity : (Number.int e.velocity).dataByte = .ok e.velocity :=
    he.regular.dataByte_velocity
  rw [eventMessages, mapM_eq_ok (g := _), ok_map, ← List.flatMap_def]
  · rfl
  · intro pitch hp
    have hpitch := he.regular.dataByte_pitch hp
    rw [noteMessages, hpitch, ok_bind, hvelocity, ok_bind, hstart, ok_bind, hduration]
    rfl

/-- The messages of a track whose places are exact. -/
theorem trackMessages_of_timeline {track : Track} (h : Timeline 0 track.events.toList)
    (hsize : 384 * track.events.size * division ≤ 2 * octaveSize)
    (hname : ∀ c ∈ track.name, c.value < 256) :
    trackMessages division track = .ok (track.messages division) := by
  rw [trackMessages, latin1_eq_ok hname, ok_bind, mapM_eq_ok]
  · rfl
  · intro e he
    obtain ⟨time, length, hlies, -, hbound⟩ := h.exists_lies e he
    rw [zero_add, Array.length_toList] at hbound
    exact eventMessages_of_lies h₁ hd hlies ((Nat.mul_le_mul_right division hbound).trans hsize) _

end Messages

/-- A track has two messages for each of its pitches, and its name. -/
theorem length_trackMessages {division : ℤ} {track : Track} {messages : List Timed}
    (h : trackMessages division track = .ok messages) :
    messages.length = 2 * track.pitchCount + 1 := by
  have hnote : ∀ (e : Event) (pitch : ℤ) (l : List Timed),
      noteMessages division track.channel e pitch = .ok l → l.length = 2 := by
    intro e pitch l h
    obtain ⟨_, -, h⟩ := bind_eq_ok_iff.mp h
    obtain ⟨_, -, h⟩ := bind_eq_ok_iff.mp h
    obtain ⟨_, -, h⟩ := bind_eq_ok_iff.mp h
    obtain ⟨_, -, h⟩ := bind_eq_ok_iff.mp h
    cases h
    rfl
  have hevent : ∀ (e : Event) (l : List Timed),
      eventMessages division track.channel e = .ok l → l.length = 2 * e.pitches.length := by
    intro e l h
    obtain ⟨parts, hparts, rfl⟩ := map_eq_ok_iff.mp h
    rw [length_flatten_of_mapM (hnote e) hparts, List.map_const', List.sum_replicate, smul_eq_mul,
      Nat.mul_comm]
  obtain ⟨name, -, h⟩ := bind_eq_ok_iff.mp h
  obtain ⟨parts, hparts, h⟩ := bind_eq_ok_iff.mp h
  cases h
  rw [List.length_cons, length_flatten_of_mapM hevent hparts, List.sum_map_mul_left]
  rfl

theorem length_le_of_payload {messages : List Timed} {p : Bytes} (h : payload messages = .ok p) :
    3 * messages.length ≤ p.length := by
  obtain ⟨bytes, hbytes, rfl⟩ := map_eq_ok_iff.mp h
  have hlength := Timed.length_le_of_bytesFrom hbytes
  rw [(Timed.sort_perm messages).length_eq] at hlength
  rw [List.length_append]
  omega

/-- A track whose payload is not too long has exact places, and its messages are those of its events
in turn. -/
theorem timeline_of_payload {track : Track} (h : track.Regular) {division : ℕ} (h₁ : 1 ≤ division)
    (hd : division ≤ 32767) {messages : List Timed}
    (hmessages : trackMessages division track = .ok messages) {p : Bytes}
    (hp : payload messages = .ok p) (hshort : p.length < 2 ^ 32) :
    Timeline 0 track.events.toList ∧ 384 * track.events.size ≤ 2 ^ 38 ∧
      messages = track.messages division := by
  have hcount := length_trackMessages hmessages
  have hpayload := length_le_of_payload hp
  have hevents := h.size_le_pitchCount
  have hsize : 384 * track.events.size ≤ 2 ^ 38 := by omega
  have htimeline := h.timeline (hsize.trans (by decide))
  refine ⟨htimeline, hsize, ?_⟩
  have hok := trackMessages_of_timeline h₁ (hd.trans (by decide)) htimeline
    ((Nat.mul_le_mul hsize hd).trans (by decide)) h.name_mem
  rw [hmessages] at hok
  exact Except.ok.inj hok

end Smf
end TrioScore
