import TrioScore.Smf.Field
import TrioScore.Text.CodePoint
import Mathlib.Algebra.Ring.Nat

/-!
# Reading MIDI files

A reader of standard MIDI files, for every file and not only for those written here. The chunks tile
the file; the header gives the format, the number of tracks and the division. A track is a list of
events, each after a distance: messages to a channel, whose status byte may be left out when it is
that of the message before, system exclusive messages and meta events. It ends with the end of the
track and with nothing after it.
-/

namespace TrioScore.Smf

/-- What a track holds at a tick. A note that begins without velocity is one that ends. -/
inductive TrackEvent where
  | noteOff (channel pitch velocity : ℕ)
  | noteOn (channel pitch velocity : ℕ)
  | channelMessage (kind channel : ℕ) (data : Bytes)
  | systemExclusive (data : Bytes)
  | timeSignature (numerator denominator clocks thirtySeconds : ℕ)
  | tempo (microseconds : ℕ)
  | trackName (name : Text)
  | endOfTrack
  | otherMeta (kind : ℕ) (data : Bytes)
deriving DecidableEq

structure Chunk where
  tag : Bytes
  payload : Bytes
deriving DecidableEq

inductive Division where
  | ticksPerQuarter (ticks : ℕ)
  | ticksPerFrame (framesPerSecond ticks : ℕ)
deriving DecidableEq

structure File where
  format : ℕ
  division : Division
  tracks : List (List (ℕ × TrackEvent))
deriving DecidableEq

namespace Reader

def headerTag : Bytes := [0x4D, 0x54, 0x68, 0x64]

def trackTag : Bytes := [0x4D, 0x54, 0x72, 0x6B]

/-- The first bytes, and those after them. -/
def take? (count : ℕ) (bytes : Bytes) : Option (Bytes × Bytes) :=
  if count ≤ bytes.length then some (bytes.take count, bytes.drop count) else none

/-- A number, its most significant byte first. -/
def number (bytes : Bytes) : ℕ := bytes.foldl (fun n b => 256 * n + b.toNat) 0

/-- A quantity in at most so many bytes, of which the higher part has been read. -/
def quantityFrom? : ℕ → ℕ → Bytes → Option (ℕ × Bytes)
  | width + 1, high, b :: rest =>
    if b.toNat < 128 then some (128 * high + b.toNat, rest)
    else quantityFrom? width (128 * high + (b.toNat - 128)) rest
  | _, _, _ => none

def quantity? (bytes : Bytes) : Option (ℕ × Bytes) := quantityFrom? 4 0 bytes

def block? (bytes : Bytes) : Option (Bytes × Bytes) := do
  let (length, rest) ← quantity? bytes
  take? length rest

def latin1 (b : UInt8) : CodePoint := ⟨b.toNat, Nat.lt_trans b.toNat_lt (by decide)⟩

def metaEvent? (kind : ℕ) (data : Bytes) : Option TrackEvent :=
  match kind, data with
  | 0x03, name => some (.trackName (name.map latin1))
  | 0x2F, [] => some .endOfTrack
  | 0x2F, _ => none
  | 0x51, [a, b, c] => some (.tempo (number [a, b, c]))
  | 0x51, _ => none
  | 0x58, [numerator, power, clocks, thirtySeconds] =>
    some (.timeSignature numerator.toNat (2 ^ power.toNat) clocks.toNat thirtySeconds.toNat)
  | 0x58, _ => none
  | _, _ => some (.otherMeta kind data)

def channelEvent (kind channel : ℕ) (data : Bytes) : TrackEvent :=
  match kind, data with
  | 0x8, [pitch, velocity] => .noteOff channel pitch.toNat velocity.toNat
  | 0x9, [pitch, velocity] =>
    if velocity = 0 then .noteOff channel pitch.toNat 0
    else .noteOn channel pitch.toNat velocity.toNat
  | _, _ => .channelMessage kind channel data

/-- How many data bytes the messages of a kind have. -/
def dataCount (kind : ℕ) : ℕ := if kind = 0xC ∨ kind = 0xD then 1 else 2

/-- The data of a message to a channel; data bytes have their top bit clear. -/
def channelMessage? (status : ℕ) (bytes : Bytes) : Option (TrackEvent × Option ℕ × Bytes) := do
  let (data, rest) ← take? (dataCount (status / 16)) bytes
  if data.all fun b => b.toNat < 128 then
    some (channelEvent (status / 16) (status % 16) data, some status, rest)
  else none

/-- A meta event, after the byte that says it is one. -/
def metaMessage? : Bytes → Option (TrackEvent × Bytes)
  | [] => none
  | kind :: rest => do
    let (data, rest) ← block? rest
    return (← metaEvent? kind.toNat data, rest)

/-- The first event, the status that may be left out after it, and the bytes after it. -/
def event? (running : Option ℕ) : Bytes → Option (TrackEvent × Option ℕ × Bytes)
  | [] => none
  | status :: rest =>
    if status = 0xFF then do
      let (event, rest) ← metaMessage? rest
      return (event, none, rest)
    else if status = 0xF0 ∨ status = 0xF7 then do
      let (data, rest) ← block? rest
      return (.systemExclusive data, none, rest)
    else if 0xF0 ≤ status.toNat then none
    else if 0x80 ≤ status.toNat then channelMessage? status.toNat rest
    else do channelMessage? (← running) (status :: rest)

def timed? (running : Option ℕ) (bytes : Bytes) : Option (ℕ × TrackEvent × Option ℕ × Bytes) := do
  let (distance, rest) ← quantity? bytes
  let (event, running, rest) ← event? running rest
  return (distance, event, running, rest)

variable {count width high n : ℕ} {bytes part rest : Bytes} {running running' : Option ℕ}
  {event : TrackEvent}

theorem length_le_of_take? (h : take? count bytes = some (part, rest)) :
    rest.length ≤ bytes.length := by
  unfold take? at h
  split_ifs at h
  cases h
  simp

theorem length_lt_of_quantityFrom? (h : quantityFrom? width high bytes = some (n, rest)) :
    rest.length < bytes.length := by
  induction width generalizing high bytes with
  | zero => simp [quantityFrom?] at h
  | succ width ih =>
    cases bytes with
    | nil => simp [quantityFrom?] at h
    | cons b bytes =>
      rw [quantityFrom?] at h
      split_ifs at h
      · cases h
        exact Nat.lt_succ_self _
      · exact Nat.lt_succ_of_lt (ih h)

theorem length_lt_of_block? (h : block? bytes = some (part, rest)) :
    rest.length < bytes.length := by
  obtain ⟨⟨n, middle⟩, hn, h⟩ := Option.bind_eq_some_iff.mp h
  exact lt_of_le_of_lt (length_le_of_take? h) (length_lt_of_quantityFrom? hn)

theorem length_le_of_channelMessage? {status : ℕ}
    (h : channelMessage? status bytes = some (event, running, rest)) :
    rest.length ≤ bytes.length := by
  obtain ⟨⟨data, after⟩, hdata, h⟩ := Option.bind_eq_some_iff.mp h
  dsimp only at h
  split_ifs at h
  cases h
  exact length_le_of_take? hdata

theorem length_lt_of_metaMessage? (h : metaMessage? bytes = some (event, rest)) :
    rest.length < bytes.length := by
  cases bytes with
  | nil => cases h
  | cons kind bytes =>
    obtain ⟨⟨data, after⟩, hdata, h⟩ := Option.bind_eq_some_iff.mp h
    obtain ⟨event, -, h⟩ := Option.bind_eq_some_iff.mp h
    cases h
    exact Nat.lt_succ_of_lt (length_lt_of_block? hdata)

theorem length_le_of_event? (h : event? running bytes = some (event, running', rest)) :
    rest.length ≤ bytes.length := by
  cases bytes with
  | nil => cases h
  | cons status bytes =>
    rw [event?] at h
    split_ifs at h
    · obtain ⟨⟨event, after⟩, hevent, h⟩ := Option.bind_eq_some_iff.mp h
      cases h
      exact Nat.le_succ_of_le (Nat.le_of_lt (length_lt_of_metaMessage? hevent))
    · obtain ⟨⟨data, after⟩, hdata, h⟩ := Option.bind_eq_some_iff.mp h
      cases h
      exact Nat.le_succ_of_le (Nat.le_of_lt (length_lt_of_block? hdata))
    · exact Nat.le_succ_of_le (length_le_of_channelMessage? h)
    · obtain ⟨status, -, h⟩ := Option.bind_eq_some_iff.mp h
      exact length_le_of_channelMessage? h

theorem length_lt_of_timed? {distance : ℕ}
    (h : timed? running bytes = some (distance, event, running', rest)) :
    rest.length < bytes.length := by
  obtain ⟨⟨distance, middle⟩, hdistance, h⟩ := Option.bind_eq_some_iff.mp h
  obtain ⟨⟨event, status, after⟩, hevent, h⟩ := Option.bind_eq_some_iff.mp h
  cases h
  exact lt_of_le_of_lt (length_le_of_event? hevent) (length_lt_of_quantityFrom? hdistance)

def events? (tick : ℕ) (running : Option ℕ) (bytes : Bytes) : Option (List (ℕ × TrackEvent)) :=
  match _h : timed? running bytes with
  | none => none
  | some (distance, event, running, rest) =>
    if event = .endOfTrack then
      if rest = [] then some [(tick + distance, event)] else none
    else ((tick + distance, event) :: ·) <$> events? (tick + distance) running rest
termination_by bytes.length
decreasing_by exact length_lt_of_timed? ‹_›

/-- A note that begins, and ends with the status byte left out and no velocity. -/
example : events? 0 none [0, 0x90, 60, 64, 10, 60, 0, 0, 0xFF, 0x2F, 0] =
    some [(0, .noteOn 0 60 64), (10, .noteOff 0 60 0), (10, .endOfTrack)] := by cbv

def chunk? (bytes : Bytes) : Option (Chunk × Bytes) := do
  let (tag, rest) ← take? 4 bytes
  let (length, rest) ← take? 4 rest
  let (payload, rest) ← take? (number length) rest
  return (⟨tag, payload⟩, rest)

theorem length_lt_of_chunk? {chunk : Chunk} (h : chunk? bytes = some (chunk, rest)) :
    rest.length < bytes.length := by
  obtain ⟨⟨tag, afterTag⟩, htag, h⟩ := Option.bind_eq_some_iff.mp h
  obtain ⟨⟨length, afterLength⟩, hlength, h⟩ := Option.bind_eq_some_iff.mp h
  obtain ⟨⟨payload, after⟩, hpayload, h⟩ := Option.bind_eq_some_iff.mp h
  cases h
  have h₂ := length_le_of_take? hlength
  have h₃ := length_le_of_take? hpayload
  unfold take? at htag
  split_ifs at htag with h₁
  cases htag
  rw [List.length_drop] at h₂
  omega

/-- The chunks of a file, which leave no byte over. -/
def chunks? (bytes : Bytes) : Option (List Chunk) :=
  if bytes = [] then some []
  else
    match _h : chunk? bytes with
    | none => none
    | some (chunk, rest) => (chunk :: ·) <$> chunks? rest
termination_by bytes.length
decreasing_by exact length_lt_of_chunk? ‹_›

/-- A division of which the top bit is set counts frames, whose number a second is written as a
negative byte. -/
def division (n : ℕ) : Division :=
  if n < 32768 then .ticksPerQuarter n else .ticksPerFrame (256 - n / 256) (n % 256)

/-- A file: a header of six bytes, and as many tracks as it says. -/
def file? (bytes : Bytes) : Option File := do
  match ← chunks? bytes with
  | ⟨tag, [f₁, f₂, n₁, n₂, d₁, d₂]⟩ :: tracks =>
    if tag = headerTag ∧ tracks.length = number [n₁, n₂] ∧ ∀ t ∈ tracks, t.tag = trackTag then
      return {
        format := number [f₁, f₂]
        division := division (number [d₁, d₂])
        tracks := ← tracks.mapM fun t => events? 0 none t.payload }
    else none
  | _ => none

end Reader
end TrioScore.Smf
