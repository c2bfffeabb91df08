import TrioScore.Smf.Field

/-!
# Messages of a MIDI file

What happens on a track of the file at a tick. Messages at one tick are put in order by kind: what
describes the track comes first, then the notes that end, then the tempo and the notes that begin;
messages of one kind keep their order.
-/

namespace TrioScore.Smf

inductive Message where
  | timeSignature (numerator denominatorPower : Int)
  | trackName (name : Bytes)
  | noteOff (channel pitch velocity : Int)
  | tempo (microseconds : Int)
  | noteOn (channel pitch velocity : Int)
deriving DecidableEq

namespace Message

/-- The place of the kind among messages at one tick. -/
def order : Message → Nat
  | timeSignature .. => 0
  | trackName _ => 0
  | noteOff .. => 2
  | tempo _ => 3
  | noteOn .. => 3

/-- The bits of a kind joined with those of a channel, of which a negative one has a sign. -/
def joined (kind : Nat) : Int → Int
  | .ofNat channel => (kind ||| channel : Nat)
  | .negSucc rest => .negSucc (rest - (rest &&& kind))

def status (kind : Nat) (channel : Int) : Except Fault Bytes := field 1 (joined kind channel)

def noteBytes (kind : Nat) (channel pitch velocity : Int) : Except Fault Bytes := do
  return (← status kind channel) ++ (← field 1 pitch) ++ (← field 1 velocity)

/-- The bytes of a message. A tempo fits a wider field than it is given: the low three of its four
bytes are written. -/
def bytes : Message → Except Fault Bytes
  | timeSignature numerator denominatorPower => do
    return [0xFF, 0x58, 0x04] ++ (← field 1 numerator) ++ (← field 1 denominatorPower) ++ [24, 8]
  | trackName name => .ok ([0xFF, 0x03] ++ quantity name.length ++ name)
  | noteOff channel pitch velocity => noteBytes 0x80 channel pitch velocity
  | tempo microseconds => do
    return [0xFF, 0x51, 0x03] ++ (← field 4 microseconds).drop 1
  | noteOn channel pitch velocity => noteBytes 0x90 channel pitch velocity

end Message

structure Timed where
  tick : Int
  message : Message
deriving DecidableEq

namespace Timed

def precedes (a b : Timed) : Bool :=
  a.tick < b.tick || (a.tick == b.tick && a.message.order ≤ b.message.order)

/-- A message put among messages in order, before all that it may stand before. -/
def insert (timed : Timed) : List Timed → List Timed
  | [] => [timed]
  | other :: rest =>
    if timed.precedes other then timed :: other :: rest else other :: insert timed rest

theorem insert_perm (timed : Timed) (messages : List Timed) :
    (insert timed messages).Perm (timed :: messages) := by
  induction messages with
  | nil => exact .refl _
  | cons other rest ih =>
    simp only [insert]
    split
    · exact .refl _
    · exact (ih.cons other).trans (.swap timed other rest)

/-- The messages in the order of the file; of two that may stand either way, the one given first
comes first. -/
def sort (messages : List Timed) : List Timed := messages.foldr insert []

theorem sort_perm (messages : List Timed) : (sort messages).Perm messages := by
  induction messages with
  | nil => exact .refl _
  | cons timed messages ih => exact (insert_perm timed _).trans (ih.cons timed)

def bytesAfter (tick : Int) (timed : Timed) : Except Fault Bytes :=
  (delta (timed.tick - tick) ++ ·) <$> timed.message.bytes

def bytesFrom (tick : Int) (messages : List Timed) : Except Fault Bytes :=
  let ticks := tick :: messages.map Timed.tick
  List.flatten <$> (ticks.zip messages).mapM fun (before, timed) => bytesAfter before timed

end Timed

def endOfTrack : Bytes := [0x00, 0xFF, 0x2F, 0x00]

def trackChunk (messages : List Timed) : Except Fault Bytes := do
  let payload ← Timed.bytesFrom 0 (Timed.sort messages)
  chunk [0x4D, 0x54, 0x72, 0x6B] (payload ++ endOfTrack)

end TrioScore.Smf
