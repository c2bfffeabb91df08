import TrioScore.Proofs.Smf.Writable

/-!
# Reading back

A reader of MIDI files reads back what is written: numbers, quantities, messages that fit their
fields, tracks whose messages are in order, and the chunks of a file.
-/

namespace TrioScore.Smf
open Reader

theorem number_append (bytes : Bytes) (b : UInt8) :
    number (bytes ++ [b]) = 256 * number bytes + b.toNat := by
  simp [number]

theorem number_bigEndian {width n : ℕ} (h : n < 256 ^ width) :
    number (bigEndian width n) = n := by
  induction width generalizing n with
  | zero =>
    obtain rfl : n = 0 := by simpa using h
    rfl
  | succ width ih =>
    have hbyte : (UInt8.ofNat (n % 256)).toNat = n % 256 :=
      UInt8.toNat_ofNat_of_lt' (Nat.mod_lt n (by decide))
    rw [bigEndian, number_append, ih (Nat.div_lt_of_lt_mul (by rwa [pow_succ'] at h)), hbyte,
      Nat.div_add_mod]

theorem take?_append (bytes rest : Bytes) :
    take? bytes.length (bytes ++ rest) = some (bytes, rest) := by
  simp [take?]

theorem quantityFrom?_continued {width n : ℕ} (h : (continued n).length ≤ width) (rest : Bytes) :
    quantityFrom? width 0 (continued n ++ rest) =
      quantityFrom? (width - (continued n).length) n rest := by
  induction n using continued.induct generalizing rest with
  | case1 => simp [continued]
  | case2 n hn ih =>
    have hcontinued : continued n = continued (n / 128) ++ [UInt8.ofNat (n % 128 + 128)] := by
      rw [continued, if_neg hn]
    rw [hcontinued, List.length_append] at h
    have hbyte : (UInt8.ofNat (n % 128 + 128)).toNat = n % 128 + 128 :=
      UInt8.toNat_ofNat_of_lt' (show n % 128 + 128 < 256 by omega)
    have hwidth : width - (continued (n / 128)).length =
        width - ((continued (n / 128)).length + 1) + 1 := by
      simp only [List.length_singleton] at h
      omega
    rw [hcontinued, List.append_assoc, ih (by omega), List.length_append, List.length_singleton,
      hwidth, List.singleton_append, quantityFrom?, hbyte, if_neg (by omega), Nat.add_sub_cancel,
      Nat.div_add_mod]

theorem quantity?_append {n : ℕ} (h : n < 128 ^ 4) (rest : Bytes) :
    quantity? (quantity n ++ rest) = some (n, rest) := by
  have hlength : (continued (n / 128)).length ≤ 3 := length_continued_le (by omega)
  have hbyte : (UInt8.ofNat (n % 128)).toNat = n % 128 :=
    UInt8.toNat_ofNat_of_lt' (show n % 128 < 256 by omega)
  obtain ⟨width, hwidth⟩ : ∃ width, 4 - (continued (n / 128)).length = width + 1 :=
    ⟨3 - (continued (n / 128)).length, by omega⟩
  rw [quantity?, quantity, List.append_assoc, quantityFrom?_continued (by omega), hwidth,
    List.singleton_append, quantityFrom?, hbyte, if_pos (by omega), Nat.div_add_mod]

theorem quantity_of_lt {n : ℕ} (h : n < 128) : quantity n = [UInt8.ofNat n] := by
  rw [quantity, Nat.div_eq_of_lt h, Nat.mod_eq_of_lt h, continued, if_pos rfl, List.nil_append]

theorem block?_append {data : Bytes} (h : data.length < 128 ^ 4) (rest : Bytes) :
    block? (quantity data.length ++ data ++ rest) = some (data, rest) := by
  rw [block?, List.append_assoc, quantity?_append h]
  exact take?_append data rest

/-- What is heard of a message. -/
def Message.heard : Message → TrackEvent
  | timeSignature numerator denominatorPower =>
    .timeSignature numerator.toNat (2 ^ denominatorPower.toNat) 24 8
  | trackName name => .trackName (name.map Reader.latin1)
  | noteOff channel pitch velocity => .noteOff channel.toNat pitch.toNat velocity.toNat
  | tempo microseconds => .tempo microseconds.toNat
  | noteOn channel pitch velocity => .noteOn channel.toNat pitch.toNat velocity.toNat

/-- The fields of a message hold its numbers, and a note that begins has a velocity. -/
def Message.Fits : Message → Prop
  | timeSignature numerator denominatorPower =>
    (0 ≤ numerator ∧ numerator < 256) ∧ 0 ≤ denominatorPower ∧ denominatorPower < 256
  | trackName name => name.length < 128 ^ 4
  | noteOff channel pitch velocity =>
    (0 ≤ channel ∧ channel < 16) ∧ (0 ≤ pitch ∧ pitch ≤ 127) ∧ 0 ≤ velocity ∧ velocity ≤ 127
  | tempo microseconds => 0 ≤ microseconds ∧ microseconds < 2 ^ 24
  | noteOn channel pitch velocity =>
    (0 ≤ channel ∧ channel < 16) ∧ (0 ≤ pitch ∧ pitch ≤ 127) ∧ 1 ≤ velocity ∧ velocity ≤ 127

theorem field_one {n : ℕ} (h : n < 256) : field 1 n = .ok [UInt8.ofNat n] := by
  rw [field_eq_ok (Int.natCast_nonneg n) (by omega), Int.toNat_natCast, bigEndian, bigEndian,
    Nat.mod_eq_of_lt h, List.nil_append]

theorem noteBytes_eq {kind : ℕ} (hkind : kind = 0x80 ∨ kind = 0x90) {channel pitch velocity : ℕ}
    (hc : channel < 16) (hp : pitch ≤ 127) (hv : velocity ≤ 127) :
    Message.noteBytes kind channel pitch velocity =
      .ok [UInt8.ofNat (kind + channel), UInt8.ofNat pitch, UInt8.ofNat velocity] := by
  have hor : kind ||| channel = kind + channel := by
    have hall : ∀ c < 16, 0x80 ||| c = 0x80 + c ∧ 0x90 ||| c = 0x90 + c := by decide
    rcases hkind with rfl | rfl
    · exact (hall channel hc).1
    · exact (hall channel hc).2
  have hstatus : Message.status kind channel = .ok [UInt8.ofNat (kind + channel)] := by
    rw [← hor]
    exact field_one (by omega)
  rw [Message.noteBytes, hstatus, field_one (by omega), field_one (by omega)]
  rfl

theorem event?_noteBytes {kind : ℕ} (hkind : kind = 0x80 ∨ kind = 0x90)
    {channel pitch velocity : ℕ} (hc : channel < 16) (hp : pitch ≤ 127) (hv : velocity ≤ 127)
    (running : Option ℕ) (rest : Bytes) :
    event? running ([UInt8.ofNat (kind + channel), UInt8.ofNat pitch, UInt8.ofNat velocity] ++
      rest) = some (channelEvent (kind / 16) channel [UInt8.ofNat pitch, UInt8.ofNat velocity],
        some (kind + channel), rest) := by
  have hstatus : (UInt8.ofNat (kind + channel)).toNat = kind + channel :=
    UInt8.toNat_ofNat_of_lt' (show kind + channel < 256 by omega)
  have hdata : [UInt8.ofNat pitch, UInt8.ofNat velocity].all (·.toNat < 128) = true := by
    have hpitch := UInt8.toNat_ofNat_of_lt' (show pitch < 256 by omega)
    have hvelocity := UInt8.toNat_ofNat_of_lt' (show velocity < 256 by omega)
    simp only [List.all_cons, List.all_nil, Bool.and_true, Bool.and_eq_true, decide_eq_true_eq]
    omega
  have hne : ∀ b : UInt8, 0xF0 ≤ b.toNat → UInt8.ofNat (kind + channel) ≠ b := by
    rintro b hb rfl
    omega
  have hcount : dataCount ((kind + channel) / 16) = 2 := by
    rw [dataCount, if_neg (by omega)]
  have htake : take? 2 ([UInt8.ofNat pitch, UInt8.ofNat velocity] ++ rest) = some _ :=
    take?_append [UInt8.ofNat pitch, UInt8.ofNat velocity] rest
  have hdiv : (kind + channel) / 16 = kind / 16 := by omega
  have hmod : (kind + channel) % 16 = channel := by omega
  rw [List.cons_append, event?, if_neg (hne 0xFF (by decide)),
    if_neg (not_or.mpr ⟨hne 0xF0 (by decide), hne 0xF7 (by decide)⟩), hstatus,
    if_neg (by omega), if_pos (by omega), channelMessage?, hcount, htake, Option.bind_eq_bind,
    Option.bind_some]
  dsimp only
  rw [if_pos hdata, hdiv, hmod]

theorem channelEvent_noteOff (channel : ℕ) {pitch velocity : ℕ} (hp : pitch ≤ 127)
    (hv : velocity ≤ 127) : channelEvent (0x80 / 16) channel
      [UInt8.ofNat pitch, UInt8.ofNat velocity] = .noteOff channel pitch velocity := by
  change TrackEvent.noteOff _ _ _ = _
  rw [UInt8.toNat_ofNat_of_lt' (show pitch < 256 by omega),
    UInt8.toNat_ofNat_of_lt' (show velocity < 256 by omega)]

theorem channelEvent_noteOn (channel : ℕ) {pitch velocity : ℕ} (hp : pitch ≤ 127)
    (h₁ : 1 ≤ velocity) (hv : velocity ≤ 127) : channelEvent (0x90 / 16) channel
      [UInt8.ofNat pitch, UInt8.ofNat velocity] = .noteOn channel pitch velocity := by
  have hvelocity : (UInt8.ofNat velocity).toNat = velocity :=
    UInt8.toNat_ofNat_of_lt' (show velocity < 256 by omega)
  have hne : UInt8.ofNat velocity ≠ 0 := by
    intro h
    rw [h] at hvelocity
    change 0 = velocity at hvelocity
    omega
  change (if UInt8.ofNat velocity = 0 then _ else TrackEvent.noteOn _ _ _) = _
  rw [if_neg hne, UInt8.toNat_ofNat_of_lt' (show pitch < 256 by omega), hvelocity]

theorem event?_meta {kind : UInt8} {data : Bytes} {event : TrackEvent}
    (h : metaEvent? kind.toNat data = some event) (hdata : data.length < 128 ^ 4)
    (running : Option ℕ) (rest : Bytes) :
    event? running (0xFF :: kind :: quantity data.length ++ data ++ rest) =
      some (event, none, rest) := by
  rw [List.append_assoc, List.cons_append, List.cons_append, event?, if_pos rfl, metaMessage?,
    ← List.append_assoc, block?_append hdata]
  simp only [Option.bind_eq_bind, Option.bind_some, h]
  rfl

theorem drop_bigEndian (width n : ℕ) : (bigEndian (width + 1) n).drop 1 = bigEndian width n := by
  induction width generalizing n with
  | zero => rfl
  | succ width ih =>
    rw [bigEndian, List.drop_append_of_le_length (by simp), ih]
    rfl

namespace Message

theorem bytes_timeSignature {numerator power : ℕ} (hn : numerator < 256) (hp : power < 256) :
    (timeSignature numerator power).bytes = .ok (0xFF :: 0x58 :: quantity 4 ++
      [UInt8.ofNat numerator, UInt8.ofNat power, 24, 8]) := by
  rw [bytes, field_one hn, field_one hp, quantity_of_lt (by decide)]
  rfl

theorem bytes_tempo {microseconds : ℕ} (h : microseconds < 2 ^ 24) :
    (tempo microseconds).bytes = .ok (0xFF :: 0x51 :: quantity 3 ++ bigEndian 3 microseconds) := by
  rw [bytes, field_eq_ok (Int.natCast_nonneg _) (by omega), ok_bind, Int.toNat_natCast,
    drop_bigEndian, quantity_of_lt (by decide)]
  rfl

/-- A message that fits is read back, whatever follows it. -/
theorem Fits.event? {m : Message} (h : m.Fits) : ∃ bytes, m.bytes = .ok bytes ∧
    ∀ (running : Option ℕ) (rest : Bytes), ∃ status,
      Reader.event? running (bytes ++ rest) = some (m.heard, status, rest) := by
  cases m with
  | timeSignature numerator power =>
    obtain ⟨⟨hn, hn'⟩, hp, hp'⟩ := h
    lift numerator to ℕ using hn
    lift power to ℕ using hp
    have hevent : metaEvent? (0x58 : UInt8).toNat
        [UInt8.ofNat numerator, UInt8.ofNat power, 24, 8] =
          some (timeSignature numerator power).heard := by
      change some (TrackEvent.timeSignature _ _ _ _) = _
      rw [UInt8.toNat_ofNat_of_lt' (by exact_mod_cast hn'),
        UInt8.toNat_ofNat_of_lt' (by exact_mod_cast hp')]
      rfl
    exact ⟨_, bytes_timeSignature (by omega) (by omega),
      fun running rest => ⟨none, event?_meta hevent (by simp) running rest⟩⟩
  | trackName name =>
    exact ⟨_, rfl, fun running rest => ⟨none, event?_meta rfl h running rest⟩⟩
  | tempo microseconds =>
    obtain ⟨h₀, h⟩ := h
    lift microseconds to ℕ using h₀
    have hevent : metaEvent? (0x51 : UInt8).toNat (bigEndian 3 microseconds) =
        some (tempo microseconds).heard := by
      change some (TrackEvent.tempo (number (bigEndian 3 microseconds))) = _
      rw [number_bigEndian (by omega)]
      rfl
    refine ⟨_, bytes_tempo (by omega), fun running rest => ⟨none, ?_⟩⟩
    have hread := event?_meta hevent (by simp) running rest
    rwa [length_bigEndian] at hread
  | noteOff channel pitch velocity =>
    obtain ⟨hc, hp, hv⟩ := h
    lift channel to ℕ using hc.1
    lift pitch to ℕ using hp.1
    lift velocity to ℕ using hv.1
    refine ⟨_, noteBytes_eq (.inl rfl) (by omega) (by omega) (by omega),
      fun running rest => ⟨some (0x80 + channel), ?_⟩⟩
    rw [event?_noteBytes (.inl rfl) (by omega) (by omega) (by omega),
      channelEvent_noteOff channel (by omega) (by omega)]
    rfl
  | noteOn channel pitch velocity =>
    obtain ⟨hc, hp, hv⟩ := h
    lift channel to ℕ using hc.1
    lift pitch to ℕ using hp.1
    lift velocity to ℕ using le_trans zero_le_one hv.1
    refine ⟨_, noteBytes_eq (.inr rfl) (by omega) (by omega) (by omega),
      fun running rest => ⟨some (0x90 + channel), ?_⟩⟩
    rw [event?_noteBytes (.inr rfl) (by omega) (by omega) (by omega),
      channelEvent_noteOn channel (by omega) (by omega) (by omega)]
    rfl

end Message

theorem length_of_field {width : ℕ} {n : ℤ} {bytes : Bytes} (h : field width n = .ok bytes) :
    bytes.length = width := by
  unfold field at h
  split_ifs at h
  cases h
  simp

theorem length_of_noteBytes {kind : ℕ} {channel pitch velocity : ℤ} {bytes : Bytes}
    (h : Message.noteBytes kind channel pitch velocity = .ok bytes) : bytes.length = 3 := by
  obtain ⟨status, hstatus, h⟩ := bind_eq_ok_iff.mp h
  obtain ⟨pitch, hpitch, h⟩ := bind_eq_ok_iff.mp h
  obtain ⟨velocity, hvelocity, h⟩ := bind_eq_ok_iff.mp h
  cases h
  rw [Message.status] at hstatus
  simp [length_of_field hstatus, length_of_field hpitch, length_of_field hvelocity]

theorem Message.three_le_length {m : Message} {bytes : Bytes} (h : m.bytes = .ok bytes) :
    3 ≤ bytes.length := by
  cases m with
  | timeSignature numerator power =>
    obtain ⟨n, -, h⟩ := bind_eq_ok_iff.mp h
    obtain ⟨p, -, h⟩ := bind_eq_ok_iff.mp h
    cases h
    simp
  | trackName name =>
    cases h
    have := List.length_pos_iff.mpr (quantity_ne_nil name.length)
    simp only [List.length_append, List.length_cons]
    omega
  | tempo microseconds =>
    obtain ⟨t, -, h⟩ := bind_eq_ok_iff.mp h
    cases h
    simp
  | noteOff channel pitch velocity => exact (length_of_noteBytes h).ge
  | noteOn channel pitch velocity => exact (length_of_noteBytes h).ge

namespace Timed

/-- A track has at least three bytes for each of its messages. -/
theorem length_le_of_bytesFrom {ms : List Timed} {tick : ℤ} {bytes : Bytes}
    (h : bytesFrom tick ms = .ok bytes) : 3 * ms.length ≤ bytes.length := by
  induction ms generalizing tick bytes with
  | nil => exact Nat.zero_le _
  | cons m ms ih =>
    rw [bytesFrom_cons] at h
    obtain ⟨head, hhead, h⟩ := bind_eq_ok_iff.mp h
    obtain ⟨rest, hrest, rfl⟩ := map_eq_ok_iff.mp h
    obtain ⟨bytes, hbytes, rfl⟩ := map_eq_ok_iff.mp hhead
    have := Message.three_le_length hbytes
    have := ih hrest
    simp only [List.length_append, List.length_cons]
    omega

/-- The ticks of messages from a tick on, each at a distance that four bytes hold. -/
def Spaced : ℤ → List Timed → Prop
  | _, [] => True
  | tick, m :: ms => tick ≤ m.tick ∧ m.tick - tick < 128 ^ 4 ∧ Spaced m.tick ms

def heard (m : Timed) : ℕ × TrackEvent := (m.tick.toNat, m.message.heard)

theorem timed?_append {m : Timed} (h : m.message.Fits) {tick : ℕ} (hle : tick ≤ m.tick)
    (hlt : m.tick - tick < 128 ^ 4) : ∃ head, bytesAfter tick m = .ok head ∧
      ∀ (running : Option ℕ) (rest : Bytes), ∃ status, timed? running (head ++ rest) =
        some ((m.tick - tick).toNat, m.message.heard, status, rest) := by
  obtain ⟨bytes, hbytes, hread⟩ := h.event?
  have hdelta : delta (m.tick - tick) = quantity (m.tick - tick).toNat := by
    rw [delta, if_neg (by omega)]
  refine ⟨quantity (m.tick - tick).toNat ++ bytes, ?_, fun running rest => ?_⟩
  · rw [bytesAfter, hbytes, hdelta]
    rfl
  · obtain ⟨status, hevent⟩ := hread running rest
    refine ⟨status, ?_⟩
    rw [timed?, List.append_assoc, quantity?_append (by omega)]
    simp only [Option.bind_eq_bind, Option.bind_some, hevent]
    rfl

end Timed

theorem events?_of_timed? {tick distance : ℕ} {running status : Option ℕ} {bytes rest : Bytes}
    {event : TrackEvent} (h : timed? running bytes = some (distance, event, status, rest)) :
    events? tick running bytes = if event = .endOfTrack then
      if rest = [] then some [(tick + distance, event)] else none
      else ((tick + distance, event) :: ·) <$> events? (tick + distance) status rest := by
  rw [events?]
  split
  · rename_i hnone
    rw [h] at hnone
    cases hnone
  · rename_i hsome
    rw [h] at hsome
    cases hsome
    rfl

theorem Message.heard_ne_endOfTrack (m : Message) : m.heard ≠ .endOfTrack := by
  cases m <;> simp [Message.heard]

/-- Messages that fit, at distances that can be written, are read back in their order. -/
theorem events?_bytesFrom {ms : List Timed} (hfits : ∀ m ∈ ms, m.message.Fits) {tick : ℕ}
    (hs : Timed.Spaced tick ms) : ∃ bytes last, Timed.bytesFrom tick ms = .ok bytes ∧
      ∀ running, events? tick running (bytes ++ endOfTrack) =
        some (ms.map Timed.heard ++ [(last, .endOfTrack)]) := by
  induction ms generalizing tick with
  | nil =>
    have hend : ∀ running, timed? running endOfTrack = some (0, .endOfTrack, none, []) :=
      fun _ => rfl
    exact ⟨[], tick, rfl, fun running => events?_of_timed? (hend running)⟩
  | cons m ms ih =>
    obtain ⟨hle, hlt, hs⟩ := hs
    obtain ⟨hm, hms⟩ := List.forall_mem_cons.mp hfits
    obtain ⟨head, hhead, hread⟩ := Timed.timed?_append hm hle hlt
    have htick : ((m.tick.toNat : ℕ) : ℤ) = m.tick := Int.toNat_of_nonneg (by omega)
    have hsum : tick + (m.tick - tick).toNat = m.tick.toNat := by omega
    obtain ⟨bytes, last, hbytes, hrest⟩ := ih hms (htick ▸ hs)
    rw [htick] at hbytes
    refine ⟨head ++ bytes, last, ?_, fun running => ?_⟩
    · rw [Timed.bytesFrom_cons, hhead, ok_bind, hbytes, ok_map]
    · obtain ⟨status, hstatus⟩ := hread running (bytes ++ endOfTrack)
      rw [List.append_assoc, events?_of_timed? hstatus, if_neg m.message.heard_ne_endOfTrack, hsum,
        hrest]
      rfl

theorem chunk?_append {chunk : Chunk} (ht : chunk.tag.length = 4)
    (hp : chunk.payload.length < 2 ^ 32) (rest : Bytes) :
    chunk? (chunk.bytes ++ rest) = some (chunk, rest) := by
  have htag := take?_append chunk.tag
  have hlength := take?_append (bigEndian 4 chunk.payload.length)
  rw [ht] at htag
  rw [length_bigEndian] at hlength
  rw [Chunk.bytes, List.append_assoc, List.append_assoc, chunk?, htag]
  simp only [Option.bind_eq_bind, Option.bind_some]
  rw [hlength]
  simp only [Option.bind_some]
  rw [number_bigEndian (by omega), take?_append]
  rfl

/-- The chunks of a file tile it. -/
theorem chunks?_flatMap {chunks : List Chunk}
    (h : ∀ c ∈ chunks, c.tag.length = 4 ∧ c.payload.length < 2 ^ 32) :
    chunks? (chunks.flatMap Chunk.bytes) = some chunks := by
  induction chunks with
  | nil =>
    rw [chunks?]
    rfl
  | cons c chunks ih =>
    obtain ⟨⟨ht, hp⟩, hchunks⟩ := List.forall_mem_cons.mp h
    have hne : c.bytes ++ chunks.flatMap Chunk.bytes ≠ [] := by
      intro he
      have hlength := congrArg List.length he
      simp only [Chunk.bytes, List.length_append, List.length_nil, ht] at hlength
      omega
    rw [List.flatMap_cons, chunks?, if_neg hne]
    split
    · rename_i hnone
      rw [chunk?_append ht hp] at hnone
      cases hnone
    · rename_i hsome
      rw [chunk?_append ht hp] at hsome
      cases hsome
      rw [ih hchunks]
      rfl

theorem chunks?_fileChunks (division : ℕ) {ps : List Bytes} (h : ∀ p ∈ ps, p.length < 2 ^ 32) :
    chunks? ((fileChunks division ps).flatMap Chunk.bytes) = some (fileChunks division ps) := by
  apply chunks?_flatMap
  rw [fileChunks, List.forall_mem_cons]
  refine ⟨⟨rfl, by simp [headerPayload]⟩, fun c hc => ?_⟩
  obtain ⟨p, hp, rfl⟩ := List.mem_map.mp hc
  exact ⟨rfl, h p hp⟩

theorem mapM_eq_some_of_forall₂ {α β : Type} {f : α → Option β} {l : List α} {bs : List β}
    (h : List.Forall₂ (fun a b => f a = some b) l bs) : l.mapM f = some bs := by
  induction h with
  | nil => rfl
  | cons hb _ ih =>
    rw [List.mapM_cons, hb, ih]
    rfl

theorem file?_fileChunks {division : ℕ} (hd : division ≤ 32767) {ps : List Bytes}
    (hps : ps.length = 4) {tracks : List (List (ℕ × TrackEvent))}
    (h : List.Forall₂ (fun p events => events? 0 none p = some events) ps tracks)
    {bytes : Bytes} (hchunks : chunks? bytes = some (fileChunks division ps)) :
    file? bytes = some ⟨1, .ticksPerQuarter division, tracks⟩ := by
  have hheader : headerPayload division =
      [0, 1, 0, 4, UInt8.ofNat (division / 256 % 256), UInt8.ofNat (division % 256)] := rfl
  have hdivision : number [UInt8.ofNat (division / 256 % 256), UInt8.ofNat (division % 256)] =
      division := number_bigEndian (by omega : division < 256 ^ 2)
  have htags : ∀ t ∈ ps.map (Chunk.mk trackTag), t.tag = trackTag := by simp
  have hmapM : (ps.map (Chunk.mk trackTag)).mapM (fun t => events? 0 none t.payload) =
      some tracks := by
    rw [List.mapM_map]
    exact mapM_eq_some_of_forall₂ h
  rw [file?, hchunks, fileChunks, hheader]
  simp only [Option.bind_eq_bind, Option.bind_some]
  rw [if_pos ⟨trivial, by rw [List.length_map, hps]; rfl, htags⟩, hmapM, hdivision, Reader.division,
    if_pos (by omega)]
  rfl

end TrioScore.Smf
