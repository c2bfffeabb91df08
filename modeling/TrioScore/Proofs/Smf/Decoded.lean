import TrioScore.Proofs.Smf.Conductor
import TrioScore.Proofs.Smf.Notes

/-!
# Files are read back

A reader of MIDI files recovers the score of a repaired piece from its file, at every division and
for every length that can be written: the tempo and the meter from the first track, and from the
others their names and the begin and the end of every note at its tick.
-/

namespace TrioScore

/-- What is heard of an event: each pitch begins at the onset and ends after its ticks. -/
def Event.heard (division channel : ℕ) (e : Event) : List (ℕ × Smf.TrackEvent) :=
  e.pitches.flatMap fun pitch =>
    [(e.onset division, .noteOn channel (limit 0 127 pitch).toNat e.velocity.toNat),
      (e.onset division + e.ticks division,
        .noteOff channel (limit 0 127 pitch).toNat e.velocity.toNat)]

theorem Event.map_heard_messages (division : ℕ) (channel : ℤ) (e : Event) :
    (e.messages division channel).map Smf.Timed.heard = e.heard division channel.toNat := by
  rw [messages, heard, List.map_flatMap]
  rfl

theorem Event.Lies.messages_fit {time length : ℕ} {e : Event} (h : e.Lies time length)
    (division : ℕ) {channel : ℤ} (hc : 0 ≤ channel ∧ channel < 16) :
    ∀ m ∈ e.messages division channel, m.message.Fits := by
  obtain ⟨hlow, hhigh⟩ : 1 ≤ e.velocity ∧ e.velocity ≤ 127 := h.regular.velocity_mem
  intro m hm
  obtain ⟨pitch, -, hm⟩ := List.mem_flatMap.mp hm
  have hpitch : 0 ≤ limit 0 127 pitch ∧ limit 0 127 pitch ≤ 127 :=
    ⟨le_limit _ _ _, limit_le (by decide) _⟩
  simp only [List.mem_cons, List.not_mem_nil, or_false] at hm
  rcases hm with rfl | rfl
  · exact ⟨hc, hpitch, hlow, hhigh⟩
  · exact ⟨hc, hpitch, by omega, hhigh⟩

theorem Event.tick_messages {division : ℕ} {channel : ℤ} {e : Event} :
    ∀ m ∈ e.messages division channel, m.tick = e.onset division ∨
      m.tick = e.onset division + e.ticks division := by
  intro m hm
  obtain ⟨pitch, -, hm⟩ := List.mem_flatMap.mp hm
  simp only [List.mem_cons, List.not_mem_nil, or_false] at hm
  rcases hm with rfl | rfl
  · exact .inl rfl
  · exact .inr rfl

/-- An event has a message where it begins and one where it ends. -/
theorem Event.Lies.exists_messages {time length : ℕ} {e : Event} (h : e.Lies time length)
    (division : ℕ) (channel : ℤ) :
    (∃ m ∈ e.messages division channel, m.tick = e.onset division) ∧
      ∃ m ∈ e.messages division channel, m.tick = e.onset division + e.ticks division := by
  obtain ⟨pitch, hp⟩ := List.exists_mem_of_ne_nil _ h.regular.pitches_ne_nil
  exact ⟨⟨_, List.mem_flatMap_of_mem hp List.mem_cons_self, rfl⟩,
    ⟨_, List.mem_flatMap_of_mem hp (List.mem_cons_of_mem _ List.mem_cons_self), rfl⟩⟩

/-- In a timeline no message is far from the next: an event is at most 24 beats long, and the next
one begins within a tick of its end. -/
theorem Timeline.dense {time division : ℕ} {events : List Event} (h : Timeline time events)
    (hd : division ≤ 32767) (hl : time + 384 * events.length ≤ 2 * octaveSize) (channel : ℤ) :
    Smf.Timed.Dense (128 ^ 4 - 1) (time * division / 16 : ℕ)
      (events.flatMap (Event.messages division channel)) := by
  induction h with
  | nil => simp [Smf.Timed.Dense]
  | @cons time length e events first rest ih =>
    rw [List.length_cons] at hl
    have hle := first.length_le
    have honset : e.onset division = time * division / 16 := first.onset (by omega)
    have hticks : e.ticks division = length * division / 16 := first.ticks
    have hsum : (time + length) * division = time * division + length * division := Nat.add_mul ..
    have hlength : length * division ≤ 384 * 32767 := Nat.mul_le_mul hle hd
    intro tick htick hlater
    obtain ⟨m, hm, hlater⟩ := hlater
    rw [List.flatMap_cons] at hm ⊢
    rcases lt_or_ge tick (e.onset division + e.ticks division) with hend | hend
    · obtain ⟨-, off, hoff, htickOff⟩ := first.exists_messages division channel
      exact ⟨off, List.mem_append_left _ hoff, by omega, by omega⟩
    -- the event is over, so the later message is one of the rest
    have hrest : m ∈ events.flatMap (Event.messages division channel) := by
      rcases List.mem_append.mp hm with hm | hm
      · rcases Event.tick_messages m hm with h | h <;> omega
      · exact hm
    rcases lt_or_ge tick ((time + length) * division / 16 : ℕ) with hnext | hnext
    · cases rest with
      | nil => simp at hrest
      | @cons _ _ e' _ next _ =>
        have honset' : e'.onset division = (time + length) * division / 16 :=
          next.onset (by omega)
        obtain ⟨⟨on, hon, htickOn⟩, -⟩ := next.exists_messages division channel
        exact ⟨on, List.mem_append_right _ (List.mem_append_left _ hon), by omega, by omega⟩
    · obtain ⟨m', hm', hlt, hle⟩ := ih (by omega) tick hnext ⟨m, hrest, hlater⟩
      exact ⟨m', List.mem_append_right _ hm', hlt, hle⟩

namespace Smf
open Reader

theorem map_latin1 {name : Text} (h : ∀ c ∈ name, c.value < 256) :
    (name.map fun c => UInt8.ofNat c.value).map Reader.latin1 = name := by
  rw [List.map_map]
  refine (List.map_congr_left fun c hc => ?_).trans (List.map_id name)
  have hvalue : (UInt8.ofNat c.value).toNat = c.value := UInt8.toNat_ofNat_of_lt' (h c hc)
  simp only [Function.comp_apply, Reader.latin1, hvalue, id_eq]

theorem map_heard_messages {track : Track} (h : ∀ c ∈ track.name, c.value < 256) (division : ℕ) :
    (track.messages division).map Timed.heard = (0, .trackName track.name) ::
      track.events.toList.flatMap (Event.heard division track.channel.toNat) := by
  rw [Track.messages, List.map_cons, List.map_flatMap, Timed.heard, Message.heard, map_latin1 h]
  simp only [Event.map_heard_messages]
  rfl

/-- The events of a track of a file are the messages of a track of a score, put in order, and then
the end. The places of the score are exact. -/
structure Reads (division : ℕ) (track : Track) (events : List (ℕ × TrackEvent)) : Prop where
  timeline : Timeline 0 track.events.toList
  size_le : 384 * track.events.size ≤ 2 ^ 38
  name_mem : ∀ c ∈ track.name, c.value < 256
  events : ∃ last,
    events = (Timed.sort (track.messages division)).map Timed.heard ++ [(last, .endOfTrack)]

theorem exists_reads {track : Track} (h : track.Regular) {division : ℕ} (h₁ : 1 ≤ division)
    (hd : division ≤ 32767) {p : Bytes} (hp : trackMessages division track >>= payload = .ok p)
    (hshort : p.length < 2 ^ 32) :
    ∃ events, events? 0 none p = some events ∧ Reads division track events := by
  obtain ⟨messages, hmessages, hp⟩ := bind_eq_ok_iff.mp hp
  obtain ⟨htimeline, hsize, rfl⟩ := timeline_of_payload h h₁ hd hmessages hp hshort
  have hbound : 0 + 384 * track.events.toList.length ≤ 2 * octaveSize := by
    rw [zero_add, Array.length_toList]
    exact hsize.trans (by decide)
  have hdense := htimeline.dense hd hbound track.channel
  rw [zero_mul, Nat.zero_div, Nat.cast_zero] at hdense
  have hname : (Message.trackName (track.name.map fun c => UInt8.ofNat c.value)).Fits := by
    have := h.length_name_le
    simp only [Message.Fits, List.length_map]
    omega
  have hnotes : ∀ m ∈ track.events.toList.flatMap (Event.messages division track.channel),
      m.message.Fits ∧ 0 ≤ m.tick := by
    intro m hm
    obtain ⟨e, he, hm⟩ := List.mem_flatMap.mp hm
    obtain ⟨_, _, hlies, -⟩ := htimeline.exists_lies e he
    refine ⟨hlies.messages_fit division h.channel_mem m hm, ?_⟩
    rcases Event.tick_messages m hm with htick | htick <;> omega
  obtain ⟨last, hread⟩ := events?_payload
    (List.forall_mem_cons.mpr ⟨⟨hname, le_rfl⟩, hnotes⟩) (hdense.cons le_rfl) hp
  exact ⟨_, hread, htimeline, hsize, h.name_mem, last, rfl⟩

theorem exists_file {score : Score} (h : score.Regular) {division : ℕ} (h₁ : 1 ≤ division)
    (hd : division ≤ 32767) {ps : List Bytes} (hps : payloads division score = .ok ps)
    (hshort : ∀ p ∈ ps, p.length < 2 ^ 32) : ∃ bytes last parts,
      ofScore division score = .ok bytes ∧ chunks? bytes = some (fileChunks division ps) ∧
      file? bytes = some ⟨1, .ticksPerQuarter division,
        (conductorEvents score.tempo score.meter ++ [(last, .endOfTrack)]) :: parts⟩ ∧
      List.Forall₂ (Reads division) score.tracks parts := by
  have hbytes := (ofScore_eq_ok_iff (hd.trans (by decide)) hps).mpr ⟨hshort, rfl⟩
  have hchunks := chunks?_fileChunks division hshort
  have hcount := length_payloads hps
  obtain ⟨first, rest, rfl, hfirst, hrest⟩ := exists_of_payloads hps
  obtain ⟨last, hlast⟩ := events?_conductor h.tempo_mem h.meter hfirst
  obtain ⟨parts, hparts, hreads⟩ := exists_forall₂ hrest fun track htrack p hp hpayload =>
    exists_reads (h.tracks.1 track htrack) h₁ hd hpayload (hshort p (List.mem_cons_of_mem first hp))
  exact ⟨_, last, parts, hbytes, hchunks, file?_fileChunks hd hcount (.cons hlast hparts) hchunks,
    hreads⟩

/-- The notes of a track of a file are those of a track of a score. -/
theorem Reads.perm {division : ℕ} {track : Track} {events : List (ℕ × TrackEvent)}
    (h : Reads division track events) : ∃ body last, events = body ++ [(last, .endOfTrack)] ∧
      body.Perm ((0, .trackName track.name) ::
        track.events.toList.flatMap (Event.heard division track.channel.toNat)) := by
  obtain ⟨last, hevents⟩ := h.events
  refine ⟨_, last, hevents, ?_⟩
  rw [← map_heard_messages h.name_mem]
  exact (Timed.sort_perm _).map _

/-- The file of a repaired piece is read back. Its chunks are a header and four tracks, and leave no
byte over. The first track has the meter of the piece and a tempo that tells that of the piece; each
of the others has the name of a track of the score at tick 0, and for every pitch of every event its
begin and its end. -/
theorem readback_ofPiece {document : Json} {piece : Piece} (h : Piece.repair document = .ok piece)
    {division : ℕ} (h₁ : 1 ≤ division) (hd : division ≤ 32767) : ∃ score ps,
      Score.ofPiece piece = .ok score ∧ payloads division score = .ok ps ∧ ps.length = 4 ∧
      ((∀ p ∈ ps, p.length < 2 ^ 32) → ∃ bytes conductor parts,
        ofScore division score = .ok bytes ∧
        chunks? bytes = some (⟨headerTag, [0, 1, 0, 4] ++ bigEndian 2 division⟩ ::
          ps.map (⟨trackTag, ·⟩)) ∧
        file? bytes = some ⟨1, .ticksPerQuarter division, conductor :: parts⟩ ∧
        (∃ n d us last, conductor = [(0, .timeSignature n d 24 8), (0, .tempo us),
            (last, .endOfTrack)] ∧ piece.timeSignature = Meter.toText ⟨n, d⟩ ∧
          (us : ℤ) = 60000000 / piece.tempo ∧ round ((60000000 : ℚ) / us) = piece.tempo) ∧
        List.Forall₂ (fun track events => ∃ body last,
          events = body ++ [(last, .endOfTrack)] ∧ body.Perm ((0, .trackName track.name) ::
            track.events.toList.flatMap (Event.heard division track.channel.toNat)))
          score.tracks parts) := by
  obtain ⟨score, hscore, hregular, htempo, hmeter⟩ := Score.exists_regular_ofPiece h
  obtain ⟨ps, hps⟩ := exists_payloads hregular (hd.trans (by decide))
  refine ⟨score, ps, hscore, hps, length_payloads hps, fun hshort => ?_⟩
  obtain ⟨bytes, last, parts, hbytes, hchunks, hfile, hreads⟩ :=
    exists_file hregular h₁ hd hps hshort
  refine ⟨bytes, _, parts, hbytes, hchunks, hfile, ?_, hreads.imp fun _ _ => Reads.perm⟩
  have hn : 0 ≤ score.meter.numerator := by
    have := hregular.meter.numerator_mem
    omega
  have hd : 0 ≤ score.meter.denominator := by
    rcases hregular.meter.denominator_mem with h | h | h | h <;> omega
  have hus : (((60000000 / score.tempo).toNat : ℕ) : ℤ) = 60000000 / score.tempo := by
    have := (microseconds_bounds hregular.tempo_mem).2.2.1
    omega
  have hround := round_div_microseconds hregular.tempo_mem
  rw [← hus, Int.cast_natCast, htempo] at hround
  refine ⟨_, _, _, last, rfl, ?_, ?_, ?_⟩
  · rw [hmeter, Int.toNat_of_nonneg hn, Int.toNat_of_nonneg hd]
  · rw [hus, htempo]
  · rw [htempo]
    exact hround

/-- A document of one measure, at one tick to the quarter beat. -/
theorem readback_oneMeasure : ∃ piece score bytes conductor parts,
    Piece.repair .oneMeasure = .ok piece ∧ Score.ofPiece piece = .ok score ∧
    ofScore (1 : ℕ) score = .ok bytes ∧
    file? bytes = some ⟨1, .ticksPerQuarter 1, conductor :: parts⟩ ∧
    List.Forall₂ (fun track events => ∃ body last,
      events = body ++ [(last, .endOfTrack)] ∧ body.Perm ((0, .trackName track.name) ::
        track.events.toList.flatMap (Event.heard 1 track.channel.toNat))) score.tracks parts := by
  obtain ⟨piece, hpiece, hshort⟩ := Json.payloads_oneMeasure
  obtain ⟨score, ps, hscore, hps, -, hread⟩ :=
    readback_ofPiece hpiece (by decide : 1 ≤ 1) (by decide)
  obtain ⟨bytes, conductor, parts, hbytes, -, hfile, -, hparts⟩ :=
    hread (hshort 1 (by simp) score ps hscore hps)
  exact ⟨piece, score, bytes, conductor, parts, hpiece, hscore, hbytes, hfile, hparts⟩

end Smf
end TrioScore
