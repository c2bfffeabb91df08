import TrioScore.Proofs.Smf.Decoded

/-!
# Notes in turn

From sixteen ticks to the quarter beat on, no event is without a tick. In the file of a delivered
score the events of a track then come one after the other, each with the begins of all its pitches
before their ends; so every key of every channel is pressed and released in turn, and no two events
sound together.
-/

namespace TrioScore
open Smf

namespace Smf.Timed
variable {m : Timed} {l r : List Timed}

theorem insert_eq_cons (h : ∀ m' ∈ l, m.precedes m' = true) : insert m l = m :: l := by
  cases l with
  | nil => rfl
  | cons m' l => rw [insert, if_pos (h m' List.mem_cons_self)]

theorem insert_append (h : ∀ m' ∈ l, ¬ m.precedes m' = true) :
    insert m (l ++ r) = l ++ insert m r := by
  induction l with
  | nil => rfl
  | cons m' l ih =>
    obtain ⟨hm', hl⟩ := List.forall_mem_cons.mp h
    rw [List.cons_append, insert, if_neg hm', ih hl, List.cons_append]

end Smf.Timed

namespace Event
variable {time length division : ℕ} {channel : ℤ} {e : Event}

theorem noteOff_precedes {m : Timed} (htick : e.onset division + e.ticks division ≤ m.tick)
    (horder : 2 ≤ m.message.order) (pitch : ℤ) :
    (e.noteOff division channel pitch).precedes m = true :=
  Timed.precedes_iff.mpr (htick.lt_or_eq.imp_right fun h => ⟨h, horder⟩)

theorem noteOn_precedes {m : Timed} (htick : e.onset division < m.tick) (pitch : ℤ) :
    (e.noteOn division channel pitch).precedes m = true :=
  Timed.precedes_iff.mpr (.inl htick)

/-- The messages of an event with a tick are put before later ones, its begins first. -/
theorem foldr_insert_messages (hticks : 1 ≤ e.ticks division) {later : List Timed}
    (hlater : ∀ m ∈ later, e.onset division + e.ticks division ≤ m.tick ∧ 2 ≤ m.message.order) :
    (e.messages division channel).foldr Timed.insert later =
      e.pitches.map (e.noteOn division channel) ++
        (e.pitches.map (e.noteOff division channel) ++ later) := by
  rw [messages]
  induction e.pitches with
  | nil => rfl
  | cons pitch pitches ih =>
    have hends : ∀ m ∈ pitches.map (e.noteOff division channel) ++ later,
        e.onset division + e.ticks division ≤ m.tick ∧ 2 ≤ m.message.order := by
      intro m hm
      rcases List.mem_append.mp hm with hm | hm
      · obtain ⟨_, -, rfl⟩ := List.mem_map.mp hm
        exact ⟨le_rfl, le_rfl⟩
      · exact hlater m hm
    -- the end goes after the begins and before the other ends, and the begin to the front
    have hpass : ∀ m ∈ pitches.map (e.noteOn division channel),
        ¬ (e.noteOff division channel pitch).precedes m = true := by
      intro m hm
      obtain ⟨_, -, rfl⟩ := List.mem_map.mp hm
      rw [Timed.precedes_iff]
      dsimp only [noteOn, noteOff]
      omega
    have hend : ∀ m ∈ pitches.map (e.noteOff division channel) ++ later,
        (e.noteOff division channel pitch).precedes m = true :=
      fun m hm => noteOff_precedes (hends m hm).1 (hends m hm).2 pitch
    have hbegin : ∀ m ∈ pitches.map (e.noteOn division channel) ++
        (e.noteOff division channel pitch :: (pitches.map (e.noteOff division channel) ++ later)),
        (e.noteOn division channel pitch).precedes m = true := by
      intro m hm
      rcases List.mem_append.mp hm with hm | hm
      · obtain ⟨_, -, rfl⟩ := List.mem_map.mp hm
        exact Timed.precedes_iff.mpr (.inr ⟨rfl, le_rfl⟩)
      · apply noteOn_precedes
        rcases List.mem_cons.mp hm with rfl | hm
        · dsimp only [noteOff]
          omega
        · have := (hends m hm).1
          omega
    rw [List.flatMap_cons, List.foldr_append, ih]
    simp only [List.map_cons, List.foldr_cons, List.foldr_nil]
    rw [Timed.insert_append hpass, Timed.insert_eq_cons hend, Timed.insert_eq_cons hbegin]
    rfl

theorem onset_le_tick : ∀ m ∈ e.messages division channel,
    e.onset division ≤ m.tick ∧ 2 ≤ m.message.order := by
  intro m hm
  obtain ⟨pitch, -, hm⟩ := List.mem_flatMap.mp hm
  simp only [List.mem_cons, List.not_mem_nil, or_false] at hm
  rcases hm with rfl | rfl
  · exact ⟨le_rfl, by simp [noteOn, Message.order]⟩
  · exact ⟨by simp [noteOff], by simp [noteOff, Message.order]⟩

/-- An event has a tick when a sixteenth of a beat has one. -/
theorem Lies.one_le_ticks (h : e.Lies time length) (hd : 16 ≤ division) :
    1 ≤ e.ticks division := by
  have hmul : 1 * 16 ≤ length * division := Nat.mul_le_mul h.length_pos hd
  rw [h.ticks]
  omega

/-- An event ends before or where the next begins: the parts of ticks that are cut off add up. -/
theorem Lies.onset_add_ticks_le (h : e.Lies time length) (ht : time ≤ 2 * octaveSize) :
    e.onset division + e.ticks division ≤ (time + length) * division / 16 := by
  have hsum : (time + length) * division = time * division + length * division := Nat.add_mul ..
  rw [h.onset ht, h.ticks]
  omega

end Event

namespace Timeline
variable {time division : ℕ} {events : List Event} (h : Timeline time events)
  (hl : time + 384 * events.length ≤ 2 * octaveSize)
include h hl

theorem onset_le : ∀ e ∈ events, time * division / 16 ≤ e.onset division := by
  intro e he
  obtain ⟨t, length, hlies, htime, hbound⟩ := h.exists_lies e he
  rw [hlies.onset (by omega)]
  exact Nat.div_le_div_right (Nat.mul_le_mul_right division htime)

theorem pairwise_onset : events.Pairwise fun e e' =>
    e.onset division + e.ticks division ≤ e'.onset division := by
  induction h with
  | nil => exact .nil
  | @cons time length e events first rest ih =>
    have hle := first.length_le
    rw [List.length_cons] at hl
    refine List.pairwise_cons.mpr ⟨fun e' he' => ?_, ih (by omega)⟩
    exact (first.onset_add_ticks_le (by omega)).trans (rest.onset_le (by omega) e' he')

/-- The file has the events of a timeline in turn, the begins of each before its ends. -/
theorem sort_messages (hd : 16 ≤ division) (channel : ℤ) :
    Timed.sort (events.flatMap (Event.messages division channel)) = events.flatMap fun e =>
      e.pitches.map (e.noteOn division channel) ++ e.pitches.map (e.noteOff division channel) := by
  induction h with
  | nil => rfl
  | @cons time length e events first rest ih =>
    have hle := first.length_le
    rw [List.length_cons] at hl
    have hlater : ∀ m ∈ Timed.sort (events.flatMap (Event.messages division channel)),
        e.onset division + e.ticks division ≤ m.tick ∧ 2 ≤ m.message.order := by
      intro m hm
      obtain ⟨e', he', hm⟩ := List.mem_flatMap.mp ((Timed.sort_perm _).mem_iff.mp hm)
      obtain ⟨hon, horder⟩ := Event.onset_le_tick m hm
      have hend : e.onset division + e.ticks division ≤ (time + length) * division / 16 :=
        first.onset_add_ticks_le (by omega)
      have hnext : (time + length) * division / 16 ≤ e'.onset division :=
        rest.onset_le (by omega) e' he'
      exact ⟨by omega, horder⟩
    rw [List.flatMap_cons, List.flatMap_cons, Timed.sort, List.foldr_append, ← Timed.sort,
      Event.foldr_insert_messages (first.one_le_ticks hd) hlater, ih (by omega), List.append_assoc]

end Timeline

/-- What is heard of the begins of an event. -/
def Event.begins (division channel : ℕ) (e : Event) : List (ℕ × TrackEvent) :=
  e.pitches.map fun pitch =>
    (e.onset division, .noteOn channel (limit 0 127 pitch).toNat e.velocity.toNat)

/-- What is heard of the ends of an event. -/
def Event.ends (division channel : ℕ) (e : Event) : List (ℕ × TrackEvent) :=
  e.pitches.map fun pitch =>
    (e.onset division + e.ticks division,
      .noteOff channel (limit 0 127 pitch).toNat e.velocity.toNat)

/-- What is heard of an event in a file: its begins, then its ends. -/
def Event.inTurn (division channel : ℕ) (e : Event) : List (ℕ × TrackEvent) :=
  e.begins division channel ++ e.ends division channel

namespace Smf

theorem Reads.length_le {division : ℕ} {track : Track} {events : List (ℕ × TrackEvent)}
    (h : Reads division track events) :
    0 + 384 * track.events.toList.length ≤ 2 * octaveSize := by
  rw [zero_add, Array.length_toList]
  exact h.size_le.trans (by decide)

/-- From sixteen ticks to the quarter beat on, a track of a file has its events in turn. -/
theorem Reads.inTurn {division : ℕ} {track : Track} {events : List (ℕ × TrackEvent)}
    (h : Reads division track events) (hd : 16 ≤ division) : ∃ last,
      events = (0, .trackName track.name) :: track.events.toList.flatMap
        (Event.inTurn division track.channel.toNat) ++ [(last, .endOfTrack)] := by
  obtain ⟨last, hevents⟩ := h.events
  have hnotes := h.timeline.sort_messages h.length_le hd track.channel
  have hname : ∀ m ∈ Timed.sort (track.events.toList.flatMap
      (Event.messages division track.channel)), Timed.precedes
        ⟨0, .trackName (track.name.map fun c => UInt8.ofNat c.value)⟩ m = true := by
    intro m hm
    obtain ⟨e, -, hm⟩ := List.mem_flatMap.mp ((Timed.sort_perm _).mem_iff.mp hm)
    obtain ⟨htick, -⟩ := Event.onset_le_tick m hm
    rw [Timed.precedes_iff]
    dsimp only [Message.order]
    omega
  have hsort : Timed.sort (track.messages division) =
      ⟨0, .trackName (track.name.map fun c => UInt8.ofNat c.value)⟩ ::
        Timed.sort (track.events.toList.flatMap (Event.messages division track.channel)) :=
    Timed.insert_eq_cons hname
  refine ⟨last, ?_⟩
  rw [hevents, hsort, hnotes, List.map_cons, Timed.heard, Message.heard, map_latin1 h.name_mem,
    List.map_flatMap]
  simp only [List.map_append, List.map_map]
  rfl

/-- The presses and releases of a key of a channel. -/
def keyStrokes (channel key : ℕ) : List (ℕ × TrackEvent) → List (ℕ × Bool) :=
  List.filterMap fun
    | (tick, .noteOn c p _) => if c = channel ∧ p = key then some (tick, true) else none
    | (tick, .noteOff c p _) => if c = channel ∧ p = key then some (tick, false) else none
    | _ => none

/-- From a tick on, a key is pressed and released in turn, and released at a later tick than it is
pressed. -/
inductive Alternates : ℕ → List (ℕ × Bool) → Prop
  | nil (tick : ℕ) : Alternates tick []
  | cons {tick on off : ℕ} {strokes : List (ℕ × Bool)} (start : tick ≤ on) (sounds : on < off)
      (rest : Alternates off strokes) : Alternates tick ((on, true) :: (off, false) :: strokes)

theorem Alternates.mono {t t' : ℕ} {strokes : List (ℕ × Bool)} (h : Alternates t strokes)
    (ht : t' ≤ t) : Alternates t' strokes := by
  cases h with
  | nil => exact .nil t'
  | cons start sounds rest => exact .cons (ht.trans start) sounds rest

/-- Of items that are told apart by a key, one at most has a given key. -/
theorem filterMap_of_nodup {α β : Type} {g : α → ℕ} {l : List α} (h : (l.map g).Nodup) (key : ℕ)
    (b : β) : l.filterMap (fun a => if g a = key then some b else none) =
      if key ∈ l.map g then [b] else [] := by
  induction l with
  | nil => rfl
  | cons a l ih =>
    obtain ⟨ha, hl⟩ := List.nodup_cons.mp h
    rw [List.filterMap_cons, ih hl, List.map_cons]
    by_cases hkey : g a = key
    · subst hkey
      simp [ha]
    · simp [hkey, Ne.symm hkey]

theorem keyStrokes_append (channel key : ℕ) (a b : List (ℕ × TrackEvent)) :
    keyStrokes channel key (a ++ b) = keyStrokes channel key a ++ keyStrokes channel key b :=
  List.filterMap_append

/-- An event strikes each of its keys once. -/
theorem keyStrokes_inTurn {time length : ℕ} {e : Event} (h : e.Lies time length)
    (division channel c key : ℕ) : keyStrokes c key (e.inTurn division channel) =
      if channel = c ∧ key ∈ e.pitches.map (fun p => (limit 0 127 p).toNat) then
        [(e.onset division, true), (e.onset division + e.ticks division, false)] else [] := by
  have hnodup : (e.pitches.map fun p => (limit 0 127 p).toNat).Nodup := by
    have hlimits : (e.pitches.map (limit 0 127)).Nodup := h.regular.pitches_nodup
    have hinj : ∀ a ∈ e.pitches.map (limit 0 127), ∀ b ∈ e.pitches.map (limit 0 127),
        a.toNat = b.toNat → a = b := by
      intro a ha b hb hab
      obtain ⟨p, -, rfl⟩ := List.mem_map.mp ha
      obtain ⟨q, -, rfl⟩ := List.mem_map.mp hb
      have := le_limit 0 127 p
      have := le_limit 0 127 q
      omega
    have hmap := hlimits.map_on hinj
    rw [List.map_map] at hmap
    exact hmap
  rw [Event.inTurn, keyStrokes_append, Event.begins, Event.ends, keyStrokes, List.filterMap_map,
    List.filterMap_map]
  simp only [Function.comp_def]
  by_cases hc : channel = c
  · simp only [hc, true_and]
    rw [filterMap_of_nodup hnodup, filterMap_of_nodup hnodup]
    split_ifs <;> rfl
  · simp [hc]

theorem alternates_keyStrokes {time division : ℕ} {events : List Event} (h : Timeline time events)
    (hl : time + 384 * events.length ≤ 2 * octaveSize) (hd : 16 ≤ division)
    (channel c key : ℕ) : Alternates (time * division / 16)
      (keyStrokes c key (events.flatMap (Event.inTurn division channel))) := by
  induction h with
  | nil => exact .nil _
  | @cons time length e events first rest ih =>
    have hle := first.length_le
    rw [List.length_cons] at hl
    have hrest := ih (by omega)
    have hend : e.onset division + e.ticks division ≤ (time + length) * division / 16 :=
      first.onset_add_ticks_le (by omega)
    have hsum : (time + length) * division = time * division + length * division := Nat.add_mul ..
    have hticks := first.one_le_ticks hd
    rw [List.flatMap_cons, keyStrokes_append, keyStrokes_inTurn first]
    split_ifs
    · exact .cons (first.onset (by omega)).ge (by omega) (hrest.mono hend)
    · exact hrest.mono (by omega)

end Smf

/-- The scores that are delivered: those of repaired pieces, and the emergency phrase at a repaired
tempo and in a repaired meter. -/
inductive Score.Delivered : Score → Prop
  | piece {document : Json} {piece : Piece} {score : Score}
      (repaired : Piece.repair document = .ok piece) (rendered : ofPiece piece = .ok score) :
      Delivered score
  | emergency (tempo timeSignature : Json) {written : Text} {meter : Meter}
      (repaired : Repair.timeSignature timeSignature = .ok written)
      (read : Meter.parse written = .ok meter) : Delivered (emergency (Repair.tempo tempo) meter)

theorem Score.Delivered.regular {score : Score} (h : score.Delivered) : score.Regular := by
  cases h with
  | piece repaired rendered =>
    obtain ⟨score, hscore, hregular, -⟩ := exists_regular_ofPiece repaired
    rw [rendered] at hscore
    cases hscore
    exact hregular
  | emergency tempo timeSignature _ read =>
    exact emergency_regular (Repair.tempo_mem tempo) (Meter.inRange_of_parse read)

namespace Smf
open Reader

theorem Reads.alternates {division : ℕ} {track : Track} {events : List (ℕ × TrackEvent)}
    (h : Reads division track events) (hd : 16 ≤ division) (channel key : ℕ) :
    Alternates 0 (keyStrokes channel key events) := by
  obtain ⟨last, hevents⟩ := h.inTurn hd
  have hstrokes : keyStrokes channel key events = keyStrokes channel key
      (track.events.toList.flatMap (Event.inTurn division track.channel.toNat)) := by
    rw [hevents, keyStrokes_append]
    exact List.append_nil _
  rw [hstrokes]
  exact (alternates_keyStrokes h.timeline h.length_le hd _ channel key).mono (Nat.zero_le _)

/-- In the file of a delivered score the events of a track come in turn, the begins of each before
its ends, at every division of sixteen ticks or more. Every key of every channel is pressed and
released in turn, each time for at least a tick, and an event is over when the next one begins. -/
theorem notes_in_turn {score : Score} (h : score.Delivered) {division : ℕ} (h₁ : 16 ≤ division)
    (hd : division ≤ 32767) : ∃ ps, payloads division score = .ok ps ∧ ps.length = 4 ∧
      ((∀ p ∈ ps, p.length < 2 ^ 32) → ∃ bytes conductor parts,
        ofScore division score = .ok bytes ∧
        file? bytes = some ⟨1, .ticksPerQuarter division, conductor :: parts⟩ ∧
        List.Forall₂ (fun track events =>
          (∃ last, events = (0, .trackName track.name) :: track.events.toList.flatMap
            (Event.inTurn division track.channel.toNat) ++ [(last, .endOfTrack)]) ∧
          (∀ channel key, Alternates 0 (keyStrokes channel key events)) ∧
          track.events.toList.Pairwise fun e e' =>
            e.onset division + e.ticks division ≤ e'.onset division) score.tracks parts) := by
  obtain ⟨ps, hps⟩ := exists_payloads h.regular (hd.trans (by decide))
  refine ⟨ps, hps, length_payloads hps, fun hshort => ?_⟩
  obtain ⟨bytes, last, parts, hbytes, -, hfile, hreads⟩ :=
    exists_file h.regular (le_trans (by decide) h₁) hd hps hshort
  exact ⟨bytes, _, parts, hbytes, hfile, hreads.imp fun track events hread =>
    ⟨hread.inTurn h₁, hread.alternates h₁, hread.timeline.pairwise_onset hread.length_le⟩⟩

/-- The emergency phrase in measures of a sixteenth: at seventeen ticks to the quarter beat, a note
of the melody has one tick. -/
theorem notes_in_turn_sixteenth : ∃ bytes conductor parts,
    ofScore (17 : ℕ) (Score.emergency 90 ⟨1, 16⟩) = .ok bytes ∧
    file? bytes = some ⟨1, .ticksPerQuarter 17, conductor :: parts⟩ ∧
    List.Forall₂ (fun track events =>
      (∀ channel key, Alternates 0 (keyStrokes channel key events)) ∧
      track.events.toList.Pairwise fun e e' => e.onset 17 + e.ticks 17 ≤ e'.onset 17)
      (Score.emergency 90 ⟨1, 16⟩).tracks parts := by
  have hwritten : Repair.timeSignature (.text "1/16") = .ok "1/16" := rfl
  have hmeter : Meter.parse "1/16" = .ok ⟨1, 16⟩ := rfl
  have hdelivered : (Score.emergency 90 ⟨1, 16⟩).Delivered :=
    .emergency .null (.text "1/16") hwritten hmeter
  have hshort : (match payloads (17 : ℕ) (Score.emergency 90 ⟨1, 16⟩) with
    | .ok ps => ps.all fun p => p.length < 2 ^ 32
    | .error _ => false) = true := by decide +kernel
  obtain ⟨ps, hps, -, hread⟩ := notes_in_turn hdelivered (by decide : 16 ≤ 17) (by decide)
  rw [hps] at hshort
  obtain ⟨bytes, conductor, parts, hbytes, hfile, hparts⟩ := hread (by simpa using hshort)
  exact ⟨bytes, conductor, parts, hbytes, hfile, hparts.imp fun _ _ h => h.2⟩

end Smf
end TrioScore
