import TrioScore.Proofs.Mood.Reading
import TrioScore.Proofs.Piece.FixedPoint

/-!
# Composed pieces are sane

Whatever branch of the rule a mood takes, each field of its piece is in range. Only the
instrumentation is not the rule's own: names that are wished for may have blanks around them.
-/

namespace TrioScore

namespace Mood
variable (mood : Mood)

theorem dynamics_mem : mood.dynamics ∈ Dynamics.table.map fun entry => Text.ofString entry.1 := by
  unfold dynamics
  split_ifs <;> decide

theorem sections_isSane : ∀ s ∈ mood.sections, s.IsSane := by
  -- the sections depend on a mark of the table and on two truth values
  have hd := mood.dynamics_mem
  unfold sections reprise opening contrast key
  generalize mood.dynamics = dynamics at hd
  generalize mood.isMinor = minor
  generalize mood.hasReprise = reprise
  revert dynamics minor reprise
  decide +kernel

theorem key_isProper : mood.key.IsProper := by
  unfold key
  split_ifs <;> decide

theorem timeSignature_isWritten : Meter.IsWritten mood.timeSignature := by
  unfold timeSignature
  split_ifs
  · exact ⟨4, 4, by decide⟩
  · exact ⟨3, 4, by decide⟩

theorem form_isProper : mood.form.IsProper := by
  unfold form
  split_ifs <;> decide

theorem character_isTrimmed : mood.character.IsTrimmed := by
  unfold character
  split_ifs <;> decide

variable {mood}

theorem piece_isSane {instrumentation : Text} {composed : Piece} (ha : mood.arousal.Within 1)
    (h : mood.piece instrumentation = .ok composed) :
    { composed with instrumentation := composed.instrumentation.trim }.IsSane := by
  obtain ⟨tempo, htempo, rfl⟩ := piece_eq_ok_iff.mp h
  obtain ⟨n, hn, h₁, h₂⟩ := tempo_mem ha
  obtain rfl := Except.ok.inj (htempo.symm.trans hn)
  have hrange : 40 ≤ tempo ∧ tempo ≤ 220 := by omega
  exact {
    key := mood.key_isProper
    tempo_mem := hrange
    timeSignature := mood.timeSignature_isWritten
    form := mood.form_isProper
    sections_ne_nil := List.cons_ne_nil _ _
    sections := mood.sections_isSane
    exists_cadence := ⟨mood.opening, List.mem_cons_self, Option.some_ne_none _⟩
    instrumentation := Text.isTrimmed_trim _
    character := mood.character_isTrimmed }

end Mood

namespace Hints

/-- The hint that a list of names makes; without a list there is none. -/
def ofNames : Option (List Text) → Json
  | none => .null
  | some names => .ofTexts names

theorem textsFrom_map (index : ℕ) (names : List Text) :
    textsFrom index (names.map .text) = .ok names := by
  induction names generalizing index with
  | nil => rfl
  | cons name names ih => rw [List.map_cons, textsFrom, ih, ok_map]

/-- The instruments of the rule itself are written without blanks around them. -/
theorem exists_instruments_of_not_isTruthy (value : Json) (h : value.isTruthy = false)
    (genre : Json) : ∃ t, instruments ⟨value, genre⟩ = .ok t ∧ t.IsTrimmed := by
  rw [instruments, if_neg (Bool.eq_false_iff.mp h)]
  split
  · exact ⟨_, rfl, by split_ifs <;> decide⟩
  · exact ⟨_, rfl, by decide⟩

theorem exists_instruments (names : Option (List Text)) (genre : Json) :
    ∃ t, instruments ⟨ofNames names, genre⟩ = .ok t ∧
      (∀ name rest, names = some (name :: rest) → t = Text.join ", " (name :: rest)) ∧
      (names.getD [] = [] → t.IsTrimmed) := by
  match names with
  | none =>
    obtain ⟨t, ht, htrimmed⟩ := exists_instruments_of_not_isTruthy .null rfl genre
    exact ⟨t, ht, fun _ _ h => (by cases h), fun _ => htrimmed⟩
  | some [] =>
    obtain ⟨t, ht, htrimmed⟩ := exists_instruments_of_not_isTruthy (.array []) rfl genre
    exact ⟨t, ht, fun _ _ h => (by cases h), fun _ => htrimmed⟩
  | some (name :: rest) =>
    have htruthy : (ofNames (some (name :: rest))).isTruthy = true := rfl
    have htexts : texts (ofNames (some (name :: rest))) = .ok (name :: rest) :=
      textsFrom_map 0 (name :: rest)
    refine ⟨Text.join ", " (name :: rest), ?_, ?_, fun h => by cases h⟩
    · rw [instruments, if_pos htruthy, htexts, ok_map]
    · rintro _ _ ⟨rfl⟩
      rfl

end Hints

/-- Repair takes nothing from a composed piece but the blanks around its instrumentation. -/
theorem repair_toJson_of_pieceOfReading {valence arousal focus : Json} {hints : Hints}
    {piece : Piece} (h : pieceOfReading valence arousal focus hints = .ok piece) :
    Piece.repair piece.toJson =
      .ok { piece with instrumentation := piece.instrumentation.trim } := by
  obtain ⟨mood, _, hmood, -, hpiece⟩ := pieceOfReading_eq_ok_iff.mp h
  rw [← Piece.repair_toJson_trim]
  exact Piece.repair_toJson_of_isSane (Mood.piece_isSane (Mood.arousal_within hmood) hpiece)

/-- The rule composes for every reading and every list of names, and what it composes is sane but
for the blanks around the joined names. -/
theorem pieceOfReading_repair {valence arousal focus : Json} (hv : valence.IsReading)
    (ha : arousal.IsReading) (hf : focus.IsReading) (names : Option (List Text)) (genre : Json) :
    ∃ piece, pieceOfReading valence arousal focus ⟨Hints.ofNames names, genre⟩ = .ok piece ∧
      Piece.repair piece.toJson =
        .ok { piece with instrumentation := piece.instrumentation.trim } ∧
      (Piece.repair piece.toJson = .ok piece ↔ piece.instrumentation.IsTrimmed) ∧
      (∀ name rest, names = some (name :: rest) →
        piece.instrumentation = Text.join ", " (name :: rest)) ∧
      (names.getD [] = [] → piece.instrumentation.IsTrimmed) := by
  obtain ⟨instrumentation, hi, hnames, hnone⟩ := Hints.exists_instruments names genre
  obtain ⟨piece, hpiece⟩ := pieceOfReading_isOk_iff.mpr ⟨⟨hv, ha, hf⟩, instrumentation, hi⟩
  have hrepair := repair_toJson_of_pieceOfReading hpiece
  obtain ⟨mood, _, -, hi', hcomposed⟩ := pieceOfReading_eq_ok_iff.mp hpiece
  obtain rfl := Except.ok.inj (hi.symm.trans hi')
  rw [← Mood.instrumentation_piece hcomposed] at hnames hnone
  refine ⟨piece, hpiece, hrepair, ?_, hnames, hnone⟩
  rw [hrepair, ← Text.trim_eq_self_iff]
  exact ⟨fun h => congrArg Piece.instrumentation (Except.ok.inj h),
    fun h => congrArg (fun t => Except.ok { piece with instrumentation := t }) h⟩

theorem pieceOfReading_repair_untrimmed : ∃ piece,
    pieceOfReading (.ofBinary64 .nan) (.ofBinary64 (.zero true)) (.ofInt (10 ^ 308))
      ⟨Hints.ofNames (some [" flute", "oboe"]), .text "jazz"⟩ = .ok piece ∧
    Piece.repair piece.toJson = .ok { piece with instrumentation := "flute, oboe" } ∧
    Piece.repair piece.toJson ≠ .ok piece := by
  have hint : |(10 : ℤ) ^ 308| < 2 ^ 1024 - 2 ^ 970 := by decide +kernel
  have htrimmed : Text.trim " flute, oboe" = "flute, oboe" := by decide
  have huntrimmed : ¬Text.IsTrimmed " flute, oboe" := by decide
  have hjoin : Text.join ", " [" flute", "oboe"] = Text.ofString " flute, oboe" := by decide
  obtain ⟨piece, hpiece, hrepair, hiff, hnames, -⟩ :=
    pieceOfReading_repair (Json.isReading_ofBinary64 .nan) (Json.isReading_ofBinary64 (.zero true))
      (Json.isReading_ofInt_iff.mpr hint) (some [" flute", "oboe"]) (.text "jazz")
  have hi := (hnames _ _ rfl).trans hjoin
  rw [hi] at hiff
  rw [hi, htrimmed] at hrepair
  exact ⟨piece, hpiece, hrepair, fun h => huntrimmed (hiff.mp h)⟩

end TrioScore
