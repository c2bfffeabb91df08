import TrioScore.Proofs.Delivery.Commissioned
import TrioScore.Proofs.Mood.Sane

/-!
# Readings of numbers

Every binary64 can be read as a parameter of a mood, NaN and the infinities too, and so can every
integer that has a binary64. An integer beyond them is refused: by the rule always, and by an order
unless an outside composer gives an acceptable answer.
-/

namespace TrioScore

/-- The number is a binary64 or an integer that has one. -/
def Number.HasBinary64 : Number → Prop
  | .int n => |n| < 2 ^ 1024 - 2 ^ 970
  | .real _ => True

theorem Json.isReading_number_iff {x : Number} : (number x).IsReading ↔ x.HasBinary64 := by
  cases x with
  | int n => exact isReading_ofInt_iff
  | real y => exact iff_of_true (isReading_ofBinary64 y) trivial

namespace Mood

/-- There is one fault that keeps a value from being read. -/
theorem parameter_eq_error {low high default : Binary64} {value : Json} {fault : Fault}
    (h : parameter low high default value = .error fault) : fault = .integerTooLarge := by
  match hq : value.quantity? with
  | none =>
    rw [parameter_of_none hq] at h
    cases h
  | some (.real x) =>
    rw [parameter_of_real hq] at h
    cases h
  | some (.int n) =>
    rw [parameter_of_int hq, Binary64.ofInt_eq] at h
    split_ifs at h
    · cases h
    · exact (Except.error.inj h).symm

theorem ofValues_eq_error {valence arousal focus : Json} {fault : Fault}
    (h : ofValues valence arousal focus = .error fault) : fault = .integerTooLarge := by
  simp only [ofValues, bind_eq_error_iff] at h
  rcases h with hv | ⟨v, -, ha | ⟨a, -, hf | ⟨f, -, h⟩⟩⟩
  · exact parameter_eq_error hv
  · exact parameter_eq_error ha
  · exact parameter_eq_error hf
  · cases h

end Mood

/-- What cannot be read is refused before anything is composed. -/
theorem pieceOfReading_of_not_isReading {valence arousal focus : Json}
    (h : ¬ (valence.IsReading ∧ arousal.IsReading ∧ focus.IsReading)) (hints : Hints) :
    pieceOfReading valence arousal focus hints = .error .integerTooLarge := by
  rw [← Mood.ofValues_isOk_iff] at h
  unfold pieceOfReading
  cases hmood : Mood.ofValues valence arousal focus with
  | ok mood => exact absurd ⟨mood, hmood⟩ h
  | error fault =>
    rw [Mood.ofValues_eq_error hmood]
    rfl

section Numbers
variable {valence arousal focus : Number}

theorem forall_hasBinary64_iff : (∀ x ∈ [valence, arousal, focus], x.HasBinary64) ↔
    (Json.number valence).IsReading ∧ (Json.number arousal).IsReading ∧
      (Json.number focus).IsReading := by
  simp [Json.isReading_number_iff]

theorem exists_pieceOfReading (h : ∀ x ∈ [valence, arousal, focus], x.HasBinary64)
    (names : Option (List Text)) (genre : Json) : ∃ piece, pieceOfReading (.number valence)
      (.number arousal) (.number focus) ⟨Hints.ofNames names, genre⟩ = .ok piece := by
  obtain ⟨instrumentation, hi, -⟩ := Hints.exists_instruments names genre
  exact pieceOfReading_isOk_iff.mpr ⟨forall_hasBinary64_iff.mp h, instrumentation, hi⟩

theorem pieceOfReading_of_not_hasBinary64
    (h : ¬ ∀ x ∈ [valence, arousal, focus], x.HasBinary64) (hints : Hints) :
    pieceOfReading (.number valence) (.number arousal) (.number focus) hints =
      .error .integerTooLarge :=
  pieceOfReading_of_not_isReading (fun hr => h (forall_hasBinary64_iff.mpr hr)) hints

end Numbers

/-- For every reading of numbers and every list of names, the rule gives a piece exactly when the
integers in the reading have a binary64, and otherwise refuses it for that one fault. So an order
comes to a result exactly when they have one or the composer's answer is accepted, whatever else the
composer does. -/
theorem pieceOfReading_numbers_isOk_iff (valence arousal focus : Number)
    {names : Option (List Text)} {genre : Json} {hints : List (Text × Json)}
    (hhints : Commission.heeded hints = ⟨Hints.ofNames names, genre⟩)
    (composer : Option Composer) :
    ((∃ piece, pieceOfReading (.number valence) (.number arousal) (.number focus)
        ⟨Hints.ofNames names, genre⟩ = .ok piece) ↔
      ∀ x ∈ [valence, arousal, focus], x.HasBinary64) ∧
    ((∃ came, (commission composer (.number valence) (.number arousal) (.number focus)
        hints).result = .ok came) ↔
      (∀ x ∈ [valence, arousal, focus], x.HasBinary64) ∨
        ∃ answer, Commission.Accepts composer (Commission.arguments (.number valence)
          (.number arousal) (.number focus) hints) answer) ∧
    (¬ (∀ x ∈ [valence, arousal, focus], x.HasBinary64) →
      pieceOfReading (.number valence) (.number arousal) (.number focus)
          ⟨Hints.ofNames names, genre⟩ = .error .integerTooLarge ∧
        ((∀ answer, ¬ Commission.Accepts composer (Commission.arguments (.number valence)
            (.number arousal) (.number focus) hints) answer) →
          (commission composer (.number valence) (.number arousal) (.number focus)
            hints).result = .error .integerTooLarge)) := by
  have hrefused : ¬ (∀ x ∈ [valence, arousal, focus], x.HasBinary64) →
      (∀ answer, ¬ Commission.Accepts composer (Commission.arguments (.number valence)
        (.number arousal) (.number focus) hints) answer) →
      (commission composer (.number valence) (.number arousal) (.number focus) hints).result =
        .error .integerTooLarge := by
    intro h hnone
    rw [(commission_of_not_accepts hnone).1, pieceOfReading_of_not_hasBinary64 h]
    rfl
  refine ⟨⟨?_, fun h => exists_pieceOfReading h names genre⟩, ⟨?_, ?_⟩,
    fun h => ⟨pieceOfReading_of_not_hasBinary64 h _, hrefused h⟩⟩
  · rintro ⟨piece, hpiece⟩
    by_contra h
    rw [pieceOfReading_of_not_hasBinary64 h] at hpiece
    cases hpiece
  · rintro ⟨came, hcame⟩
    by_contra h
    rw [not_or, not_exists] at h
    rw [hrefused h.1 h.2] at hcame
    cases hcame
  · intro h
    by_cases haccepts : ∃ answer, Commission.Accepts composer (Commission.arguments
        (.number valence) (.number arousal) (.number focus) hints) answer
    · obtain ⟨answer, hanswer⟩ := haccepts
      exact ⟨_, (commission_of_accepts hanswer).1⟩
    · obtain ⟨piece, hpiece⟩ := exists_pieceOfReading (h.resolve_right haccepts) names genre
      rw [← hhints] at hpiece
      refine ⟨.ruleBased piece, ?_⟩
      rw [(commission_of_not_accepts (not_exists.mp haccepts)).1, hpiece]
      rfl

/-- A reading of NaN, an infinity and a great integer, for a composer who fails. -/
theorem commission_of_nan_and_infinity :
    (∃ piece, pieceOfReading (.number (.real .nan)) (.number (.real (.infinity true)))
      (.number (.int (10 ^ 308))) ⟨Hints.ofNames (some ["cello", "harp"]), .null⟩ = .ok piece) ∧
    ∃ came, (commission (some fun _ => .error (.outside "TimeoutError" "")) (.number (.real .nan))
      (.number (.real (.infinity true))) (.number (.int (10 ^ 308)))
      [("instrumentation", Hints.ofNames (some ["cello", "harp"]))]).result = .ok came := by
  have hnumbers : ∀ x ∈ [Number.real .nan, .real (.infinity true), .int (10 ^ 308)],
      x.HasBinary64 := by
    have hgreat : |(10 ^ 308 : ℤ)| < 2 ^ 1024 - 2 ^ 970 := by decide +kernel
    rw [List.forall_mem_cons, List.forall_mem_cons, List.forall_mem_singleton]
    exact ⟨trivial, trivial, hgreat⟩
  have hheeded : Commission.heeded [("instrumentation", Hints.ofNames (some ["cello", "harp"]))] =
      ⟨Hints.ofNames (some ["cello", "harp"]), .null⟩ := rfl
  obtain ⟨hrule, horder, -⟩ := pieceOfReading_numbers_isOk_iff (.real .nan)
    (.real (.infinity true)) (.int (10 ^ 308)) hheeded
    (some fun _ => .error (.outside "TimeoutError" ""))
  exact ⟨hrule.mpr hnumbers, horder.mpr (.inl hnumbers)⟩

/-- An integer of 401 digits is refused, and by an order too when the composer fails. -/
theorem not_pieceOfReading_of_401_digits :
    (¬ ∃ piece, pieceOfReading (.ofInt (10 ^ 400)) (.ofBinary64 .half) (.ofBinary64 .half)
      .empty = .ok piece) ∧
    ¬ ∃ came, (commission (some fun _ => .error (.outside "TimeoutError" "")) (.ofInt (10 ^ 400))
      (.ofBinary64 .half) (.ofBinary64 .half) []).result = .ok came := by
  have hrefused : pieceOfReading (.ofInt (10 ^ 400)) (.ofBinary64 .half) (.ofBinary64 .half)
      .empty = .error .integerTooLarge := by
    have hgreat : ¬ |(10 ^ 400 : ℤ)| < 2 ^ 1024 - 2 ^ 970 := by decide +kernel
    exact pieceOfReading_of_not_isReading
      (fun h => hgreat (Json.isReading_ofInt_iff.mp h.1)) .empty
  have hnone : ∀ answer, ¬ Commission.Accepts (some fun _ => .error (.outside "TimeoutError" ""))
      (Commission.arguments (.ofInt (10 ^ 400)) (.ofBinary64 .half) (.ofBinary64 .half) [])
      answer := by
    rintro answer ⟨_, _, ⟨rfl⟩, h, -⟩
    cases h
  constructor
  · rintro ⟨piece, h⟩
    rw [hrefused] at h
    cases h
  · rintro ⟨came, h⟩
    have hheeded : Commission.heeded [] = .empty := rfl
    rw [(commission_of_not_accepts hnone).1, hheeded, hrefused] at h
    cases h

end TrioScore
