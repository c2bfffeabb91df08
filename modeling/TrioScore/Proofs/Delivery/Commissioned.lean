import TrioScore.Delivery
import TrioScore.Proofs.Mood.Reading
import Mathlib.Tactic.MkIffOfInductiveProp

/-!
# Commissioned pieces

An outside composer is asked once. An acceptable answer is passed on as it is. Of a composer who
fails, or whose answer is refused, only a record remains: what is delivered is the piece of the
rule, as if there had been no composer.
-/

namespace TrioScore

theorem Json.length_isOk_iff {value : Json} : (∃ n, value.length = .ok n) ↔
    value.kind = .text ∨ value.kind = .array ∨ value.kind = .object := by
  cases value with
  | number x => cases x <;> simp [length, kind]
  | _ => simp [length, kind]

namespace Commission

/-- What an answer has to give: a key, a tempo, and sections that can be counted. -/
@[mk_iff]
structure IsAcceptable (fields : List (Text × Json)) : Prop where
  key : (Json.field "key" fields).isTruthy = true
  tempo : (Json.field "tempo" fields).isTruthy = true
  sections : (Json.field "sections" fields).isTruthy = true
  kind_sections : (Json.field "sections" fields).kind = .text ∨
    (Json.field "sections" fields).kind = .array ∨ (Json.field "sections" fields).kind = .object

instance (fields : List (Text × Json)) : Decidable (IsAcceptable fields) :=
  decidable_of_iff _ (isAcceptable_iff fields).symm

theorem isAcceptable_iff_isComplete {fields : List (Text × Json)} : IsAcceptable fields ↔
    isComplete fields = true ∧ ∃ n, (Json.field "sections" fields).length = .ok n := by
  rw [Json.length_isOk_iff]
  simp only [isComplete, requiredFields, List.all_cons, List.all_nil, Bool.and_eq_true, and_true]
  exact ⟨fun h => ⟨⟨h.key, h.tempo, h.sections⟩, h.kind_sections⟩,
    fun ⟨⟨hkey, htempo, hsections⟩, hkind⟩ => ⟨hkey, htempo, hsections, hkind⟩⟩

theorem accept_eq_ok_iff {answer : Json} {fields : List (Text × Json)} {sections : ℕ} :
    accept answer = .ok (fields, sections) ↔ answer = .object fields ∧
      isComplete fields = true ∧ (Json.field "sections" fields).length = .ok sections := by
  cases answer with
  | object given =>
    have haccept : accept (.object given) = if isComplete given then
        (given, ·) <$> (Json.field "sections" given).length else .error .incompletePiece := rfl
    rw [haccept]
    split_ifs with hcomplete
    · rw [map_eq_ok_iff]
      constructor
      · rintro ⟨n, hn, ⟨rfl⟩⟩
        exact ⟨rfl, hcomplete, hn⟩
      · rintro ⟨⟨rfl⟩, -, hn⟩
        exact ⟨sections, hn, rfl⟩
    · refine ⟨fun h => (by cases h), ?_⟩
      rintro ⟨⟨rfl⟩, h, -⟩
      exact absurd h hcomplete
  | _ => exact ⟨fun h => (by cases h), fun ⟨h, _⟩ => (by cases h)⟩

/-- There is a composer, who answers an order with an acceptable object. -/
def Accepts (composer : Option Composer) (order : List (Text × Json)) (answer : Json) : Prop :=
  ∃ c fields, composer = some c ∧ c order = .ok (.object fields) ∧ IsAcceptable fields ∧
    answer = .object fields

theorem run_call (composer : Composer) (order : List (Text × Json)) (notes : Notes) :
    (composer.call order).run.run notes =
      (composer order, { notes with calls := notes.calls ++ [order] }) := by
  rw [Composer.call, run_run_bind, run_run_modify]
  exact run_run_ofExcept _ _

section Attempt
variable {composer : Composer} {order : List (Text × Json)} {answer : Json}

/-- The answer to an order, with what is accepted of it. -/
def ask (composer : Composer) (order : List (Text × Json)) :
    Except Fault (Json × List (Text × Json) × ℕ) :=
  composer order >>= fun answer => (answer, ·) <$> accept answer

theorem exists_ask_eq_ok_iff :
    (∃ accepted, ask composer order = .ok (answer, accepted)) ↔
      Accepts (some composer) order answer := by
  constructor
  · rintro ⟨accepted, h⟩
    obtain ⟨given, hgiven, h⟩ := bind_eq_ok_iff.mp h
    obtain ⟨⟨fields, n⟩, haccept, ⟨rfl⟩⟩ := map_eq_ok_iff.mp h
    obtain ⟨rfl, hcomplete, hn⟩ := accept_eq_ok_iff.mp haccept
    exact ⟨composer, fields, rfl, hgiven, isAcceptable_iff_isComplete.mpr ⟨hcomplete, n, hn⟩, rfl⟩
  · rintro ⟨_, fields, ⟨rfl⟩, hgiven, hacceptable, rfl⟩
    obtain ⟨hcomplete, n, hn⟩ := isAcceptable_iff_isComplete.mp hacceptable
    refine ⟨(fields, n), ?_⟩
    rw [ask, hgiven, ok_bind, accept_eq_ok_iff.mpr ⟨rfl, hcomplete, hn⟩, ok_map]

theorem run_attempt (notes : Notes) : (attempt composer order).run.run notes =
    match ask composer order with
    | .ok (answer, fields, sections) => (.ok (.external answer),
        ⟨notes.calls ++ [order], notes.records ++ acceptance fields sections⟩)
    | .error fault => (.error fault, { notes with calls := notes.calls ++ [order] }) := by
  rw [attempt, run_run_bind, run_call, ask]
  cases composer order with
  | error fault => rfl
  | ok answer =>
    rw [ok_bind]
    dsimp only
    rw [run_run_bind, run_run_ofExcept]
    cases accept answer <;> rfl

end Attempt

end Commission

section Orders
variable {composer : Option Composer} {valence arousal focus : Json} {hints : List (Text × Json)}

theorem commission_of_accepts {answer : Json}
    (h : Commission.Accepts composer (Commission.arguments valence arousal focus hints) answer) :
    (commission composer valence arousal focus hints).result = .ok (.external answer) ∧
      (commission composer valence arousal focus hints).calls =
        [Commission.arguments valence arousal focus hints] := by
  have haccepts := h
  obtain ⟨c, _, rfl, -⟩ := h
  obtain ⟨accepted, hask⟩ := Commission.exists_ask_eq_ok_iff.mpr haccepts
  have hrun : (Commission.order (some c) valence arousal focus hints).run.run ⟨[], []⟩ =
      (.ok (.external answer), ⟨[Commission.arguments valence arousal focus hints],
        Commission.acceptance accepted.1 accepted.2⟩) := by
    rw [Commission.order, run_run_tryCatch, Commission.run_attempt, hask]
    rfl
  rw [commission, hrun]
  exact ⟨rfl, rfl⟩

/-- Where no answer is accepted, the result is that of the rule. The composer, if there is one, has
been called once. -/
theorem commission_of_not_accepts (h : ∀ answer,
    ¬ Commission.Accepts composer (Commission.arguments valence arousal focus hints) answer) :
    (commission composer valence arousal focus hints).result =
      Commission.ruleBased <$>
        pieceOfReading valence arousal focus (Commission.heeded hints) ∧
      (commission composer valence arousal focus hints).calls =
        if composer.isSome then [Commission.arguments valence arousal focus hints] else [] := by
  cases composer with
  | none =>
    rw [commission, Commission.order, run_run_ofExcept]
    exact ⟨rfl, rfl⟩
  | some c =>
    cases hask : Commission.ask c (Commission.arguments valence arousal focus hints) with
    | ok accepted =>
      exact absurd (Commission.exists_ask_eq_ok_iff.mp ⟨accepted.2, hask⟩) (h accepted.1)
    | error fault =>
      have hrun : (Commission.order (some c) valence arousal focus hints).run.run ⟨[], []⟩ =
          (Commission.ruleBased <$>
            pieceOfReading valence arousal focus (Commission.heeded hints),
            ⟨[Commission.arguments valence arousal focus hints], [Commission.refusal fault]⟩) := by
        rw [Commission.order, run_run_tryCatch, Commission.run_attempt, hask]
        dsimp only
        rw [run_run_bind, record, run_run_modify]
        exact run_run_ofExcept _ _
      rw [commission, hrun]
      exact ⟨rfl, rfl⟩

end Orders

/-- What is delivered depends on the result of an order only. -/
theorem deliverCommissioned_congr {a b : Commissioned} (h : a.result = b.result)
    (exporter : Exporter) :
    (deliverCommissioned exporter a).2 = (deliverCommissioned exporter b).2 := by
  unfold deliverCommissioned
  rw [h]
  cases b.result with
  | error fault => rfl
  | ok commission =>
    dsimp only
    rcases deliver exporter commission.provider commission.document with ⟨_, fault | delivery⟩ <;>
      rfl

/-- For a reading that the rule can compose, an order gives the composer's answer if it is
acceptable, and otherwise the piece of the rule for the hints that the rule heeds. The composer is
asked once, with everything. Unless the answer is accepted, what is delivered is what would have
been without a composer. -/
theorem commission_result {valence arousal focus : Json} {hints : List (Text × Json)}
    {piece : Piece} (h : pieceOfReading valence arousal focus
      ⟨Json.field "instrumentation" hints, Json.field "primary_genre" hints⟩ = .ok piece)
    (composer : Option Composer) :
    ∃ came, (commission composer valence arousal focus hints).result = .ok came ∧
      (∀ answer, came = .external answer ↔ Commission.Accepts composer
        (Commission.arguments valence arousal focus hints) answer) ∧
      (∀ answer, came = .external answer → came.provider = "external") ∧
      ((∀ answer, came ≠ .external answer) → came = .ruleBased piece ∧
        came.provider = "rule-based" ∧
        ∀ exporter, (deliverCommissioned exporter
            (commission composer valence arousal focus hints)).2 =
          (deliverCommissioned exporter (commission none valence arousal focus hints)).2) ∧
      (commission composer valence arousal focus hints).calls =
        if composer.isSome then [Commission.arguments valence arousal focus hints] else [] := by
  have hrule : Commission.ruleBased <$>
      pieceOfReading valence arousal focus (Commission.heeded hints) = .ok (.ruleBased piece) := by
    rw [Commission.heeded, h, ok_map]
  by_cases haccepts : ∃ answer, Commission.Accepts composer
      (Commission.arguments valence arousal focus hints) answer
  · obtain ⟨answer, haccepts⟩ := haccepts
    obtain ⟨hresult, hcalls⟩ := commission_of_accepts haccepts
    refine ⟨.external answer, hresult, fun other => ?_, fun _ _ => rfl, fun hne => ?_, ?_⟩
    · constructor
      · rintro ⟨rfl⟩
        exact haccepts
      · intro hother
        exact Except.ok.inj (hresult.symm.trans (commission_of_accepts hother).1)
    · exact absurd rfl (hne answer)
    · obtain ⟨c, _, rfl, -⟩ := haccepts
      exact hcalls
  · rw [not_exists] at haccepts
    obtain ⟨hby, hcalls⟩ := commission_of_not_accepts haccepts
    have hresult := hby.trans hrule
    have hnone : (commission none valence arousal focus hints).result = .ok (.ruleBased piece) := by
      refine (commission_of_not_accepts ?_).1.trans hrule
      rintro answer ⟨_, _, h, -⟩
      cases h
    refine ⟨.ruleBased piece, hresult, fun answer => ?_, fun answer he => ?_, fun _ => ?_, hcalls⟩
    · exact ⟨fun he => (by cases he), fun ha => absurd ha (haccepts answer)⟩
    · cases he
    · exact ⟨rfl, rfl, deliverCommissioned_congr (hresult.trans hnone.symm)⟩

/-- Of two composers, one gives sections that cannot be counted, and one a text in their place. -/
theorem commission_result_of_counted_sections :
    ∃ piece, pieceOfReading .null .null .null .empty = .ok piece ∧
      (commission (some fun _ => .ok (.object [("key", .text "C major"), ("tempo", .ofInt 90),
        ("sections", .ofInt 3)])) .null .null .null [("mood", .text "calm")]).result =
          .ok (.ruleBased piece) ∧
      (commission (some fun _ => .ok (.object [("key", .text "C major"), ("tempo", .ofInt 90),
        ("sections", .text "AB")])) .null .null .null [("mood", .text "calm")]).result =
          .ok (.external (.object [("key", .text "C major"), ("tempo", .ofInt 90),
            ("sections", .text "AB")])) := by
  obtain ⟨piece, hpiece⟩ := pieceOfReading_isOk_iff.mpr
    ⟨⟨Json.isReading_null, Json.isReading_null, Json.isReading_null⟩,
      (⟨"piano", rfl⟩ : ∃ t, Hints.empty.instruments = .ok t)⟩
  have hheeded : pieceOfReading .null .null .null ⟨Json.field "instrumentation"
      [("mood", .text "calm")], Json.field "primary_genre" [("mood", .text "calm")]⟩ =
      .ok piece := hpiece
  refine ⟨piece, hpiece, ?_, ?_⟩
  · obtain ⟨came, hresult, hiff, -, hrule, -⟩ := commission_result hheeded (some fun _ => .ok
      (.object [("key", .text "C major"), ("tempo", .ofInt 90), ("sections", .ofInt 3)]))
    have hrefused : ∀ answer, came ≠ .external answer := by
      intro answer he
      obtain ⟨_, _, ⟨rfl⟩, ⟨rfl⟩, hacceptable, -⟩ := (hiff answer).mp he
      exact absurd hacceptable (by decide)
    rw [hresult, (hrule hrefused).1]
  · obtain ⟨came, hresult, hiff, -⟩ := commission_result hheeded (some fun _ => .ok
      (.object [("key", .text "C major"), ("tempo", .ofInt 90), ("sections", .text "AB")]))
    rw [hresult, (hiff _).mpr ⟨_, _, rfl, rfl, by decide, rfl⟩]

end TrioScore
