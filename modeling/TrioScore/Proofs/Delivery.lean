import TrioScore.Delivery
import TrioScore.Proofs.Meter.Written
import TrioScore.Proofs.Piece.Repaired
import TrioScore.Proofs.Score.Emergency

/-!
# What is delivered

Every document is delivered, as its piece or as the emergency phrase, but for one fault: a meter
with a numeral of too many digits stops repair, and it stops the emergency phrase for the same
reason.
-/

namespace TrioScore

/-- The document is an object whose meter is written with too many digits. -/
def Json.OverlongMeter (document : Json) : Prop := ∃ fields t, document = .object fields ∧
  Json.field "timeSignature" fields = .text t ∧ Meter.Overlong t

theorem Repair.meter_eq_ok {fields : List (Text × Json)}
    (h : ¬ (Json.object fields).OverlongMeter) :
    ∃ m, meter (Json.field "timeSignature" fields) = .ok m ∧ m.InRange := by
  cases ht : Json.field "timeSignature" fields with
  | text t => exact Meter.parse_of_not_overlong fun hlong => h ⟨fields, t, rfl, ht, hlong⟩
  | _ => exact ⟨_, rfl, Meter.inRange_common⟩

theorem Piece.exists_repair {fields : List (Text × Json)}
    (h : ¬ (Json.object fields).OverlongMeter) :
    ∃ piece, Piece.repair (.object fields) = .ok piece := by
  obtain ⟨meter, hmeter, -⟩ := Repair.meter_eq_ok h
  refine ⟨Repair.pieceOf fields meter.toText, ?_⟩
  rw [repair_object, Repair.timeSignature, hmeter, ok_map, ok_map]

namespace Delivery

theorem tempoAndMeter_eq_ok {document : Json} (h : ¬ document.OverlongMeter) :
    ∃ tempo meter, tempoAndMeter document = .ok (tempo, meter) ∧ 40 ≤ tempo ∧ tempo ≤ 220 ∧
      meter.InRange := by
  cases document with
  | object fields =>
    obtain ⟨meter, hmeter, hrange⟩ := Repair.meter_eq_ok h
    obtain ⟨h₁, h₂⟩ := Repair.tempo_mem (Json.field "tempo" fields)
    refine ⟨_, meter, ?_, h₁, h₂, hrange⟩
    rw [tempoAndMeter, Repair.timeSignature, hmeter, ok_map, ok_bind, Meter.parse_toText hrange]
    rfl
  | _ => exact ⟨90, .common, rfl, by decide, by decide, Meter.inRange_common⟩

/-- A meter with too many digits stops repair and the emergency phrase alike. -/
theorem faults_of_overlongMeter {document : Json} (h : document.OverlongMeter) :
    ∃ digits, 4300 < digits ∧ Piece.repair document = .error (.numeralTooLong digits) ∧
      tempoAndMeter document = .error (.numeralTooLong digits) := by
  obtain ⟨fields, t, rfl, ht, hlong⟩ := h
  obtain ⟨digits, hdigits, hparse⟩ := Meter.parse_of_overlong hlong
  have hwritten : Repair.timeSignature (Json.field "timeSignature" fields) =
      .error (.numeralTooLong digits) := by
    rw [ht, Repair.timeSignature, Repair.meter, hparse]
    rfl
  refine ⟨digits, hdigits, ?_, ?_⟩
  · rw [Piece.repair_object, hwritten]
    rfl
  · rw [tempoAndMeter, hwritten]
    rfl

theorem emergency_eq_ok {document : Json} (h : ¬ document.OverlongMeter) (call : ℕ)
    (provider : Text) (fault : Fault) : ∃ tempo meter bytes,
      tempoAndMeter document = .ok (tempo, meter) ∧
      Smf.ofScore 960 (Score.emergency tempo meter) = .ok bytes ∧
      emergency (.standard Exporter.standardDivision) call provider document fault =
        .ok ⟨none, bytes, provider, true, [warning fault]⟩ := by
  obtain ⟨tempo, meter, hbest, h₁, -, hrange⟩ := tempoAndMeter_eq_ok h
  obtain ⟨bytes, hbytes⟩ := Score.ofScore_emergency_eq_ok (by omega : 1 ≤ tempo) hrange
    (by decide : 960 ≤ 65535)
  refine ⟨tempo, meter, bytes, hbest, hbytes, ?_⟩
  have hexport : Exporter.standard Exporter.standardDivision call (Score.emergency tempo meter) =
      .ok bytes := hbytes
  rw [emergency, hbest, ok_bind]
  dsimp only
  rw [hexport]
  rfl

end Delivery

/-- What the standard writer delivers: the file of the repaired piece without a warning, or after a
fault the emergency phrase with a warning of it. -/
theorem deliver_eq_ok {document : Json} (h : ¬ document.OverlongMeter) (provider : Text) :
    (∃ piece score bytes, document.score = .ok (piece, score) ∧
      Smf.ofScore 960 score = .ok bytes ∧
      (deliver (.standard Exporter.standardDivision) provider document).2 =
        .ok ⟨some piece, bytes, provider, false, []⟩) ∨
    ∃ fault tempo meter bytes, (document.score = .error fault ∨
        ∃ rendered, document.score = .ok rendered ∧ Smf.ofScore 960 rendered.2 = .error fault) ∧
      Delivery.tempoAndMeter document = .ok (tempo, meter) ∧
      Smf.ofScore 960 (Score.emergency tempo meter) = .ok bytes ∧
      (deliver (.standard Exporter.standardDivision) provider document).2 =
        .ok ⟨none, bytes, provider, true, [Delivery.warning fault]⟩ := by
  cases hscore : document.score with
  | error fault =>
    right
    obtain ⟨tempo, meter, bytes, hbest, hbytes, he⟩ := Delivery.emergency_eq_ok h 0 provider fault
    refine ⟨fault, tempo, meter, bytes, .inl rfl, hbest, hbytes, ?_⟩
    rw [deliver, hscore]
    exact he
  | ok rendered =>
    have hexport : ∀ call, Exporter.standard Exporter.standardDivision call rendered.2 =
        Smf.ofScore 960 rendered.2 := fun _ => rfl
    cases hfile : Smf.ofScore 960 rendered.2 with
    | error fault =>
      right
      obtain ⟨tempo, meter, bytes, hbest, hbytes, he⟩ := Delivery.emergency_eq_ok h 1 provider fault
      refine ⟨fault, tempo, meter, bytes, .inr ⟨rendered, rfl, hfile⟩, hbest, hbytes, ?_⟩
      rw [deliver, hscore]
      dsimp only
      rw [hexport, hfile]
      exact he
    | ok bytes =>
      left
      refine ⟨rendered.1, rendered.2, bytes, rfl, hfile, ?_⟩
      rw [deliver, hscore]
      dsimp only
      rw [hexport, hfile]

theorem deliver_of_overlongMeter {document : Json} (h : document.OverlongMeter)
    (exporter : Exporter) (provider : Text) : ∃ digits, 4300 < digits ∧
      (deliver exporter provider document).2 = .error (.numeralTooLong digits) := by
  obtain ⟨digits, hdigits, hrepair, hbest⟩ := Delivery.faults_of_overlongMeter h
  have hscore : document.score = .error (.numeralTooLong digits) := by
    rw [Json.score, hrepair]
    rfl
  refine ⟨digits, hdigits, ?_⟩
  rw [deliver, hscore]
  dsimp only
  rw [Delivery.emergency, hbest]
  rfl

theorem Piece.overlongMeter_toJson (piece : Piece) :
    piece.toJson.OverlongMeter ↔ Meter.Overlong piece.timeSignature := by
  constructor
  · rintro ⟨fields, t, hobject, hfield, hlong⟩
    obtain rfl := Json.object.inj hobject
    obtain rfl : piece.timeSignature = t := Json.text.inj hfield
    exact hlong
  · exact fun h => ⟨_, piece.timeSignature, rfl, rfl, h⟩

/-- Delivery gives a result unless the meter of the document, or of the piece, is written with a
numeral of more than 4300 digits; the fault of repair is then met again by the emergency phrase. The
result is the repaired piece, or after any other fault the emergency phrase with a warning of it. -/
theorem deliver_isOk_iff (provider : Text) (document : Json) :
    ((∃ delivery, (deliver (.standard Exporter.standardDivision) provider document).2 =
      .ok delivery) ↔ ¬ document.OverlongMeter) ∧
    (∀ piece : Piece, document = piece.toJson →
      ((∃ delivery, (deliver (.standard Exporter.standardDivision) provider document).2 =
        .ok delivery) ↔ ¬ Meter.Overlong piece.timeSignature)) ∧
    (document.OverlongMeter → ∃ digits, 4300 < digits ∧
      (deliver (.standard Exporter.standardDivision) provider document).2 =
        .error (.numeralTooLong digits)) ∧
    (¬ document.OverlongMeter →
      (∃ piece score bytes, document.score = .ok (piece, score) ∧
        Smf.ofScore 960 score = .ok bytes ∧
        (deliver (.standard Exporter.standardDivision) provider document).2 =
          .ok ⟨some piece, bytes, provider, false, []⟩) ∨
      ∃ fault tempo meter bytes, (document.score = .error fault ∨
          ∃ rendered, document.score = .ok rendered ∧ Smf.ofScore 960 rendered.2 = .error fault) ∧
        Delivery.tempoAndMeter document = .ok (tempo, meter) ∧
        Smf.ofScore 960 (Score.emergency tempo meter) = .ok bytes ∧
        (deliver (.standard Exporter.standardDivision) provider document).2 =
          .ok ⟨none, bytes, provider, true, [Delivery.warning fault]⟩) := by
  have hiff : (∃ delivery, (deliver (.standard Exporter.standardDivision) provider document).2 =
      .ok delivery) ↔ ¬ document.OverlongMeter := by
    constructor
    · rintro ⟨delivery, hok⟩ hlong
      obtain ⟨digits, -, herror⟩ := deliver_of_overlongMeter hlong
        (.standard Exporter.standardDivision) provider
      rw [hok] at herror
      cases herror
    · intro h
      rcases deliver_eq_ok h provider with ⟨_, _, _, _, _, hok⟩ | ⟨_, _, _, _, _, _, _, hok⟩
      · exact ⟨_, hok⟩
      · exact ⟨_, hok⟩
  refine ⟨hiff, ?_, fun h => deliver_of_overlongMeter h _ provider,
    fun h => deliver_eq_ok h provider⟩
  rintro piece rfl
  rw [hiff, Piece.overlongMeter_toJson]

/-- The digit 1, 4301 times, over 4. -/
def longMeter : Text :=
  List.replicate 4301 (CodePoint.ofChar '1') ++ CodePoint.ofChar '/' :: Text.ofString "4"

theorem overlong_longMeter : Meter.Overlong longMeter := by
  have hone : (CodePoint.ofChar '1').isDigit = true := by decide
  have hfour : Text.IsNumeral "4" := ⟨by decide, by decide⟩
  refine ⟨List.replicate 4301 (.ofChar '1'), "4", ⟨⟨?_, ?_⟩, hfour, [], [], [], [], ?_⟩, .inl ?_⟩
  · exact List.ne_nil_of_length_pos (by rw [List.length_replicate]; decide)
  · intro c hc
    rw [List.eq_of_mem_replicate hc]
    exact hone
  · simp only [List.nil_append, List.append_nil]
    exact ⟨rfl, rfl, rfl, rfl, rfl⟩
  · rw [List.length_replicate]
    decide

theorem overlongMeter_longMeter :
    (Json.object [("timeSignature", .text longMeter)]).OverlongMeter :=
  ⟨_, longMeter, rfl, rfl, overlong_longMeter⟩

theorem deliver_empty_and_longMeter :
    (∃ delivery, (deliver (.standard Exporter.standardDivision) "input" (.object [])).2 =
      .ok delivery) ∧
    ∃ digits, 4300 < digits ∧ (deliver (.standard Exporter.standardDivision) "input"
      (.object [("timeSignature", .text longMeter)])).2 = .error (.numeralTooLong digits) := by
  obtain ⟨hiff, -⟩ := deliver_isOk_iff "input" (.object [])
  obtain ⟨-, -, herror, -⟩ :=
    deliver_isOk_iff "input" (.object [("timeSignature", .text longMeter)])
  refine ⟨hiff.mpr ?_, herror overlongMeter_longMeter⟩
  rintro ⟨fields, t, hobject, hfield, -⟩
  obtain rfl := Json.object.inj hobject
  cases hfield

theorem not_deliver_longMeter : ¬ ∃ delivery, (deliver (.standard Exporter.standardDivision) "input"
    (.object [("timeSignature", .text longMeter)])).2 = .ok delivery := by
  rintro ⟨delivery, hok⟩
  obtain ⟨digits, -, herror⟩ := deliver_of_overlongMeter overlongMeter_longMeter
    (.standard Exporter.standardDivision) "input"
  rw [hok] at herror
  cases herror

end TrioScore
