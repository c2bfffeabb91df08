import TrioScore.Proofs.Binary64.Range
import TrioScore.Proofs.Delivery
import TrioScore.Proofs.Meter.Pulses
import TrioScore.Proofs.Piece.Motifs

/-!
# The faults of repair

A rule of repair that converts a number is total: where the conversion could fail, the rule says
what it gives. Here the conversions are made as they are, each with its fault, and no rule meets
one: a number that is rounded is finite, a degree that is cut off is an integer, and a weight is no
more than the greatest binary64. What is left are two faults, a document that is no object and a
meter with a numeral of too many digits.
-/

namespace TrioScore

namespace Repair.Checked

/-- A number rounded within a range. A binary64 that is not finite has no nearest integer. -/
def rounded (low high : Int) : Number → Except Fault Int
  | .int n => .ok (limit low high n)
  | .real x => limit low high <$> (Number.real x).nearestInt

/-- The number that a value is or spells, rounded within a range, or else a default. -/
def roundedOr (default low high : Int) (value : Json) : Except Fault Int :=
  match number? value with
  | none => .ok default
  | some x => rounded low high x

def degree? (value : Json) : Except Fault (Option Int) :=
  match value.finite? with
  | none => .ok none
  | some (.int n) => .ok (some (limit (-20) 29 n))
  | some (.real x) =>
    if x.toRat.den = 1 then (fun n => some (limit (-20) 29 n)) <$> x.truncate else .ok none

def weight (value : Json) : Except Fault Binary64 :=
  match value.finite? with
  | none => .ok (.ofRat 1)
  | some x =>
    if x.toRat ≤ 0 then .ok (.ofRat 1)
    else if x.toRat ≤ Binary64.greatest.toRat then x.toBinary64
    else .ok .greatest

/-- The degrees one after another, each with its weight if there is one. -/
def notes : List Json → List Json → Except Fault (List Int × List Binary64)
  | [], _ => .ok ([], [])
  | value :: degrees, rhythm => do
    match ← degree? value with
    | none => notes degrees rhythm.tail
    | some d =>
      let first ← rhythm.head?.toList.mapM weight
      let (ds, ws) ← notes degrees rhythm.tail
      return (d :: ds, first ++ ws)

def motif? : Json → Except Fault (Option Motif)
  | .object fields => do
    let (degrees, rhythm) ←
      notes (items (Json.field "degrees" fields)) (items (Json.field "rhythm" fields))
    return if degrees.isEmpty then none else some ⟨degrees, rhythm⟩
  | _ => .ok none

def motifs : Json → Except Fault (List Motif)
  | .object fields => do
    let found ← (items (Json.field "motifs" fields)).mapM motif?
    return found.filterMap id
  | _ => .ok []

def sectionAt (index : Nat) (fields : List (Text × Json)) : Except Fault Section := do
  let measures ← roundedOr 8 1 256 (Json.field "measures" fields)
  let motifs ← motifs (Json.field "melody" fields)
  return { Repair.sectionAt index fields with measures := measures, motifs := motifs }

def sections (value : Json) : Except Fault (List Section) :=
  (((items value).filterMap fields?).zipIdx).mapM fun (fields, index) => sectionAt index fields

/-- A piece whose numbers are converted. -/
def piece : Json → Except Fault Piece
  | .object fields => do
    let listed ← sections (Json.field "sections" fields)
    let sections := if listed.isEmpty then [defaultSection] else listed
    let key := text "C major" (Json.field "key" fields)
    let tempo ← roundedOr 90 40 220 (Json.field "tempo" fields)
    let timeSignature ← timeSignature (Json.field "timeSignature" fields)
    return { pieceOf fields timeSignature with
      tempo := tempo, sections := Piece.closeSections key sections }
  | value => .error (.notAnObject value.kind)

theorem rounded_eq_ok {low high : ℤ} {x : Number} (hx : x.isFinite = true) :
    rounded low high x = .ok (clampRounded low high x) := by
  cases x with
  | int n => rfl
  | real x => rw [rounded, clampRounded, Number.nearestInt_of_isFinite hx, ok_map]

theorem isFinite_of_number? {value : Json} {x : Number} (h : number? value = some x) :
    x.isFinite = true := by
  unfold number? at h
  split at h
  · exact (Option.filter_eq_some_iff.mp h).2
  · exact (finite?_eq_some_iff.mp h).2

theorem roundedOr_eq_ok (default low high : ℤ) (value : Json) :
    roundedOr default low high value =
      .ok (((number? value).map (clampRounded low high)).getD default) := by
  cases hx : number? value with
  | none => simp [roundedOr, hx]
  | some x => simp [roundedOr, hx, rounded_eq_ok (isFinite_of_number? hx)]

theorem degree?_eq_ok (value : Json) : degree? value = .ok (Repair.degree? value) := by
  unfold degree? Repair.degree?
  cases hx : value.finite? with
  | none => rfl
  | some x =>
    cases x with
    | int n => simp [Number.toRat]
    | real x =>
      have htruncate := Binary64.truncate_eq_of_isFinite (finite?_eq_some_iff.mp hx).2
      by_cases hden : x.toRat.den = 1
      · simp [Number.toRat, htruncate, hden]
      · simp [Number.toRat, hden]

/-- A positive number that is no more than the greatest binary64 has one. -/
theorem toBinary64_eq_ok {x : Number} (hfin : x.isFinite = true) (hpos : 0 < x.toRat)
    (hle : x.toRat ≤ Binary64.greatest.toRat) : x.toBinary64 = .ok (.ofRat x.toRat) := by
  cases x with
  | int n =>
    have hbounds := Binary64.ofRat_bounds Binary64.isExact_zero
      (Binary64.isExact_toRat Binary64.greatest) hpos.le hle
    rw [Number.toBinary64, Binary64.ofInt_eq]
    exact if_pos hbounds.1
  | real x => exact congrArg Except.ok (Binary64.ofRat_toRat hfin hpos).symm

theorem weight_eq_ok (value : Json) : weight value = .ok (Repair.weight value) := by
  unfold weight
  cases hx : value.finite? with
  | none => rw [Repair.weight, hx]
  | some x =>
    obtain ⟨rfl, hfin⟩ := finite?_eq_some_iff.mp hx
    rw [weight_eq_beatWeight, Json.beatWeight]
    dsimp only
    by_cases hsign : x.toRat ≤ 0
    · have hnot : ¬ (x.isFinite = true ∧ 0 < x.toRat) := fun h => hsign.not_gt h.2
      rw [if_pos hsign, if_neg hnot]
    · have hpos := not_le.mp hsign
      have hkept : x.isFinite = true ∧ 0 < x.toRat := ⟨hfin, hpos⟩
      rw [if_neg hsign, if_pos hkept]
      split_ifs with hfits
      · rw [min_eq_left hfits]
        exact toBinary64_eq_ok hfin hpos hfits
      · rw [min_eq_right (not_le.mp hfits).le, Binary64.ofRat_greatest]

theorem notes_eq_ok (degrees rhythm : List Json) : notes degrees rhythm =
    .ok (degrees.filterMap Repair.degree?, weights degrees rhythm) := by
  induction degrees generalizing rhythm with
  | nil => rfl
  | cons value degrees ih =>
    rw [notes, degree?_eq_ok, ok_bind, ih, List.filterMap_cons]
    cases hvalue : Repair.degree? value with
    | none =>
      cases rhythm with
      | nil => simp [weights_nil]
      | cons r rhythm => simp [weights_cons_of_none hvalue]
    | some d =>
      cases rhythm with
      | nil => simp [weights_nil]
      | cons r rhythm =>
        simp only [List.head?_cons, Option.toList_some, List.mapM_cons, List.mapM_nil, weight_eq_ok,
          weights_cons_of_some hvalue]
        rfl

theorem motif?_eq_ok (value : Json) : motif? value = .ok (Repair.motif? value) := by
  cases value with
  | object fields =>
    rw [motif?, notes_eq_ok, ok_bind]
    rfl
  | _ => rfl

theorem motifs_eq_ok (value : Json) : motifs value = .ok (Repair.motifs value) := by
  cases value with
  | object fields =>
    rw [motifs, mapM_eq_ok (fun listed _ => motif?_eq_ok listed), ok_bind, List.filterMap_map]
    rfl
  | _ => rfl

theorem sectionAt_eq_ok (index : ℕ) (fields : List (Text × Json)) :
    sectionAt index fields = .ok (Repair.sectionAt index fields) := by
  rw [sectionAt, roundedOr_eq_ok, ok_bind, motifs_eq_ok]
  rfl

theorem sections_eq_ok (value : Json) : sections value = .ok (Repair.sections value) := by
  rw [sections, mapM_eq_ok (fun listed _ => sectionAt_eq_ok listed.2 listed.1), Repair.sections,
    List.mapIdx_eq_zipIdx_map]

theorem piece_eq_repair (document : Json) : piece document = Piece.repair document := by
  cases document with
  | object fields =>
    rw [piece, sections_eq_ok, ok_bind, roundedOr_eq_ok, ok_bind, Piece.repair_object]
    cases timeSignature (Json.field "timeSignature" fields) with
    | error fault => rfl
    | ok t => rfl
  | _ => rfl

end Repair.Checked

namespace Piece

/-- What repair makes of a document: a fault of what is no object, a fault of a numeral of the meter
with too many digits, and otherwise a piece. -/
theorem repair_cases (document : Json) :
    ((∀ fields, document ≠ .object fields) ∧
      repair document = .error (.notAnObject document.kind)) ∨
    (document.OverlongMeter ∧
      ∃ digits, 4300 < digits ∧ repair document = .error (.numeralTooLong digits)) ∨
    ((∃ fields, document = .object fields) ∧ ¬ document.OverlongMeter ∧
      ∃ piece, repair document = .ok piece) := by
  by_cases hlong : document.OverlongMeter
  · obtain ⟨digits, hdigits, hrepair, -⟩ := Delivery.faults_of_overlongMeter hlong
    exact .inr (.inl ⟨hlong, digits, hdigits, hrepair⟩)
  cases document with
  | object fields => exact .inr (.inr ⟨⟨fields, rfl⟩, hlong, exists_repair hlong⟩)
  | _ => exact .inl ⟨fun _ h => (by cases h), rfl⟩

theorem exists_label_iff {α : Type} {result : Except Fault α} {fault : Fault}
    (h : result = .error fault) (label : Text) :
    (∃ other, result = .error other ∧ other.label = label) ↔ fault.label = label := by
  subst h
  exact ⟨fun ⟨_, hfault, hlabel⟩ => Except.error.inj hfault ▸ hlabel,
    fun hlabel => ⟨_, rfl, hlabel⟩⟩

theorem repair_labels (document : Json) :
    ((∃ fault, repair document = .error fault ∧ fault.label = "TypeError") ↔
      ∀ fields, document ≠ .object fields) ∧
    ((∃ fault, repair document = .error fault ∧ fault.label = "ValueError") ↔
      document.OverlongMeter) ∧
    ((∃ piece, repair document = .ok piece) ↔
      (∃ fields, document = .object fields) ∧ ¬ document.OverlongMeter) := by
  have hapart : Text.ofString "TypeError" ≠ Text.ofString "ValueError" := by decide
  rcases repair_cases document with ⟨hother, herror⟩ | ⟨hlong, digits, -, herror⟩ |
    ⟨⟨fields, rfl⟩, hlong, piece, hok⟩
  · have hnot : ¬ document.OverlongMeter := fun ⟨fields, _, h, _⟩ => hother fields h
    rw [exists_label_iff herror, exists_label_iff herror, herror]
    refine ⟨iff_of_true rfl hother, iff_of_false hapart hnot, iff_of_false ?_ ?_⟩
    · rintro ⟨_, ⟨⟩⟩
    · exact fun ⟨⟨fields, h⟩, _⟩ => hother fields h
  · obtain ⟨fields, -, hobject, -⟩ := id hlong
    rw [exists_label_iff herror, exists_label_iff herror, herror]
    refine ⟨iff_of_false hapart.symm fun hother => hother fields hobject, iff_of_true rfl hlong,
      iff_of_false ?_ fun hgood => hgood.2 hlong⟩
    rintro ⟨_, ⟨⟩⟩
  · rw [hok]
    refine ⟨iff_of_false ?_ fun hother => hother fields rfl, iff_of_false ?_ hlong,
      iff_of_true ⟨piece, rfl⟩ ⟨⟨fields, rfl⟩, hlong⟩⟩
    · rintro ⟨_, ⟨⟩, -⟩
    · rintro ⟨_, ⟨⟩, -⟩

/-- The conversions of repair meet no fault. A document that is no object is the one TypeError, and
an object whose meter is written with a numeral of more than 4300 digits is the one ValueError.
Every other document gives a piece. The document of a piece is an object and has the meter of the
piece. -/
theorem repair_faults :
    (∀ document, Repair.Checked.piece document = repair document ∧
      ((∃ fault, repair document = .error fault ∧ fault.label = "TypeError") ↔
        ∀ fields, document ≠ .object fields) ∧
      ((∃ fault, repair document = .error fault ∧ fault.label = "ValueError") ↔
        document.OverlongMeter) ∧
      ((∃ piece, repair document = .ok piece) ↔
        (∃ fields, document = .object fields) ∧ ¬ document.OverlongMeter)) ∧
    ∀ given : Piece,
      (¬ ∃ fault, repair given.toJson = .error fault ∧ fault.label = "TypeError") ∧
      ((∃ fault, repair given.toJson = .error fault ∧ fault.label = "ValueError") ↔
        Meter.Overlong given.timeSignature) ∧
      ((∃ piece, repair given.toJson = .ok piece) ↔ ¬ Meter.Overlong given.timeSignature) := by
  refine ⟨fun document => ⟨Repair.Checked.piece_eq_repair document, repair_labels document⟩,
    fun given => ?_⟩
  obtain ⟨htype, hvalue, hok⟩ := repair_labels given.toJson
  rw [htype, hvalue, hok, overlongMeter_toJson]
  exact ⟨fun hother => hother _ rfl, Iff.rfl, and_iff_right ⟨_, rfl⟩⟩

end Piece
end TrioScore
