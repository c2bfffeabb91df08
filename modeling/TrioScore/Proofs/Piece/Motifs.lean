import Mathlib.Data.List.Forall2
import Mathlib.Data.List.Sort
import TrioScore.Proofs.Piece.Defaults

/-!
# Motifs keep their weights

Repair drops the degrees of a motif that are no integers, each with its weight, and the melody reads
the weights that are left by their place. No weight moves to another degree on the way: the places
that are kept and have a weight come before those that have none.
-/

namespace TrioScore

namespace Json

/-- The value is a number that is an integer, however it is written. -/
def IsInteger (value : Json) (n : ℤ) : Prop :=
  ∃ x, value = .number x ∧ x.isFinite = true ∧ x.toRat = n

/-- What an item of a rhythm weighs: a positive number counts as the nearest binary64, no more than
the greatest. Anything else counts as 1, and so does an item that is missing. -/
def beatWeight : Option Json → Binary64
  | some (.number x) =>
    if x.isFinite = true ∧ 0 < x.toRat then .ofRat (min x.toRat Binary64.greatest.toRat)
    else .ofRat 1
  | _ => .ofRat 1

/-- The value has a degree that can be played. -/
def HasDegree (value : Json) : Prop :=
  ∃ fields degrees, value = .object fields ∧ field "degrees" fields = .array degrees ∧
    ∃ degree ∈ degrees, ∃ n, degree.IsInteger n

end Json

/-- The places of a list that have a property, in order. -/
structure ArePlaces (p : ℕ → Prop) (places : List ℕ) : Prop where
  ascending : places.Pairwise (· < ·)
  mem_iff : ∀ place, place ∈ places ↔ p place

/-- A property has its places in one order only. -/
theorem ArePlaces.eq {p : ℕ → Prop} {l₁ l₂ : List ℕ} (h₁ : ArePlaces p l₁) (h₂ : ArePlaces p l₂) :
    l₁ = l₂ :=
  h₁.ascending.eq_of_mem_iff h₂.ascending fun place =>
    (h₁.mem_iff place).trans (h₂.mem_iff place).symm

section Kept
variable {α β : Type} (f : α → Option β)

/-- The places of the items that a filter keeps. -/
def keptPlaces (l : List α) : List ℕ := l.findIdxs fun a => (f a).isSome

theorem keptPlaces_cons (a : α) (l : List α) : keptPlaces f (a :: l) =
    if (f a).isSome then 0 :: (keptPlaces f l).map (· + 1)
    else (keptPlaces f l).map (· + 1) := by
  simp only [keptPlaces, List.findIdxs_cons, Nat.zero_add]
  rw [List.findIdxs_start]

theorem arePlaces_keptPlaces (l : List α) :
    ArePlaces (fun place => ∃ a ∈ l[place]?, ∃ b, f a = some b) (keptPlaces f l) where
  ascending := List.pairwise_findIdxs
  mem_iff place := by
    simp only [keptPlaces, List.mem_findIdxs_iff_exists_getElem_pos, Option.isSome_iff_exists,
      Option.mem_def, List.getElem?_eq_some_iff]
    constructor
    · rintro ⟨hplace, hkept⟩
      exact ⟨l[place], ⟨hplace, rfl⟩, hkept⟩
    · rintro ⟨a, ⟨hplace, rfl⟩, hkept⟩
      exact ⟨hplace, hkept⟩

theorem forall₂_keptPlaces (l : List α) :
    List.Forall₂ (fun place b => ∃ a ∈ l[place]?, f a = some b) (keptPlaces f l)
      (l.filterMap f) := by
  induction l with
  | nil => exact .nil
  | cons a l ih =>
    have hrest : List.Forall₂ (fun place b => ∃ c ∈ (a :: l)[place]?, f c = some b)
        ((keptPlaces f l).map (· + 1)) (l.filterMap f) :=
      List.forall₂_map_left_iff.mpr ih
    rw [keptPlaces_cons, List.filterMap_cons]
    cases hf : f a with
    | none => exact hrest
    | some b => exact .cons ⟨a, rfl, hf⟩ hrest

end Kept

namespace Repair

theorem finite?_eq_some_iff {value : Json} {x : Number} :
    value.finite? = some x ↔ value = .number x ∧ x.isFinite = true := by
  cases value with
  | number y =>
    simp only [Json.finite?, Option.ite_none_right_eq_some, Option.some.injEq, Json.number.injEq]
    constructor
    · rintro ⟨hy, rfl⟩
      exact ⟨rfl, hy⟩
    · rintro ⟨rfl, hx⟩
      exact ⟨hx, rfl⟩
  | _ => simp [Json.finite?]

theorem degree?_eq_some_iff {value : Json} {d : ℤ} :
    degree? value = some d ↔ ∃ n, value.IsInteger n ∧ d = limit (-20) 29 n := by
  constructor
  · intro h
    simp only [degree?, Option.bind_eq_bind, Option.bind_eq_some_iff,
      Option.ite_none_right_eq_some, Option.some.injEq] at h
    obtain ⟨x, hx, hden, rfl⟩ := h
    obtain ⟨hvalue, hfin⟩ := finite?_eq_some_iff.mp hx
    exact ⟨x.toRat.num, ⟨x, hvalue, hfin, (Rat.den_eq_one_iff _).mp hden |>.symm⟩, rfl⟩
  · rintro ⟨n, ⟨x, hvalue, hfin, hn⟩, rfl⟩
    rw [degree?, finite?_eq_some_iff.mpr ⟨hvalue, hfin⟩]
    simp [hn]

theorem weight_eq_beatWeight (value : Json) : weight value = Json.beatWeight (some value) := by
  cases value with
  | number x =>
    rw [weight, Json.finite?, Json.beatWeight]
    by_cases hfin : x.isFinite = true
    · simp only [hfin, if_true, true_and]
      by_cases hpos : x.toRat ≤ 0
      · rw [if_pos hpos, if_neg hpos.not_gt]
      · rw [if_neg hpos, if_pos (not_le.mp hpos)]
        split_ifs with hlarge
        · rw [min_eq_right hlarge, Binary64.ofRat_greatest]
        · rw [min_eq_left (not_le.mp hlarge).le]
    · simp [hfin]
  | _ => rfl

theorem usableWeight_weight (value : Json) :
    Measure.usableWeight (some (weight value)) = Json.beatWeight (some value) := by
  obtain ⟨hfin, hpos⟩ := weight_pos value
  rw [Measure.usableWeight_of_pos hfin hpos, weight_eq_beatWeight]

theorem weights_nil (degrees : List Json) : weights degrees [] = [] := by
  simp [weights]

theorem weights_cons_of_none {value : Json} (h : degree? value = none) (r : Json)
    (degrees rhythm : List Json) :
    weights (value :: degrees) (r :: rhythm) = weights degrees rhythm := by
  simp [weights, h]

theorem weights_cons_of_some {value : Json} {d : ℤ} (h : degree? value = some d) (r : Json)
    (degrees rhythm : List Json) :
    weights (value :: degrees) (r :: rhythm) = weight r :: weights degrees rhythm := by
  simp [weights, h]

/-- The weights that are left are read by their place among the degrees that are left, and each is
the one that was given with its degree. -/
theorem mapIdx_weights (degrees rhythm : List Json) :
    (degrees.filterMap degree?).mapIdx
        (fun j _ => Measure.usableWeight (weights degrees rhythm)[j]?) =
      (keptPlaces degree? degrees).map fun place => Json.beatWeight rhythm[place]? := by
  induction degrees generalizing rhythm with
  | nil => rfl
  | cons value degrees ih =>
    rw [keptPlaces_cons, List.filterMap_cons]
    cases rhythm with
    | nil =>
      have h := ih []
      rw [weights_nil] at h ⊢
      cases hvalue : degree? value with
      | none => simpa [Function.comp_def] using h
      | some d => simpa [Function.comp_def, List.mapIdx_cons] using ⟨rfl, by simpa using h⟩
    | cons r rhythm =>
      have h := ih rhythm
      cases hvalue : degree? value with
      | none =>
        rw [weights_cons_of_none hvalue]
        simpa [Function.comp_def] using h
      | some d =>
        rw [weights_cons_of_some hvalue]
        simpa [Function.comp_def, List.mapIdx_cons] using ⟨usableWeight_weight r, h⟩

theorem exists_degree?_iff {value : Json} :
    (∃ d, degree? value = some d) ↔ ∃ n, value.IsInteger n := by
  simp only [degree?_eq_some_iff]
  exact ⟨fun ⟨_, n, hn, _⟩ => ⟨n, hn⟩, fun ⟨n, hn⟩ => ⟨_, n, hn, rfl⟩⟩

theorem arePlaces_degrees (degrees : List Json) :
    ArePlaces (fun place => ∃ value ∈ degrees[place]?, ∃ n, value.IsInteger n)
      (keptPlaces degree? degrees) := by
  have hplaces := arePlaces_keptPlaces degree? degrees
  simpa only [exists_degree?_iff] using hplaces

theorem motif?_object (fields : List (Text × Json)) {degrees : List Json}
    (h : Json.field "degrees" fields = .array degrees) : motif? (.object fields) =
      if degrees.filterMap degree? = [] then none
      else some ⟨degrees.filterMap degree?,
        weights degrees (items (Json.field "rhythm" fields))⟩ := by
  simp only [motif?, h, items, List.isEmpty_iff]

theorem exists_motif?_iff {value : Json} : (∃ m, motif? value = some m) ↔ value.HasDegree := by
  constructor
  · rintro ⟨m, hm⟩
    cases value with
    | object fields =>
      cases hdegrees : Json.field "degrees" fields with
      | array degrees =>
        rw [motif?_object fields hdegrees] at hm
        split_ifs at hm with hempty
        obtain ⟨d, hd⟩ := List.exists_mem_of_ne_nil _ hempty
        obtain ⟨degree, hmem, hdegree⟩ := List.mem_filterMap.mp hd
        exact ⟨fields, degrees, rfl, hdegrees, degree, hmem, exists_degree?_iff.mp ⟨d, hdegree⟩⟩
      | _ => simp [motif?, hdegrees, items] at hm
    | _ => simp [motif?] at hm
  · rintro ⟨fields, degrees, rfl, hdegrees, degree, hmem, n, hn⟩
    have hne : degrees.filterMap degree? ≠ [] := by
      obtain ⟨d, hd⟩ := exists_degree?_iff.mpr ⟨n, hn⟩
      exact List.ne_nil_of_mem (List.mem_filterMap.mpr ⟨degree, hmem, hd⟩)
    rw [motif?_object fields hdegrees, if_neg hne]
    exact ⟨_, rfl⟩

theorem arePlaces_motifs (listed : List Json) :
    ArePlaces (fun place => ∃ value ∈ listed[place]?, value.HasDegree)
      (keptPlaces motif? listed) := by
  have hplaces := arePlaces_keptPlaces motif? listed
  simpa only [exists_motif?_iff] using hplaces

/-- The degrees of a motif that are integers are kept in order, each with the weight at its place,
and the melody plays each with that weight. The motifs of a section that have such a degree are kept
in order. -/
theorem weights_keep_their_degrees :
    (∀ (fields : List (Text × Json)) (degrees : List Json),
      Json.field "degrees" fields = .array degrees →
      ∃ places : List ℕ,
        ArePlaces (fun place => ∃ value ∈ degrees[place]?, ∃ n, value.IsInteger n) places ∧
        (places = [] → motif? (.object fields) = none) ∧
        (places ≠ [] → ∃ m, motif? (.object fields) = some m ∧
          List.Forall₂ (fun place d => ∃ value ∈ degrees[place]?,
            ∃ n, value.IsInteger n ∧ d = limit (-20) 29 n) places m.degrees ∧
          Measure.weights m = places.map fun place =>
            Json.beatWeight (items (Json.field "rhythm" fields))[place]?)) ∧
    ∀ (index : ℕ) (fields melody : List (Text × Json)) (listed : List Json),
      Json.field "melody" fields = .object melody → Json.field "motifs" melody = .array listed →
      ∃ places : List ℕ,
        ArePlaces (fun place => ∃ value ∈ listed[place]?, value.HasDegree) places ∧
        List.Forall₂ (fun place m => ∃ value ∈ listed[place]?, motif? value = some m) places
          (sectionAt index fields).motifs := by
  refine ⟨fun fields degrees hdegrees => ?_, fun index fields melody listed hmelody hlisted => ?_⟩
  · have hplaces := arePlaces_degrees degrees
    have hkept := forall₂_keptPlaces degree? degrees
    have hempty : degrees.filterMap degree? = [] ↔ keptPlaces degree? degrees = [] := by
      rw [← List.length_eq_zero_iff, ← List.length_eq_zero_iff, hkept.length_eq]
    simp only [degree?_eq_some_iff] at hkept
    rw [motif?_object fields hdegrees]
    refine ⟨_, hplaces, fun h => if_pos (hempty.mpr h), fun h => ?_⟩
    exact ⟨_, if_neg (hempty.not.mpr h), hkept, mapIdx_weights degrees _⟩
  · have hmotifs : (sectionAt index fields).motifs = listed.filterMap motif? := by
      simp only [sectionAt, hmelody, motifs, hlisted, items]
    rw [hmotifs]
    exact ⟨_, arePlaces_motifs listed, forall₂_keptPlaces motif? listed⟩

def mixedDegrees : List Json :=
  [.ofInt 1, .text "x", .ofInt 5, .ofBinary64 (.ofRat (mkRat 5 2)), .ofInt 30]

def mixedMotif : List (Text × Json) :=
  [("degrees", .array mixedDegrees), ("rhythm", .array [.ofInt 1, .ofInt 3, .ofInt 2, .ofInt 4])]

def mixedMelody : List (Text × Json) := [("motifs", .array [.null, .object mixedMotif, .object []])]

theorem weights_keep_their_degrees_mixed :
    ∃ m, motif? (.object mixedMotif) = some m ∧ m.degrees.length = 3 ∧
      Measure.weights m = [.ofRat 1, .ofRat 2, .ofRat 1] ∧
      (sectionAt 0 [("melody", .object mixedMelody)]).motifs = [m] := by
  obtain ⟨places, hplaces, -, hkept⟩ := weights_keep_their_degrees.1 mixedMotif mixedDegrees rfl
  obtain rfl : places = [0, 2, 4] :=
    (hplaces.eq (arePlaces_degrees mixedDegrees)).trans (by decide +kernel)
  obtain ⟨m, hm, hdegrees, hweights⟩ := hkept (List.cons_ne_nil 0 [2, 4])
  obtain ⟨places, hplaces, hmotifs⟩ :=
    weights_keep_their_degrees.2 0 [("melody", .object mixedMelody)] mixedMelody _ rfl rfl
  obtain rfl : places = [1] := (hplaces.eq (arePlaces_motifs _)).trans (by decide +kernel)
  refine ⟨m, hm, hdegrees.length_eq.symm, hweights.trans (by decide +kernel), ?_⟩
  obtain ⟨_, _, ⟨_, hvalue, hfound⟩, hnil, hmotifs⟩ :=
    List.forall₂_cons_left_iff.mp hmotifs
  obtain rfl := Option.some.inj hvalue
  rw [hmotifs, List.forall₂_nil_left_iff.mp hnil, Option.some.inj (hfound.symm.trans hm)]

end Repair
end TrioScore
