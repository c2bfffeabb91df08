import TrioScore.Proofs.NoteLength.Nearest

/-!
# The ladder of note lengths

The length chosen for a positive finite time is the one nearest to the exact value of the time, the
longer one at a tie. Being nearest means lying on the right side of the middle between the length
and every other, and in that form one length follows from a time, longer lengths follow from longer
times, and a length is nearest to itself. The names have thresholds of their own; these are the
middles of neighbouring lengths, so every length gets its name.
-/

namespace TrioScore.NoteLength
open Binary64

/-- No length is nearer to the time, and none that is equally near is longer. -/
structure IsNearest (time : ℚ) (length : NoteLength) : Prop where
  least : ∀ other : NoteLength, |time - length.quarters| ≤ |time - other.quarters|
  longest : ∀ other : NoteLength,
    |time - other.quarters| = |time - length.quarters| → other.quarters ≤ length.quarters

/-- A time to which two lengths are nearest. -/
def IsTied (time : ℚ) : Prop :=
  ∃ long short : NoteLength, short.quarters < long.quarters ∧ IsNearest time long ∧
    |time - short.quarters| = |time - long.quarters|

theorem quarters_injective {first second : NoteLength} (h : first.quarters = second.quarters) :
    first = second := by
  cases first <;> cases second <;> first | rfl | norm_num [quarters, sixteenths] at h

/-- The longer of two lengths is at least as near from the middle on. -/
theorem abs_sub_le_abs_sub_iff {time short long : ℚ} (h : short < long) :
    |time - long| ≤ |time - short| ↔ long + short ≤ 2 * time := by
  rw [← sq_le_sq]
  constructor
  · intro hsq
    nlinarith
  · intro hmiddle
    nlinarith

theorem isNearest_iff {time : ℚ} {length : NoteLength} : IsNearest time length ↔
    (∀ other : NoteLength, other.quarters < length.quarters →
      length.quarters + other.quarters ≤ 2 * time) ∧
    ∀ other : NoteLength, length.quarters < other.quarters →
      2 * time < length.quarters + other.quarters := by
  constructor
  · intro h
    constructor
    · intro other hlt
      exact (abs_sub_le_abs_sub_iff hlt).mp (h.least other)
    · intro other hlt
      by_contra hmiddle
      -- past the middle the longer one would be as near, and it is not among those
      have hnear : |time - other.quarters| ≤ |time - length.quarters| := by
        apply (abs_sub_le_abs_sub_iff hlt).mpr
        linarith
      have hle := h.longest other (le_antisymm hnear (h.least other))
      linarith
  · intro h
    constructor
    · intro other
      rcases lt_trichotomy other.quarters length.quarters with hlt | heq | hgt
      · exact (abs_sub_le_abs_sub_iff hlt).mpr (h.1 other hlt)
      · rw [heq]
      · have hmiddle := h.2 other hgt
        apply le_of_not_ge
        intro hnear
        have := (abs_sub_le_abs_sub_iff hgt).mp hnear
        linarith
    · intro other heq
      by_contra hlong
      have hgt : length.quarters < other.quarters := lt_of_not_ge hlong
      have hmiddle := h.2 other hgt
      have := (abs_sub_le_abs_sub_iff hgt).mp heq.le
      linarith

/-- Of two times the longer one has the longer nearest length. -/
theorem IsNearest.mono {first second : ℚ} {short long : NoteLength} (hle : first ≤ second)
    (hshort : IsNearest first short) (hlong : IsNearest second long) :
    short.quarters ≤ long.quarters := by
  by_contra h
  have hlt : long.quarters < short.quarters := lt_of_not_ge h
  have hbelow := (isNearest_iff.mp hshort).1 long hlt
  have habove := (isNearest_iff.mp hlong).2 short hlt
  linarith

theorem IsNearest.unique {time : ℚ} {first second : NoteLength} (h₁ : IsNearest time first)
    (h₂ : IsNearest time second) : first = second := by
  apply quarters_injective
  apply le_antisymm
  · exact h₁.mono le_rfl h₂
  · exact h₂.mono le_rfl h₁

theorem isNearest_quarters (length : NoteLength) : IsNearest length.quarters length := by
  apply isNearest_iff.mpr
  constructor
  · intro other hlt
    linarith
  · intro other hlt
    linarith

section Doubles
variable {short long : NoteLength}

theorem two_mul_quarters_le (h : short.quarters < long.quarters) :
    2 * short.quarters ≤ long.quarters := by
  revert h
  cases short <;> cases long <;> norm_num [quarters, sixteenths]

theorem exists_half (h : short.quarters < long.quarters) :
    ∃ middle : NoteLength, long.quarters = 2 * middle.quarters := by
  cases long with
  | whole => exact ⟨half, by norm_num [quarters, sixteenths]⟩
  | half => exact ⟨quarter, by norm_num [quarters, sixteenths]⟩
  | quarter => exact ⟨eighth, by norm_num [quarters, sixteenths]⟩
  | eighth => exact ⟨sixteenth, by norm_num [quarters, sixteenths]⟩
  | sixteenth => cases short <;> norm_num [quarters, sixteenths] at h

end Doubles

/-- The times from three quarters of a length up to one and a half of it. The whole note has no
upper bound, and the sixteenth no lower one. -/
theorem isNearest_of_bounds {time : ℚ} {length : NoteLength}
    (hlow : length = sixteenth ∨ 3 * length.quarters ≤ 4 * time)
    (hhigh : length = whole ∨ 2 * time < 3 * length.quarters) : IsNearest time length := by
  apply isNearest_iff.mpr
  constructor
  · intro other hlt
    have hdouble := two_mul_quarters_le hlt
    rcases hlow with rfl | hlow
    · cases other <;> norm_num [quarters, sixteenths] at hlt
    · linarith
  · intro other hlt
    have hdouble := two_mul_quarters_le hlt
    rcases hhigh with rfl | hhigh
    · cases other <;> norm_num [quarters, sixteenths] at hlt
    · linarith

theorem isNearest_nearest {time : Binary64} (hf : time.isFinite = true) (h₀ : 0 < time.toRat) :
    IsNearest time.toRat (nearest time) := by
  rw [nearest_eq hf h₀]
  have hlow : ∀ length : NoteLength, 3 / 4 * length.quarters ≤ time.toRat →
      length = sixteenth ∨ 3 * length.quarters ≤ 4 * time.toRat := by
    intro length h
    right
    linarith
  have hhigh : ∀ length : NoteLength, ¬ 3 / 2 * length.quarters ≤ time.toRat →
      length = whole ∨ 2 * time.toRat < 3 * length.quarters := by
    intro length h
    right
    linarith
  simp only [quarters] at hlow hhigh
  split_ifs with h₁ h₂ h₃ h₄
  · exact isNearest_of_bounds (hlow whole (by norm_num [sixteenths, h₁])) (.inl rfl)
  · exact isNearest_of_bounds (hlow half (by norm_num [sixteenths, h₂]))
      (hhigh half (by norm_num [sixteenths, not_le.mp h₁]))
  · exact isNearest_of_bounds (hlow quarter (by norm_num [sixteenths, h₃]))
      (hhigh quarter (by norm_num [sixteenths, not_le.mp h₂]))
  · exact isNearest_of_bounds (hlow eighth (by norm_num [sixteenths, h₄]))
      (hhigh eighth (by norm_num [sixteenths, not_le.mp h₃]))
  · exact isNearest_of_bounds (.inl rfl)
      (hhigh sixteenth (by norm_num [sixteenths, not_le.mp h₄]))

theorem isTied_of_double {time : ℚ} (long short : NoteLength)
    (hdouble : long.quarters = 2 * short.quarters) (htime : time = 3 / 2 * short.quarters) :
    IsTied time := by
  have hpos := short.quarters_pos
  refine ⟨long, short, by linarith, ?_, ?_⟩
  · apply isNearest_of_bounds
    · right
      linarith
    · right
      linarith
  · rw [hdouble, htime, abs_eq_abs]
    right
    ring

/-- The two lengths of a tie are a length and its double, and the time is the middle between
them. -/
theorem isTied_iff {time : ℚ} :
    IsTied time ↔ time = 3 ∨ time = 3 / 2 ∨ time = 3 / 4 ∨ time = 3 / 8 := by
  constructor
  · rintro ⟨long, short, hlt, hnear, heq⟩
    obtain ⟨middle, hhalf⟩ := exists_half hlt
    have hdouble := two_mul_quarters_le hlt
    have hpos := middle.quarters_pos
    have hle := (isNearest_iff.mp hnear).1 short hlt
    have hbetween := (isNearest_iff.mp hnear).1 middle (by linarith)
    have hsquare := sq_eq_sq_iff_abs_eq_abs _ _ |>.mpr heq
    have hmiddle : long.quarters + short.quarters = 2 * time := by
      nlinarith
    have htime : time = 3 / 2 * short.quarters := by
      linarith
    rw [htime]
    cases short with
    | whole => cases long <;> norm_num [quarters, sixteenths] at hlt
    | _ => norm_num [quarters, sixteenths]
  · rintro (rfl | rfl | rfl | rfl)
    · apply isTied_of_double whole half <;> norm_num [quarters, sixteenths]
    · apply isTied_of_double half quarter <;> norm_num [quarters, sixteenths]
    · apply isTied_of_double quarter eighth <;> norm_num [quarters, sixteenths]
    · apply isTied_of_double eighth sixteenth <;> norm_num [quarters, sixteenths]

theorem not_beats_less {length : NoteLength} {q : ℚ} (h : IsExact q) :
    (!length.beats.less (ofRat q)) = decide (q ≤ length.quarters) := by
  rw [less_eq_of_isFinite length.isFinite_beats (isFinite_ofRat h), toRat_beats, toRat_ofRat h,
    ← decide_not]
  exact decide_eq_decide.mpr not_lt

theorem label_eq (length : NoteLength) : length.label =
    if 3 ≤ length.quarters then "whole"
    else if 3 / 2 ≤ length.quarters then "half"
    else if 3 / 4 ≤ length.quarters then "quarter"
    else if 3 / 8 ≤ length.quarters then "eighth"
    else "sixteenth" := by
  have hfind : ∀ k ≤ 3, (!length.beats.less (ofRat (3 / 2 ^ k))) =
      decide (3 / 2 ^ k ≤ length.quarters) := by
    intro k hk
    apply not_beats_less
    exact isExact_div_two_pow (m := 3) (by decide) (by omega)
  have hwhole := hfind 0 (by decide)
  have hhalf := hfind 1 (by decide)
  have hquarter := hfind 2 (by decide)
  have heighth := hfind 3 (by decide)
  norm_num only at hwhole hhalf hquarter heighth
  have hlabel : length.label = ((names.find? fun entry =>
      !length.beats.less entry.1).map (·.2)).getD "sixteenth" := rfl
  rw [hlabel]
  norm_num only [names, Rat.mkRat_eq_div, List.find?_cons, hwhole, hhalf, hquarter, heighth]
  split_ifs with h₁ h₂ h₃ h₄
  · simp only [h₁, decide_true, Option.map_some, Option.getD_some]
  · simp only [h₁, h₂, decide_true, decide_false, Option.map_some, Option.getD_some]
  · simp only [h₁, h₂, h₃, decide_true, decide_false, Option.map_some, Option.getD_some]
  · simp only [h₁, h₂, h₃, h₄, decide_true, decide_false, Option.map_some, Option.getD_some]
  · simp only [h₁, h₂, h₃, h₄, decide_false, List.find?_nil, Option.map_none, Option.getD_none]

theorem nearest_eq_iff {time : Binary64} (hf : time.isFinite = true) (h₀ : 0 < time.toRat)
    {length : NoteLength} : nearest time = length ↔ IsNearest time.toRat length := by
  constructor
  · intro h
    rw [← h]
    exact isNearest_nearest hf h₀
  · intro h
    exact (isNearest_nearest hf h₀).unique h

theorem nearest_of_not_positive {time : Binary64}
    (h : ¬ (time.isFinite = true ∧ 0 < time.toRat)) : nearest time = sixteenth := by
  cases hf : time.isFinite with
  | false => simp only [nearest, hf, Bool.false_and, Bool.false_eq_true, if_false]
  | true =>
    apply nearest_of_nonpos hf
    apply le_of_not_gt
    intro h₀
    exact h ⟨hf, h₀⟩

@[simp] theorem nearest_beats (length : NoteLength) : nearest length.beats = length := by
  apply (nearest_eq_iff length.isFinite_beats ?_).mpr
  · rw [toRat_beats]
    exact length.isNearest_quarters
  · rw [toRat_beats]
    exact length.quarters_pos

theorem mem_ladder (length : NoteLength) : (length.quarters, length.label) ∈
    [((4 : ℚ), "whole"), (2, "half"), (1, "quarter"), (1 / 2, "eighth"), (1 / 4, "sixteenth")] := by
  cases length <;> norm_num [label_eq, quarters, sixteenths]

/-- A positive finite time goes to the length nearest to its exact value, and any other time to the
sixteenth. Longer times do not go to shorter lengths, a length goes to itself, and the name is that
of the length chosen. -/
theorem nearest_on_ladder :
    (∀ time : Binary64, ofNumber (some (.real time)) = .ok (nearest time)) ∧
    (∀ time : Binary64, time.isFinite = true → 0 < time.toRat →
      ∀ length, nearest time = length ↔ IsNearest time.toRat length) ∧
    (∀ time : ℚ, IsTied time ↔ time = 3 ∨ time = 3 / 2 ∨ time = 3 / 4 ∨ time = 3 / 8) ∧
    (∀ time : Binary64, ¬ (time.isFinite = true ∧ 0 < time.toRat) → nearest time = sixteenth) ∧
    (∀ first second : Binary64, first.isFinite = true → second.isFinite = true →
      0 < first.toRat → first.toRat ≤ second.toRat →
      (nearest first).quarters ≤ (nearest second).quarters) ∧
    (∀ time : Binary64, nearest (nearest time).beats = nearest time) ∧
    ∀ length : NoteLength, length.beats.isFinite = true ∧ length.beats.toRat = length.quarters ∧
      (length.quarters, length.label) ∈ [((4 : ℚ), "whole"), (2, "half"), (1, "quarter"),
        (1 / 2, "eighth"), (1 / 4, "sixteenth")] := by
  refine ⟨fun time => rfl, ?_, fun time => isTied_iff, ?_, ?_, ?_, ?_⟩
  · intro time hf h₀ length
    exact nearest_eq_iff hf h₀
  · intro time h
    exact nearest_of_not_positive h
  · intro first second hf hs h₀ hle
    exact (isNearest_nearest hf h₀).mono hle (isNearest_nearest hs (h₀.trans_le hle))
  · intro time
    exact nearest_beats _
  · intro length
    exact ⟨length.isFinite_beats, length.toRat_beats, length.mem_ladder⟩

theorem nearest_of_three_eighths : (ofRat (3 / 8)).isFinite = true ∧ 0 < (ofRat (3 / 8)).toRat ∧
    IsTied (ofRat (3 / 8)).toRat ∧ nearest (ofRat (3 / 8)) = eighth := by
  have hexact : IsExact (3 / 8) := by
    have h := isExact_div_two_pow (m := 3) (k := 3) (by decide) (by decide)
    norm_num at h
    exact h
  have hvalue := toRat_ofRat hexact
  have hfinite := isFinite_ofRat hexact
  have hpos : 0 < (ofRat (3 / 8)).toRat := by
    rw [hvalue]
    norm_num
  refine ⟨hfinite, hpos, ?_, ?_⟩
  · apply (nearest_on_ladder.2.2.1 _).mpr
    rw [hvalue]
    norm_num
  · apply (nearest_on_ladder.2.1 _ hfinite hpos eighth).mpr
    rw [hvalue]
    apply isNearest_of_bounds
    · norm_num [quarters, sixteenths]
    · norm_num [quarters, sixteenths]

end TrioScore.NoteLength
