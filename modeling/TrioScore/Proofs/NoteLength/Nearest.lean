import TrioScore.Proofs.Binary64.Difference

/-!
# Nearest note lengths

The rounded distances decide between two lengths as the exact ones do: on the longer side of the
middle the order is kept by rounding, and on the shorter side it stays strict, near the middle
because both differences are exact there. So every length has its interval of times.
-/

namespace TrioScore.NoteLength
open Binary64

def quarters (length : NoteLength) : ℚ := length.sixteenths / 4

theorem quarters_pos (length : NoteLength) : 0 < length.quarters := by
  cases length <;> norm_num [quarters, sixteenths]

theorem quarters_eq_zpow (length : NoteLength) :
    ∃ k : ℤ, length.quarters = 2 ^ k ∧ -2 ≤ k ∧ k ≤ 2 := by
  cases length
  · exact ⟨2, by norm_num [quarters, sixteenths], by decide, by decide⟩
  · exact ⟨1, by norm_num [quarters, sixteenths], by decide, by decide⟩
  · exact ⟨0, by norm_num [quarters, sixteenths], by decide, by decide⟩
  · exact ⟨-1, by norm_num [quarters, sixteenths], by decide, by decide⟩
  · exact ⟨-2, by norm_num [quarters, sixteenths], by decide, by decide⟩

theorem isExact_quarters (length : NoteLength) : IsExact length.quarters := by
  obtain ⟨k, hk, h₁, h₂⟩ := length.quarters_eq_zpow
  simpa [hk] using isExact_dyadic (m := 1) (e := k) (by decide) (by omega) (by omega)

theorem beats_eq (length : NoteLength) : length.beats = ofRat length.quarters := by
  rw [beats, quarters, Rat.mkRat_eq_div]
  rfl

theorem isFinite_beats (length : NoteLength) : length.beats.isFinite = true := by
  rw [beats_eq]
  exact isFinite_ofRat length.isExact_quarters

theorem toRat_beats (length : NoteLength) : length.beats.toRat = length.quarters := by
  rw [beats_eq]
  exact toRat_ofRat length.isExact_quarters

theorem zero_less_eq {time : Binary64} (hf : time.isFinite = true) :
    (zero false).less time = decide (0 < time.toRat) := by
  rw [less_eq_of_isFinite rfl hf, toRat_zero]

theorem nearest_of_nonpos {time : Binary64} (hf : time.isFinite = true) (h : time.toRat ≤ 0) :
    nearest time = sixteenth := by
  have hless : (zero false).less time = false := by
    rw [zero_less_eq hf]
    exact decide_eq_false h.not_gt
  simp [nearest, hless]

section Nearer
variable {time : Binary64} (hf : time.isFinite = true) (h₀ : 0 < time.toRat)
include hf h₀

/-- The nearer of two lengths by the ranks of the exact distances. -/
theorem nearer_eq (first second : NoteLength) : nearer time first second =
    if rankAt |time.toRat - second.quarters| < rankAt |time.toRat - first.quarters| then second
    else first := by
  have hdistance : ∀ length : NoteLength, ∃ h : rankAt |time.toRat - length.quarters| < rankCount,
      length.distance time = finite false ⟨rankAt |time.toRat - length.quarters|, h⟩ := by
    intro length
    have hpos : 0 < length.beats.toRat := by
      rw [toRat_beats]
      exact length.quarters_pos
    have h := abs_sub_eq hf length.isFinite_beats h₀ hpos
    rwa [toRat_beats] at h
  obtain ⟨h₁, hd₁⟩ := hdistance first
  obtain ⟨h₂, hd₂⟩ := hdistance second
  have hless : (second.distance time).less (first.distance time) = decide
      (rankAt |time.toRat - second.quarters| < rankAt |time.toRat - first.quarters|) := by
    rw [hd₁, hd₂]
    exact decide_eq_decide.mpr magnitude_strictMono.lt_iff_lt
  simp only [nearer, hless, decide_eq_true_eq]

/-- From the middle on the longer length stays. -/
theorem nearer_eq_first {first second : NoteLength} (hlt : second.quarters ≤ first.quarters)
    (h : first.quarters + second.quarters ≤ 2 * time.toRat) : nearer time first second = first := by
  rw [nearer_eq hf h₀, if_neg]
  refine not_lt.mpr (rankAt_mono ?_)
  have hpos : 0 ≤ time.toRat - second.quarters := by linarith
  rw [abs_of_nonneg hpos]
  exact abs_le.mpr ⟨by linarith, by linarith⟩

/-- Below the middle of a length and its double the shorter one is taken. -/
theorem nearer_eq_second {first second : NoteLength} (hd : first.quarters = 2 * second.quarters)
    (h : 2 * time.toRat < 3 * second.quarters) : nearer time first second = second := by
  have hs := second.quarters_pos
  have hexact := second.isExact_quarters
  obtain ⟨k, hk, hk₁, hk₂⟩ := second.quarters_eq_zpow
  rw [nearer_eq hf h₀, if_pos]
  rw [abs_of_nonpos (by linarith : time.toRat - first.quarters ≤ 0), neg_sub]
  -- two values separate the distances
  rcases le_or_gt second.quarters time.toRat with hle | hgt
  · have hpos : 0 ≤ time.toRat - second.quarters := by linarith
    have hdouble : (2 : ℚ) ^ (k + 1) = 2 * second.quarters := by
      rw [zpow_add_one₀ two_ne_zero, hk]
      ring
    have hshort : IsExact (time.toRat - second.quarters) := by
      refine (isExact_toRat time).sub hexact (by omega) (by omega) (hk ▸ hle) hk.ge ?_
      rw [hdouble, abs_of_nonneg hpos]
      linarith
    have hlong : IsExact (first.quarters - time.toRat) := by
      refine first.isExact_quarters.sub (isExact_toRat time) (by omega) (by omega) ?_ (hk ▸ hle) ?_
      · rw [← hk]
        linarith
      · rw [hdouble, abs_of_nonneg (by linarith)]
        linarith
    rw [abs_of_nonneg hpos]
    exact rankAt_lt_rankAt hshort hlong hpos le_rfl (by linarith) le_rfl
  · have hhalf : (2 : ℚ) ^ (k - 1) = second.quarters / 2 := by
      rw [zpow_sub_one₀ two_ne_zero, hk]
      ring
    have hlow : IsExact (second.quarters / 2) := by
      have h1 := isExact_dyadic (m := 1) (e := k - 1) (by decide) (by omega) (by omega)
      rwa [hhalf, Int.cast_one, one_mul] at h1
    have hhigh : IsExact (3 * (second.quarters / 2)) := by
      have h3 := isExact_dyadic (m := 3) (e := k - 1) (by decide) (by omega) (by omega)
      rwa [hhalf, Int.cast_ofNat] at h3
    rw [abs_of_neg (by linarith : time.toRat - second.quarters < 0), neg_sub]
    rcases le_or_gt (second.quarters / 2) time.toRat with hle | hlt
    · exact rankAt_lt_rankAt hlow hexact (by linarith) (by linarith) (by linarith) (by linarith)
    · exact rankAt_lt_rankAt hexact hhigh hs.le (by linarith) (by linarith) (by linarith)

theorem nearest_eq : nearest time =
    if 3 ≤ time.toRat then whole
    else if 3 / 2 ≤ time.toRat then half
    else if 3 / 4 ≤ time.toRat then quarter
    else if 3 / 8 ≤ time.toRat then eighth
    else sixteenth := by
  have hless : (zero false).less time = true := by
    rw [zero_less_eq hf]
    exact decide_eq_true h₀
  have hfold : nearest time = nearer time
      (nearer time (nearer time (nearer time whole half) quarter) eighth) sixteenth := by
    simp only [nearest, hf, hless, Bool.and_self, if_true, List.foldl_cons, List.foldl_nil]
  have hstay : ∀ first second : NoteLength, second.quarters ≤ first.quarters →
      first.quarters + second.quarters ≤ 2 * time.toRat → nearer time first second = first :=
    fun first second => nearer_eq_first hf h₀
  have hmove : ∀ first second : NoteLength, first.quarters = 2 * second.quarters →
      2 * time.toRat < 3 * second.quarters → nearer time first second = second :=
    fun first second => nearer_eq_second hf h₀
  have hq : whole.quarters = 4 ∧ half.quarters = 2 ∧ quarter.quarters = 1 ∧
      eighth.quarters = 1 / 2 ∧ sixteenth.quarters = 1 / 4 := by
    norm_num [quarters, sixteenths]
  obtain ⟨hw, hh, hqu, he, hsi⟩ := hq
  rw [hfold]
  split_ifs
  · rw [hstay whole half, hstay whole quarter, hstay whole eighth, hstay whole sixteenth]
    all_goals linarith
  · rw [hmove whole half, hstay half quarter, hstay half eighth, hstay half sixteenth]
    all_goals linarith
  · rw [hmove whole half, hmove half quarter, hstay quarter eighth, hstay quarter sixteenth]
    all_goals linarith
  · rw [hmove whole half, hmove half quarter, hmove quarter eighth, hstay eighth sixteenth]
    all_goals linarith
  · rw [hmove whole half, hmove half quarter, hmove quarter eighth, hmove eighth sixteenth]
    all_goals linarith

end Nearer

end TrioScore.NoteLength
