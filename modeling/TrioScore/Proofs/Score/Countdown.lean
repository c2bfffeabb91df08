import TrioScore.Proofs.NoteLength.Nearest
import TrioScore.Score.Measure

/-!
# Counting a measure down

The lengths of a melody are taken from the sixteenths that are left. A note may be longer than what
is left, because the nearest length can be above the time it stands for. It then is the last one,
and runs over by a quarter at most.
-/

namespace TrioScore.Measure
open Binary64 NoteLength

/-- A note whose share is a time is longer than what is left. -/
def NoteRunsOver (remaining : ℤ) (share : Binary64) : Prop :=
  (remaining = 3 ∧ ¬ share.less (ofRat (3 / 4))) ∨
    ((remaining = 6 ∨ remaining = 7) ∧ ¬ share.less (ofRat (3 / 2))) ∨
    (12 ≤ remaining ∧ remaining ≤ 15 ∧ ¬ share.less (ofRat 3))

/-- The last of the notes that fill a time is longer than what is left for it. -/
def FillRunsOver (remaining : ℤ) : Prop :=
  0 < remaining ∧ (remaining % 16 = 3 ∨ remaining % 16 = 6 ∨ remaining % 16 = 7 ∨
    remaining % 16 = 11 ∨ 12 ≤ remaining % 16)

/-- Some note of a melody is longer than what is left for it. -/
def RunsOver (remaining : ℤ) : List Binary64 → Prop
  | [] => FillRunsOver remaining
  | share :: shares => 0 < remaining ∧ (NoteRunsOver remaining share ∨
      RunsOver (remaining - (fitLength remaining share).sixteenths) shares)

instance (remaining : ℤ) (share : Binary64) : Decidable (NoteRunsOver remaining share) :=
  inferInstanceAs (Decidable (_ ∨ _ ∨ _))

instance (remaining : ℤ) : Decidable (FillRunsOver remaining) := inferInstanceAs (Decidable (_ ∧ _))

instance decidableRunsOver (remaining : ℤ) :
    (shares : List Binary64) → Decidable (RunsOver remaining shares)
  | [] => inferInstanceAs (Decidable (FillRunsOver remaining))
  | share :: shares =>
    have := decidableRunsOver (remaining - (fitLength remaining share).sixteenths) shares
    inferInstanceAs (Decidable (_ ∧ (_ ∨ _)))

/-- The bounds of a share by its value; the negative infinity is below every bound. -/
theorem noteRunsOver_iff {remaining : ℤ} {share : Binary64} : NoteRunsOver remaining share ↔
    share ≠ infinity true ∧
      ((remaining = 3 ∧ (share.isFinite = true → 3 / 4 ≤ share.toRat)) ∨
        ((remaining = 6 ∨ remaining = 7) ∧ (share.isFinite = true → 3 / 2 ≤ share.toRat)) ∨
        (12 ≤ remaining ∧ remaining ≤ 15 ∧ (share.isFinite = true → 3 ≤ share.toRat))) := by
  have hless : ∀ c : ℚ, IsExact c → (¬ share.less (ofRat c) = true ↔
      share ≠ infinity true ∧ (share.isFinite = true → c ≤ share.toRat)) := by
    intro c hc
    rw [less_eq_true_iff (isFinite_ofRat hc), toRat_ofRat hc, not_or, not_and, not_lt]
  have h₁ : IsExact (3 / 4) := by
    simpa using Binary64.isExact_quarters (m := 3) (by decide)
  have h₂ : IsExact (3 / 2) := by
    have h := Binary64.isExact_quarters (m := 6) (by decide)
    norm_num at h
    exact h
  have h₃ : IsExact 3 := by simpa using isExact_int (m := 3) (by decide)
  rw [NoteRunsOver, hless _ h₁, hless _ h₂, hless _ h₃]
  constructor
  · rintro (⟨hr, hinf, hc⟩ | ⟨hr, hinf, hc⟩ | ⟨hr, hr', hinf, hc⟩)
    · exact ⟨hinf, .inl ⟨hr, hc⟩⟩
    · exact ⟨hinf, .inr (.inl ⟨hr, hc⟩)⟩
    · exact ⟨hinf, .inr (.inr ⟨hr, hr', hc⟩)⟩
  · rintro ⟨hinf, ⟨hr, hc⟩ | ⟨hr, hc⟩ | ⟨hr, hr', hc⟩⟩
    · exact .inl ⟨hr, hinf, hc⟩
    · exact .inr (.inl ⟨hr, hinf, hc⟩)
    · exact .inr (.inr ⟨hr, hr', hinf, hc⟩)

theorem sixteenthBeats_eq (remaining : ℤ) : sixteenthBeats remaining = ofRat (remaining / 4) := by
  rw [sixteenthBeats, Rat.mkRat_eq_div]
  rfl

section Beats
variable {remaining : ℤ} (h : |remaining| ≤ 64)
include h

theorem isExact_remaining : IsExact ((remaining : ℚ) / 4) :=
  Binary64.isExact_quarters (h.trans (by decide))

theorem isFinite_sixteenthBeats : (sixteenthBeats remaining).isFinite = true := by
  rw [sixteenthBeats_eq]
  exact isFinite_ofRat (isExact_remaining h)

theorem toRat_sixteenthBeats : (sixteenthBeats remaining).toRat = remaining / 4 := by
  rw [sixteenthBeats_eq]
  exact toRat_ofRat (isExact_remaining h)

/-- The countdown in beats is the one in sixteenths: a length is taken off without error. -/
theorem sixteenthBeats_sub (length : NoteLength) :
    sixteenthBeats remaining - length.beats = sixteenthBeats (remaining - length.sixteenths) := by
  have hneg : (-length.beats : Binary64) = ofRat (-length.quarters) := by
    rw [length.beats_eq]
    exact neg_ofRat length.quarters_pos.ne'
  have hsub : sixteenthBeats remaining - length.beats =
      sixteenthBeats remaining + -length.beats := rfl
  rw [hsub, hneg, sixteenthBeats_eq, sixteenthBeats_eq,
    ofRat_add_ofRat (isExact_remaining h) length.isExact_quarters.neg]
  congr 1
  push_cast
  rw [quarters]
  ring

/-- More than a hundredth of a beat is left as long as any sixteenth is. -/
theorem hundredth_less_iff :
    (ofRat (1 / 100)).less (sixteenthBeats remaining) = true ↔ 0 < remaining := by
  have heighth : IsExact (1 / 8) := by
    have h8 := isExact_dyadic (m := 1) (e := -3) (by decide) (by norm_num) (by norm_num)
    norm_num at h8
    exact h8
  obtain ⟨hf, hlow, hhigh⟩ :=
    ofRat_bounds isExact_zero heighth (q := 1 / 100) (by norm_num) (by norm_num)
  have hinf : ofRat (1 / 100) ≠ infinity true := by
    intro he
    rw [he] at hf
    cases hf
  rw [less_eq_true_iff (isFinite_sixteenthBeats h), toRat_sixteenthBeats h]
  constructor
  · rintro (he | ⟨-, hlt⟩)
    · exact absurd he hinf
    · have hpos : (0 : ℚ) < remaining := by linarith
      exact_mod_cast hpos
  · intro hpos
    have hone : (1 : ℚ) ≤ remaining := by exact_mod_cast hpos
    exact .inr ⟨hf, by linarith⟩

end Beats

section Step
variable {remaining : ℤ} (h₀ : 0 < remaining) (h₁ : remaining ≤ 64)
include h₀ h₁

theorem abs_remaining_le : |remaining| ≤ 64 := by rwa [abs_of_pos h₀]

/-- The length nearest to what is left. -/
theorem sixteenths_nearest_remaining : (nearest (sixteenthBeats remaining)).sixteenths =
    if 12 ≤ remaining then 16 else if 6 ≤ remaining then 8 else if 3 ≤ remaining then 4
    else if 2 ≤ remaining then 2 else 1 := by
  have hq := toRat_sixteenthBeats (abs_remaining_le h₀ h₁)
  have hpos : 0 < (sixteenthBeats remaining).toRat := by
    rw [hq]
    have : (0 : ℚ) < remaining := by exact_mod_cast h₀
    linarith
  have hstep : ∀ (c : ℚ) (n : ℤ), (n : ℚ) - 1 < 4 * c → 4 * c ≤ n →
      (c ≤ (sixteenthBeats remaining).toRat ↔ n ≤ remaining) := by
    intro c n hlow hhigh
    rw [hq]
    constructor
    · intro hc
      have hlt : ((n - 1 : ℤ) : ℚ) < remaining := by
        push_cast
        linarith
      have := Int.cast_lt.mp hlt
      omega
    · intro hn
      have hle : (n : ℚ) ≤ remaining := by exact_mod_cast hn
      linarith
  rw [nearest_eq (isFinite_sixteenthBeats (abs_remaining_le h₀ h₁)) hpos]
  simp only [hstep 3 12 (by norm_num) (by norm_num), hstep (3 / 2) 6 (by norm_num) (by norm_num),
    hstep (3 / 4) 3 (by norm_num) (by norm_num), hstep (3 / 8) 2 (by norm_num) (by norm_num)]
  split_ifs <;> rfl

/-- A share that is no limit leaves the length nearest to what is left. -/
theorem fitLength_of_not_less {share : Binary64}
    (h : share.less (sixteenthBeats remaining) = false) :
    (fitLength remaining share).sixteenths ≤ remaining + 4 ∧
      (remaining < (fitLength remaining share).sixteenths ↔ NoteRunsOver remaining share) := by
  have hfit : fitLength remaining share = nearest (sixteenthBeats remaining) := by
    simp [fitLength, h]
  rw [← Bool.not_eq_true, less_eq_true_iff (isFinite_sixteenthBeats (abs_remaining_le h₀ h₁)),
    toRat_sixteenthBeats (abs_remaining_le h₀ h₁), not_or, not_and, not_lt] at h
  obtain ⟨hinf, hshare⟩ := h
  have hbound : ∀ (c : ℚ) (n : ℤ), 4 * c ≤ n → n ≤ remaining → share.isFinite = true →
      c ≤ share.toRat := by
    intro c n hc hn hf
    have hnq : (n : ℚ) ≤ remaining := by exact_mod_cast hn
    linarith [hshare hf]
  have hnote : NoteRunsOver remaining share ↔
      remaining = 3 ∨ (remaining = 6 ∨ remaining = 7) ∨ (12 ≤ remaining ∧ remaining ≤ 15) := by
    rw [noteRunsOver_iff]
    constructor
    · rintro ⟨-, ⟨hr, -⟩ | ⟨hr, -⟩ | ⟨hr, hr', -⟩⟩
      · exact .inl hr
      · exact .inr (.inl hr)
      · exact .inr (.inr ⟨hr, hr'⟩)
    · intro hr
      refine ⟨hinf, ?_⟩
      rcases hr with hr | hr | ⟨hr, hr'⟩
      · exact .inl ⟨hr, hbound (3 / 4) 3 (by norm_num) hr.ge⟩
      · exact .inr (.inl ⟨hr, hbound (3 / 2) 6 (by norm_num) (by omega)⟩)
      · exact .inr (.inr ⟨hr, hr', hbound 3 12 (by norm_num) hr⟩)
  rw [hfit, sixteenths_nearest_remaining h₀ h₁, hnote]
  split_ifs <;> omega

/-- A share that is the limit leaves the length nearest to it. -/
theorem fitLength_of_less {share : Binary64}
    (h : share.less (sixteenthBeats remaining) = true) :
    (fitLength remaining share).sixteenths ≤ remaining + 4 ∧
      (remaining < (fitLength remaining share).sixteenths ↔ NoteRunsOver remaining share) := by
  have hfit : fitLength remaining share = nearest share := by simp [fitLength, h]
  rw [less_eq_true_iff (isFinite_sixteenthBeats (abs_remaining_le h₀ h₁)),
    toRat_sixteenthBeats (abs_remaining_le h₀ h₁)] at h
  rw [hfit, noteRunsOver_iff]
  rcases h with rfl | ⟨hf, hq⟩
  · have hone : (nearest (infinity true)).sixteenths = 1 := rfl
    rw [hone]
    exact ⟨by omega, fun hlt => by omega, fun hr => absurd rfl hr.1⟩
  have hne : share ≠ infinity true := by
    rintro rfl
    cases hf
  have hbound : ∀ (c : ℚ) (n : ℤ), n ≤ 4 * c → c ≤ share.toRat → n < remaining := by
    intro c n hc hle
    have hnq : (n : ℚ) < remaining := by linarith
    exact_mod_cast hnq
  have hwhole := hbound 3 12 (by norm_num)
  have hhalf := hbound (3 / 2) 6 (by norm_num)
  have hquarter := hbound (3 / 4) 3 (by norm_num)
  have heighth := hbound (3 / 8) 1 (by norm_num)
  simp only [hf, forall_const, ne_eq, hne, not_false_eq_true, true_and]
  rcases le_or_gt share.toRat 0 with hneg | hpos
  · rw [nearest_of_nonpos hf hneg]
    simp only [sixteenths]
    grind
  · rw [nearest_eq hf hpos]
    split_ifs
    all_goals simp only [sixteenths]
    all_goals grind

theorem fitLength_spec (share : Binary64) :
    (fitLength remaining share).sixteenths ≤ remaining + 4 ∧
      (remaining < (fitLength remaining share).sixteenths ↔ NoteRunsOver remaining share) := by
  cases h : share.less (sixteenthBeats remaining) with
  | false => exact fitLength_of_not_less h₀ h₁ h
  | true => exact fitLength_of_less h₀ h₁ h

end Step

theorem fillLengths_of_nonpos {remaining : ℤ} (h : remaining ≤ 0) : fillLengths remaining = [] := by
  rw [fillLengths, if_pos h]

theorem fitLengths_of_nonpos {remaining : ℤ} (h : remaining ≤ 0) (shares : List Binary64) :
    fitLengths remaining shares = ([], remaining) := by
  cases shares with
  | nil => rfl
  | cons share shares => rw [fitLengths, if_pos h]

theorem fillLengths_of_pos {remaining : ℤ} (h : 0 < remaining) : fillLengths remaining =
    nearest (sixteenthBeats remaining) ::
      fillLengths (remaining - (nearest (sixteenthBeats remaining)).sixteenths) := by
  rw [fillLengths, if_neg h.not_ge]

theorem fitLengths_of_pos {remaining : ℤ} (h : 0 < remaining) (share : Binary64)
    (shares : List Binary64) : fitLengths remaining (share :: shares) =
      (fitLength remaining share ::
          (fitLengths (remaining - (fitLength remaining share).sixteenths) shares).1,
        (fitLengths (remaining - (fitLength remaining share).sixteenths) shares).2) := by
  rw [fitLengths, if_neg h.not_ge]

def total (lengths : List NoteLength) : ℕ := (lengths.map sixteenths).sum

theorem total_cons (length : NoteLength) (lengths : List NoteLength) :
    total (length :: lengths) = length.sixteenths + total lengths := by
  simp [total]

/-- The filling goes on from what its first note leaves. -/
theorem fillRunsOver_sub {remaining : ℤ} {n : ℕ} (hn : n ≤ remaining)
    (h : (12 ≤ remaining ∧ n = 16) ∨ (6 ≤ remaining ∧ remaining < 12 ∧ n = 8) ∨
      (3 ≤ remaining ∧ remaining < 6 ∧ n = 4) ∨ (remaining = 2 ∧ n = 2) ∨
      (remaining = 1 ∧ n = 1)) :
    FillRunsOver (remaining - n) ↔ FillRunsOver remaining := by
  unfold FillRunsOver
  rcases h with ⟨h, rfl⟩ | ⟨h, h', rfl⟩ | ⟨h, h', rfl⟩ | ⟨rfl, rfl⟩ | ⟨rfl, rfl⟩
  · have hmod : (remaining - (16 : ℕ)) % 16 = remaining % 16 := Int.sub_emod_right remaining 16
    rw [hmod]
    omega
  · omega
  · omega
  · decide
  · decide

theorem total_fillLengths {remaining : ℤ} (h₀ : 0 ≤ remaining) (h₁ : remaining ≤ 64) :
    ∃ excess : ℕ, (total (fillLengths remaining) : ℤ) = remaining + excess ∧ excess ≤ 4 ∧
      (excess = 0 ↔ ¬ FillRunsOver remaining) := by
  induction remaining using fillLengths.induct with
  | case1 remaining h =>
    obtain rfl : remaining = 0 := le_antisymm h h₀
    have htotal : total (fillLengths 0) = 0 := by
      rw [fillLengths_of_nonpos le_rfl]
      rfl
    exact ⟨0, by rw [htotal]; rfl, by omega, iff_of_true rfl fun hr => lt_irrefl 0 hr.1⟩
  | case2 remaining h length ih =>
    have hlength : length.sixteenths = _ := sixteenths_nearest_remaining (not_le.mp h) h₁
    have hsteps : (12 ≤ remaining ∧ length.sixteenths = 16) ∨
        (6 ≤ remaining ∧ remaining < 12 ∧ length.sixteenths = 8) ∨
        (3 ≤ remaining ∧ remaining < 6 ∧ length.sixteenths = 4) ∨
        (remaining = 2 ∧ length.sixteenths = 2) ∨ (remaining = 1 ∧ length.sixteenths = 1) := by
      split_ifs at hlength
      all_goals omega
    have hcons : (total (fillLengths remaining) : ℤ) =
        length.sixteenths + total (fillLengths (remaining - length.sixteenths)) := by
      rw [fillLengths_of_pos (not_le.mp h), total_cons, Nat.cast_add]
    rw [hcons]
    rcases lt_or_ge remaining length.sixteenths with hlt | hge
    · have hnil : total (fillLengths (remaining - length.sixteenths)) = 0 := by
        rw [fillLengths_of_nonpos (by omega)]
        rfl
      have hover : FillRunsOver remaining := by
        unfold FillRunsOver
        omega
      refine ⟨(length.sixteenths - remaining).toNat, by omega, by omega, ?_⟩
      exact iff_of_false (by omega) (not_not.mpr hover)
    · obtain ⟨excess, hsum, hexcess, hiff⟩ := ih (by omega) (by omega)
      exact ⟨excess, by omega, hexcess, hiff.trans (not_congr (fillRunsOver_sub hge hsteps))⟩

/-- The notes of a melody fill the time, up to what the last one is too long. -/
theorem total_fitLengths {remaining : ℤ} (h₀ : 0 ≤ remaining) (h₁ : remaining ≤ 64)
    (shares : List Binary64) : ∃ excess : ℕ,
      (total ((fitLengths remaining shares).1 ++
        fillLengths (fitLengths remaining shares).2) : ℤ) = remaining + excess ∧ excess ≤ 4 ∧
      (excess = 0 ↔ ¬ RunsOver remaining shares) := by
  induction shares generalizing remaining with
  | nil => exact total_fillLengths h₀ h₁
  | cons share shares ih =>
    rcases h₀.eq_or_lt with rfl | hpos
    · refine ⟨0, ?_, by omega, ?_⟩
      · rw [fitLengths_of_nonpos le_rfl, List.nil_append, fillLengths_of_nonpos le_rfl]
        rfl
      · exact iff_of_true rfl fun hr => lt_irrefl 0 hr.1
    obtain ⟨hle, hnote⟩ := fitLength_spec hpos h₁ share
    have hcons : (total ((fitLengths remaining (share :: shares)).1 ++
        fillLengths (fitLengths remaining (share :: shares)).2) : ℤ) =
        (fitLength remaining share).sixteenths +
          total ((fitLengths (remaining - (fitLength remaining share).sixteenths) shares).1 ++
            fillLengths
              (fitLengths (remaining - (fitLength remaining share).sixteenths) shares).2) := by
      rw [fitLengths_of_pos hpos, List.cons_append, total_cons, Nat.cast_add]
    rw [hcons, RunsOver, ← hnote]
    rcases lt_or_ge remaining (fitLength remaining share).sixteenths with hlt | hge
    · -- the note is too long and nothing follows it
      have hnone : remaining - (fitLength remaining share).sixteenths ≤ 0 := by omega
      rw [fitLengths_of_nonpos hnone, List.nil_append, fillLengths_of_nonpos hnone]
      refine ⟨((fitLength remaining share).sixteenths - remaining).toNat, ?_, by omega, ?_⟩
      · have hzero : total [] = 0 := rfl
        omega
      · exact iff_of_false (by omega) (not_not.mpr ⟨hpos, .inl hlt⟩)
    · have hleft : 0 ≤ remaining - (fitLength remaining share).sixteenths := by omega
      obtain ⟨excess, hsum, hexcess, hiff⟩ := ih hleft (by omega)
      refine ⟨excess, by omega, hexcess, hiff.trans (not_congr ?_)⟩
      exact ⟨fun hr => ⟨hpos, .inr hr⟩, fun hr => hr.2.resolve_left hge.not_gt⟩

end TrioScore.Measure
