import Mathlib.Data.Rat.Floor
import TrioScore.Proofs.Binary64.Range
import TrioScore.Proofs.Meter.Pulses

/-!
# Order and rounding

Rounding keeps the order of rationals, and what is computed with one rounding from greater numbers
is no less: sums, products of numbers that are not negative, numbers limited to a range, and nearest
integers.
-/

namespace TrioScore.Binary64

theorem toRat_ofRat_mono {p q : ℚ} (hp : (ofRat p).isFinite = true)
    (hq : (ofRat q).isFinite = true) (h : p ≤ q) : (ofRat p).toRat ≤ (ofRat q).toRat := by
  have hmono : ∀ {a b : ℚ}, a ≤ b → magnitude (rankAt a) ≤ magnitude (rankAt b) := by
    intro a b hab
    exact magnitude_strictMono.monotone (rankAt_mono hab)
  rw [toRat_ofRat_eq hp, toRat_ofRat_eq hq]
  split_ifs with hp₀ hq₀ hq₀
  · exact neg_le_neg (hmono (neg_le_neg h))
  · have := magnitude_nonneg (rankAt (-p))
    have := magnitude_nonneg (rankAt q)
    linarith
  · linarith
  · exact hmono h

section Sum
variable {x x' y y' : Binary64}

theorem toRat_add (hx : x.isFinite = true) (hy : y.isFinite = true) :
    (x + y).isFinite = (ofRat (x.toRat + y.toRat)).isFinite ∧
      (x + y).toRat = (ofRat (x.toRat + y.toRat)).toRat := by
  rcases add_eq_of_isFinite hx hy with ⟨negative, hzero, he⟩ | he
  · rw [he, hzero, ofRat_zero, toRat_zero, toRat_zero]
    exact ⟨rfl, rfl⟩
  · rw [he]
    exact ⟨rfl, rfl⟩

theorem toRat_add_mono (hx : x.isFinite = true) (hy : y.isFinite = true)
    (hx' : x'.isFinite = true) (hy' : y'.isFinite = true) (hf : (x + y).isFinite = true)
    (hf' : (x' + y').isFinite = true) (hxx : x.toRat ≤ x'.toRat) (hyy : y.toRat ≤ y'.toRat) :
    (x + y).toRat ≤ (x' + y').toRat := by
  obtain ⟨hfinite, hvalue⟩ := toRat_add hx hy
  obtain ⟨hfinite', hvalue'⟩ := toRat_add hx' hy'
  rw [hvalue, hvalue']
  apply toRat_ofRat_mono
  · rw [← hfinite, hf]
  · rw [← hfinite', hf']
  · exact add_le_add hxx hyy

end Sum

section Product
variable {a b c d : ℕ} {x x' y y' : Binary64}

/-- The product of numbers that are not negative is rounded once, up to the sign of zero. -/
theorem toRat_mul (hx : x.Within a) (hy : y.Within b) :
    (x * y).isFinite = (ofRat (x.toRat * y.toRat)).isFinite ∧
      (x * y).toRat = (ofRat (x.toRat * y.toRat)).toRat := by
  match x, y, hx, hy with
  | finite s r, finite t u, hx, hy =>
    have hmul : finite s r * finite t u = ofMagnitude (s != t) (magnitude r * magnitude u) := rfl
    rw [hmul, ← magnitude_eq_toRat hx.nonneg, ← magnitude_eq_toRat hy.nonneg]
    have hpos : 0 ≤ magnitude r * magnitude u :=
      mul_nonneg (magnitude_nonneg _) (magnitude_nonneg _)
    cases hsign : s != t with
    | false =>
      rw [ofRat, if_neg hpos.not_gt]
      exact ⟨rfl, rfl⟩
    | true =>
      -- one of the two is a negative zero
      have hzero : magnitude r * magnitude u = 0 := by
        cases s with
        | true => rw [eq_zero_of_negative hx.nonneg, zero_mul]
        | false =>
          obtain rfl : t = true := by simpa using hsign
          rw [eq_zero_of_negative hy.nonneg, mul_zero]
      have hrank : rankAt 0 = 0 := by
        simp [rankAt]
      have hnegative : ofMagnitude true 0 = zero true := by
        simp only [ofMagnitude, hrank]
        rfl
      rw [hzero, hnegative, ofRat_zero, toRat_zero, toRat_zero]
      exact ⟨rfl, rfl⟩

theorem toRat_mul_mono (hx : x.Within a) (hy : y.Within b) (hx' : x'.Within c) (hy' : y'.Within d)
    (hf : (x * y).isFinite = true) (hf' : (x' * y').isFinite = true) (hxx : x.toRat ≤ x'.toRat)
    (hyy : y.toRat ≤ y'.toRat) : (x * y).toRat ≤ (x' * y').toRat := by
  obtain ⟨hfinite, hvalue⟩ := toRat_mul hx hy
  obtain ⟨hfinite', hvalue'⟩ := toRat_mul hx' hy'
  rw [hvalue, hvalue']
  apply toRat_ofRat_mono
  · rw [← hfinite, hf]
  · rw [← hfinite', hf']
  · exact mul_le_mul hxx hyy hy.nonneg hx'.nonneg

end Product

section Clamp
variable {low high x y : Binary64} (hl : low.isFinite = true) (hh : high.isFinite = true)
include hl hh

theorem toRat_clamp (hx : x.isFinite = true) :
    (clamp low high x).toRat = max low.toRat (min x.toRat high.toRat) := by
  have hcap : (if x.less high then x else high).isFinite = true ∧
      (if x.less high then x else high).toRat = min x.toRat high.toRat := by
    rw [less_eq_of_isFinite hx hh]
    rcases lt_or_ge x.toRat high.toRat with hlt | hge
    · rw [decide_eq_true hlt, if_pos rfl, min_eq_left hlt.le]
      exact ⟨hx, rfl⟩
    · rw [decide_eq_false hge.not_gt, if_neg Bool.false_ne_true, min_eq_right hge]
      exact ⟨hh, rfl⟩
  rw [clamp]
  generalize (if x.less high then x else high) = capped at hcap
  rw [less_eq_of_isFinite hl hcap.1, ← hcap.2]
  rcases lt_or_ge low.toRat capped.toRat with hlt | hge
  · rw [decide_eq_true hlt, if_pos rfl, max_eq_right hlt.le]
  · rw [decide_eq_false hge.not_gt, if_neg Bool.false_ne_true, max_eq_left hge]

theorem toRat_clamp_mono (hx : x.isFinite = true) (hy : y.isFinite = true)
    (h : x.toRat ≤ y.toRat) : (clamp low high x).toRat ≤ (clamp low high y).toRat := by
  rw [toRat_clamp hl hh hx, toRat_clamp hl hh hy]
  exact max_le_max le_rfl (min_le_min h le_rfl)

end Clamp

end TrioScore.Binary64

namespace TrioScore

theorem Number.nearestInt_mono {x y : Binary64} (hx : x.isFinite = true) (hy : y.isFinite = true)
    (h : x.toRat ≤ y.toRat) {m n : ℤ} (hm : (Number.real x).nearestInt = .ok m)
    (hn : (Number.real y).nearestInt = .ok n) : m ≤ n := by
  rw [Number.nearestInt_of_isFinite hx] at hm
  rw [Number.nearestInt_of_isFinite hy] at hn
  have hfx := Binary64.isFinite_add_half hx
  have hfy := Binary64.isFinite_add_half hy
  obtain rfl := Except.ok.inj hm
  obtain rfl := Except.ok.inj hn
  rw [Binary64.add_half_eq hx] at hfx ⊢
  rw [Binary64.add_half_eq hy] at hfy ⊢
  apply Rat.floor_monotone
  apply Binary64.toRat_ofRat_mono hfx hfy
  linarith

end TrioScore
