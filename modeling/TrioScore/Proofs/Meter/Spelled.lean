import TrioScore.Proofs.Meter.Written
import TrioScore.Proofs.Piece.FixedPoint

/-!
# The meter that a text spells

A text that writes a meter is read as the values of its two numerals, limited as meters are, and
every other value as four quarters. The length of a measure is computed without rounding. The meter
read is written in its shortest form, which is read as the same meter and is not written otherwise
again.
-/

namespace TrioScore

namespace Meter

section Length
variable {meter : Meter} (h : meter.InRange)
include h

theorem toRat_quarterBeats :
    meter.quarterBeats.toRat = 4 * meter.numerator / meter.denominator := by
  rw [quarterBeats, Binary64.toRat_ofRat (isExact_quarterBeats h)]
  push_cast
  rfl

theorem isExact_four_div : Binary64.IsExact (4 / meter.denominator) := by
  obtain ⟨k, h₁, h₂, hk⟩ := exists_four_div h
  rw [hk]
  exact isExact_quarters_of_mem h₁ (h₂.trans (by decide))

/-- The length of a measure, with each operation rounded. -/
theorem quarterBeats_eq_mul :
    meter.quarterBeats = .ofRat meter.numerator * (.ofRat 4 / .ofRat meter.denominator) := by
  obtain ⟨h₁, h₂⟩ := h.numerator_mem
  have hd : 0 < meter.denominator ∧ meter.denominator ≤ 16 := by
    have := h.denominator_mem
    omega
  have hint : ∀ m : ℤ, 0 ≤ m → m ≤ 16 → Binary64.IsExact m := fun m h₁ h₂ =>
    Binary64.isExact_int (by rw [abs_of_nonneg h₁]; exact h₂.trans (by decide))
  have hpos : (0 : ℚ) < meter.denominator := Int.cast_pos.mpr hd.1
  have hfour : Binary64.IsExact 4 := by exact_mod_cast hint 4 (by decide) (by decide)
  rw [Binary64.ofRat_div_ofRat hfour (hint _ hd.1.le hd.2) four_pos.le hpos,
    Binary64.ofRat_mul_ofRat (hint _ (by omega) (by omega)) (isExact_four_div h)
      (Int.cast_nonneg (by omega)) (div_nonneg four_pos.le hpos.le), quarterBeats]
  congr 1
  push_cast
  ring

end Length
end Meter

namespace Repair

/-- A text is read as the meter that its two numerals spell, everything else as four quarters. The
length of a measure is exact. Writing the meter keeps it, and what is written is written as it
is. -/
theorem meter_read_and_rewritten :
    (∀ t n d : Text, Meter.Spells t n d → n.length ≤ digitLimit → d.length ≤ digitLimit →
      meter (.text t) = .ok ⟨limit 1 12 n.value,
        if d.value = 2 ∨ d.value = 4 ∨ d.value = 8 ∨ d.value = 16 then d.value else 4⟩) ∧
    (∀ value : Json, (∀ t n d, value = .text t → ¬ Meter.Spells t n d) →
      meter value = .ok ⟨4, 4⟩) ∧
    (∀ (value : Json) (m : Meter), meter value = .ok m →
      (m.quarterBeats.isFinite = true ∧ m.quarterBeats.toRat = 4 * m.numerator / m.denominator ∧
        m.quarterBeats = .ofRat m.numerator * (.ofRat 4 / .ofRat m.denominator)) ∧
      timeSignature value = .ok m.toText ∧ meter (.text m.toText) = .ok m) ∧
    ∀ (value : Json) (written : Text), timeSignature value = .ok written →
      timeSignature (.text written) = .ok written := by
  refine ⟨fun t n d hspells hn hd => Meter.parse_of_spells hspells hn hd, fun value h => ?_,
    fun value m hm => ?_, fun value written h => timeSignature_eq_self (timeSignature_isWritten h)⟩
  · cases value with
    | text t => exact Meter.parse_of_not_spells fun n d => h t n d rfl
    | _ => rfl
  · have hrange := inRange_of_meter hm
    refine ⟨⟨Meter.isFinite_quarterBeats hrange, Meter.toRat_quarterBeats hrange,
      Meter.quarterBeats_eq_mul hrange⟩, ?_, Meter.parse_toText hrange⟩
    rw [timeSignature, hm, ok_map]

/-- Thirteen thirds, in digits of two scripts and between blanks that are not ASCII. -/
def thirteenThirds : Text := "\u00a0١٣ /\u2003३\n"

theorem spells_thirteenThirds : Meter.Spells thirteenThirds "١٣" "३" :=
  ⟨⟨by decide, by decide⟩, ⟨by decide, by decide⟩, "\u00a0", " ", "\u2003", "\n", by decide,
    by decide, by decide, by decide, by decide⟩

/-- Thirteen thirds become twelve quarters, which are twelve beats and are written `12/4`. A stroke
with nothing behind it spells no meter. -/
theorem meter_read_and_rewritten_thirteenThirds : meter (.text thirteenThirds) = .ok ⟨12, 4⟩ ∧
    (⟨12, 4⟩ : Meter).quarterBeats.toRat = 12 ∧ timeSignature (.text thirteenThirds) = .ok "12/4" ∧
    meter (.text "12/4") = .ok ⟨12, 4⟩ ∧ timeSignature (.text "12/4") = .ok "12/4" ∧
    meter (.text "3/") = .ok ⟨4, 4⟩ := by
  obtain ⟨hread, hother, hlength, hagain⟩ := meter_read_and_rewritten
  have hmeter : meter (.text thirteenThirds) = .ok ⟨12, 4⟩ :=
    hread _ _ _ spells_thirteenThirds (by decide) (by decide)
  obtain ⟨⟨-, hbeats, -⟩, hwritten, hsame⟩ := hlength _ _ hmeter
  refine ⟨hmeter, by rw [hbeats]; norm_num, hwritten, hsame, hagain _ _ hwritten, hother _ ?_⟩
  rintro t n d ⟨⟩ hspells
  have hnumerals := Meter.numerals?_of_spells hspells
  cases hnumerals

end Repair
end TrioScore
