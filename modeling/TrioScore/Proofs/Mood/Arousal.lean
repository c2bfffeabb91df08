import TrioScore.Proofs.Mood.Aligned
import TrioScore.Proofs.Score.Louder

/-!
# More arousal

Of two readings that differ in their arousal only, the one with more is composed no slower and no
softer, and alike in everything else: arousal goes into the tempo, which rounding keeps in order,
and into the dynamics, which go up in steps.
-/

namespace TrioScore

/-- Moods that differ in their arousal only, the second with no less of it. -/
structure Mood.Rouses (calm roused : Mood) : Prop where
  valence : calm.valence = roused.valence
  focus : calm.focus = roused.focus
  calm_within : calm.arousal.Within 1
  roused_within : roused.arousal.Within 1
  arousal_le : calm.arousal.toRat ≤ roused.arousal.toRat

/-- The same piece but for its tempo, which is no slower, and its dynamics, which are no softer.
What is written about it may differ. -/
structure Piece.NoCalmer (calm roused : Piece) : Prop where
  key : calm.key = roused.key
  tempo : calm.tempo ≤ roused.tempo
  timeSignature : calm.timeSignature = roused.timeSignature
  form : calm.form = roused.form
  sections : List.Forall₂ Section.NoSofter calm.sections roused.sections
  instrumentation : calm.instrumentation = roused.instrumentation

namespace Mood

theorem ofValues_sameFault {low high : Binary64} (hlow : low.isFinite = true)
    (hhigh : high.isFinite = true) (h : low.toRat ≤ high.toRat) (valence focus : Json) :
    SameFault Rouses (ofValues valence (.ofBinary64 low) focus)
      (ofValues valence (.ofBinary64 high) focus) := by
  have hone : Binary64.IsExact (1 : ℕ) := Binary64.isExact_natCast (by decide)
  have hwithin : ∀ {x : Binary64}, x.isFinite = true →
      (Binary64.clamp (.ofRat 0) (.ofRat 1) x).Within 1 := by
    intro x hx
    exact_mod_cast Binary64.within_clamp hone hx
  have hread : ∀ {x : Binary64}, x.isFinite = true →
      parameter (.ofRat 0) (.ofRat 1) .half (.ofBinary64 x) =
        .ok (Binary64.clamp (.ofRat 0) (.ofRat 1) x) := by
    intro x hx
    rw [parameter_of_real rfl, if_pos hx]
  rw [ofValues, ofValues, hread hlow, hread hhigh]
  apply (SameFault.refl (fun _ => rfl) (parameter _ _ _ valence)).bind
  rintro v _ rfl
  rw [ok_bind, ok_bind]
  apply (SameFault.refl (fun _ => rfl) (parameter _ _ _ focus)).bind
  rintro f _ rfl
  apply SameFault.ok
  refine ⟨rfl, rfl, hwithin hlow, hwithin hhigh, ?_⟩
  apply Binary64.toRat_clamp_mono (Binary64.isFinite_ofRat Binary64.isExact_zero) _ hlow hhigh h
  exact Binary64.isFinite_ofRat (by exact_mod_cast hone)

/-- The dynamics go up in two steps of the arousal. -/
theorem velocity_dynamics {mood : Mood} (hf : mood.arousal.isFinite = true) :
    Dynamics.velocity mood.dynamics =
      if mood.arousal.toRat < (Binary64.ofRat (mkRat 3 10)).toRat then 60
      else if (Binary64.ofRat (mkRat 7 10)).toRat < mood.arousal.toRat then 105
      else 90 := by
  have hlow : (Binary64.ofRat (mkRat 3 10)).isFinite = true := by decide +kernel
  have hhigh : (Binary64.ofRat (mkRat 7 10)).isFinite = true := by decide +kernel
  rw [dynamics, Binary64.less_eq_of_isFinite hf hlow, Binary64.less_eq_of_isFinite hhigh hf]
  simp only [decide_eq_true_eq]
  split_ifs
  · rfl
  · rfl
  · rfl

section Rouses
variable {calm roused : Mood} (h : calm.Rouses roused)
include h

theorem Rouses.exists_arousal : ∃ more, roused = { calm with arousal := more } := by
  obtain ⟨valence, arousal, focus⟩ := roused
  obtain rfl := h.valence
  obtain rfl := h.focus
  exact ⟨arousal, rfl⟩

theorem Rouses.tempo_le {slow fast : ℤ} (hslow : calm.tempo = .ok slow)
    (hfast : roused.tempo = .ok fast) : slow ≤ fast := by
  have hexact : ∀ n : ℕ, n ≤ 2 * octaveSize → Binary64.IsExact n :=
    fun n hn => Binary64.isExact_natCast hn
  have hsixty : (Binary64.ofRat 60).Within 60 :=
    Binary64.within_ofRat (hexact 60 (by decide)) (by norm_num) (by norm_num)
  have heighty : (Binary64.ofRat 80).Within 80 :=
    Binary64.within_ofRat (hexact 80 (by decide)) (by norm_num) (by norm_num)
  have hrise := h.calm_within.mul heighty (hexact _ (by decide))
  have hrise' := h.roused_within.mul heighty (hexact _ (by decide))
  have hsum := hsixty.add hrise (hexact _ (by decide))
  have hsum' := hsixty.add hrise' (hexact _ (by decide))
  apply Number.nearestInt_mono hsum.isFinite hsum'.isFinite _ hslow hfast
  apply Binary64.toRat_add_mono hsixty.isFinite hrise.isFinite hsixty.isFinite hrise'.isFinite
    hsum.isFinite hsum'.isFinite le_rfl
  exact Binary64.toRat_mul_mono h.calm_within heighty h.roused_within heighty hrise.isFinite
    hrise'.isFinite h.arousal_le le_rfl

theorem Rouses.velocity_le :
    Dynamics.velocity calm.dynamics ≤ Dynamics.velocity roused.dynamics := by
  have hle := h.arousal_le
  rw [velocity_dynamics h.calm_within.isFinite, velocity_dynamics h.roused_within.isFinite]
  split_ifs
  all_goals first | decide | (exfalso; linarith)

theorem Rouses.sections_noSofter :
    List.Forall₂ Section.NoSofter calm.sections roused.sections := by
  have hvelocity := h.velocity_le
  obtain ⟨more, rfl⟩ := h.exists_arousal
  have hopening : calm.opening.NoSofter (opening { calm with arousal := more }) :=
    ⟨rfl, hvelocity⟩
  have hcontrast : calm.contrast.NoSofter (contrast { calm with arousal := more }) :=
    ⟨rfl, hvelocity⟩
  have hreprise : calm.reprise.NoSofter (reprise { calm with arousal := more }) :=
    ⟨rfl, hvelocity⟩
  have hform : hasReprise { calm with arousal := more } = calm.hasReprise := rfl
  rw [sections, sections, hform]
  split_ifs
  · exact .cons hopening (.cons hcontrast (.cons hreprise .nil))
  · exact .cons hopening (.cons hcontrast .nil)

theorem Rouses.piece_sameFault (instrumentation : Text) :
    SameFault Piece.NoCalmer (calm.piece instrumentation) (roused.piece instrumentation) := by
  obtain ⟨slow, hslow, -⟩ := tempo_mem h.calm_within
  obtain ⟨fast, hfast, -⟩ := tempo_mem h.roused_within
  have hsections := h.sections_noSofter
  have htempo := h.tempo_le hslow hfast
  rw [piece, piece, hslow, hfast]
  apply SameFault.ok
  obtain ⟨more, rfl⟩ := h.exists_arousal
  exact ⟨rfl, htempo, rfl, rfl, hsections, rfl⟩

end Rouses

theorem tempo_piece_mem {valence arousal focus : Json} {hints : Hints} {piece : Piece}
    (h : pieceOfReading valence arousal focus hints = .ok piece) :
    60 ≤ piece.tempo ∧ piece.tempo ≤ 140 := by
  obtain ⟨mood, instrumentation, hmood, -, hpiece⟩ := pieceOfReading_eq_ok_iff.mp h
  obtain ⟨tempo, htempo, rfl⟩ := piece_eq_ok_iff.mp hpiece
  obtain ⟨n, hn, hlow, hhigh⟩ := tempo_mem (arousal_within hmood)
  obtain rfl := Except.ok.inj (htempo.symm.trans hn)
  exact ⟨hlow, hhigh⟩

end Mood

theorem exists_score_of_reading {valence arousal focus : Json} {hints : Hints} {piece : Piece}
    (h : pieceOfReading valence arousal focus hints = .ok piece) :
    ∃ score, Score.ofPiece piece = .ok score := by
  obtain ⟨mood, _, -, -, hpiece⟩ := pieceOfReading_eq_ok_iff.mp h
  obtain ⟨meter, p, -, -, hscore, hrun⟩ := Mood.piece_aligned hpiece
  obtain ⟨score, hall, -⟩ := hrun _ le_rfl
  rw [List.take_length] at hall
  exact ⟨score, hscore.trans hall⟩

section Readings
variable {low high : Binary64} (hlow : low.isFinite = true) (hhigh : high.isFinite = true)
  (h : low.toRat ≤ high.toRat)
include hlow hhigh h

theorem pieceOfReading_sameFault (valence focus : Json) (hints : Hints) :
    SameFault Piece.NoCalmer (pieceOfReading valence (.ofBinary64 low) focus hints)
      (pieceOfReading valence (.ofBinary64 high) focus hints) := by
  rw [pieceOfReading, pieceOfReading]
  apply (Mood.ofValues_sameFault hlow hhigh h valence focus).bind
  intro calm roused hmood
  apply (SameFault.refl (fun _ => rfl) hints.instruments).bind
  rintro instrumentation _ rfl
  exact hmood.piece_sameFault instrumentation

/-- What is composed for more arousal, in or out of its range, is no slower and no softer. The key,
the meter, the form and all of the sections but their dynamics are the same, and so is every note of
the score but for its velocity, which is no lower. If nothing can be composed, the other two
parameters or the hints are at fault, and arousal makes no difference. -/
theorem pieceOfReading_arousal_mono (valence focus : Json) (hints : Hints) :
    (valence.IsReading → focus.IsReading →
      (∃ instrumentation, hints.instruments = .ok instrumentation) →
      ∃ calm roused quiet loud,
        pieceOfReading valence (.ofBinary64 low) focus hints = .ok calm ∧
        pieceOfReading valence (.ofBinary64 high) focus hints = .ok roused ∧
        60 ≤ calm.tempo ∧ calm.tempo ≤ roused.tempo ∧ roused.tempo ≤ 140 ∧
        calm.key = roused.key ∧ calm.timeSignature = roused.timeSignature ∧
        calm.form = roused.form ∧
        List.Forall₂ Section.NoSofter calm.sections roused.sections ∧
        Score.ofPiece calm = .ok quiet ∧ Score.ofPiece roused = .ok loud ∧
        quiet.NoSofter loud) ∧
    (¬ (valence.IsReading ∧ focus.IsReading ∧
        ∃ instrumentation, hints.instruments = .ok instrumentation) →
      ∃ fault, pieceOfReading valence (.ofBinary64 low) focus hints = .error fault ∧
        pieceOfReading valence (.ofBinary64 high) focus hints = .error fault) := by
  have hsame := pieceOfReading_sameFault hlow hhigh h valence focus hints
  have hreads : ∀ x, (∃ piece, pieceOfReading valence (.ofBinary64 x) focus hints = .ok piece) ↔
      valence.IsReading ∧ focus.IsReading ∧
        ∃ instrumentation, hints.instruments = .ok instrumentation := by
    intro x
    rw [pieceOfReading_isOk_iff, and_iff_right (Json.isReading_ofBinary64 x), and_assoc]
  constructor
  · intro hvalence hfocus hinstruments
    obtain ⟨calm, hcalm⟩ := (hreads low).mpr ⟨hvalence, hfocus, hinstruments⟩
    obtain ⟨roused, hroused⟩ := (hreads high).mpr ⟨hvalence, hfocus, hinstruments⟩
    obtain ⟨quiet, hquiet⟩ := exists_score_of_reading hcalm
    obtain ⟨loud, hloud⟩ := exists_score_of_reading hroused
    rw [hcalm, hroused] at hsame
    obtain ⟨hpiece⟩ := hsame
    have hscore := Score.ofPiece_sameFault hpiece.key hpiece.timeSignature hpiece.sections
    rw [hquiet, hloud] at hscore
    obtain ⟨hlouder⟩ := hscore
    exact ⟨calm, roused, quiet, loud, hcalm, hroused, (Mood.tempo_piece_mem hcalm).1, hpiece.tempo,
      (Mood.tempo_piece_mem hroused).2, hpiece.key, hpiece.timeSignature, hpiece.form,
      hpiece.sections, hquiet, hloud, hlouder⟩
  · intro hnot
    generalize hcalm : pieceOfReading valence (.ofBinary64 low) focus hints = calm at hsame
    generalize hroused : pieceOfReading valence (.ofBinary64 high) focus hints = roused at hsame
    cases hsame with
    | error fault => exact ⟨fault, rfl, rfl⟩
    | ok _ => exact absurd ((hreads low).mp ⟨_, hcalm⟩) hnot

end Readings

/-- A sad reading, calm and then with more arousal than its range has. -/
theorem pieceOfReading_arousal_mono_sad : ∃ calm roused quiet loud,
    pieceOfReading (.ofBinary64 (.ofRat (-1))) (.ofBinary64 (.ofRat (1 / 4))) .null .empty =
      .ok calm ∧
    pieceOfReading (.ofBinary64 (.ofRat (-1))) (.ofBinary64 (.ofRat 2)) .null .empty = .ok roused ∧
    calm.tempo = 80 ∧ roused.tempo = 140 ∧ Score.ofPiece calm = .ok quiet ∧
    Score.ofPiece roused = .ok loud ∧ quiet.NoSofter loud := by
  have hlow : Binary64.IsExact (1 / 4) := by
    have hquarter := Binary64.isExact_div_two_pow (m := 1) (k := 2) (by decide) (by decide)
    norm_num at hquarter
    exact hquarter
  have hhigh : Binary64.IsExact 2 := by
    exact_mod_cast Binary64.isExact_natCast (n := 2) (by decide)
  have hle : (Binary64.ofRat (1 / 4)).toRat ≤ (Binary64.ofRat 2).toRat := by
    rw [Binary64.toRat_ofRat hlow, Binary64.toRat_ofRat hhigh]
    norm_num
  obtain ⟨calm, roused, quiet, loud, hcalm, hroused, -, -, -, -, -, -, -, hquiet, hloud, hlouder⟩ :=
    (pieceOfReading_arousal_mono (Binary64.isFinite_ofRat hlow) (Binary64.isFinite_ofRat hhigh) hle
      (.ofBinary64 (.ofRat (-1))) .null .empty).1 (Json.isReading_ofBinary64 _)
      Json.isReading_null ⟨_, rfl⟩
  have hslow : Piece.tempo <$> pieceOfReading (.ofBinary64 (.ofRat (-1)))
      (.ofBinary64 (.ofRat (1 / 4))) .null .empty = .ok 80 := by
    decide +kernel
  have hfast : Piece.tempo <$> pieceOfReading (.ofBinary64 (.ofRat (-1)))
      (.ofBinary64 (.ofRat 2)) .null .empty = .ok 140 := by
    decide +kernel
  rw [hcalm] at hslow
  rw [hroused] at hfast
  exact ⟨calm, roused, quiet, loud, hcalm, hroused, Except.ok.inj hslow, Except.ok.inj hfast,
    hquiet, hloud, hlouder⟩

end TrioScore
