import TrioScore.Proofs.Command.Reached
import TrioScore.Proofs.Score.Emergency

/-!
# Saving a file

A file is opened, which empties it or makes it anew, before its contents are made. So saving keeps
to all or nothing as long as the contents can be made, or the file could not be opened in the first
place; when they cannot be made, the file that was opened is left behind empty.
-/

namespace TrioScore.Directory

/-- A directory that holds a file at one place and is as before everywhere else. -/
structure ChangesOnly (before after : Directory) (place : Place) (content : Bytes) : Prop where
  changed : after.find? place = some (.file content)
  others : ∀ other, other ≠ place → after.find? other = before.find? other

section Changes
variable {before after : Directory} {place : Place} {content : Bytes}

theorem changesOnly_put (h : before.HasRoom place) (content : Bytes) :
    ChangesOnly before (before.put place content) place content where
  changed := find?_put_self h.not_folder content
  others := fun _ hother => find?_put_of_ne hother content

theorem ChangesOnly.put (h : ChangesOnly before after place content) (bytes : Bytes) :
    ChangesOnly before (after.put place bytes) place bytes where
  changed := by
    apply find?_put_self
    rw [h.changed]
    simp
  others := by
    intro other hother
    rw [find?_put_of_ne hother]
    exact h.others other hother

/-- Nothing is changed if the place held the same before. -/
theorem ChangesOnly.unchanged_iff (h : ChangesOnly before after place content) :
    (∀ other, after.find? other = before.find? other) ↔
      before.find? place = some (.file content) := by
  constructor
  · intro hsame
    rw [← hsame place]
    exact h.changed
  · intro hheld other
    by_cases hother : other = place
    · rw [hother, h.changed, hheld]
    · exact h.others other hother

end Changes

section Save
variable {directory : Directory} {path : Text} {content : Except Fault Bytes} {place : Place}

theorem save_of_unwritable {fault : Fault} (h : directory.writable path = .error fault) :
    directory.save path content = (directory, .error fault) := by
  simp only [save, write, h]
  rfl

/-- A file that is opened before its contents fail is left behind empty. -/
theorem save_of_fault (h : directory.writable path = .ok place) {fault : Fault}
    (hcontent : content = .error fault) :
    directory.save path content = (directory.put place [], .error fault) := by
  simp only [save, write, h, hcontent]
  rfl

theorem save_of_bytes (h : directory.writable path = .ok place) {bytes : Bytes}
    (hcontent : content = .ok bytes) :
    directory.save path content = ((directory.put place []).put place bytes, .ok ()) := by
  have hagain := writable_put h (hasRoom_of_writable h) []
  simp only [save, write, h, hcontent, ok_bind, pure, Except.pure, hagain]

theorem look_saved (h : directory.writable path = .ok place) (bytes : Bytes) :
    ((directory.put place []).put place bytes).look path = .ok (.file bytes) := by
  apply look_put_self
  exact writable_put h (hasRoom_of_writable h) []

/-- Saving ends in one of three ways. -/
theorem save_cases (directory : Directory) (path : Text) (content : Except Fault Bytes) :
    (∃ fault, directory.writable path = .error fault ∧
      directory.save path content = (directory, .error fault)) ∨
    (∃ place fault after, directory.writable path = .ok place ∧ content = .error fault ∧
      directory.save path content = (after, .error fault) ∧ ChangesOnly directory after place []) ∨
    ∃ place bytes after, directory.writable path = .ok place ∧ content = .ok bytes ∧
      directory.save path content = (after, .ok ()) ∧ after.look path = .ok (.file bytes) ∧
      ChangesOnly directory after place bytes := by
  cases hpath : directory.writable path with
  | error fault =>
    left
    exact ⟨fault, rfl, save_of_unwritable hpath⟩
  | ok place =>
    have hopened := changesOnly_put (hasRoom_of_writable hpath) []
    right
    cases hcontent : content with
    | error fault =>
      left
      exact ⟨place, fault, _, rfl, rfl, save_of_fault hpath rfl, hopened⟩
    | ok bytes =>
      right
      exact ⟨place, bytes, _, rfl, rfl, save_of_bytes hpath rfl, look_saved hpath bytes,
        hopened.put bytes⟩

/-- Saving is all or nothing: after a fault nothing has changed, and otherwise one file has, which
then holds the contents. -/
structure IsAtomic (directory : Directory) (path : Text) (content : Except Fault Bytes) : Prop where
  failed : ∀ fault, (directory.save path content).2 = .error fault →
    ∀ place, (directory.save path content).1.find? place = directory.find? place
  saved : (directory.save path content).2 = .ok () → ∃ place bytes,
    directory.writable path = .ok place ∧ content = .ok bytes ∧
    (directory.save path content).1.look path = .ok (.file bytes) ∧
    ChangesOnly directory (directory.save path content).1 place bytes

theorem save_eq_ok_iff : (directory.save path content).2 = .ok () ↔
    (∃ place, directory.writable path = .ok place) ∧ ∃ bytes, content = .ok bytes := by
  rcases save_cases directory path content with ⟨fault, hpath, hsave⟩ |
    ⟨place, fault, after, hpath, hcontent, hsave, -⟩ |
    ⟨place, bytes, after, hpath, hcontent, hsave, -, -⟩
  · rw [hsave]
    simp [hpath]
  · rw [hsave]
    simp [hcontent]
  · rw [hsave]
    simp [hpath, hcontent]

/-- All or nothing fails only where an opened file, which was not empty before, loses its
contents to a fault. -/
theorem isAtomic_iff : IsAtomic directory path content ↔
    ∀ place fault, directory.writable path = .ok place → content = .error fault →
      directory.find? place = some (.file []) := by
  rcases save_cases directory path content with ⟨fault, hpath, hsave⟩ |
    ⟨place, fault, after, hpath, hcontent, hsave, hchanges⟩ |
    ⟨place, bytes, after, hpath, hcontent, hsave, hlook, hchanges⟩
  · constructor
    · intro _ place _ hplace
      rw [hpath] at hplace
      cases hplace
    · intro _
      constructor
      · intro _ _ place
        rw [hsave]
      · intro hok
        rw [hsave] at hok
        cases hok
  · constructor
    · intro h place' fault' hplace _
      rw [hpath] at hplace
      obtain rfl := Except.ok.inj hplace
      apply hchanges.unchanged_iff.mp
      have hfailed := h.failed fault (by rw [hsave])
      rwa [hsave] at hfailed
    · intro h
      constructor
      · intro _ _
        rw [hsave]
        exact hchanges.unchanged_iff.mpr (h place fault hpath hcontent)
      · intro hok
        rw [hsave] at hok
        cases hok
  · constructor
    · intro _ _ fault _ hfault
      rw [hcontent] at hfault
      cases hfault
    · intro _
      constructor
      · intro fault hfault
        rw [hsave] at hfault
        cases hfault
      · intro _
        rw [hsave]
        exact ⟨place, bytes, hpath, hcontent, hlook, hchanges⟩

end Save

/-- Saving a score succeeds exactly when the path can be opened and the score has a file. It is all
or nothing unless the path is opened for a score without one: then the file there is left empty,
whatever it held, and everything else stays as it was. -/
theorem save_score_isAtomic_iff (directory : Directory) (path : Text) (division : ℤ)
    (score : Score) :
    ((directory.save path (Smf.ofScore division score)).2 = .ok () ↔
      (∃ place, directory.writable path = .ok place) ∧
      ∃ bytes, Smf.ofScore division score = .ok bytes) ∧
    (IsAtomic directory path (Smf.ofScore division score) ↔
      ∀ place fault, directory.writable path = .ok place →
        Smf.ofScore division score = .error fault → directory.find? place = some (.file [])) ∧
    ∀ place fault, directory.writable path = .ok place → Smf.ofScore division score = .error fault →
      (directory.save path (Smf.ofScore division score)).2 = .error fault ∧
      ChangesOnly directory (directory.save path (Smf.ofScore division score)).1 place [] := by
  refine ⟨save_eq_ok_iff, isAtomic_iff, ?_⟩
  intro place fault hpath hfault
  rw [save_of_fault hpath hfault]
  exact ⟨rfl, changesOnly_put (hasRoom_of_writable hpath) []⟩

def songOnly : Directory := ⟨[(["song.mid"], .file [0x4D, 0x54, 0x68, 0x64])]⟩

theorem writable_songOnly : songOnly.writable "song.mid" = .ok ["song.mid"] := by
  decide +kernel

theorem ofScore_without_tempo : Smf.ofScore 960 (.empty 0 .common) = .error .divisionByZero := by
  rfl

/-- Over the same file one score is saved, and one without a tempo is not and empties it. -/
theorem save_score_over_songOnly :
    (songOnly.save "song.mid" (Smf.ofScore 960 (.emergency 90 .common))).2 = .ok () ∧
    (songOnly.save "song.mid" (Smf.ofScore 960 (.empty 0 .common))).2 = .error .divisionByZero ∧
    ChangesOnly songOnly (songOnly.save "song.mid" (Smf.ofScore 960 (.empty 0 .common))).1
      ["song.mid"] [] := by
  have hmade : ∃ bytes, Smf.ofScore (960 : ℕ) (.emergency 90 .common) = .ok bytes :=
    Score.ofScore_emergency_eq_ok (by decide) Meter.inRange_common (by decide)
  constructor
  · apply (save_score_isAtomic_iff songOnly "song.mid" 960 (.emergency 90 .common)).1.mpr
    exact ⟨⟨_, writable_songOnly⟩, hmade⟩
  · exact (save_score_isAtomic_iff songOnly "song.mid" 960 (.empty 0 .common)).2.2 _ _
      writable_songOnly ofScore_without_tempo

/-- A score without a tempo is not saved, and the file that was there is lost. -/
theorem save_empties_songOnly :
    ¬ ∀ (directory : Directory) (path : Text) (division : ℤ) (score : Score),
      IsAtomic directory path (Smf.ofScore division score) := by
  intro h
  have hatomic := h songOnly "song.mid" 960 (.empty 0 .common)
  have hempty := isAtomic_iff.mp hatomic _ _ writable_songOnly ofScore_without_tempo
  have hheld : songOnly.find? ["song.mid"] ≠ some (.file []) := by
    decide +kernel
  exact hheld hempty

end TrioScore.Directory
