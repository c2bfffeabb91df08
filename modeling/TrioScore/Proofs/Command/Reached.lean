import TrioScore.Proofs.Command.Directory

/-!
# Where written paths lead

A path that leads to a file, or to where one can be written, ends with a name of that file or with a
link. The text of the path without its empty steps and single dots leads to the same place.
-/

namespace TrioScore.Directory

theorem check_eq_ok_iff {t : Text} :
    check t = .ok () ↔ t.nameGap? = none ∧ ∀ c ∈ t, c.value ≠ 0 := by
  rw [check]
  cases t.nameGap? with
  | some gap => simp
  | none =>
    dsimp only
    split_ifs with hzero
    · simpa using hzero
    · simpa using hzero

theorem checkLength_eq_ok_iff {t : Text} :
    checkLength t = .ok () ↔ t ≠ [] ∧ t.utf8.length ≤ 4095 := by
  rw [checkLength]
  split_ifs with hempty hlong
  · simp [List.isEmpty_iff.mp hempty]
  · simp only [false_iff, not_and]
    omega
  · simpa [← List.isEmpty_iff, hempty] using hlong

theorem withPath_eq_ok_iff {α : Type} {t : Text} {found : Except FileFault α} {a : α} :
    withPath t found = .ok a ↔ check t = .ok () ∧ checkLength t = .ok () ∧ found = .ok a := by
  have hmap : ∀ x : Except FileFault α,
      x.mapError (fun fault => Fault.file fault t) = .ok a ↔ x = .ok a := by
    intro x
    cases x <;> simp [Except.mapError]
  simp only [withPath, bind_eq_ok_iff, hmap]
  exact ⟨fun ⟨(), hcheck, (), hlength, hfound⟩ => ⟨hcheck, hlength, hfound⟩,
    fun ⟨hcheck, hlength, hfound⟩ => ⟨(), hcheck, (), hlength, hfound⟩⟩

structure Reaches (directory : Directory) (t : Text) (place : Place) : Prop where
  check : check t = .ok ()
  checkLength : checkLength t = .ok ()
  endsAsFolder : endsAsFolder t = false
  walks : ∃ links, Walks directory linkLimit (start t) (names t) links place
  room : directory.HasRoom place

/-- Whether the last name in a path is that of a link. -/
def endsAtLink (directory : Directory) (t : Text) : Bool :=
  match directory.walk linkLimit (start t) (names t).dropLast, (names t).getLast? with
  | .ok (_, folder), some name =>
    match directory.find? (next folder name) with
    | some (.link _) => true
    | _ => false
  | _, _ => false

section Reaches
variable {directory : Directory} {t : Text} {place : Place}

theorem find?_start (directory : Directory) (t : Text) :
    directory.find? (start t) = some .folder := by
  rw [start]
  split_ifs <;> exact find?_of_isSurrounding directory rfl

theorem hasRoom_of_walks {links left : ℕ} {names : List Text}
    (h : Walks directory links (start t) names left place)
    (hplace : directory.find? place ≠ some .folder) : directory.HasRoom place where
  not_folder := hplace
  not_link := h.not_link fun target => by
    rw [find?_start]
    simp

/-- A path to a place for a file has a last name, which does not stay where it is. -/
theorem Reaches.names_eq_concat (h : directory.Reaches t place) :
    ∃ name, (names t).getLast? = some name ∧ names t = (names t).dropLast ++ [name] ∧
      name ≠ Path.here := by
  obtain ⟨links, hwalks⟩ := h.walks
  rcases List.eq_nil_or_concat' (names t) with hnil | ⟨front, name, hnames⟩
  · rw [hnil] at hwalks
    cases hwalks
    exact absurd (find?_start directory t) h.room.not_folder
  · rw [hnames] at hwalks ⊢
    refine ⟨name, List.getLast?_concat .., by rw [List.dropLast_concat], ?_⟩
    rintro rfl
    obtain ⟨_, _, -, hhere⟩ := hwalks.exists_of_append
    obtain ⟨hfolder, -, rfl⟩ := Walks.here_iff.mp hhere
    exact h.room.not_folder hfolder

theorem writable_eq_ok_iff : directory.writable t = .ok place ↔ directory.Reaches t place := by
  rw [writable, withPath_eq_ok_iff]
  constructor
  · rintro ⟨hcheck, hlength, h⟩
    obtain ⟨⟨links, folder⟩, hfolder, h⟩ := bind_eq_ok_iff.mp h
    obtain ⟨_, _, hfront, hhere⟩ := (walk_eq_ok_iff.mp hfolder).exists_of_append
    obtain ⟨-, rfl, rfl⟩ := Walks.here_iff.mp hhere
    dsimp only at h
    split at h
    · cases h
    · cases h
    · next name hlast hends =>
      obtain ⟨⟨left, reached⟩, hname, h⟩ := bind_eq_ok_iff.mp h
      dsimp only at h
      split_ifs at h with hfound
      · cases h
      obtain rfl := Except.ok.inj h
      have hwalks := hfront.append (walk_eq_ok_iff.mp hname)
      rw [List.dropLast_append_getLast? name hlast] at hwalks
      exact ⟨hcheck, hlength, hends, ⟨left, hwalks⟩, hasRoom_of_walks hwalks hfound⟩
  · intro h
    obtain ⟨left, hwalks⟩ := h.walks
    obtain ⟨name, hlast, hnames, -⟩ := h.names_eq_concat
    rw [hnames] at hwalks
    obtain ⟨links, folder, hfront, hfolder, hname⟩ := hwalks.find?_of_concat
    have hhere := hfront.append (Walks.here_iff.mpr ⟨hfolder, rfl, rfl⟩)
    refine ⟨h.check, h.checkLength, bind_eq_ok_iff.mpr ⟨(links, folder),
      walk_eq_ok_iff.mpr hhere, ?_⟩⟩
    dsimp only
    rw [hlast, h.endsAsFolder]
    refine bind_eq_ok_iff.mpr ⟨(left, place), walk_eq_ok_iff.mpr hname, ?_⟩
    dsimp only
    rw [if_neg h.room.not_folder]
    rfl

theorem look_eq_file_iff {content : Bytes} : directory.look t = .ok (.file content) ↔
    ∃ place, directory.Reaches t place ∧ directory.find? place = some (.file content) := by
  rw [look, withPath_eq_ok_iff]
  constructor
  · rintro ⟨hcheck, hlength, h⟩
    obtain ⟨⟨links, place⟩, hwalk, h⟩ := bind_eq_ok_iff.mp h
    dsimp only at h
    split at h
    · cases h
    · next found hfound =>
      split_ifs at h with hends
      obtain rfl := Entry.file.inj (Except.ok.inj h)
      have hwalks := walk_eq_ok_iff.mp hwalk
      exact ⟨place, ⟨hcheck, hlength, by simpa using hends, ⟨links, hwalks⟩,
        hasRoom_of_walks hwalks (by simp [hfound])⟩, hfound⟩
    · cases h
  · rintro ⟨place, ⟨hcheck, hlength, hends, ⟨links, hwalks⟩, -⟩, hfound⟩
    refine ⟨hcheck, hlength, bind_eq_ok_iff.mpr ⟨(links, place), walk_eq_ok_iff.mpr hwalks, ?_⟩⟩
    dsimp only
    rw [hfound]
    dsimp only
    rw [hends]
    rfl

namespace Reaches

/-- A last name that is no link is one in a folder, and neither of the two that stand for
folders. -/
theorem place_eq (h : directory.Reaches t place) (hlink : directory.endsAtLink t = false) :
    ∃ folder name, (names t).getLast? = some name ∧ place = folder ++ [name] := by
  obtain ⟨left, hwalks⟩ := h.walks
  obtain ⟨name, hlast, hnames, hhere⟩ := h.names_eq_concat
  rw [hnames] at hwalks
  obtain ⟨links, folder, hfront, hname⟩ := hwalks.exists_of_append
  refine ⟨folder, name, hlast, ?_⟩
  cases hname with
  | link hstep hfound _ =>
    obtain ⟨-, -, rfl⟩ := step_eq_ok_iff.mp hstep
    rw [endsAtLink, walk_eq_ok_iff.mpr hfront, hlast] at hlink
    dsimp only at hlink
    rw [hfound] at hlink
    cases hlink
  | step hstep _ hrest =>
    cases hrest
    have habove : name ≠ above := by
      rintro rfl
      exact h.room.not_folder (((enclosed_start t).walks hfront).find?_above hstep)
    obtain ⟨-, -, rfl⟩ := step_eq_ok_iff.mp hstep
    rw [next, if_neg hhere, if_pos (by simpa using habove)]

theorem hasBytes (h : directory.Reaches t place) : t.HasBytes :=
  Text.hasBytes_of_nameGap? (check_eq_ok_iff.mp h.check).1

theorem names_eq (h : directory.Reaches t place) :
    names t = (Path.names t).map Text.asFound :=
  Path.names_asFound h.hasBytes

theorem exists_written (h : directory.Reaches t place) : ∃ written,
    (Path.ofText t).parts.getLast? = some written ∧ written.HasBytes ∧
      (names t).getLast? = some written.asFound := by
  obtain ⟨name, hlast, -, hhere⟩ := h.names_eq_concat
  have hfound := hlast
  rw [h.names_eq, List.getLast?_map] at hfound
  obtain ⟨written, hwritten, rfl⟩ := Option.map_eq_some_iff.mp hfound
  have hmem := (List.mem_filter.mp (List.mem_of_getLast? hwritten)).1
  have hbytes : written.HasBytes := fun c hc =>
    h.hasBytes c ((Path.sublist_of_mem_split hmem).subset hc)
  have hne : written ≠ Path.here := fun heq =>
    hhere ((Text.asFound_eq_iff (by decide) hbytes).mpr heq)
  obtain ⟨front, hfront⟩ := List.getLast?_eq_some_iff.mp hwritten
  refine ⟨written, ?_, hbytes, hlast⟩
  rw [Path.ofText, Path.steps, hfront, List.filter_append,
    List.filter_cons_of_pos (by simpa using hne)]
  exact List.getLast?_concat ..

/-- The names of the steps are those that are no single dots. -/
theorem steps_eq (h : directory.Reaches t place) :
    (Path.steps t).map Text.asFound = (names t).filter (· != Path.here) := by
  rw [h.names_eq, List.filter_map, Path.steps]
  refine congrArg _ (List.filter_congr fun written hwritten => ?_)
  have hbytes : written.HasBytes := fun c hc =>
    h.hasBytes c ((Path.sublist_of_mem_split (List.mem_filter.mp hwritten).1).subset hc)
  have hhere : written.asFound = Path.here ↔ written = Path.here :=
    Text.asFound_eq_iff (by decide) hbytes
  rw [Function.comp_apply, Bool.eq_iff_iff, bne_iff_ne, bne_iff_ne, Ne, Ne, hhere]

/-- A path leads where its text leads that is written again. -/
theorem normal (h : directory.Reaches t place) :
    directory.Reaches (Path.ofText t).toText place := by
  obtain ⟨written, hwritten, -, -⟩ := h.exists_written
  have hne : (Path.ofText t).parts ≠ [] := fun hempty => by
    rw [hempty] at hwritten
    cases hwritten
  have hpath := Path.isWritten_ofText t
  have hsub := Path.toText_ofText_sublist hne
  have hnames : names (Path.ofText t).toText = (names t).filter (· != Path.here) := by
    rw [names, Path.names_asFound fun c hc => h.hasBytes c (hsub.subset hc),
      Path.names_toText hpath hne]
    exact h.steps_eq
  have hstart : start (Path.ofText t).toText = start t := by
    have hroot := congrArg Path.root (Path.ofText_toText hpath)
    have hroot' : Path.rootOf (Path.ofText t).toText = Path.rootOf t := hroot
    rw [start, start, hroot']
  obtain ⟨c, hstroke, hlast⟩ := Path.getLast?_toText hne hpath
  obtain ⟨hgap, hzero⟩ := check_eq_ok_iff.mp h.check
  obtain ⟨-, hlength⟩ := checkLength_eq_ok_iff.mp h.checkLength
  obtain ⟨links, hwalks⟩ := h.walks
  refine {
    check := check_eq_ok_iff.mpr ⟨Text.nameGap?_eq_none_iff.mpr fun c hc =>
      Text.nameGap?_eq_none_iff.mp hgap c (hsub.subset hc), fun c hc => hzero c (hsub.subset hc)⟩
    checkLength := checkLength_eq_ok_iff.mpr ⟨?_, (hsub.flatMap _).length_le.trans hlength⟩
    endsAsFolder := ?_
    walks := ⟨links, by
      rw [hnames, hstart]
      exact hwalks.filter⟩
    room := h.room }
  · rintro hempty
    rw [hempty] at hlast
    cases hlast
  · rw [Directory.endsAsFolder, hlast]
    simpa using hstroke

theorem put (h : directory.Reaches t place) {target : Place}
    (htarget : directory.HasRoom target) (content : Bytes) :
    (directory.put target content).Reaches t place where
  check := h.check
  checkLength := h.checkLength
  endsAsFolder := h.endsAsFolder
  walks := by
    obtain ⟨links, hwalks⟩ := h.walks
    exact ⟨links, hwalks.put htarget content⟩
  room := hasRoom_put htarget content h.room

/-- With another suffix a last name leads elsewhere, unless one of the two is a link. -/
theorem ne_of_withSuffix (h : directory.Reaches t place) (hlink : directory.endsAtLink t = false)
    {suffix : Text} (hascii : suffix.IsAscii) (hlong : 2 ≤ suffix.length)
    (hstroke : Path.stroke ∉ suffix)
    (hne : (Path.ofText t).withSuffix suffix ≠ Path.ofText t) {other : Place}
    (hother : directory.Reaches ((Path.ofText t).withSuffix suffix).toText other)
    (hlink' : directory.endsAtLink ((Path.ofText t).withSuffix suffix).toText = false) :
    other ≠ place := by
  obtain ⟨written, hwritten, hbytes, hlast⟩ := h.exists_written
  obtain ⟨suffixed, hsuffixed, -, hlast'⟩ := hother.exists_written
  rw [Path.ofText_toText ((Path.isWritten_ofText t).withSuffix hlong hstroke),
    Path.withSuffix_of_getLast? hwritten, List.getLast?_concat] at hsuffixed
  obtain rfl := Option.some.inj hsuffixed
  obtain ⟨folder, name, hname, rfl⟩ := h.place_eq hlink
  obtain ⟨within, name', hname', rfl⟩ := hother.place_eq hlink'
  obtain rfl := Option.some.inj (hname.symm.trans hlast)
  obtain rfl := Option.some.inj (hname'.symm.trans hlast')
  intro hplace
  -- The last names are the same bytes, and they begin with the same stem.
  obtain ⟨-, hnames⟩ := List.append_inj' hplace rfl
  have hsame := congrArg Text.utf8 (List.singleton_injective hnames)
  obtain ⟨rest, hrest⟩ := Path.stem_isPrefix written
  rw [Text.utf8_asFound, Text.utf8_asFound, Text.utf8_append] at hsame
  nth_rewrite 2 [← hrest] at hsame
  rw [Text.utf8_append] at hsame
  have hrest_bytes : Text.HasBytes rest := fun c hc =>
    hbytes c (hrest ▸ List.mem_append_right _ hc)
  obtain rfl := Text.eq_of_utf8_eq hascii hrest_bytes (List.append_cancel_left hsame).symm
  obtain ⟨front, hfront⟩ := List.getLast?_eq_some_iff.mp hwritten
  refine hne ?_
  rw [Path.withSuffix_of_getLast? hwritten, hrest, hfront, List.dropLast_concat, ← hfront]

end Reaches

theorem hasRoom_of_writable (h : directory.writable t = .ok place) : directory.HasRoom place :=
  (writable_eq_ok_iff.mp h).room

theorem look_put_self (h : directory.writable t = .ok place) (content : Bytes) :
    (directory.put place content).look t = .ok (.file content) := by
  have hreaches := writable_eq_ok_iff.mp h
  exact look_eq_file_iff.mpr ⟨place, hreaches.put hreaches.room content,
    find?_put_self hreaches.room.not_folder content⟩

theorem writable_put (h : directory.writable t = .ok place) {target : Place}
    (htarget : directory.HasRoom target) (content : Bytes) :
    (directory.put target content).writable t = .ok place :=
  writable_eq_ok_iff.mpr ((writable_eq_ok_iff.mp h).put htarget content)

/-- A file is found as it was if its path does not lead to the one that is written. -/
theorem look_put_of_ne {before : Bytes} (h : directory.look t = .ok (.file before))
    {target : Place} (htarget : directory.HasRoom target)
    (hne : directory.writable t ≠ .ok target) (content : Bytes) :
    (directory.put target content).look t = .ok (.file before) := by
  obtain ⟨place, hreaches, hfound⟩ := look_eq_file_iff.mp h
  have hplace : place ≠ target := fun heq => hne (heq ▸ writable_eq_ok_iff.mpr hreaches)
  exact look_eq_file_iff.mpr ⟨place, hreaches.put htarget content,
    (find?_put_of_ne hplace content).trans hfound⟩

/-- A file is found as it was if what is written, wherever that is, is the same. -/
theorem look_put_same {content : Bytes} (h : directory.look t = .ok (.file content))
    {target : Place} (htarget : directory.HasRoom target) :
    (directory.put target content).look t = .ok (.file content) := by
  by_cases hsame : directory.writable t = .ok target
  · exact look_put_self hsame content
  · exact look_put_of_ne h htarget hsame content

/-- With a suffix that it does not have, a path leads to another file, unless there is a link. -/
theorem writable_ne_of_withSuffix {suffix : Text} (hascii : suffix.IsAscii)
    (hlong : 2 ≤ suffix.length) (hstroke : Path.stroke ∉ suffix)
    (hne : (Path.ofText t).withSuffix suffix ≠ Path.ofText t)
    (h : directory.writable ((Path.ofText t).withSuffix suffix).toText = .ok place)
    (hlink : directory.endsAtLink t = false)
    (hlink' : directory.endsAtLink ((Path.ofText t).withSuffix suffix).toText = false) :
    directory.writable t ≠ .ok place := by
  intro hsame
  exact (writable_eq_ok_iff.mp hsame).ne_of_withSuffix hlink hascii hlong hstroke hne
    (writable_eq_ok_iff.mp h) hlink' rfl

/-- A path and its text that is written again lead to the same place. -/
theorem writable_normal (h : directory.writable t = .ok place) :
    directory.writable (Path.ofText t).toText = .ok place :=
  writable_eq_ok_iff.mpr (writable_eq_ok_iff.mp h).normal

end Reaches
end TrioScore.Directory
