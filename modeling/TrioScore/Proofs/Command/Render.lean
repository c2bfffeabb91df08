import TrioScore.Proofs.Command.Call
import TrioScore.Proofs.Command.Document
import TrioScore.Proofs.Command.Reached
import TrioScore.Proofs.Delivery

/-!
# What `render` writes

A run of `render` that ends well writes one file, where the path of its output leads, and leaves
everything else as it is. The file that it reads is left too, unless the output leads to it, as it
may through a link, and as it does without a path of its own for a name that already ends with its
suffix.
-/

namespace TrioScore

theorem Text.mem_of_mem_plain {c : CodePoint} {t : Text} (h : c ∈ t.plain) : c ∈ t := by
  have hbehind : ∀ (t : Text) (skip : ℕ), c ∈ Text.plainBehind skip t → c ∈ t := by
    intro t
    induction t with
    | nil => exact fun _ h => h
    | cons d t ih =>
      intro skip h
      cases skip with
      | succ skip => exact List.mem_cons_of_mem d (ih skip h)
      | zero =>
        rw [Text.plainBehind] at h
        split at h
        · exact (List.mem_cons.mp h).elim (fun heq => heq ▸ List.mem_cons_self ..)
            fun h => List.mem_cons_of_mem d (ih _ h)
        · exact List.mem_cons_of_mem d (ih _ h)
  exact hbehind t 0 h

namespace Command

/-- What is told when a file has been written, a path of characters being one that can be told. -/
theorem printGap?_farewell {path : Text} (h : ∀ c ∈ path, c.isSurrogate = false) (size : ℕ) :
    (farewell size path).printGap? = none := by
  have hchars : ∀ s : List Char, ∀ c ∈ Text.ofChars s, c.isSurrogate = false :=
    fun s => Text.IsOfChars.isSurrogate_eq_false ⟨s, rfl⟩
  refine Text.gap?_eq_none_iff.mpr fun c hc => ?_
  rcases List.mem_append.mp hc with hc | hc
  · have hmem := Text.mem_of_mem_plain hc
    simp only [List.mem_append] at hmem
    rcases hmem with (((hmem | hmem) | hmem) | hmem) | hmem
    · exact hchars _ c hmem
    · exact hchars _ c hmem
    · exact hchars _ c hmem
    · exact h c hmem
    · exact hchars _ c hmem
  · exact hchars ['\n'] c hc

section Emit
variable {delivery : Delivery} {path : Text} {base64 : Bool} {directory : Directory}

def encoded (delivery : Delivery) (base64 : Bool) : Text :=
  if base64 then Report.line (Text.ofChars (Base64.encode delivery.bytes)) else []

theorem emit_of_writable {place : Place}
    (h : directory.writable (Path.ofText path).toText = .ok place) :
    emit delivery path base64 directory =
      let told := farewell delivery.bytes.length path
      match told.printGap? with
      | some gap => .silent (.fault (.outsideUtf8 gap)) (directory.put place delivery.bytes)
      | none => .told (told ++ encoded delivery base64) (directory.put place delivery.bytes) := by
  rw [emit, Directory.write, h]
  rfl

theorem emit_of_error {fault : Fault}
    (h : directory.writable (Path.ofText path).toText = .error fault) :
    emit delivery path base64 directory = .unwritten "MIDI file" fault directory := by
  rw [emit, Directory.write, h]
  rfl

theorem unwritten_cases (subject : String) (fault : Fault) (directory : Directory) :
    (Outcome.unwritten subject fault directory).directory = directory ∧
      (Outcome.unwritten subject fault directory).code = 1 := by
  cases fault <;> exact ⟨rfl, rfl⟩

theorem directory_emit {place : Place}
    (h : directory.writable (Path.ofText path).toText = .ok place) :
    (emit delivery path base64 directory).directory = directory.put place delivery.bytes := by
  rw [emit_of_writable h]
  dsimp only
  split <;> rfl

theorem errors_emit {place : Place}
    (h : directory.writable (Path.ofText path).toText = .ok place) :
    (emit delivery path base64 directory).errors = [] := by
  rw [emit_of_writable h]
  dsimp only
  split <;> rfl

theorem ending_emit {place : Place}
    (h : directory.writable (Path.ofText path).toText = .ok place)
    (hpath : ∀ c ∈ path, c.isSurrogate = false) :
    (emit delivery path base64 directory).ending = .exit 0 := by
  rw [emit_of_writable h]
  dsimp only
  rw [printGap?_farewell hpath]
  rfl

end Emit

theorem exists_delivery {document : Json} (h : ¬ document.OverlongMeter) : ∃ delivery,
    (deliver exporter "input" document).2 = .ok delivery ∧
      delivery.bytes.head? = Smf.Reader.headerTag.head? := by
  obtain ⟨_, _, _, -, hbytes, hdelivered⟩ | ⟨_, _, _, _, -, -, hbytes, hdelivered⟩ :=
    deliver_eq_ok h "input"
  · exact ⟨_, hdelivered, Smf.head?_of_ofScore (by decide : 960 ≤ 65535) hbytes⟩
  · exact ⟨_, hdelivered, Smf.head?_of_ofScore (by decide : 960 ≤ 65535) hbytes⟩

/-- The operands are one path, which leads to a file with these contents that hold a document. -/
structure Loads (operands : List Text) (directory : Directory) (path : Text) (content : Bytes)
    (document : Json) : Prop where
  operands : operands = [path]
  look : directory.look path = .ok (.file content)
  document : document? content = some document

section WithDocument
variable {operands : List Text} {directory : Directory} {use : Text → Json → Outcome}

theorem withDocument_of_loads {path : Text} {content : Bytes} {document : Json}
    (h : Loads operands directory path content document) :
    withDocument operands directory use = use path document := by
  rw [h.operands]
  unfold withDocument
  dsimp only
  rw [h.look]
  dsimp only
  rw [h.document]

/-- Without a document, a command does nothing. -/
theorem withDocument_cases : (∃ path content document,
      Loads operands directory path content document) ∨
    ((withDocument operands directory use).directory = directory ∧
      (withDocument operands directory use).code ≠ 0) := by
  have hmisuse : (Outcome.silent .misuse directory).code ≠ 0 := Nat.succ_ne_zero 1
  cases operands with
  | nil => exact .inr ⟨rfl, hmisuse⟩
  | cons path further =>
    unfold withDocument
    dsimp only
    cases hlook : directory.look path with
    | error fault =>
      right
      cases fault <;> exact ⟨rfl, Nat.succ_ne_zero _⟩
    | ok entry =>
      cases entry with
      | folder => exact .inr ⟨rfl, hmisuse⟩
      | link target => exact .inr ⟨rfl, hmisuse⟩
      | file content =>
        cases further with
        | cons _ _ => exact .inr ⟨rfl, hmisuse⟩
        | nil =>
          cases hdocument : document? content with
          | some document => exact .inl ⟨path, content, document, rfl, hlook, hdocument⟩
          | none =>
            right
            dsimp only
            rw [hdocument]
            exact ⟨rfl, Nat.one_ne_zero⟩

theorem withDocument_of_no_document {path : Text} {content : Bytes} (hpath : operands = [path])
    (hlook : directory.look path = .ok (.file content)) (hdocument : document? content = none) :
    (withDocument operands directory use).code = 1 ∧
      (withDocument operands directory use).directory = directory := by
  rw [hpath]
  unfold withDocument
  dsimp only
  rw [hlook]
  dsimp only
  rw [hdocument]
  exact ⟨rfl, rfl⟩

end WithDocument

/-- The path that the output of `render` is written to. -/
def renderTarget (given : Arguments) (path : Text) : Text :=
  (given.value? "output").getD ((Path.ofText path).withSuffix ".mid").toText

/-- Without a path for it, the output has the name of the document with its own suffix. -/
theorem target_of_no_output {given : Arguments} (h : given.value? "output" = none) {path : Text} :
    (Path.ofText (renderTarget given path)).toText =
      ((Path.ofText path).withSuffix ".mid").toText := by
  rw [renderTarget, h, Option.getD_none,
    Path.ofText_toText ((Path.isWritten_ofText path).withSuffix (by decide) (by decide))]

section Render
variable {given : Arguments} {directory : Directory} {path : Text} {content : Bytes}
  {document : Json}

theorem render_of_delivery (h : Loads given.operands directory path content document)
    {delivery : Delivery} (hdelivery : (deliver exporter "input" document).2 = .ok delivery) :
    ∃ warning records, (delivery.isEmergency = false → warning = []) ∧
      render given directory = Outcome.after [] warning records
        (emit delivery (renderTarget given path) (given.has "base64") directory) := by
  rw [render, withDocument_of_loads h]
  dsimp only
  generalize deliver exporter "input" document = delivered at hdelivery
  obtain ⟨records, result⟩ := delivered
  obtain rfl : result = .ok delivery := hdelivery
  exact ⟨_, records, fun hnot => (by rw [hnot]; rfl), rfl⟩

theorem render_of_fault (h : Loads given.operands directory path content document) {fault : Fault}
    (hfault : (deliver exporter "input" document).2 = .error fault) :
    (render given directory).directory = directory ∧ (render given directory).code = 1 := by
  rw [render, withDocument_of_loads h]
  dsimp only
  generalize deliver exporter "input" document = delivered at hfault
  obtain ⟨records, result⟩ := delivered
  obtain rfl : result = .error fault := hfault
  exact ⟨rfl, rfl⟩

/-- What a run of `render` comes to: a delivery is written to the place where its path leads,
whether or not that can be told, or nothing is written. -/
theorem render_cases (given : Arguments) (directory : Directory) :
    (∃ path content document delivery place,
      Loads given.operands directory path content document ∧
      (deliver exporter "input" document).2 = .ok delivery ∧
      directory.writable (Path.ofText (renderTarget given path)).toText = .ok place ∧
      (render given directory).directory = directory.put place delivery.bytes) ∨
    ((render given directory).directory = directory ∧ (render given directory).code ≠ 0) := by
  rcases withDocument_cases with ⟨path, content, document, hloads⟩ | hnone
  · cases hdelivery : (deliver exporter "input" document).2 with
    | error fault => exact .inr ((render_of_fault hloads hdelivery).imp id fun h => by simp [h])
    | ok delivery =>
      obtain ⟨_, _, -, hrender⟩ := render_of_delivery hloads hdelivery
      rw [hrender, Outcome.directory_after, Outcome.code_after]
      cases hplace : directory.writable (Path.ofText (renderTarget given path)).toText with
      | ok place =>
        exact .inl ⟨path, content, document, delivery, place, hloads, hdelivery, hplace,
          directory_emit hplace⟩
      | error fault =>
        rw [emit_of_error hplace]
        exact .inr ((unwritten_cases _ fault directory).imp id fun h => by simp [h])
  · exact .inr hnone

/-- Nothing is written for a file without a document, nor where no file can be. -/
theorem render_of_failure (hpath : given.operands = [path])
    (hlook : directory.look path = .ok (.file content))
    (h : document? content = none ∨ ∃ fault,
      directory.writable (Path.ofText (renderTarget given path)).toText = .error fault) :
    (render given directory).code = 1 ∧ (render given directory).directory = directory := by
  cases hdocument : document? content with
  | none => exact withDocument_of_no_document hpath hlook hdocument
  | some document =>
    have hloads : Loads given.operands directory path content document :=
      ⟨hpath, hlook, hdocument⟩
    obtain ⟨fault, hfault⟩ := h.resolve_left (by simp [hdocument])
    cases hdelivery : (deliver exporter "input" document).2 with
    | error fault => exact (render_of_fault hloads hdelivery).symm
    | ok delivery =>
      obtain ⟨_, _, -, hrender⟩ := render_of_delivery hloads hdelivery
      rw [hrender, Outcome.directory_after, Outcome.code_after, emit_of_error hfault]
      exact (unwritten_cases _ fault directory).symm

end Render

theorem run_render {arguments : List Text} {surrounding : Option Text} {threshold : ℕ}
    {given : Arguments} {directory : Directory} {path : Text} {content : Bytes} {document : Json}
    {delivery : Delivery} {place : Place}
    (hcall : call? arguments surrounding = some ⟨.render, given, threshold⟩)
    (h : Loads given.operands directory path content document)
    (hdelivery : (deliver exporter "input" document).2 = .ok delivery)
    (hplace : directory.writable (Path.ofText (renderTarget given path)).toText = .ok place) :
    let outcome := run arguments surrounding directory
    outcome.directory = directory.put place delivery.bytes ∧
    (delivery.isEmergency = false → outcome.errors = []) ∧
    ((∀ c ∈ renderTarget given path, c.isSurrogate = false) → outcome.ending = .exit 0) := by
  obtain ⟨warning, records, hwarning, hrender⟩ := render_of_delivery h hdelivery
  dsimp only
  rw [run_of_call? hcall, Call.directory_outcome, Call.errors_outcome, Call.ending_outcome]
  dsimp only [Verb.act]
  rw [hrender, Outcome.directory_after, Outcome.errors_after, Outcome.ending_after,
    directory_emit hplace, errors_emit hplace, List.append_nil]
  exact ⟨rfl, hwarning, ending_emit hplace⟩

/-- A run of `render` that ends well writes what is delivered for the document to one file, the one
that the path of the output leads to. All other files are left. The one with the document is too,
unless its path leads to the same place; with no path for the output that is so if the name of the
document has another suffix and neither name is a link. A run that finds no document, or that cannot
open its output, fails and changes nothing. -/
theorem render_writes_one_file {arguments : List Text} {surrounding : Option Text}
    {given : Arguments} {threshold : ℕ} {path : Text}
    (hcall : call? arguments surrounding = some ⟨.render, given, threshold⟩)
    (hpath : given.operands = [path]) (directory : Directory) :
    let outcome := run arguments surrounding directory
    let target := (Path.ofText (renderTarget given path)).toText
    (outcome.code = 0 → ∃ content document delivery place,
      directory.look path = .ok (.file content) ∧ document? content = some document ∧
      (deliver exporter "input" document).2 = .ok delivery ∧
      directory.writable target = .ok place ∧
      outcome.directory.look target = .ok (.file delivery.bytes) ∧
      outcome.directory.find? place = some (.file delivery.bytes) ∧
      (∀ other, other ≠ place → outcome.directory.find? other = directory.find? other) ∧
      (directory.writable path = .ok place →
        outcome.directory.look path = .ok (.file delivery.bytes)) ∧
      (directory.writable path ≠ .ok place →
        outcome.directory.look path = .ok (.file content)) ∧
      (given.value? "output" = none → (Path.ofText path).withSuffix ".mid" ≠ Path.ofText path →
        directory.endsAtLink path = false → directory.endsAtLink target = false →
        directory.writable path ≠ .ok place)) ∧
    ∀ content, directory.look path = .ok (.file content) →
      (document? content = none ∨ ∃ fault, directory.writable target = .error fault) →
      outcome.code = 1 ∧ outcome.directory = directory := by
  dsimp only
  rw [run_of_call? hcall, Call.code_outcome, Call.directory_outcome]
  dsimp only [Verb.act]
  refine ⟨fun hcode => ?_, fun content hlook hfailure => render_of_failure hpath hlook hfailure⟩
  obtain ⟨_, content, document, delivery, place, hloads, hdelivery, hplace, hdirectory⟩ |
    ⟨-, hnot⟩ := render_cases given directory
  · obtain rfl := List.singleton_injective (hpath.symm.trans hloads.operands)
    have hroom := Directory.hasRoom_of_writable hplace
    rw [hdirectory]
    refine ⟨content, document, delivery, place, hloads.look, hloads.document, hdelivery, hplace,
      Directory.look_put_self hplace _, Directory.find?_put_self hroom.not_folder _,
      fun other hother => Directory.find?_put_of_ne hother _,
      fun hsame => Directory.look_put_self hsame _,
      fun hne => Directory.look_put_of_ne hloads.look hroom hne _, fun houtput hne => ?_⟩
    rw [target_of_no_output houtput] at hplace ⊢
    exact Directory.writable_ne_of_withSuffix (by decide) (by decide) (by decide) hne hplace
  · exact absurd hcode hnot

def arpeggio : Json := .object
  [("degrees", .array [.ofInt 1, .ofInt 5]),
   ("rhythm", .array [.ofBinary64 (.ofRat (5 / 2)), .ofBinary64 (.ofRat (1 / 3))])]

/-- A document with weights that are no integers and with a text that is not ASCII. -/
def waltz : Json := .object [("timeSignature", .text "3/4"), ("character", .text "träumerisch"),
  ("sections", .array [.object [("motifs", .array [arpeggio])]])]

def waltzContent : Bytes := asciiBytes (Json.print waltz)

theorem isReadable_waltz : waltz.IsReadable := by
  have htext : ∀ s : String, (Text.ofString s).IsJoined := fun s =>
    Text.IsOfChars.isJoined ⟨s.toList, rfl⟩
  have hweight : ∀ x : Binary64, (Json.ofBinary64 x).IsReadable := fun _ => .number trivial
  have hdegree : ∀ n : ℤ, n.natAbs < 10 → (Json.ofInt n).IsReadable := fun n hn =>
    .number (by
      rw [Number.IsReadable, Nat.length_toDigits_le_iff (by decide) (by decide)]
      exact hn.trans_le (Nat.le_self_pow (by decide) 10))
  have harpeggio : arpeggio.IsReadable := by
    refine .object (by simp; decide) (by simp [htext]) ?_
    simp only [List.forall_mem_cons]
    exact ⟨.array (by simp [hdegree]), .array (by simp [hweight]), by simp⟩
  have hsection : (Json.object [("motifs", .array [arpeggio])]).IsReadable :=
    .object (by simp) (by simp [htext]) (by simpa using .array (by simpa using harpeggio))
  refine .object (by simp; decide) (by simp [htext]) ?_
  simp only [List.forall_mem_cons]
  exact ⟨.text (htext _), .text (htext _), .array (by simpa using hsection), by simp⟩

theorem document?_waltz : document? waltzContent = some waltz := document?_print isReadable_waltz

theorem not_overlongMeter_waltz : ¬ waltz.OverlongMeter := by
  rintro ⟨fields, t, hfields, htext, hlong⟩
  obtain rfl := Json.object.inj hfields
  obtain rfl : Text.ofString "3/4" = t := Json.text.inj htext
  obtain ⟨digits, -, hfault⟩ := Meter.parse_of_overlong hlong
  have hparse : Meter.parse "3/4" = .ok ⟨3, 4⟩ := by decide +kernel
  cases hfault.symm.trans hparse

/-- A run that is given this document ends well where its output can be written and told. -/
theorem run_render_waltz {name path : Text} {directory : Directory} {place : Place}
    (hcall : call? [Text.ofString "render", name] none = some ⟨.render, ⟨[], [name]⟩, 30⟩)
    (hlook : directory.look name = .ok (.file waltzContent))
    (hpath : renderTarget ⟨[], [name]⟩ name = path) (hprint : ∀ c ∈ path, c.isSurrogate = false)
    (hplace : directory.writable (Path.ofText path).toText = .ok place) {delivery : Delivery}
    (hdelivery : (deliver exporter "input" waltz).2 = .ok delivery) :
    let outcome := run [Text.ofString "render", name] none directory
    outcome.code = 0 ∧ outcome.directory = directory.put place delivery.bytes := by
  subst hpath
  obtain ⟨hdirectory, -, hexit⟩ := run_render hcall ⟨rfl, hlook, document?_waltz⟩ hdelivery hplace
  exact ⟨Outcome.code_eq_zero_iff.mpr (hexit hprint), hdirectory⟩

def waltzIn (name : Text) : Directory := Directory.empty.put [name] waltzContent

theorem writable_songJson : Directory.empty.writable "song.json" = .ok ["song.json"] := by
  decide +kernel

theorem look_waltzIn_songJson : (waltzIn "song.json").look "song.json" = .ok (.file waltzContent) :=
  Directory.look_put_self writable_songJson waltzContent

theorem writable_songMid : Directory.empty.writable "song.mid" = .ok ["song.mid"] := by
  decide +kernel

theorem writable_waltzIn_songJson : (waltzIn "song.json").writable "song.mid" = .ok ["song.mid"] :=
  Directory.writable_put writable_songMid (Directory.hasRoom_of_writable writable_songJson) _

/-- With the suffix of a document the output is another file, and the document is left. -/
theorem render_writes_one_file_songJson : ∃ delivery,
    (deliver exporter "input" waltz).2 = .ok delivery ∧
    let outcome := run ["render", "song.json"] none (waltzIn "song.json")
    outcome.code = 0 ∧
    outcome.directory.find? ["song.mid"] = some (.file delivery.bytes) ∧
    outcome.directory.look "song.json" = .ok (.file waltzContent) := by
  obtain ⟨delivery, hdelivery, -⟩ := exists_delivery not_overlongMeter_waltz
  have hcall : call? ["render", "song.json"] none = some ⟨.render, ⟨[], ["song.json"]⟩, 30⟩ := by
    decide +kernel
  have htarget : renderTarget ⟨[], ["song.json"]⟩ "song.json" = "song.mid" := by decide +kernel
  have hplace := Directory.writable_normal writable_waltzIn_songJson
  obtain ⟨hexit, -⟩ := run_render_waltz hcall look_waltzIn_songJson htarget (by decide +kernel)
    hplace hdelivery
  obtain ⟨hwritten, -⟩ := render_writes_one_file hcall rfl (waltzIn "song.json")
  obtain ⟨content, document, delivery', place, hlook, hdocument, hdelivery', hplace', -, hfound, -,
    -, hleft, hother⟩ := hwritten hexit
  obtain rfl := Entry.file.inj (Except.ok.inj (hlook.symm.trans look_waltzIn_songJson))
  obtain rfl := Option.some.inj (hdocument.symm.trans document?_waltz)
  obtain rfl := Except.ok.inj (hdelivery'.symm.trans hdelivery)
  obtain rfl := Except.ok.inj (hplace'.symm.trans (htarget ▸ hplace))
  refine ⟨delivery', hdelivery, hexit, hfound, hleft (hother rfl ?_ ?_ ?_)⟩
  all_goals decide +kernel

/-- A directory where two names are links to one file. -/
def songLinks : Directory := ⟨[(["song.json"], .link ["waltz"]), (["song.mid"], .link ["waltz"])]⟩

/-- A document is written over where it has the suffix of the output, and where the name with that
suffix is a link to the same file. -/
theorem render_overwrites_document : ∃ bytes, bytes ≠ waltzContent ∧
    document? waltzContent = some waltz ∧
    ∀ entry ∈ [(Text.ofString "song.mid", waltzIn "song.mid"),
        ("song.json", songLinks.put ["waltz"] waltzContent)],
      let outcome := run ["render", entry.1] none entry.2
      outcome.code = 0 ∧ entry.2.look entry.1 = .ok (.file waltzContent) ∧
      outcome.directory.look entry.1 = .ok (.file bytes) := by
  obtain ⟨delivery, hdelivery, hhead⟩ := exists_delivery not_overlongMeter_waltz
  have hne : delivery.bytes ≠ waltzContent := by
    intro heq
    rw [heq] at hhead
    exact absurd (Option.some.inj hhead) (by decide +kernel)
  -- Both names lead to a place that the output leads to as well.
  have hover : ∀ {name : Text} {directory : Directory} {place : Place},
      call? ["render", name] none = some ⟨.render, ⟨[], [name]⟩, 30⟩ →
      renderTarget ⟨[], [name]⟩ name = "song.mid" →
      directory.look name = .ok (.file waltzContent) → directory.writable name = .ok place →
      directory.writable "song.mid" = .ok place →
      let outcome := run ["render", name] none directory
      outcome.code = 0 ∧ directory.look name = .ok (.file waltzContent) ∧
      outcome.directory.look name = .ok (.file delivery.bytes) := by
    intro name directory place hcall htarget hlook hname hplace
    obtain ⟨hexit, hdirectory⟩ := run_render_waltz hcall hlook htarget (by decide +kernel)
      (Directory.writable_normal hplace) hdelivery
    refine ⟨hexit, hlook, ?_⟩
    rw [hdirectory]
    exact Directory.look_put_self hname _
  have hroom := Directory.hasRoom_of_writable writable_songMid
  have hsong : (waltzIn "song.mid").writable "song.mid" = .ok ["song.mid"] :=
    Directory.writable_put writable_songMid hroom _
  have hjson : songLinks.writable "song.json" = .ok ["waltz"] := by decide +kernel
  have hmid : songLinks.writable "song.mid" = .ok ["waltz"] := by decide +kernel
  have hroom' := Directory.hasRoom_of_writable hjson
  refine ⟨delivery.bytes, hne, document?_waltz, List.forall_mem_cons.mpr ⟨?_,
    List.forall_mem_singleton.mpr ?_⟩⟩
  · exact hover (by decide +kernel) (by decide +kernel)
      (Directory.look_put_self writable_songMid waltzContent) hsong hsong
  · exact hover (by decide +kernel) (by decide +kernel)
      (Directory.look_put_self hjson waltzContent) (Directory.writable_put hjson hroom' _)
      (Directory.writable_put hmid hroom' _)

end Command
end TrioScore
