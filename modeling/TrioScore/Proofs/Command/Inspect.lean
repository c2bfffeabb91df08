import TrioScore.Proofs.Command.Render
import TrioScore.Proofs.Delivery.Recovered

/-!
# What `inspect` shows

The document that a run of `inspect` begins its output with describes the same piece as the one that
the run was given. Saved in a file, it is shown in the same way and rendered as the same bytes.
-/

namespace TrioScore

/-- A repaired piece is delivered as the document that it comes from. -/
theorem deliver_toJson_of_repair {document : Json} {piece : Piece}
    (h : Piece.repair document = .ok piece) (exporter : Exporter) (provider : Text) :
    (deliver exporter provider piece.toJson).2 = (deliver exporter provider document).2 := by
  have hagain : Piece.repair piece.toJson = .ok piece :=
    Piece.repair_toJson_of_isSane (Piece.isSane_of_repair h)
  obtain ⟨score, hscore, hregular, -, htext⟩ := Score.exists_regular_ofPiece h
  have hmeter : Meter.parse piece.timeSignature = .ok score.meter := by
    rw [htext]
    exact Meter.parse_toText hregular.meter
  have hrendered : ∀ d, Piece.repair d = .ok piece → d.score = .ok (piece, score) := by
    intro d hd
    rw [Json.score, hd, ok_bind, hscore]
    rfl
  have hemergency : ∀ call fault, Delivery.emergency exporter call provider piece.toJson fault =
      Delivery.emergency exporter call provider document fault := by
    intro call fault
    rw [Delivery.emergency_of_best (Delivery.tempoAndMeter_of_repair hagain hmeter),
      Delivery.emergency_of_best (Delivery.tempoAndMeter_of_repair h hmeter)]
  rw [deliver, deliver, hrendered _ hagain, hrendered _ h]
  dsimp only
  cases exporter 0 score with
  | ok bytes => rfl
  | error fault => exact hemergency 1 fault

namespace Command

theorem not_overlongMeter_of_repair {document : Json} {piece : Piece}
    (h : Piece.repair document = .ok piece) : ¬ document.OverlongMeter := by
  intro hlong
  obtain ⟨_, -, hfault, -⟩ := Delivery.faults_of_overlongMeter hlong
  cases h.symm.trans hfault

section Inspect
variable {given : Arguments} {directory : Directory} {path : Text} {content : Bytes}
  {document : Json} {piece : Piece} {score : Score}

theorem inspect_of_repair (h : Loads given.operands directory path content document)
    (hrepair : Piece.repair document = .ok piece) (hscore : Score.ofPiece piece = .ok score) :
    ∃ records, inspect given directory =
      Outcome.after [] [] records (.told (inspection piece score) directory) := by
  rw [inspect, withDocument_of_loads h]
  dsimp only
  rw [hrepair]
  dsimp only
  rw [hscore]
  exact ⟨_, rfl⟩

theorem run_inspect {arguments : List Text} {surrounding : Option Text} {threshold : ℕ}
    (hcall : call? arguments surrounding = some ⟨.inspect, given, threshold⟩)
    (h : Loads given.operands directory path content document)
    (hrepair : Piece.repair document = .ok piece) (hscore : Score.ofPiece piece = .ok score) :
    (run arguments surrounding directory).ending = .exit 0 ∧
      (run arguments surrounding directory).output = inspection piece score ∧
      (run arguments surrounding directory).errors = [] := by
  obtain ⟨records, hinspect⟩ := inspect_of_repair h hrepair hscore
  rw [run_of_call? hcall, Call.outcome]
  dsimp only [Verb.act]
  rw [hinspect]
  exact ⟨rfl, rfl, rfl⟩

theorem exists_of_inspect (h : (inspect given directory).ending = .exit 0) :
    ∃ path content document piece, Loads given.operands directory path content document ∧
      Piece.repair document = .ok piece := by
  rcases withDocument_cases with ⟨path, content, document, hloads⟩ | ⟨-, hcode⟩
  · cases hrepair : Piece.repair document with
    | ok piece => exact ⟨path, content, document, piece, hloads, hrepair⟩
    | error fault =>
      rw [inspect, withDocument_of_loads hloads] at h
      dsimp only at h
      rw [hrepair] at h
      cases fault <;> cases h
  · exact absurd (Outcome.code_eq_zero_iff.mpr h) hcode

end Inspect

/-- Every run of `render` on a path writes these bytes, to the place that the path of its output
leads to, and prints them in base 64 if asked to. -/
def RendersAs (directory : Directory) (path : Text) (bytes : Bytes) : Prop :=
  ∀ (arguments : List Text) (surrounding : Option Text) (given : Arguments) (threshold : ℕ),
    call? arguments surrounding = some ⟨.render, given, threshold⟩ → given.operands = [path] →
    ∀ place, directory.writable (Path.ofText (renderTarget given path)).toText = .ok place →
      let outcome := run arguments surrounding directory
      outcome.directory = directory.put place bytes ∧
      (outcome.ending = .exit 0 → outcome.output =
        farewell bytes.length (renderTarget given path) ++
          if given.has "base64" then Report.line (Text.ofChars (Base64.encode bytes)) else [])

theorem rendersAs_of_delivery {directory : Directory} {path : Text} {content : Bytes}
    {document : Json} (hlook : directory.look path = .ok (.file content))
    (hdocument : document? content = some document) {delivery : Delivery}
    (hdelivery : (deliver exporter "input" document).2 = .ok delivery) :
    RendersAs directory path delivery.bytes := by
  intro arguments surrounding given threshold hcall hpath place hplace
  obtain ⟨warning, records, -, hrender⟩ := render_of_delivery ⟨hpath, hlook, hdocument⟩ hdelivery
  dsimp only
  rw [run_of_call? hcall, Call.directory_outcome, Call.ending_outcome, Call.output_outcome]
  dsimp only [Verb.act]
  rw [hrender, Outcome.directory_after, Outcome.ending_after, Outcome.output_after,
    directory_emit hplace, emit_of_writable hplace]
  refine ⟨rfl, fun hexit => ?_⟩
  dsimp only at hexit ⊢
  split at hexit
  · cases hexit
  · rfl

/-- What a run of `inspect` shows first is a document of the piece that it repaired. In whatever
file it is saved, with white space behind it, that file is shown as the first one was, and both are
rendered as the same bytes. -/
theorem inspected_document_recurs {arguments : List Text} {surrounding : Option Text}
    {given : Arguments} {threshold : ℕ} {directory : Directory}
    (hcall : call? arguments surrounding = some ⟨.inspect, given, threshold⟩)
    (hexit : (run arguments surrounding directory).ending = .exit 0) :
    ∃ path content document piece report, given.operands = [path] ∧
      directory.look path = .ok (.file content) ∧ document? content = some document ∧
      Piece.repair document = .ok piece ∧
      (run arguments surrounding directory).output =
        Report.line (Text.ofChars (pieceText piece)) ++ report ∧
      (Json.read? (some digitLimit) (pieceText piece)).map Piece.repair = some (.ok piece) ∧
      ∀ (saved : Directory) (name : Text) (spaces : List Char),
        (∀ c ∈ spaces, Json.Token.isSpace c = true) →
        saved.look name = .ok (.file (asciiBytes (pieceText piece ++ spaces))) →
        (∀ (arguments' : List Text) (surrounding' : Option Text) (given' : Arguments)
            (threshold' : ℕ), call? arguments' surrounding' = some ⟨.inspect, given', threshold'⟩ →
          given'.operands = [name] → (run arguments' surrounding' saved).ending = .exit 0 ∧
            (run arguments' surrounding' saved).output =
              (run arguments surrounding directory).output ∧
            (run arguments' surrounding' saved).errors =
              (run arguments surrounding directory).errors) ∧
        ∃ bytes, RendersAs directory path bytes ∧ RendersAs saved name bytes := by
  rw [run_of_call? hcall, Call.ending_outcome] at hexit
  obtain ⟨path, content, document, piece, hloads, hrepair⟩ := exists_of_inspect hexit
  obtain ⟨score, hscore, -⟩ := Score.exists_regular_ofPiece hrepair
  obtain ⟨-, houtput, herrors⟩ := run_inspect hcall hloads hrepair hscore
  have hreadable := Piece.isReadable_toJson_of_repair (isReadable_of_document? hloads.document)
    hrepair
  have hagain : Piece.repair piece.toJson = .ok piece :=
    Piece.repair_toJson_of_isSane (Piece.isSane_of_repair hrepair)
  refine ⟨path, content, document, piece, Report.scoreLines score, hloads.operands, hloads.look,
    hloads.document, hrepair, houtput, ?_, fun saved name spaces hspaces hlook => ⟨?_, ?_⟩⟩
  · rw [pieceText, Json.read?_print hreadable, Option.map_some, hagain]
  · intro arguments' surrounding' given' threshold' hcall' hname
    obtain ⟨hexit', houtput', herrors'⟩ := run_inspect hcall'
      ⟨hname, hlook, document?_asciiBytes hreadable hspaces⟩ hagain hscore
    exact ⟨hexit', houtput'.trans houtput.symm, herrors'.trans herrors.symm⟩
  · obtain ⟨delivery, hdelivery, -⟩ := exists_delivery (not_overlongMeter_of_repair hrepair)
    exact ⟨delivery.bytes, rendersAs_of_delivery hloads.look hloads.document hdelivery,
      rendersAs_of_delivery hlook (document?_asciiBytes hreadable hspaces)
        ((deliver_toJson_of_repair hrepair _ _).trans hdelivery)⟩

theorem inspected_document_recurs_waltz : ∃ piece bytes,
    let shown := run ["inspect", "song.json"] none (waltzIn "song.json")
    let saved := Directory.empty.put ["copy.json"] (asciiBytes (pieceText piece ++ ['\n']))
    Piece.repair waltz = .ok piece ∧ shown.ending = .exit 0 ∧
    (run ["inspect", "copy.json"] none saved).output = shown.output ∧
    RendersAs (waltzIn "song.json") "song.json" bytes ∧ RendersAs saved "copy.json" bytes := by
  have hcall : call? ["inspect", "song.json"] none =
      some ⟨.inspect, ⟨[], ["song.json"]⟩, 30⟩ := by
    decide +kernel
  have hcopy : call? ["inspect", "copy.json"] none =
      some ⟨.inspect, ⟨[], ["copy.json"]⟩, 30⟩ := by
    decide +kernel
  have hplace : Directory.empty.writable "copy.json" = .ok ["copy.json"] := by decide +kernel
  obtain ⟨piece, hrepair⟩ := Piece.exists_repair not_overlongMeter_waltz
  obtain ⟨score, hscore, -⟩ := Score.exists_regular_ofPiece hrepair
  obtain ⟨hexit, -, -⟩ :=
    run_inspect hcall ⟨rfl, look_waltzIn_songJson, document?_waltz⟩ hrepair hscore
  obtain ⟨path, content, document, piece', report, hpath, hlook, hdocument, hrepair', -, -,
    hsaved⟩ := inspected_document_recurs hcall hexit
  obtain rfl := List.singleton_injective hpath
  obtain rfl := Entry.file.inj (Except.ok.inj (hlook.symm.trans look_waltzIn_songJson))
  obtain rfl := Option.some.inj (hdocument.symm.trans document?_waltz)
  obtain rfl := Except.ok.inj (hrepair'.symm.trans hrepair)
  obtain ⟨hshown, bytes, hbytes, hbytes'⟩ := hsaved
    (Directory.empty.put ["copy.json"] (asciiBytes (pieceText piece' ++ ['\n']))) "copy.json"
    ['\n'] (List.forall_mem_singleton.mpr rfl) (Directory.look_put_self hplace _)
  exact ⟨piece', bytes, hrepair, hexit, (hshown _ _ _ _ hcopy rfl).2.1, hbytes, hbytes'⟩

end Command
end TrioScore
