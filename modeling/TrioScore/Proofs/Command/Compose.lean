import TrioScore.Proofs.Command.Render
import TrioScore.Proofs.Decimal.Spelled
import TrioScore.Proofs.Mood.Written

/-!
# Two ways to a file

A run of `compose` writes the file of the composed piece, and its document if that is asked for. A
run of `render` on the document writes the same file once more.
-/

namespace TrioScore

/-- A finite number between two bounds. -/
structure Binary64.Between (low high : ℤ) (x : Binary64) : Prop where
  isFinite : x.isFinite = true
  low_le : low ≤ x.toRat
  le_high : x.toRat ≤ high

namespace Command

theorem parameter?_of_between {low high : ℤ} {x : Binary64} (h : x.Between low high)
    (hlow : Binary64.IsExact low) (hhigh : Binary64.IsExact high) {t : Text}
    (ht : Numeral.real? t = some x) : parameter? low high t = some (.ofBinary64 x) := by
  have hbelow : x.less (.ofRat low) = false := by
    rw [Binary64.less_eq_of_isFinite h.isFinite (Binary64.isFinite_ofRat hlow),
      Binary64.toRat_ofRat hlow]
    exact decide_eq_false (not_lt.mpr h.low_le)
  have habove : (Binary64.ofRat high).less x = false := by
    rw [Binary64.less_eq_of_isFinite (Binary64.isFinite_ofRat hhigh) h.isFinite,
      Binary64.toRat_ofRat hhigh]
    exact decide_eq_false (not_lt.mpr h.le_high)
  rw [parameter?, ht]
  dsimp only
  rw [hbelow, habove]
  rfl

/-- The arguments give a reading and nothing else to compose. -/
structure Reads (given : Arguments) (valence arousal focus : Binary64) : Prop where
  operands : given.operands = []
  valence : ∃ t, given.value? "valence" = some t ∧ Numeral.real? t = some valence
  arousal : ∃ t, given.value? "arousal" = some t ∧ Numeral.real? t = some arousal
  focus : ∃ t, given.value? "focus" = some t ∧ Numeral.real? t = some focus

/-- A run of `compose` for a reading, which writes its file to one path and its document to
another. -/
def Composes (arguments : List Text) (surrounding : Option Text)
    (valence arousal focus : Binary64) (output document : Text) : Prop :=
  ∃ given threshold, call? arguments surrounding = some ⟨.compose, given, threshold⟩ ∧
    Reads given valence arousal focus ∧ given.value? "output" = some output ∧
    given.value? "structure-out" = some document

/-- A run of `render` on a document, which writes its file to a path. -/
def Renders (arguments : List Text) (surrounding : Option Text) (document output : Text) : Prop :=
  ∃ given threshold, call? arguments surrounding = some ⟨.render, given, threshold⟩ ∧
    given.operands = [document] ∧ given.value? "output" = some output

theorem exists_composes {valence arousal focus : Binary64} (hvalence : valence.isFinite = true)
    (harousal : arousal.isFinite = true) (hfocus : focus.isFinite = true)
    (output document : Text) :
    ∃ arguments, Composes arguments none valence arousal focus output document := by
  obtain ⟨v, hv⟩ := Numeral.exists_real? hvalence
  obtain ⟨a, ha⟩ := Numeral.exists_real? harousal
  obtain ⟨f, hf⟩ := Numeral.exists_real? hfocus
  exact ⟨["compose", "--valence", v, "--arousal", a, "--focus", f, "-o", output,
      "--structure-out", document], _, 30, rfl,
    ⟨rfl, ⟨v, rfl, hv⟩, ⟨a, rfl, ha⟩, ⟨f, rfl, hf⟩⟩, rfl, rfl⟩

/-- Behind two dashes a document may have any name. -/
theorem exists_renders (document output : Text) :
    ∃ arguments, Renders arguments none document output :=
  ⟨["render", "-o", output, "--", document], _, 30, rfl, rfl, rfl⟩

section Reading
variable {valence arousal focus : Binary64} (hvalence : valence.Between (-1) 1)
  (harousal : arousal.Between 0 1) (hfocus : focus.Between 0 1) {given : Arguments}
  {directory : Directory} {piece : Piece}

include hvalence harousal hfocus in
theorem compose_of_reads (h : Reads given valence arousal focus)
    (hpiece : pieceOfReading (.ofBinary64 valence) (.ofBinary64 arousal) (.ofBinary64 focus)
      .empty = .ok piece) :
    compose given directory = composePiece piece given directory := by
  obtain ⟨v, hv, hvread⟩ := h.valence
  obtain ⟨a, ha, haread⟩ := h.arousal
  obtain ⟨f, hf, hfread⟩ := h.focus
  have hexact : ∀ n : ℤ, |n| ≤ 1 → Binary64.IsExact n :=
    fun n hn => Binary64.isExact_int (hn.trans (by decide))
  have hone := hexact 1 (by decide)
  have hzero := hexact 0 (by decide)
  have hv' := parameter?_of_between hvalence (hexact (-1) (by decide)) hone hvread
  have ha' := parameter?_of_between harousal hzero hone haread
  have hf' := parameter?_of_between hfocus hzero hone hfread
  rw [compose, hv, ha, hf, h.operands]
  simp only [Option.bind_eq_bind, Option.bind_some, hv', ha', hf', List.isEmpty_nil, if_true,
    hpiece]

theorem savePiece_of_writable {path : Text} {place : Place}
    (h : directory.writable path = .ok place) :
    savePiece piece (some path) directory =
      .ok (directory.put place (asciiBytes (pieceText piece))) := by
  rw [savePiece, Directory.write, Directory.writable_normal h]
  rfl

theorem composePiece_of_delivery {saved : Directory}
    (hsaved : savePiece piece (given.value? "structure-out") directory = .ok saved)
    {delivery : Delivery}
    (hdelivery : (deliver exporter "rule-based" piece.toJson).2 = .ok delivery) :
    ∃ records, composePiece piece given directory = Outcome.after (heading piece) [] records
      (emit delivery ((given.value? "output").getD defaultOutput) (given.has "base64") saved) := by
  rw [composePiece, hsaved]
  dsimp only
  generalize deliver exporter "rule-based" piece.toJson = delivered at hdelivery
  obtain ⟨records, result⟩ := delivered
  obtain rfl : result = .ok delivery := hdelivery
  exact ⟨records, rfl⟩

include hvalence harousal hfocus in
theorem run_composes {arguments : List Text} {surrounding : Option Text} {output document : Text}
    {written saved : Place} {delivery : Delivery}
    (h : Composes arguments surrounding valence arousal focus output document)
    (hpiece : pieceOfReading (.ofBinary64 valence) (.ofBinary64 arousal) (.ofBinary64 focus)
      .empty = .ok piece)
    (hdelivery : (deliver exporter "rule-based" piece.toJson).2 = .ok delivery)
    (hsaved : directory.writable document = .ok saved)
    (hwritten : directory.writable output = .ok written) :
    let outcome := run arguments surrounding directory
    outcome.directory =
      (directory.put saved (asciiBytes (pieceText piece))).put written delivery.bytes ∧
    outcome.errors = [] ∧
    ((∀ c ∈ output, c.isSurrogate = false) → outcome.ending = .exit 0) := by
  obtain ⟨given, threshold, hcall, hreads, houtput, hdocument⟩ := h
  have hplace := Directory.writable_normal (Directory.writable_put hwritten
    (Directory.hasRoom_of_writable hsaved) (asciiBytes (pieceText piece)))
  obtain ⟨records, hcomposed⟩ := composePiece_of_delivery
    (hdocument ▸ savePiece_of_writable hsaved) hdelivery
  dsimp only
  rw [run_of_call? hcall, Call.directory_outcome, Call.errors_outcome, Call.ending_outcome]
  dsimp only [Verb.act]
  rw [compose_of_reads hvalence harousal hfocus hreads hpiece, hcomposed, houtput,
    Option.getD_some, Outcome.directory_after, Outcome.errors_after, Outcome.ending_after,
    directory_emit hplace, errors_emit hplace]
  exact ⟨rfl, rfl, ending_emit hplace⟩

end Reading

theorem run_renders {arguments : List Text} {surrounding : Option Text} {document output : Text}
    {directory : Directory} {content : Bytes} {value : Json} {delivery : Delivery} {place : Place}
    (h : Renders arguments surrounding document output)
    (hlook : directory.look document = .ok (.file content))
    (hread : document? content = some value)
    (hdelivery : (deliver exporter "input" value).2 = .ok delivery)
    (hregular : delivery.isEmergency = false) (hplace : directory.writable output = .ok place) :
    let outcome := run arguments surrounding directory
    outcome.directory = directory.put place delivery.bytes ∧ outcome.errors = [] ∧
    ((∀ c ∈ output, c.isSurrogate = false) → outcome.ending = .exit 0) := by
  obtain ⟨given, threshold, hcall, hpath, houtput⟩ := h
  have htarget : renderTarget given document = output := by rw [renderTarget, houtput]; rfl
  obtain ⟨hdirectory, herrors, hexit⟩ := run_render hcall ⟨hpath, hlook, hread⟩ hdelivery
    (htarget ▸ Directory.writable_normal hplace)
  rw [htarget] at hexit
  exact ⟨hdirectory, herrors hregular, hexit⟩

/-- Let a reading be composed, with its file and its document written to paths that lead to two
places, and let the document then be rendered to a third path. The two files have the same bytes,
those of the score of the composed piece, which is delivered without the emergency phrase both
times. There is such a run for every reading. -/
theorem compose_then_render {valence arousal focus : Binary64} (hvalence : valence.Between (-1) 1)
    (harousal : arousal.Between 0 1) (hfocus : focus.Between 0 1) {directory : Directory}
    {output document copy : Text} {written saved copied : Place}
    (hwritten : directory.writable output = .ok written)
    (hsaved : directory.writable document = .ok saved)
    (hcopied : directory.writable copy = .ok copied) (hne : written ≠ saved) :
    (∃ arguments, Composes arguments none valence arousal focus output document) ∧
    (∃ arguments, Renders arguments none document copy) ∧
    ∃ piece score bytes, pieceOfReading (.ofBinary64 valence) (.ofBinary64 arousal)
        (.ofBinary64 focus) .empty = .ok piece ∧
      Score.ofPiece piece = .ok score ∧ Smf.ofScore 960 score = .ok bytes ∧
      (∀ provider, (deliver exporter provider piece.toJson).2 =
        .ok ⟨some piece, bytes, provider, false, []⟩) ∧
      document? (asciiBytes (pieceText piece)) = some piece.toJson ∧
      ∀ (arguments arguments' : List Text) (surrounding surrounding' : Option Text),
        Composes arguments surrounding valence arousal focus output document →
        Renders arguments' surrounding' document copy →
        let composed := run arguments surrounding directory
        let rendered := run arguments' surrounding' composed.directory
        composed.errors = [] ∧ rendered.errors = [] ∧
        ((∀ c ∈ output, c.isSurrogate = false) → composed.ending = .exit 0) ∧
        ((∀ c ∈ copy, c.isSurrogate = false) → rendered.ending = .exit 0) ∧
        composed.directory.look document = .ok (.file (asciiBytes (pieceText piece))) ∧
        composed.directory.look output = .ok (.file bytes) ∧
        rendered.directory.look output = .ok (.file bytes) ∧
        rendered.directory.look copy = .ok (.file bytes) := by
  obtain ⟨piece, hpiece⟩ := pieceOfReading_isOk_iff.mpr ⟨⟨Json.isReading_ofBinary64 valence,
    Json.isReading_ofBinary64 arousal, Json.isReading_ofBinary64 focus⟩,
    (⟨"piano", rfl⟩ : ∃ t, Hints.empty.instruments = .ok t)⟩
  obtain ⟨score, bytes, hscore, hbytes⟩ :=
    exists_ofScore_of_pieceOfReading hpiece (by decide : 960 ≤ 7281)
  have hdelivery : ∀ provider, (deliver exporter provider piece.toJson).2 =
      .ok ⟨some piece, bytes, provider, false, []⟩ := deliver_of_pieceOfReading hpiece hscore hbytes
  have hread : document? (asciiBytes (pieceText piece)) = some piece.toJson :=
    document?_print (Piece.isReadable_toJson_of_pieceOfReading hpiece)
  refine ⟨exists_composes hvalence.isFinite harousal.isFinite hfocus.isFinite output document,
    exists_renders document copy, piece, score, bytes, hpiece, hscore, hbytes, hdelivery, hread,
    fun arguments arguments' surrounding surrounding' hcomposes hrenders => ?_⟩
  obtain ⟨hcomposed, herrors, hexit⟩ := run_composes hvalence harousal hfocus hcomposes hpiece
    (hdelivery _) hsaved hwritten
  -- The document is written first, and then the file, which leaves the document as it is.
  have hroom := Directory.hasRoom_of_writable hsaved
  have hwritten' := Directory.writable_put hwritten hroom (asciiBytes (pieceText piece))
  have hroom' := Directory.hasRoom_of_writable hwritten'
  have hdocument := Directory.look_put_of_ne
    (Directory.look_put_self hsaved (asciiBytes (pieceText piece))) hroom'
    (fun hsame => hne (Except.ok.inj (hsame.symm.trans
      (Directory.writable_put hsaved hroom _)))) bytes
  have hfile := Directory.look_put_self hwritten' bytes
  have hcopied' := Directory.writable_put (Directory.writable_put hcopied hroom
    (asciiBytes (pieceText piece))) hroom' bytes
  obtain ⟨hrendered, herrors', hexit'⟩ :=
    run_renders hrenders hdocument hread (hdelivery _) rfl hcopied'
  dsimp only
  rw [hcomposed, hrendered]
  exact ⟨herrors, herrors', hexit, hexit', hdocument, hfile,
    Directory.look_put_same hfile (Directory.hasRoom_of_writable hcopied'),
    Directory.look_put_self hcopied' bytes⟩

theorem compose_then_render_gloomy : ∃ bytes,
    let composed := run ["compose", "--valence", "-0.6", "--arousal", "0.8", "--focus", "0.7",
      "-o", "a.mid", "--structure-out", "p.json"] none .empty
    let rendered := run ["render", "p.json", "-o", "b.mid"] none composed.directory
    composed.ending = .exit 0 ∧ rendered.ending = .exit 0 ∧
    rendered.directory.look "a.mid" = .ok (.file bytes) ∧
    rendered.directory.look "b.mid" = .ok (.file bytes) := by
  have hbetween : ∀ {low high : ℤ} {x : Binary64}, x.isFinite = true ∧ low ≤ x.toRat ∧
      x.toRat ≤ high → x.Between low high := fun ⟨hf, hlow, hhigh⟩ => ⟨hf, hlow, hhigh⟩
  have hvalence : (Binary64.ofRat (-3 / 5)).Between (-1) 1 := hbetween (by decide +kernel)
  have harousal : (Binary64.ofRat (4 / 5)).Between 0 1 := hbetween (by decide +kernel)
  have hfocus : (Binary64.ofRat (7 / 10)).Between 0 1 := hbetween (by decide +kernel)
  have hwritten : Directory.empty.writable "a.mid" = .ok ["a.mid"] := by decide +kernel
  have hsaved : Directory.empty.writable "p.json" = .ok ["p.json"] := by decide +kernel
  have hcopied : Directory.empty.writable "b.mid" = .ok ["b.mid"] := by decide +kernel
  obtain ⟨-, -, _, _, bytes, -, -, -, -, -, hruns⟩ :=
    compose_then_render hvalence harousal hfocus hwritten hsaved hcopied (by decide)
  obtain ⟨-, -, hexit, hexit', -, -, hfile, hcopy⟩ := hruns
    ["compose", "--valence", "-0.6", "--arousal", "0.8", "--focus", "0.7", "-o", "a.mid",
      "--structure-out", "p.json"] ["render", "p.json", "-o", "b.mid"] none none
    ⟨_, 30, rfl, ⟨rfl, ⟨"-0.6", rfl, by decide +kernel⟩, ⟨"0.8", rfl, by decide +kernel⟩,
      ⟨"0.7", rfl, by decide +kernel⟩⟩, rfl, rfl⟩ ⟨_, 30, rfl, rfl, rfl⟩
  exact ⟨bytes, hexit (by decide), hexit' (by decide), hfile, hcopy⟩

end Command
end TrioScore
