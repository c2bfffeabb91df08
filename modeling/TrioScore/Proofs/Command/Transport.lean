import Mathlib.Data.List.DropRight
import TrioScore.Proofs.Base64
import TrioScore.Proofs.Command.Render

/-!
# The file in the output

A run that ends well with its file wanted in base 64 has written the file as its last step, and the
last line that it printed is read back to the same bytes, whatever was printed before.
-/

namespace TrioScore

def lineFeed : CodePoint := .ofChar '\n'

/-- The last line of a text that ends with a line feed. -/
def Text.lastLine (t : Text) : Text := t.dropLast.rtakeWhile (· != lineFeed)

theorem Text.lastLine_append_line (front told : Text) {t : Text} (h : lineFeed ∉ t) :
    Text.lastLine (front ++ Report.line told ++ Report.line t) = t := by
  have hlast : (front ++ Report.line told ++ Report.line t).dropLast =
      front ++ told ++ [lineFeed] ++ t := by
    simp only [Report.line, ← List.append_assoc, List.dropLast_concat]
    rfl
  have hkept : ∀ c ∈ t.reverse, (c != lineFeed) = true := by
    intro c hc
    rw [List.mem_reverse] at hc
    exact bne_iff_ne.mpr (ne_of_mem_of_not_mem hc h)
  rw [Text.lastLine, hlast, List.rtakeWhile, List.reverse_append, List.reverse_append,
    List.takeWhile_append_of_pos hkept, List.reverse_singleton, List.singleton_append,
    List.takeWhile_cons_of_neg (by simp), List.append_nil, List.reverse_reverse]

theorem lineFeed_not_mem_encode (bytes : Bytes) :
    lineFeed ∉ Text.ofChars (Base64.encode bytes) := by
  intro h
  obtain ⟨c, hc, heq⟩ := List.mem_map.mp h
  have hvalue : c.toNat = 10 := congrArg CodePoint.value heq
  have hdigits : ∀ n < 64, (Base64.digit n).toNat ≠ 10 := by
    decide
  obtain ⟨digits, pads, hpadded⟩ := Base64.exists_isPadded bytes
  rw [hpadded.eq] at hc
  rcases List.mem_append.mp hc with hc | hc
  · obtain ⟨n, hn, rfl⟩ := Base64.mem_alphabet_iff.mp (hpadded.digits c hc)
    exact hdigits n hn hvalue
  · rw [List.eq_of_mem_replicate hc] at hvalue
    exact absurd hvalue (by decide)

namespace Command

/-- Bytes are written to a path as the last step, and printed in base 64 as the last line. -/
structure Transports (outcome : Outcome) (target : Text) (bytes : Bytes) : Prop where
  written : ∃ before : Directory,
    before.write (Path.ofText target).toText bytes = .ok outcome.directory
  printed : ∃ front told,
    outcome.output = front ++ Report.line told ++ Report.line (Text.ofChars (Base64.encode bytes))

/-- An outcome that ends well has written bytes and printed them. -/
def TransportsIfDone (outcome : Outcome) (target : Text) : Prop :=
  outcome.ending = .exit 0 → ∃ bytes, Transports outcome target bytes

section Transports
variable {outcome : Outcome} {target : Text} {bytes : Bytes}

theorem Transports.look (h : Transports outcome target bytes) :
    outcome.directory.look (Path.ofText target).toText = .ok (.file bytes) := by
  obtain ⟨before, hwrite⟩ := h.written
  obtain ⟨place, hplace, hput⟩ := bind_eq_ok_iff.mp hwrite
  rw [← Except.ok.inj hput]
  exact Directory.look_put_self hplace bytes

theorem Transports.lastLine (h : Transports outcome target bytes) :
    outcome.output.lastLine = Text.ofChars (Base64.encode bytes) := by
  obtain ⟨front, told, hprinted⟩ := h.printed
  rw [hprinted]
  exact Text.lastLine_append_line front told (lineFeed_not_mem_encode bytes)

theorem transportsIfDone_of_code (h : outcome.code ≠ 0) : TransportsIfDone outcome target := by
  intro hdone
  exact absurd (Outcome.code_eq_zero_iff.mpr hdone) h

/-- What was printed before changes neither the last line nor the file. -/
theorem TransportsIfDone.after (h : TransportsIfDone outcome target) (output errors : Text)
    (records : List Log.Record) :
    TransportsIfDone (Outcome.after output errors records outcome) target := by
  intro hdone
  obtain ⟨bytes, hwritten, front, told, hprinted⟩ := h hdone
  refine ⟨bytes, hwritten, output ++ front, told, ?_⟩
  rw [Outcome.output_after, hprinted]
  simp only [List.append_assoc]

theorem farewell_eq_line (size : ℕ) (path : Text) :
    ∃ told, farewell size path = Report.line told :=
  ⟨_, rfl⟩

theorem transportsIfDone_emit (delivery : Delivery) (target : Text) (directory : Directory) :
    TransportsIfDone (emit delivery target true directory) target := by
  intro hdone
  cases hplace : directory.writable (Path.ofText target).toText with
  | error fault =>
    rw [emit_of_error hplace] at hdone ⊢
    refine transportsIfDone_of_code ?_ hdone
    simp [(unwritten_cases _ fault directory).2]
  | ok place =>
    have hemit : emit delivery target true directory = _ := emit_of_writable hplace
    cases hgap : (farewell delivery.bytes.length target).printGap? with
    | some gap =>
      rw [hemit] at hdone
      simp only [hgap] at hdone
      cases hdone
    | none =>
      simp only [hgap] at hemit
      obtain ⟨told, htold⟩ := farewell_eq_line delivery.bytes.length target
      rw [hemit]
      refine ⟨delivery.bytes, ⟨directory, ?_⟩, [], told, ?_⟩
      · rw [Directory.write, hplace]
        rfl
      · rw [← htold]
        rfl

end Transports

def Call.target? (call : Call) : Option Text :=
  match call.verb with
  | .compose => some ((call.given.value? "output").getD defaultOutput)
  | .render => call.given.operands.head?.map (renderTarget call.given)
  | .inspect => none

section Commands
variable {given : Arguments} (hbase64 : given.has "base64" = true) {directory : Directory}
include hbase64

theorem transportsIfDone_composePiece (piece : Piece) :
    TransportsIfDone (composePiece piece given directory)
      ((given.value? "output").getD defaultOutput) := by
  rw [composePiece]
  apply TransportsIfDone.after
  cases savePiece piece (given.value? "structure-out") directory with
  | error fault =>
    refine transportsIfDone_of_code ?_
    simp [(unwritten_cases _ fault directory).2]
  | ok saved =>
    dsimp only
    rcases deliver exporter "rule-based" piece.toJson with ⟨records, fault | delivery⟩
    · exact transportsIfDone_of_code (Nat.succ_ne_zero _)
    · dsimp only
      rw [hbase64]
      exact (transportsIfDone_emit delivery _ saved).after _ _ _

theorem transportsIfDone_compose :
    TransportsIfDone (compose given directory)
      ((given.value? "output").getD defaultOutput) := by
  rw [compose]
  split
  · exact transportsIfDone_of_code (Nat.succ_ne_zero _)
  · split
    · exact transportsIfDone_of_code (Nat.succ_ne_zero _)
    · exact transportsIfDone_composePiece hbase64 _

theorem transportsIfDone_render {path : Text} (hpath : given.operands.head? = some path) :
    TransportsIfDone (render given directory) (renderTarget given path) := by
  rcases render_cases given directory with
    ⟨path', content, document, delivery, place, hloads, hdelivery, -⟩ | ⟨-, hcode⟩
  · rw [hloads.operands] at hpath
    obtain rfl := Option.some.inj hpath
    obtain ⟨warning, records, -, hrender⟩ := render_of_delivery hloads hdelivery
    rw [hrender, hbase64]
    exact (transportsIfDone_emit delivery _ directory).after _ _ _
  · exact transportsIfDone_of_code hcode

end Commands

theorem exists_operand_of_render {given : Arguments} {directory : Directory}
    (h : (render given directory).ending = .exit 0) :
    ∃ path, given.operands.head? = some path := by
  rcases render_cases given directory with ⟨path, _, _, _, _, hloads, -⟩ | ⟨-, hcode⟩
  · exact ⟨path, by rw [hloads.operands]; rfl⟩
  · exact absurd (Outcome.code_eq_zero_iff.mpr h) hcode

theorem exists_transports {arguments : List Text} {surrounding : Option Text} {call : Call}
    (hcall : call? arguments surrounding = some call) (hverb : call.verb ≠ .inspect)
    (hbase64 : call.given.has "base64" = true) {directory : Directory}
    (hdone : (run arguments surrounding directory).ending = .exit 0) :
    ∃ target bytes, call.target? = some target ∧
      Transports (run arguments surrounding directory) target bytes := by
  rw [run_of_call? hcall] at hdone ⊢
  obtain ⟨verb, given, threshold⟩ := call
  cases verb with
  | compose =>
    obtain ⟨bytes, hbytes⟩ := transportsIfDone_compose hbase64 hdone
    exact ⟨_, bytes, rfl, hbytes.written, hbytes.printed⟩
  | render =>
    obtain ⟨path, hpath⟩ := exists_operand_of_render hdone
    obtain ⟨bytes, hbytes⟩ := transportsIfDone_render hbase64 hpath hdone
    exact ⟨_, bytes, by rw [Call.target?, hpath]; rfl, hbytes.written, hbytes.printed⟩
  | inspect => exact absurd rfl hverb

/-- Base 64 has four characters for every three bytes, all of them of the alphabet but the equals
signs at the end, and it is read back, as nothing else is, to its bytes. A run that is asked for it
prints it last, and it is read back to what the path of the file leads to then. -/
theorem base64_transports_file :
    (∀ bytes : Bytes, (Base64.encode bytes).length = 4 * ((bytes.length + 2) / 3) ∧
      (∀ c ∈ Base64.encode bytes, c.toNat < 128) ∧
      (∃ digits pads, Base64.IsPadded bytes.length (Base64.encode bytes) digits pads) ∧
      ∀ chars, Base64.decode? chars = some bytes ↔ chars = Base64.encode bytes) ∧
    ∀ (arguments : List Text) (surrounding : Option Text) (directory : Directory) (call : Call),
      call? arguments surrounding = some call → call.verb ≠ .inspect →
      call.given.has "base64" = true →
      (run arguments surrounding directory).ending = .exit 0 →
      ∃ target bytes chars, call.target? = some target ∧
        (∃ before : Directory, before.write (Path.ofText target).toText bytes =
          .ok (run arguments surrounding directory).directory) ∧
        (run arguments surrounding directory).directory.look (Path.ofText target).toText =
          .ok (.file bytes) ∧
        (run arguments surrounding directory).output.lastLine = Text.ofChars chars ∧
        Base64.decode? chars = some bytes := by
  constructor
  · intro bytes
    refine ⟨Base64.length_encode bytes, ?_, Base64.exists_isPadded bytes, ?_⟩
    · intro c hc
      exact Base64.isAscii_encode hc
    · intro chars
      exact Base64.decode?_eq_some_iff
  · intro arguments surrounding directory call hcall hverb hbase64 hdone
    obtain ⟨target, bytes, htarget, h⟩ := exists_transports hcall hverb hbase64 hdone
    exact ⟨target, bytes, Base64.encode bytes, htarget, h.written, h.look, h.lastLine,
      Base64.decode?_encode bytes⟩

theorem base64_transports_songMid : ∃ bytes chars,
    let outcome := run ["render", "song.json", "--base64"] none (waltzIn "song.json")
    outcome.ending = .exit 0 ∧
    outcome.directory.look "song.mid" = .ok (.file bytes) ∧
    outcome.output.lastLine = Text.ofChars chars ∧
    Base64.decode? chars = some bytes := by
  have hcall : call? ["render", "song.json", "--base64"] none =
      some ⟨.render, ⟨[("base64", [])], ["song.json"]⟩, 30⟩ := by
    decide +kernel
  have htarget : renderTarget ⟨[("base64", [])], ["song.json"]⟩ "song.json" = "song.mid" := by
    decide +kernel
  have hwritten : (Path.ofText "song.mid").toText = "song.mid" := by
    decide +kernel
  obtain ⟨delivery, hdelivery, -⟩ := exists_delivery not_overlongMeter_waltz
  have hrun := run_render hcall ⟨rfl, look_waltzIn_songJson, document?_waltz⟩ hdelivery
    (by rw [htarget, hwritten]; exact writable_waltzIn_songJson)
  have hdone := hrun.2.2 (by rw [htarget]; decide +kernel)
  obtain ⟨target, bytes, chars, hpath, -, hfile, hline, hread⟩ :=
    base64_transports_file.2 _ none _ _ hcall (by decide) (by decide) hdone
  have hsong : target = "song.mid" := (Option.some.inj hpath).symm.trans htarget
  rw [hsong, hwritten] at hfile
  exact ⟨bytes, chars, hdone, hfile, hline, hread⟩

end Command
end TrioScore
