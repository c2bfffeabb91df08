import TrioScore.Command.Run
import TrioScore.Proofs.Json.Ascii
import TrioScore.Proofs.Piece.Readable

/-!
# Saved documents

A document that is printed into a file is read from the file again: its characters are ASCII, which
UTF-8 has as one byte each.
-/

namespace TrioScore.Command

open Json (IsAscii)

theorem asciiBytes_eq_flatMap {chars : List Char} (h : IsAscii chars) :
    asciiBytes chars = chars.flatMap String.utf8EncodeChar := by
  induction chars with
  | nil => rfl
  | cons c chars ih =>
    obtain ⟨hc, hchars⟩ := List.forall_mem_cons.mp h
    rw [List.flatMap_cons, utf8EncodeChar_of_lt hc, ← ih hchars]
    rfl

theorem fromUTF8?_asciiBytes {chars : List Char} (h : IsAscii chars) :
    String.fromUTF8? ⟨(asciiBytes chars).toArray⟩ = some (String.ofList chars) := by
  have hbytes : (⟨(asciiBytes chars).toArray⟩ : ByteArray) = (String.ofList chars).toByteArray := by
    refine ByteArray.ext ?_
    rw [String.toByteArray_ofList, List.utf8Encode, List.data_toByteArray, asciiBytes_eq_flatMap h]
  rw [hbytes, String.fromUTF8?, dif_pos (String.ofList chars).isValidUTF8]
  rfl

theorem toNat_lt_of_isSpace {c : Char} (h : Json.Token.isSpace c = true) : c.toNat < 128 := by
  simp only [Json.Token.isSpace, Bool.or_eq_true, decide_eq_true_eq] at h
  rcases h with ((rfl | rfl) | rfl) | rfl <;> decide

/-- A readable value is read from the file that it is printed into. -/
theorem document?_asciiBytes {v : Json} (h : v.IsReadable) {spaces : List Char}
    (hspaces : ∀ c ∈ spaces, Json.Token.isSpace c = true) :
    document? (asciiBytes (Json.print v ++ spaces)) = some v := by
  have hascii : IsAscii (Json.print v ++ spaces) :=
    (Json.isAscii_print v).append fun c hc => toNat_lt_of_isSpace (hspaces c hc)
  rw [document?, fromUTF8?_asciiBytes hascii, Option.bind_some, String.toList_ofList,
    Json.read?_print_append h hspaces]

theorem document?_print {v : Json} (h : v.IsReadable) :
    document? (asciiBytes (Json.print v)) = some v := by
  have hspaces := document?_asciiBytes h (List.forall_mem_nil _)
  rwa [List.append_nil] at hspaces

theorem isReadable_of_document? {content : Bytes} {document : Json}
    (h : document? content = some document) : document.IsReadable := by
  obtain ⟨s, -, hread⟩ := Option.bind_eq_some_iff.mp h
  exact Json.isReadable_of_read? hread

end TrioScore.Command
