import Mathlib.Data.List.Infix
import Mathlib.Data.List.TakeWhile
import Mathlib.Data.Nat.Notation
import Mathlib.Tactic.SplitIfs
import TrioScore.Text.Utf8

/-!
# Names as they are found again

Bytes are taken apart into characters where one begins and into single bytes elsewhere. No bytes are
lost by that, and ASCII is never a part of a longer character: what stands in front of it and what
follows it are taken apart by themselves.
-/

namespace TrioScore

/-- A byte of ASCII could begin a character. -/
theorem isUTF8FirstByte_of_lt {b : UInt8} (h : b.toNat < 128) : b.IsUTF8FirstByte := by
  have hbits : ∀ n < 128, n &&& 128 = 0 := by decide +kernel
  left
  apply UInt8.toNat_inj.mp
  rw [UInt8.toNat_and]
  exact hbits _ h

/-- So it is the first byte of any character that it belongs to. -/
theorem eq_zero_of_getElem_utf8EncodeChar {c : Char} {i : ℕ}
    (hi : i < (String.utf8EncodeChar c).length) (h : (String.utf8EncodeChar c)[i].toNat < 128) :
    i = 0 :=
  UInt8.isUTF8FirstByte_getElem_utf8EncodeChar.mp (isUTF8FirstByte_of_lt h)

theorem utf8EncodeChar_of_lt {c : Char} (h : c.toNat < 128) :
    String.utf8EncodeChar c = [UInt8.ofNat c.toNat] := by
  have hvalue : c.val.toNat ≤ 127 := Nat.le_of_lt_succ h
  rw [String.utf8EncodeChar.eq_1, if_pos hvalue]
  rfl

theorem toNat_ofNat {n : ℕ} (h : n < 0xD800) : (Char.ofNat n).toNat = n := by
  rw [Char.ofNat, dif_pos (.inl h)]
  rfl

theorem ofChar_ofNat {c : CodePoint} (h : c.value < 0xD800) :
    CodePoint.ofChar (Char.ofNat c.value) = c := by
  simp only [CodePoint.ofChar, toNat_ofNat h]

/-- What the first bytes make up is the character whose bytes they are. -/
theorem utf8DecodeChar?_eq_some_iff {b : UInt8} {bytes : List UInt8} {c : Char} :
    (b :: bytes.take 3).toByteArray.utf8DecodeChar? 0 = some c ↔
      String.utf8EncodeChar c <+: b :: bytes := by
  constructor
  · intro h
    obtain ⟨rest, hrest⟩ := ByteArray.exists_of_utf8DecodeChar?_eq_some h
    have hchar : String.utf8EncodeChar c <+: b :: bytes.take 3 :=
      ⟨rest.data.toList, by simpa using (congrArg (fun a => a.data.toList) hrest).symm⟩
    exact hchar.trans (List.cons_prefix_cons.mpr ⟨rfl, List.take_prefix 3 bytes⟩)
  · intro h
    have hlength : (String.utf8EncodeChar c).length ≤ 4 :=
      (String.length_utf8EncodeChar c).trans_le c.utf8Size_le_four
    obtain ⟨rest, hrest⟩ : String.utf8EncodeChar c <+: (b :: bytes).take 4 :=
      List.prefix_take_iff.mpr ⟨h, hlength⟩
    rw [← List.take_succ_cons, ← hrest, List.toByteArray_append]
    exact ByteArray.utf8DecodeChar?_utf8EncodeChar_append

namespace Text

theorem ofUtf8Behind_append (front bytes : List UInt8) :
    ofUtf8Behind front.length (front ++ bytes) = ofUtf8 bytes := by
  induction front with
  | nil => rfl
  | cons b front ih => exact ih

theorem ofUtf8_utf8EncodeChar_append (c : Char) (bytes : List UInt8) :
    ofUtf8 (String.utf8EncodeChar c ++ bytes) = .ofChar c :: ofUtf8 bytes := by
  obtain ⟨b, front, hfront⟩ := List.exists_cons_of_length_pos
    (c.utf8Size_pos.trans_eq (String.length_utf8EncodeChar c).symm)
  have hsize : c.utf8Size - 1 = front.length := by
    rw [← String.length_utf8EncodeChar, hfront, List.length_cons, Nat.add_sub_cancel]
  have hdecode : (b :: (front ++ bytes).take 3).toByteArray.utf8DecodeChar? 0 = some c :=
    utf8DecodeChar?_eq_some_iff.mpr (hfront ▸ List.prefix_append _ bytes)
  rw [hfront, List.cons_append, ofUtf8, ofUtf8Behind, hdecode]
  dsimp only
  rw [hsize, ofUtf8Behind_append]

/-- Where no character begins, a byte is carried. -/
theorem ofUtf8_cons {b : UInt8} {bytes : List UInt8}
    (h : ∀ c, ¬ String.utf8EncodeChar c <+: b :: bytes) :
    ofUtf8 (b :: bytes) = .ofByte b :: ofUtf8 bytes := by
  have hdecode : (b :: bytes.take 3).toByteArray.utf8DecodeChar? 0 = none :=
    Option.eq_none_iff_forall_ne_some.mpr fun c hc => h c (utf8DecodeChar?_eq_some_iff.mp hc)
  rw [ofUtf8, ofUtf8Behind, hdecode]
  rfl

/-- Bytes are a character and further bytes, or a byte at which no character begins and further
bytes. -/
theorem ofUtf8_induction {P : List UInt8 → Prop} (nil : P [])
    (char : ∀ c bytes, P bytes → P (String.utf8EncodeChar c ++ bytes))
    (byte : ∀ b bytes, (∀ c, ¬ String.utf8EncodeChar c <+: b :: bytes) → P bytes → P (b :: bytes))
    (bytes : List UInt8) : P bytes := by
  induction hn : bytes.length using Nat.strongRecOn generalizing bytes with
  | ind n ih =>
    by_cases hchar : ∃ c, String.utf8EncodeChar c <+: bytes
    · obtain ⟨c, rest, rfl⟩ := hchar
      have hpos := c.utf8Size_pos
      rw [List.length_append, String.length_utf8EncodeChar] at hn
      exact char c rest (ih rest.length (by omega) rest rfl)
    · rw [not_exists] at hchar
      cases bytes with
      | nil => exact nil
      | cons b rest =>
        rw [List.length_cons] at hn
        exact byte b rest hchar (ih rest.length (by omega) rest rfl)

theorem utf8_cons (c : CodePoint) (t : Text) : utf8 (c :: t) = c.utf8 ++ t.utf8 :=
  List.flatMap_cons

theorem utf8_append (t u : Text) : (t ++ u).utf8 = t.utf8 ++ u.utf8 := List.flatMap_append

theorem utf8_ofChar (c : Char) : (CodePoint.ofChar c).utf8 = String.utf8EncodeChar c := by
  have hvalid : (CodePoint.ofChar c).value.isValidChar := c.valid
  have hcarries : (CodePoint.ofChar c).carriesByte = false := by
    have hvalue : (CodePoint.ofChar c).value = c.toNat := rfl
    rw [Nat.isValidChar] at hvalid
    simp only [CodePoint.carriesByte, Bool.and_eq_false_iff, decide_eq_false_iff_not]
    omega
  have hchar : (CodePoint.ofChar c).toChar? = some c := by
    rw [CodePoint.toChar?, dif_pos hvalid]
    rfl
  rw [CodePoint.utf8, hcarries, hchar]
  rfl

theorem utf8_ofByte {b : UInt8} (h : 128 ≤ b.toNat) : (CodePoint.ofByte b).utf8 = [b] := by
  have hlt := b.toNat_lt
  have hvalue : (CodePoint.ofByte b).value = 0xDC00 + b.toNat := rfl
  have hcarries : (CodePoint.ofByte b).carriesByte = true := by
    simp only [CodePoint.carriesByte, Bool.and_eq_true, decide_eq_true_eq]
    omega
  rw [CodePoint.utf8, hcarries, if_pos rfl, hvalue, Nat.add_sub_cancel_left, UInt8.ofNat_toNat]

theorem utf8_ofUtf8 (bytes : List UInt8) : (ofUtf8 bytes).utf8 = bytes := by
  induction bytes using ofUtf8_induction with
  | nil => rfl
  | char c bytes ih => rw [ofUtf8_utf8EncodeChar_append, utf8_cons, utf8_ofChar, ih]
  | byte b bytes hb ih =>
    have hhigh : 128 ≤ b.toNat := by
      by_contra hlow
      have hvalue : (Char.ofNat b.toNat).toNat = b.toNat := toNat_ofNat (by omega)
      refine hb (Char.ofNat b.toNat) ⟨bytes, ?_⟩
      rw [utf8EncodeChar_of_lt (by omega), hvalue, UInt8.ofNat_toNat, List.singleton_append]
    rw [ofUtf8_cons hb, utf8_cons, utf8_ofByte hhigh, ih, List.singleton_append]

/-- ASCII parts bytes. -/
theorem ofUtf8_append_cons (front : List UInt8) {s : UInt8} (hs : s.toNat < 128)
    (bytes : List UInt8) : ofUtf8 (front ++ s :: bytes) = ofUtf8 front ++ ofUtf8 (s :: bytes) := by
  induction front using ofUtf8_induction with
  | nil => rfl
  | char c front ih =>
    rw [List.append_assoc, ofUtf8_utf8EncodeChar_append, ih, ofUtf8_utf8EncodeChar_append,
      List.cons_append]
  | byte b front hb ih =>
    -- A character that reached as far as the byte of ASCII would have it inside.
    have hlonger : ∀ c, ¬ String.utf8EncodeChar c <+: b :: (front ++ s :: bytes) := by
      intro c hc
      by_cases hlength : (String.utf8EncodeChar c).length ≤ (b :: front).length
      · exact hb c (List.prefix_of_prefix_length_le hc (List.prefix_append (b :: front) _) hlength)
      · have hi : front.length + 1 < (String.utf8EncodeChar c).length := by
          rw [List.length_cons] at hlength
          omega
        have hinside : (String.utf8EncodeChar c)[front.length + 1] = s := by
          rw [hc.getElem hi]
          simp
        exact Nat.succ_ne_zero _ (eq_zero_of_getElem_utf8EncodeChar hi (hinside ▸ hs))
    rw [List.cons_append, ofUtf8_cons hlonger, ih, ofUtf8_cons hb, List.cons_append]

/-! ASCII code points are the bytes of themselves, and nothing else has these bytes. -/

theorem utf8_of_lt {c : CodePoint} (h : c.value < 128) : c.utf8 = [UInt8.ofNat c.value] := by
  have hvalue : (Char.ofNat c.value).toNat = c.value := toNat_ofNat (by omega)
  rw [← ofChar_ofNat (by omega : c.value < 0xD800), utf8_ofChar,
    utf8EncodeChar_of_lt (by omega)]
  rfl

theorem toNat_byte_of_lt {c : CodePoint} (h : c.value < 128) :
    (UInt8.ofNat c.value).toNat = c.value :=
  UInt8.toNat_ofNat_of_lt' (h.trans (by decide))

theorem ofUtf8_cons_of_lt {c : CodePoint} (h : c.value < 128) (bytes : List UInt8) :
    ofUtf8 (UInt8.ofNat c.value :: bytes) = c :: ofUtf8 bytes := by
  have hread := ofUtf8_utf8EncodeChar_append (Char.ofNat c.value) bytes
  rwa [ofChar_ofNat (by omega), ← utf8_ofChar, ofChar_ofNat (by omega), utf8_of_lt h] at hread

theorem eq_ofChar_of_toChar? {c : CodePoint} {char : Char} (h : c.toChar? = some char) :
    c = .ofChar char := by
  by_cases hvalid : c.value.isValidChar
  · rw [CodePoint.toChar?, dif_pos hvalid] at h
    obtain rfl := Option.some.inj h
    rfl
  · rw [CodePoint.toChar?, dif_neg hvalid] at h
    cases h

theorem eq_of_mem_utf8 {c d : CodePoint} (hd : d.value < 128)
    (h : UInt8.ofNat d.value ∈ c.utf8) : c = d := by
  have hbyte := toNat_byte_of_lt hd
  rw [CodePoint.utf8] at h
  split_ifs at h with hcarries
  · have hlt := c.value_lt
    simp only [CodePoint.carriesByte, Bool.and_eq_true, decide_eq_true_eq] at hcarries
    have heq := congrArg UInt8.toNat (List.mem_singleton.mp h)
    rw [hbyte, UInt8.toNat_ofNat', Nat.mod_eq_of_lt (by omega)] at heq
    omega
  · split at h
    · next char hchar =>
      obtain rfl := eq_ofChar_of_toChar? hchar
      obtain ⟨i, hi, hget⟩ := List.getElem_of_mem h
      obtain rfl := eq_zero_of_getElem_utf8EncodeChar hi (by rw [hget, hbyte]; exact hd)
      have hsplit : String.utf8EncodeChar char =
          UInt8.ofNat d.value :: (String.utf8EncodeChar char).drop 1 := by
        rw [← hget, List.getElem_cons_drop]
        rfl
      have hread := ofUtf8_utf8EncodeChar_append char []
      rw [hsplit, List.cons_append, ofUtf8_cons_of_lt hd] at hread
      exact (List.cons.inj hread).1.symm
    · exact absurd h List.not_mem_nil

def IsAscii (t : Text) : Prop := ∀ c ∈ t, c.value < 128

instance (t : Text) : Decidable t.IsAscii := inferInstanceAs (Decidable (∀ c ∈ t, c.value < 128))

/-- No code point of the text is a surrogate that a name may not have. -/
def HasBytes (t : Text) : Prop := ∀ c ∈ t, c.utf8 ≠ []

/-- Among the texts that have bytes, a text of ASCII is the only one with its own. -/
theorem eq_of_utf8_eq {t u : Text} (hu : u.IsAscii) (ht : t.HasBytes) (h : t.utf8 = u.utf8) :
    t = u := by
  induction u generalizing t with
  | nil =>
    cases t with
    | nil => rfl
    | cons c t =>
      rw [utf8_cons] at h
      exact absurd (List.append_eq_nil_iff.mp h).1 (ht c (List.mem_cons_self ..))
  | cons d u ih =>
    obtain ⟨hd, hrest⟩ := List.forall_mem_cons.mp hu
    rw [utf8_cons, utf8_of_lt hd] at h
    cases t with
    | nil => cases h
    | cons c t =>
      obtain ⟨hc, ht⟩ := List.forall_mem_cons.mp ht
      obtain ⟨b, bytes, hbytes⟩ := List.exists_cons_of_ne_nil hc
      rw [utf8_cons, hbytes, List.cons_append, List.singleton_append] at h
      obtain ⟨rfl, -⟩ := List.cons.inj h
      obtain rfl := eq_of_mem_utf8 hd (hbytes ▸ List.mem_cons_self ..)
      rw [utf8_of_lt hd] at hbytes
      obtain ⟨-, rfl⟩ := List.cons.inj hbytes
      rw [ih hrest ht (List.cons.inj h).2]

/-! What this means for names that are found again. -/

theorem utf8_asFound (t : Text) : t.asFound.utf8 = t.utf8 := utf8_ofUtf8 t.utf8

theorem asFound_append_cons (t : Text) {c : CodePoint} (hc : c.value < 128) (u : Text) :
    (t ++ c :: u).asFound = t.asFound ++ c :: u.asFound := by
  rw [asFound, utf8_append, utf8_cons, utf8_of_lt hc, List.singleton_append,
    ofUtf8_append_cons _ (by rwa [toNat_byte_of_lt hc]), ofUtf8_cons_of_lt hc]
  rfl

theorem mem_asFound_iff {c : CodePoint} (hc : c.value < 128) (t : Text) :
    c ∈ t.asFound ↔ c ∈ t := by
  have hmem : ∀ t : Text, c ∈ t ↔ UInt8.ofNat c.value ∈ t.utf8 := by
    intro t
    rw [utf8, List.mem_flatMap]
    constructor
    · exact fun h => ⟨c, h, utf8_of_lt hc ▸ List.mem_singleton_self _⟩
    · rintro ⟨d, hd, hbyte⟩
      exact eq_of_mem_utf8 hc hbyte ▸ hd
  rw [hmem, hmem, utf8_asFound]

theorem asFound_eq_self {t : Text} (h : t.IsAscii) : t.asFound = t := by
  induction t with
  | nil => rfl
  | cons c t ih =>
    obtain ⟨hc, hrest⟩ := List.forall_mem_cons.mp h
    have hsplit := asFound_append_cons [] hc t
    rw [ih hrest] at hsplit
    exact hsplit

theorem asFound_eq_iff {t u : Text} (hu : u.IsAscii) (ht : t.HasBytes) :
    t.asFound = u ↔ t = u := by
  constructor
  · intro h
    exact eq_of_utf8_eq hu ht (by rw [← utf8_asFound, h])
  · rintro rfl
    exact asFound_eq_self hu

theorem gap?_eq_none_iff {refused further : CodePoint → Bool} {t : Text} :
    t.gap? refused further = none ↔ ∀ c ∈ t, refused c = false := by
  have hdrop : t.drop (t.takeWhile fun c => !refused c).length =
      t.dropWhile fun c => !refused c :=
    calc _ = ((t.takeWhile fun c => !refused c) ++ t.dropWhile fun c => !refused c).drop
          (t.takeWhile fun c => !refused c).length := by rw [List.takeWhile_append_dropWhile]
      _ = _ := List.drop_left
  have hnil : (t.dropWhile fun c => !refused c) = [] ↔ ∀ c ∈ t, refused c = false := by
    rw [List.dropWhile_eq_nil_iff]
    simp
  rw [gap?, hdrop, ← hnil]
  split
  · next h => simp [h]
  · next h => simp [h]

theorem utf8_ne_nil {c : CodePoint} (h : (c.isSurrogate && !c.carriesByte) = false) :
    c.utf8 ≠ [] := by
  rw [CodePoint.utf8]
  split_ifs with hcarries
  · exact List.cons_ne_nil _ _
  · have hlt := c.value_lt
    have hvalid : c.value.isValidChar := by
      simp only [CodePoint.isSurrogate, CodePoint.isHighSurrogate, CodePoint.isLowSurrogate,
        hcarries, Bool.not_false, Bool.and_true, Bool.or_eq_false_iff, Bool.and_eq_false_iff,
        decide_eq_false_iff_not] at h
      rw [Nat.isValidChar]
      omega
    rw [CodePoint.toChar?, dif_pos hvalid]
    refine List.ne_nil_of_length_pos ?_
    rw [String.length_utf8EncodeChar]
    exact Char.utf8Size_pos _

theorem nameGap?_eq_none_iff {t : Text} : t.nameGap? = none ↔
    ∀ c ∈ t, (c.isSurrogate && !c.carriesByte) = false :=
  gap?_eq_none_iff

theorem hasBytes_of_nameGap? {t : Text} (h : t.nameGap? = none) : t.HasBytes :=
  fun c hc => utf8_ne_nil (nameGap?_eq_none_iff.mp h c hc)

end Text
end TrioScore
