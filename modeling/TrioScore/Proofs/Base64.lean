import Mathlib.Data.Nat.Notation
import Mathlib.Tactic.SplitIfs
import TrioScore.Base64

/-!
# Reading base 64

A reader of RFC 4648: four characters of the alphabet give three bytes, and only the last group may
be filled up, with one equals sign or two and with bits that are zero. It reads exactly the texts
that are written, each back to its bytes.
-/

namespace TrioScore.Base64

def alphabet : List Char :=
  "ABCDEFGHIJKLMNOPQRSTUVWXYZabcdefghijklmnopqrstuvwxyz0123456789+/".toList

/-- The six bits that a character stands for. -/
def value? (c : Char) : Option ℕ := alphabet.idxOf? c

/-- The bytes of a last group that is filled up: one byte behind two characters, and two behind
three. The bits that are left over are zero. -/
def readLast? (a b c : Char) : Option Bytes :=
  if c = '=' then do
    let n := (← value? a) * 64 + (← value? b)
    if n % 16 = 0 then some [UInt8.ofNat (n / 16)] else none
  else do
    let n := ((← value? a) * 64 + (← value? b)) * 64 + (← value? c)
    if n % 4 = 0 then some [UInt8.ofNat (n / 1024), UInt8.ofNat (n / 4 % 256)] else none

def decode? : List Char → Option Bytes
  | [] => some []
  | a :: b :: c :: d :: rest =>
    if d = '=' then if rest = [] then readLast? a b c else none
    else do
      let n := (((← value? a) * 64 + (← value? b)) * 64 + (← value? c)) * 64 + (← value? d)
      let bytes ← decode? rest
      some (UInt8.ofNat (n / 65536) :: UInt8.ofNat (n / 256 % 256) :: UInt8.ofNat (n % 256) ::
        bytes)
  | _ => none

section Digits
variable {m n : ℕ} {c : Char}

theorem digit_injective (hm : m < 64) (hn : n < 64) (h : digit m = digit n) : m = n := by
  have hcode : ∀ k < 64, (digit k).toNat =
      if k < 26 then k + 65 else if k < 52 then k + 71 else if k < 62 then k - 4
      else if k = 62 then 43 else 47 := by
    decide
  have hcodes := congrArg Char.toNat h
  rw [hcode m hm, hcode n hn] at hcodes
  split_ifs at hcodes <;> omega

theorem alphabet_eq : alphabet = (List.range 64).map digit := by
  decide

theorem mem_alphabet_iff : c ∈ alphabet ↔ ∃ n < 64, digit n = c := by
  simp only [alphabet_eq, List.mem_map, List.mem_range]

theorem value?_eq_some_iff : value? c = some n ↔ n < 64 ∧ digit n = c := by
  simp only [value?, alphabet_eq, List.idxOf?_eq_some_iff, List.getElem_map, List.getElem_range,
    List.length_map, List.length_range]
  constructor
  · intro ⟨hn, hc, _⟩
    exact ⟨hn, hc⟩
  · intro ⟨hn, hc⟩
    refine ⟨hn, hc, ?_⟩
    intro j hj heq
    have hsame := digit_injective (by omega) hn (heq.trans hc.symm)
    omega

theorem value?_digit (h : n < 64) : value? (digit n) = some n :=
  value?_eq_some_iff.mpr ⟨h, rfl⟩

theorem digit_mem_alphabet (h : n < 64) : digit n ∈ alphabet :=
  mem_alphabet_iff.mpr ⟨n, h, rfl⟩

theorem digit_ne_pad (h : n < 64) : digit n ≠ '=' := by
  have hdigits : ∀ n < 64, digit n ≠ '=' := by
    decide
  exact hdigits n h

end Digits

theorem decode?_encode (bytes : Bytes) : decode? (encode bytes) = some bytes := by
  fun_induction encode bytes with
  | case1 => rfl
  | case2 a n =>
    have ha := a.toNat_lt
    have h₁ := value?_digit (show n / 64 < 64 by omega)
    have h₂ := value?_digit (show n % 64 < 64 by omega)
    have hsum : n / 64 * 64 + n % 64 = a.toNat * 16 := by omega
    simp only [decode?, readLast?, if_true, h₁, h₂, Option.bind_eq_bind, Option.bind_some, hsum]
    rw [Nat.mul_mod_left, if_pos rfl, Nat.mul_div_cancel _ (by decide), UInt8.ofNat_toNat]
  | case3 a b n =>
    have ha := a.toNat_lt
    have hb := b.toNat_lt
    have hpad := digit_ne_pad (show n % 64 < 64 by omega)
    have h₁ := value?_digit (show n / 4096 < 64 by omega)
    have h₂ := value?_digit (show n / 64 % 64 < 64 by omega)
    have h₃ := value?_digit (show n % 64 < 64 by omega)
    have hsum : (n / 4096 * 64 + n / 64 % 64) * 64 + n % 64 =
        (a.toNat * 256 + b.toNat) * 4 := by omega
    have hfirst : (a.toNat * 256 + b.toNat) * 4 / 1024 = a.toNat := by omega
    have hsecond : (a.toNat * 256 + b.toNat) * 4 / 4 % 256 = b.toNat := by omega
    simp only [decode?, readLast?, if_true, hpad, if_false, h₁, h₂, h₃, Option.bind_eq_bind,
      Option.bind_some, hsum, hfirst, hsecond]
    rw [Nat.mul_mod_left, if_pos rfl, UInt8.ofNat_toNat, UInt8.ofNat_toNat]
  | case4 a b c rest n ih =>
    have ha := a.toNat_lt
    have hb := b.toNat_lt
    have hc := c.toNat_lt
    have hpad := digit_ne_pad (show n % 64 < 64 by omega)
    have h₁ := value?_digit (show n / 262144 < 64 by omega)
    have h₂ := value?_digit (show n / 4096 % 64 < 64 by omega)
    have h₃ := value?_digit (show n / 64 % 64 < 64 by omega)
    have h₄ := value?_digit (show n % 64 < 64 by omega)
    have hsum : ((n / 262144 * 64 + n / 4096 % 64) * 64 + n / 64 % 64) * 64 + n % 64 =
        (a.toNat * 256 + b.toNat) * 256 + c.toNat := by omega
    have hfirst : ((a.toNat * 256 + b.toNat) * 256 + c.toNat) / 65536 = a.toNat := by omega
    have hsecond : ((a.toNat * 256 + b.toNat) * 256 + c.toNat) / 256 % 256 = b.toNat := by omega
    have hthird : ((a.toNat * 256 + b.toNat) * 256 + c.toNat) % 256 = c.toNat := by omega
    simp only [decode?, hpad, if_false, h₁, h₂, h₃, h₄, ih, Option.bind_eq_bind, Option.bind_some,
      hsum, hfirst, hsecond, hthird, UInt8.ofNat_toNat]

section Converse
variable {a b c : Char} {bytes : Bytes}

theorem toNat_ofNat_pair {n : ℕ} (h : n < 65536) :
    (UInt8.ofNat (n / 256)).toNat * 256 + (UInt8.ofNat (n % 256)).toNat = n := by
  rw [UInt8.toNat_ofNat', UInt8.toNat_ofNat']
  omega

theorem toNat_ofNat_triple {n : ℕ} (h : n < 16777216) :
    ((UInt8.ofNat (n / 65536)).toNat * 256 + (UInt8.ofNat (n / 256 % 256)).toNat) * 256 +
      (UInt8.ofNat (n % 256)).toNat = n := by
  rw [UInt8.toNat_ofNat', UInt8.toNat_ofNat', UInt8.toNat_ofNat']
  omega

theorem encode_of_readLast? (h : readLast? a b c = some bytes) : [a, b, c, '='] = encode bytes := by
  rw [readLast?] at h
  split_ifs at h with hc
  · obtain ⟨x, hx, h⟩ := Option.bind_eq_some_iff.mp h
    obtain ⟨y, hy, h⟩ := Option.bind_eq_some_iff.mp h
    dsimp only at h
    split_ifs at h with hspare
    obtain rfl := Option.some.inj h
    obtain ⟨hx, rfl⟩ := value?_eq_some_iff.mp hx
    obtain ⟨hy, rfl⟩ := value?_eq_some_iff.mp hy
    have hbyte : (UInt8.ofNat ((x * 64 + y) / 16)).toNat = (x * 64 + y) / 16 := by
      rw [UInt8.toNat_ofNat']
      omega
    have hfirst : (x * 64 + y) / 16 * 16 / 64 = x := by omega
    have hsecond : (x * 64 + y) / 16 * 16 % 64 = y := by omega
    rw [encode]
    simp only [hbyte, hfirst, hsecond, hc]
  · obtain ⟨x, hx, h⟩ := Option.bind_eq_some_iff.mp h
    obtain ⟨y, hy, h⟩ := Option.bind_eq_some_iff.mp h
    obtain ⟨z, hz, h⟩ := Option.bind_eq_some_iff.mp h
    dsimp only at h
    split_ifs at h with hspare
    obtain rfl := Option.some.inj h
    obtain ⟨hx, rfl⟩ := value?_eq_some_iff.mp hx
    obtain ⟨hy, rfl⟩ := value?_eq_some_iff.mp hy
    obtain ⟨hz, rfl⟩ := value?_eq_some_iff.mp hz
    have hsum := toNat_ofNat_pair (show ((x * 64 + y) * 64 + z) / 4 < 65536 by omega)
    rw [Nat.div_div_eq_div_mul] at hsum
    have hfirst : ((x * 64 + y) * 64 + z) / 4 * 4 / 4096 = x := by omega
    have hsecond : ((x * 64 + y) * 64 + z) / 4 * 4 / 64 % 64 = y := by omega
    have hthird : ((x * 64 + y) * 64 + z) / 4 * 4 % 64 = z := by omega
    rw [encode]
    simp only [hsum, hfirst, hsecond, hthird]

theorem encode_of_decode? {chars : List Char} {bytes : Bytes} (h : decode? chars = some bytes) :
    chars = encode bytes := by
  fun_induction decode? chars generalizing bytes with
  | case1 =>
    obtain rfl := Option.some.inj h
    rfl
  | case2 a b c => exact encode_of_readLast? h
  | case3 a b c rest hrest => cases h
  | case4 a b c d rest hpad ih =>
    obtain ⟨x, hx, h⟩ := Option.bind_eq_some_iff.mp h
    obtain ⟨y, hy, h⟩ := Option.bind_eq_some_iff.mp h
    obtain ⟨z, hz, h⟩ := Option.bind_eq_some_iff.mp h
    obtain ⟨w, hw, h⟩ := Option.bind_eq_some_iff.mp h
    obtain ⟨rest', hrest, h⟩ := Option.bind_eq_some_iff.mp h
    obtain rfl := Option.some.inj h
    obtain ⟨hx, rfl⟩ := value?_eq_some_iff.mp hx
    obtain ⟨hy, rfl⟩ := value?_eq_some_iff.mp hy
    obtain ⟨hz, rfl⟩ := value?_eq_some_iff.mp hz
    obtain ⟨hw, rfl⟩ := value?_eq_some_iff.mp hw
    have hsum := toNat_ofNat_triple (show ((x * 64 + y) * 64 + z) * 64 + w < 16777216 by omega)
    have hfirst : (((x * 64 + y) * 64 + z) * 64 + w) / 262144 = x := by omega
    have hsecond : (((x * 64 + y) * 64 + z) * 64 + w) / 4096 % 64 = y := by omega
    have hthird : (((x * 64 + y) * 64 + z) * 64 + w) / 64 % 64 = z := by omega
    have hfourth : (((x * 64 + y) * 64 + z) * 64 + w) % 64 = w := by omega
    rw [encode]
    simp only [hsum, hfirst, hsecond, hthird, hfourth, ih hrest]
  | case5 => cases h

end Converse

/-- The reader takes what is written, and nothing else. -/
theorem decode?_eq_some_iff {chars : List Char} {bytes : Bytes} :
    decode? chars = some bytes ↔ chars = encode bytes := by
  constructor
  · exact encode_of_decode?
  · rintro rfl
    exact decode?_encode bytes

/-- The text is characters of the alphabet, and at its end the equals signs that a number of bytes
that is no multiple of three needs. -/
structure IsPadded (size : ℕ) (chars digits : List Char) (pads : ℕ) : Prop where
  eq : chars = digits ++ List.replicate pads '='
  digits : ∀ c ∈ digits, c ∈ alphabet
  pads_le : pads ≤ 2
  dvd : 3 ∣ size + pads

theorem IsPadded.cons {size pads : ℕ} {chars digits group : List Char}
    (h : IsPadded size chars digits pads) (hgroup : ∀ c ∈ group, c ∈ alphabet) :
    IsPadded (size + 3) (group ++ chars) (group ++ digits) pads where
  eq := by
    rw [h.eq, List.append_assoc]
  digits := by
    intro c hc
    rcases List.mem_append.mp hc with hc | hc
    · exact hgroup c hc
    · exact h.digits c hc
  pads_le := h.pads_le
  dvd := by
    have := h.dvd
    omega

theorem exists_isPadded (bytes : Bytes) :
    ∃ digits pads, IsPadded bytes.length (encode bytes) digits pads := by
  fun_induction encode bytes with
  | case1 => exact ⟨[], 0, rfl, by simp, by decide, by decide⟩
  | case2 a n =>
    have ha := a.toNat_lt
    refine ⟨[digit (n / 64), digit (n % 64)], 2, rfl, ?_, by decide, by simp⟩
    simp only [List.forall_mem_cons]
    exact ⟨digit_mem_alphabet (by omega), digit_mem_alphabet (by omega), by simp⟩
  | case3 a b n =>
    have ha := a.toNat_lt
    have hb := b.toNat_lt
    refine ⟨[digit (n / 4096), digit (n / 64 % 64), digit (n % 64)], 1, rfl, ?_, by decide,
      by simp⟩
    simp only [List.forall_mem_cons]
    exact ⟨digit_mem_alphabet (by omega), digit_mem_alphabet (by omega),
      digit_mem_alphabet (by omega), by simp⟩
  | case4 a b c rest n ih =>
    have ha := a.toNat_lt
    have hb := b.toNat_lt
    have hc := c.toNat_lt
    obtain ⟨digits, pads, hpadded⟩ := ih
    have hgroup : ∀ d ∈ [digit (n / 262144), digit (n / 4096 % 64), digit (n / 64 % 64),
        digit (n % 64)], d ∈ alphabet := by
      simp only [List.forall_mem_cons]
      exact ⟨digit_mem_alphabet (by omega), digit_mem_alphabet (by omega),
        digit_mem_alphabet (by omega), digit_mem_alphabet (by omega), by simp⟩
    exact ⟨_, pads, hpadded.cons hgroup⟩

theorem isAscii_encode {bytes : Bytes} {c : Char} (h : c ∈ encode bytes) : c.toNat < 128 := by
  have hdigits : ∀ n < 64, (digit n).toNat < 128 := by
    decide
  obtain ⟨digits, pads, hpadded⟩ := exists_isPadded bytes
  rw [hpadded.eq] at h
  rcases List.mem_append.mp h with h | h
  · obtain ⟨n, hn, rfl⟩ := mem_alphabet_iff.mp (hpadded.digits c h)
    exact hdigits n hn
  · rw [List.eq_of_mem_replicate h]
    decide

end TrioScore.Base64
