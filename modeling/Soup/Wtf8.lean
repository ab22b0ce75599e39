import Mathlib.Data.List.TakeWhile
import Soup.Bytes

/-!
# WTF-8

The decoding of a text in bytes as `bun_core::strings` does it, and the search for a newline or a
byte that is not ASCII. On the bytes of a character the decoding has the character
(`decodeWtf8Rune_utf8`).
-/

namespace Soup

open List Nat

/-- `strings::UNICODE_REPLACEMENT`. -/
def unicodeReplacement : ℤ := 0xFFFD

/-- `wtf8_byte_sequence_length`, and `wtf8_byte_sequence_length_with_invalid`. -/
def wtf8ByteSequenceLength (first : UInt8) : ℕ :=
  if first ≤ 0x7F then 1
  else if 0xC0 ≤ first ∧ first ≤ 0xDF then 2
  else if 0xE0 ≤ first ∧ first ≤ 0xEF then 3
  else if 0xF0 ≤ first ∧ first ≤ 0xF7 then 4
  else 1

theorem one_le_wtf8ByteSequenceLength (first : UInt8) : 1 ≤ wtf8ByteSequenceLength first := by
  unfold wtf8ByteSequenceLength
  split_ifs <;> decide

/-- `decode_wtf8_rune_t_multibyte`. The array has zeros behind the bytes of `p`. -/
def decodeWtf8RuneMultibyte (p : Bytes) (len : ℕ) (zero : ℤ) : ℤ :=
  let p0 := p.getD 0 0
  let s1 := p.getD 1 0
  let s2 := p.getD 2 0
  let s3 := p.getD 3 0
  if s1 &&& 0xC0 ≠ 0x80 then zero
  else if len = 2 then
    let cp := (p0 &&& 0x1F).toNat <<< 6 ||| (s1 &&& 0x3F).toNat
    if cp < 0x80 then zero else cp
  else if s2 &&& 0xC0 ≠ 0x80 then zero
  else if len = 3 then
    let cp := (p0 &&& 0x0F).toNat <<< 12 ||| (s1 &&& 0x3F).toNat <<< 6 ||| (s2 &&& 0x3F).toNat
    if cp < 0x800 then zero else cp
  else if s3 &&& 0xC0 ≠ 0x80 then zero
  else
    let cp := (p0 &&& 0x07).toNat <<< 18 ||| (s1 &&& 0x3F).toNat <<< 12 |||
      (s2 &&& 0x3F).toNat <<< 6 ||| (s3 &&& 0x3F).toNat
    if cp < 0x10000 ∨ cp > 0x10FFFF then zero else cp

/-- `decode_wtf8_rune_t`. -/
def decodeWtf8Rune (p : Bytes) (len : ℕ) (zero : ℤ) : ℤ :=
  if len = 0 then zero
  else if len = 1 then (p.getD 0 0).toNat
  else decodeWtf8RuneMultibyte p len zero

/-- `CodepointIterator::next`, as the code point at the front and its width. -/
def nextCodepoint (tail : Bytes) : ℤ × ℕ :=
  match tail with
  | [] => (0, 0)
  | first :: _ =>
    if first < 0x80 then (first.toNat, 1)
    else
      let len := wtf8ByteSequenceLength first
      let cp := decodeWtf8Rune (tail.take len) len (-1)
      if cp = -1 then (unicodeReplacement, 1) else (cp, len)

/-- A byte that `index_of_newline_or_non_ascii` stops at. -/
def isNewlineOrNonAscii (c : UInt8) : Bool := c > 127 || c < 0x20

/-- `index_of_newline_or_non_ascii`, in the slice from its offset on. -/
def indexOfNewlineOrNonAscii (slice : Bytes) : Option ℕ := slice.findIdx? isNewlineOrNonAscii

theorem indexOfNewlineOrNonAscii_lt {slice : Bytes} {k : ℕ}
    (h : indexOfNewlineOrNonAscii slice = some k) : k < slice.length :=
  (findIdx?_eq_some_iff_getElem.1 h).1

/-! ## Texts -/

/-- The bytes of a text. -/
def utf8 (t : List Char) : Bytes := t.flatMap String.utf8EncodeChar

@[simp] theorem utf8_nil : utf8 [] = [] := rfl

@[simp] theorem utf8_cons (c : Char) (t : List Char) :
    utf8 (c :: t) = String.utf8EncodeChar c ++ utf8 t :=
  rfl

@[simp] theorem utf8_append (s t : List Char) : utf8 (s ++ t) = utf8 s ++ utf8 t :=
  flatMap_append

theorem continuation_byte (v : ℕ) : UInt8.ofNat (v % 64 + 0x80) &&& 0xC0 = 0x80 ∧
    (UInt8.ofNat (v % 64 + 0x80) &&& 0x3F).toNat = v % 64 := by
  have h : ∀ y : Fin 64, UInt8.ofNat (y.val + 0x80) &&& 0xC0 = 0x80 ∧
    (UInt8.ofNat (y.val + 0x80) &&& 0x3F).toNat = y.val := by decide
  exact h ⟨v % 64, mod_lt _ (by decide)⟩

/-- The first byte of two. -/
theorem first_byte_two (v : ℕ) : wtf8ByteSequenceLength (UInt8.ofNat (v % 32 + 0xC0)) = 2 ∧
    0x80 ≤ UInt8.ofNat (v % 32 + 0xC0) ∧
    (UInt8.ofNat (v % 32 + 0xC0) &&& 0x1F).toNat = v % 32 := by
  have h : ∀ y : Fin 32, wtf8ByteSequenceLength (UInt8.ofNat (y.val + 0xC0)) = 2 ∧
    0x80 ≤ UInt8.ofNat (y.val + 0xC0) ∧
    (UInt8.ofNat (y.val + 0xC0) &&& 0x1F).toNat = y.val := by decide
  exact h ⟨v % 32, mod_lt _ (by decide)⟩

/-- The first byte of three. -/
theorem first_byte_three (v : ℕ) : wtf8ByteSequenceLength (UInt8.ofNat (v % 16 + 0xE0)) = 3 ∧
    0x80 ≤ UInt8.ofNat (v % 16 + 0xE0) ∧
    (UInt8.ofNat (v % 16 + 0xE0) &&& 0x0F).toNat = v % 16 := by
  have h : ∀ y : Fin 16, wtf8ByteSequenceLength (UInt8.ofNat (y.val + 0xE0)) = 3 ∧
    0x80 ≤ UInt8.ofNat (y.val + 0xE0) ∧
    (UInt8.ofNat (y.val + 0xE0) &&& 0x0F).toNat = y.val := by decide
  exact h ⟨v % 16, mod_lt _ (by decide)⟩

/-- The first byte of four. -/
theorem first_byte_four (v : ℕ) : wtf8ByteSequenceLength (UInt8.ofNat (v % 8 + 0xF0)) = 4 ∧
    0x80 ≤ UInt8.ofNat (v % 8 + 0xF0) ∧
    (UInt8.ofNat (v % 8 + 0xF0) &&& 0x07).toNat = v % 8 := by
  have h : ∀ y : Fin 8, wtf8ByteSequenceLength (UInt8.ofNat (y.val + 0xF0)) = 4 ∧
    0x80 ≤ UInt8.ofNat (y.val + 0xF0) ∧
    (UInt8.ofNat (y.val + 0xF0) &&& 0x07).toNat = y.val := by decide
  exact h ⟨v % 8, mod_lt _ (by decide)⟩

theorem and_three_f_lt (s : UInt8) : (s &&& 0x3F).toNat < 64 := by
  rw [UInt8.toNat_and]
  exact lt_of_le_of_lt and_le_right (by decide)

theorem or_six {a c : ℕ} (hc : c < 64) : a <<< 6 ||| c = a * 64 + c := by
  rw [← shiftLeft_add_eq_or_of_lt (show c < 2 ^ 6 from hc), shiftLeft_eq]

theorem or_twelve {a b c : ℕ} (hb : b < 64) (hc : c < 64) :
    a <<< 12 ||| b <<< 6 ||| c = (a * 64 + b) * 64 + c := by
  rw [show a <<< 12 = (a <<< 6) <<< 6 by rw [← shiftLeft_add], ← shiftLeft_or_distrib,
    or_six hb, or_six hc]

theorem or_eighteen {a b c d : ℕ} (hb : b < 64) (hc : c < 64) (hd : d < 64) :
    a <<< 18 ||| b <<< 12 ||| c <<< 6 ||| d = ((a * 64 + b) * 64 + c) * 64 + d := by
  rw [show a <<< 18 = (a <<< 12) <<< 6 by rw [← shiftLeft_add],
    show b <<< 12 = (b <<< 6) <<< 6 by rw [← shiftLeft_add], ← shiftLeft_or_distrib,
    ← shiftLeft_or_distrib, or_twelve hb hc, or_six hd]

theorem decode_two {p0 s1 : UInt8} (h : s1 &&& 0xC0 = 0x80) {v : ℕ}
    (hv : (p0 &&& 0x1F).toNat * 64 + (s1 &&& 0x3F).toNat = v) (hle : 0x80 ≤ v) (zero : ℤ) :
    decodeWtf8Rune [p0, s1] 2 zero = v := by
  have hor := @or_six (p0 &&& 0x1F).toNat (s1 &&& 0x3F).toNat (and_three_f_lt s1)
  rw [hv] at hor
  rw [decodeWtf8Rune, if_neg (by decide), if_neg (by decide), decodeWtf8RuneMultibyte]
  simp only [getD_cons_zero, getD_cons_succ, h, hor]
  rw [if_neg (by simp), if_pos trivial, if_neg (by omega)]

theorem decode_three {p0 s1 s2 : UInt8} (h₁ : s1 &&& 0xC0 = 0x80) (h₂ : s2 &&& 0xC0 = 0x80) {v : ℕ}
    (hv : ((p0 &&& 0x0F).toNat * 64 + (s1 &&& 0x3F).toNat) * 64 + (s2 &&& 0x3F).toNat = v)
    (hle : 0x800 ≤ v) (zero : ℤ) : decodeWtf8Rune [p0, s1, s2] 3 zero = v := by
  have hor := @or_twelve (p0 &&& 0x0F).toNat _ _ (and_three_f_lt s1) (and_three_f_lt s2)
  rw [hv] at hor
  rw [decodeWtf8Rune, if_neg (by decide), if_neg (by decide), decodeWtf8RuneMultibyte]
  simp only [getD_cons_zero, getD_cons_succ, h₁, h₂, hor]
  rw [if_neg (by simp), if_neg (by decide), if_neg (by simp), if_pos trivial, if_neg (by omega)]

theorem decode_four {p0 s1 s2 s3 : UInt8} (h₁ : s1 &&& 0xC0 = 0x80) (h₂ : s2 &&& 0xC0 = 0x80)
    (h₃ : s3 &&& 0xC0 = 0x80) {v : ℕ}
    (hv : (((p0 &&& 0x07).toNat * 64 + (s1 &&& 0x3F).toNat) * 64 + (s2 &&& 0x3F).toNat) * 64 +
      (s3 &&& 0x3F).toNat = v) (hle : 0x10000 ≤ v) (hlt : v ≤ 0x10FFFF) (zero : ℤ) :
    decodeWtf8Rune [p0, s1, s2, s3] 4 zero = v := by
  have hor := @or_eighteen (p0 &&& 0x07).toNat _ _ _ (and_three_f_lt s1) (and_three_f_lt s2)
    (and_three_f_lt s3)
  rw [hv] at hor
  rw [decodeWtf8Rune, if_neg (by decide), if_neg (by decide), decodeWtf8RuneMultibyte]
  simp only [getD_cons_zero, getD_cons_succ, h₁, h₂, h₃, hor]
  rw [if_neg (by simp), if_neg (by decide), if_neg (by simp), if_neg (by decide), if_neg (by simp),
    if_neg (by omega)]

/-- What a character's bytes have to do with its value `v`. -/
structure Encodes (v : ℕ) (len : ℕ) (first : UInt8) (tail : Bytes) : Prop where
  length_eq : wtf8ByteSequenceLength first = len
  decode : ∀ zero, decodeWtf8Rune ((first :: tail).take len) len zero = v
  ascii : v < 0x80 → first = UInt8.ofNat v ∧ len = 1
  not_ascii : 0x80 ≤ v → 0x80 ≤ first ∧ 1 < len

/-- The first byte of a character says how many bytes it has, and they decode to it. -/
theorem encodes_utf8EncodeChar (c : Char) (rest : Bytes) :
    ∃ first tail, String.utf8EncodeChar c ++ rest = first :: tail ∧
      Encodes c.val.toNat (String.utf8EncodeChar c).length first tail := by
  have hv : c.val.toNat < 0x110000 := by
    rcases c.valid with h | h
    · have := h
      omega
    · exact h.2
  rw [String.utf8EncodeChar]
  generalize c.val.toNat = v at hv
  have h₀ := continuation_byte v
  have h₆ := continuation_byte (v / 64)
  have h₁₂ := continuation_byte (v / 4096)
  split_ifs with h₁ h₂ h₃
  · have hnat : (UInt8.ofNat v).toNat = v := by
      rw [UInt8.toNat_ofNat', mod_eq_of_lt (by omega)]
    have hlen : wtf8ByteSequenceLength (UInt8.ofNat v) = 1 := by
      rw [wtf8ByteSequenceLength, if_pos]
      rw [UInt8.le_iff_toNat_le, hnat]
      exact h₁
    refine ⟨_, _, rfl, hlen, fun zero => ?_, fun _ => ⟨rfl, rfl⟩, fun h => by omega⟩
    show decodeWtf8Rune [UInt8.ofNat v] 1 zero = v
    rw [decodeWtf8Rune, if_neg (by decide), if_pos rfl, getD_cons_zero, hnat]
  · obtain ⟨hlen, hle, hfirst⟩ := first_byte_two (v / 64)
    exact ⟨_, _, rfl, hlen, decode_two h₀.1 (by omega) (by omega), fun h => by omega,
      fun _ => ⟨hle, lt_succ_self 1⟩⟩
  · obtain ⟨hlen, hle, hfirst⟩ := first_byte_three (v / 4096)
    exact ⟨_, _, rfl, hlen, decode_three h₆.1 h₀.1 (by omega) (by omega), fun h => by omega,
      fun _ => ⟨hle, Nat.lt_of_sub_eq_succ rfl⟩⟩
  · obtain ⟨hlen, hle, hfirst⟩ := first_byte_four (v / 262144)
    exact ⟨_, _, rfl, hlen, decode_four h₁₂.1 h₆.1 h₀.1 (by omega) (by omega) (by omega),
      fun h => by omega, fun _ => ⟨hle, Nat.lt_of_sub_eq_succ rfl⟩⟩

end Soup
