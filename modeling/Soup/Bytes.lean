import Soup.Lib.Overwrite

/-!
# Byte slices

The repository works on `&[u8]`. A slice is the list of its bytes; an index into a slice
becomes the bytes that are left from it on. `b 'x'` is the literal `b'x'`.

`parseUnsigned` is `bun_core::fmt::parse_unsigned::<u64>` in radix 10, and `order` is
`strings::order`, the lexicographic order of two slices.
-/

namespace Soup

open List

/-- A `&[u8]`. -/
abbrev Bytes := List UInt8

/-- The byte of an ASCII character, `b'x'` in the source. -/
abbrev b (c : Char) : UInt8 := c.toUInt8

/-- The bytes of an ASCII string, `b"..."` in the source. -/
def text (s : String) : Bytes := s.toList.map b

/-- `u64::MAX`. -/
def u64Max : ℕ := 2 ^ 64 - 1

/-- `u8::is_ascii_digit`. -/
def isAsciiDigit (c : UInt8) : Bool := b '0' ≤ c && c ≤ b '9'

/-- `u8::is_ascii_alphabetic`. -/
def isAsciiAlphabetic (c : UInt8) : Bool :=
  (b 'a' ≤ c && c ≤ b 'z') || (b 'A' ≤ c && c ≤ b 'Z')

/-- `strings::WHITESPACE_CHARS`. -/
def isWhitespaceChar (c : UInt8) : Bool :=
  c == b ' ' || c == b '\t' || c == b '\n' || c == b '\r' || c == 0x0B || c == 0x0C

/-- The value of a decimal digit. -/
def digitValue (c : UInt8) : ℕ := c.toNat - 48

/-- The loop of `parse_with_sign` in radix 10, from the accumulator on. A `_` is passed over.
The source's accumulator is a `u128`; past it the result is above `u64::MAX` as well. -/
def accumulate : ℕ → Bytes → Option ℕ
  | acc, [] => some acc
  | acc, c :: cs =>
    if c = b '_' then accumulate acc cs
    else if isAsciiDigit c then accumulate (acc * 10 + digitValue c) cs
    else none

/-- `parse_unsigned::<u64>(s, 10).ok()`. -/
def parseUnsigned (s : Bytes) : Option UInt64 :=
  if s.head? = none ∨ s.head? = some (b '_') ∨ s.getLast? = some (b '_') then none
  else
    match accumulate 0 s with
    | some n => if n ≤ u64Max then some (UInt64.ofNat n) else none
    | none => none

/-- `u64::checked_add(1)`. -/
def checkedAddOne (n : UInt64) : Option UInt64 :=
  if n.toNat = u64Max then none else some (n + 1)

/-- `strings::order`, which is `<[u8] as Ord>::cmp`. -/
def order : Bytes → Bytes → Ordering
  | [], [] => .eq
  | [], _ :: _ => .lt
  | _ :: _, [] => .gt
  | x :: xs, y :: ys => (cmp x.toNat y.toNat).then (order xs ys)

/-- `strings::split(s, b".")`, all its parts. -/
def splitDots (s : Bytes) : List Bytes := s.splitOn (b '.')

theorem mem_intercalate {pieces : List Bytes} {sep c : UInt8} (h : c ∈ [sep].intercalate pieces) :
    c = sep ∨ ∃ piece ∈ pieces, c ∈ piece := by
  induction pieces with
  | nil => cases h
  | cons piece pieces ih =>
    cases pieces with
    | nil =>
      rw [intercalate_singleton] at h
      exact .inr ⟨piece, mem_cons_self, h⟩
    | cons next pieces =>
      rw [intercalate_cons_cons, mem_append, mem_append, mem_singleton] at h
      rcases h with (h | h) | h
      · exact .inr ⟨piece, mem_cons_self, h⟩
      · exact .inl h
      · refine (ih h).imp_right (Exists.imp fun p hp => ⟨mem_cons_of_mem _ hp.1, hp.2⟩)

theorem isAsciiDigit_iff {c : UInt8} : isAsciiDigit c = true ↔ 48 ≤ c.toNat ∧ c.toNat ≤ 57 := by
  simp only [isAsciiDigit, Bool.and_eq_true, decide_eq_true_eq, UInt8.le_iff_toNat_le]
  exact Iff.rfl

theorem checkedAddOne_eq_some {n m : UInt64} (h : checkedAddOne n = some m) :
    m.toNat = n.toNat + 1 := by
  unfold checkedAddOne u64Max at h
  split at h
  · cases h
  · have := n.toNat_lt
    cases h
    rw [UInt64.toNat_add]
    simp
    omega

theorem checkedAddOne_eq_none {n : UInt64} (h : checkedAddOne n = none) : n.toNat = u64Max := by
  unfold checkedAddOne at h
  split at h
  · assumption
  · cases h

theorem toNat_le_u64Max (n : UInt64) : n.toNat ≤ u64Max := by
  have := n.toNat_lt
  unfold u64Max
  omega

/-!
## Writes to slices

What the methods of `&mut [u8]` do. Where the source would stop because an index is out of range,
they give `Panic`.
-/

open Lib

inductive Panic where
  | outOfRange
  deriving DecidableEq, Repr

/-- `bytes[position..position + new.len()].copy_from_slice(new)`. -/
def copyFromSlice (bytes : Bytes) (position : ℕ) (new : Bytes) : Except Panic Bytes :=
  if position + new.length ≤ bytes.length then .ok (overwrite bytes position new)
  else .error .outOfRange

/-- `bytes.copy_within(start..stop, dest)`. -/
def copyWithin (bytes : Bytes) (start stop dest : ℕ) : Except Panic Bytes :=
  if start ≤ stop ∧ stop ≤ bytes.length then
    copyFromSlice bytes dest ((bytes.drop start).take (stop - start))
  else .error .outOfRange

/-- `bytes[start..stop].fill(0)`. -/
def fillZero (bytes : Bytes) (start stop : ℕ) : Except Panic Bytes :=
  if start ≤ stop then copyFromSlice bytes start (replicate (stop - start) 0)
  else .error .outOfRange

theorem copyFromSlice_ok {bytes new : Bytes} {position : ℕ}
    (h : position + new.length ≤ bytes.length) :
    copyFromSlice bytes position new = .ok (overwrite bytes position new) := if_pos h

end Soup
