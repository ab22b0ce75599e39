import Soup.Lib.LittleEndian
import Soup.Bytes

/-!
# Small strings

`semver_string` of `lib.rs` on a little-endian machine: a `String` of eight bytes that holds a text
of up to eight bytes itself or points into a buffer, and the `Builder` with its pool. A `usize` is a
number; a slice of a buffer is given with its offset in it.
-/

namespace Soup.Semver

open Lib List

structure SemverString where
  bytes : Bytes
  length_bytes : bytes.length = 8
  deriving DecidableEq, Repr

/-- `String::MAX_INLINE_LEN`. -/
def maxInlineLen : ℕ := 8

/-- `MAX_ADDRESSABLE_SPACE_MASK`. -/
def maxAddressableSpaceMask : ℕ := 2 ^ 63 - 1

structure Pointer where
  off : ℕ
  len : ℕ
  deriving DecidableEq, Repr

namespace Pointer

/-- `init`: where `text` is in a buffer. Both fields are `u32`. -/
def init (off : ℕ) (text : Bytes) : Pointer := ⟨off % 2 ^ 32, text.length % 2 ^ 32⟩

def toBits (pointer : Pointer) : ℕ := pointer.off + 2 ^ 32 * pointer.len

def fromBits (bits : ℕ) : Pointer := ⟨bits % 2 ^ 32, bits / 2 ^ 32⟩

end Pointer

namespace SemverString

def canInline (buf : Bytes) : Bool :=
  if buf.length ≤ maxInlineLen - 1 then true
  else if buf.length = maxInlineLen then buf.getD (maxInlineLen - 1) 0 &&& 0x80 = 0
  else false

/-- The bytes of a text, with zeros behind it. -/
def inline (text : Bytes) : SemverString :=
  ⟨(text ++ replicate maxInlineLen 0).take maxInlineLen, by
    rw [length_take, length_append, length_replicate]
    exact Nat.min_eq_left (Nat.le_add_left _ _)⟩

def ofPointer (pointer : Pointer) : SemverString :=
  ⟨toLittleEndian 8 ((pointer.toBits &&& maxAddressableSpaceMask) ||| 2 ^ 63),
    length_toLittleEndian _ _⟩

/-- `init` for a text that is at `off` in its buffer. -/
def init (off : ℕ) (text : Bytes) : SemverString :=
  if text.length < maxInlineLen then inline text
  else if text.length = maxInlineLen then
    if 128 ≤ text.getD (maxInlineLen - 1) 0 then ofPointer (Pointer.init off text) else inline text
  else ofPointer (Pointer.init off text)

variable (string : SemverString)

def bits : ℕ := ofLittleEndian string.bytes

def isInline : Bool := string.bytes.getD (maxInlineLen - 1) 0 &&& 0x80 = 0

/-- `inline_len`. -/
def inlineLen : ℕ :=
  let bits := BitVec.ofNat 64 string.bits
  let zeroBytes := (bits - 0x0101010101010101#64) &&& ~~~bits &&& 0x8080808080808080#64
  zeroBytes.ctz.toNat / 8

def ptr : Pointer := Pointer.fromBits (string.bits &&& maxAddressableSpaceMask)

/-- `buf.get(off..off + len)`. -/
def getRange (buf : Bytes) (pointer : Pointer) : Option Bytes :=
  if pointer.off + pointer.len ≤ buf.length then some ((buf.drop pointer.off).take pointer.len)
    else none

def slice (buf : Bytes) : Bytes :=
  if string.bytes.getD (maxInlineLen - 1) 0 &&& 128 = 0 then string.bytes.take string.inlineLen
  else (getRange buf string.ptr).getD []

def eql (that : SemverString) (thisBuf thatBuf : Bytes) : Bool :=
  if string.isInline && that.isInline then string.bits = that.bits
  else if string.isInline ≠ that.isInline then false
  else
    match getRange thisBuf string.ptr, getRange thatBuf that.ptr with
    | some a, some b => a = b
    | _, _ => false

end SemverString

/-! ## The builder -/

structure Builder where
  len : ℕ
  cap : ℕ
  ptr : Option Bytes
  stringPool : UInt64 → Option SemverString

namespace Builder

/-- `Builder::default`. -/
def empty : Builder := ⟨0, 0, none, fun _ => none⟩

variable (hash : Bytes → UInt64) (builder : Builder)

def count (text : Bytes) : Builder :=
  if SemverString.canInline text then builder
  else if (builder.stringPool (hash text)).isSome then builder
  else { builder with cap := builder.cap + text.length }

/-- `&self.ptr[0..self.cap]`. -/
def allocated : Except Panic Bytes :=
  match builder.ptr with
  | none => .error .outOfRange
  | some bytes => if builder.cap ≤ bytes.length then .ok (bytes.take builder.cap)
    else .error .outOfRange

def allocatedSlice : Except Panic Bytes := if 0 < builder.cap then builder.allocated else .ok []

def allocate : Builder := { builder with ptr := some (replicate builder.cap 0) }

/-- The text is copied to `&mut self.ptr[self.len..self.cap]`. -/
def write (text : Bytes) : Except Panic Builder :=
  match builder.ptr with
  | none => .error .outOfRange
  | some bytes =>
    if builder.cap ≤ bytes.length ∧ builder.len ≤ builder.cap then do
      let room ← copyFromSlice ((bytes.take builder.cap).drop builder.len) 0 text
      .ok { builder with
        ptr := some (bytes.take builder.len ++ (room ++ bytes.drop builder.cap))
        len := builder.len + text.length }
    else .error .outOfRange

def appendWithoutPool (text : Bytes) : Except Panic (SemverString × Builder) :=
  if SemverString.canInline text then do
    let _ ← builder.allocatedSlice
    .ok (SemverString.init 0 text, builder)
  else do
    let written ← builder.write text
    .ok (SemverString.init builder.len text, written)

/-- `append`, with `append_with_hash`. -/
def append (text : Bytes) : Except Panic (SemverString × Builder) :=
  if SemverString.canInline text then do
    let _ ← builder.allocatedSlice
    .ok (SemverString.init 0 text, builder)
  else
    match builder.stringPool (hash text) with
    | some value => do
      let allocated ← builder.allocated
      if value.slice allocated = text then .ok (value, builder) else builder.appendWithoutPool text
    | none => do
      let written ← builder.write text
      let value := SemverString.init builder.len text
      .ok (value, { written with
        stringPool := Function.update written.stringPool (hash text) (some value) })

/-- The texts are appended one after the other. -/
def appendAll : Builder → List Bytes → Except Panic (List SemverString × Builder)
  | builder, [] => .ok ([], builder)
  | builder, text :: texts => do
    let (string, builder) ← builder.append hash text
    let (strings, builder) ← appendAll builder texts
    .ok (string :: strings, builder)

/-- The texts are counted, and room for them is allocated. -/
def counted (texts : List Bytes) : Builder := (texts.foldl (count hash) empty).allocate

end Builder

end Soup.Semver
