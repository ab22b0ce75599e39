import Mathlib.Data.Nat.Log
import Soup.Lib.Ring

/-!
# The ring buffer

`LinearFifo`, with its items in the cells of a static or a dynamic buffer, as it runs with debug
assertions: a cell that was never written or whose item is gone is `none`, and an operation is
`none` where the source panics, divides by zero, leaves the buffer or reads such a cell.
-/

namespace Soup.Collections

open Soup.Lib List

variable {α : Type}

/-! ## Numbers -/

/-- `usize` has values below this. -/
def usizeBound : ℕ := 2 ^ 64

/-- A subtraction, which panics below zero. -/
def usizeSub (a b : ℕ) : Option ℕ := if b ≤ a then some (a - b) else none

/-- `wrapping_sub`. -/
def wrappingSub (a b : ℕ) : ℕ := if b ≤ a then a - b else a + usizeBound - b

/-- `%`, which panics at zero. -/
def usizeRem (a b : ℕ) : Option ℕ := if b = 0 then none else some (a % b)

/-- `checked_add`. -/
def checkedAdd (a b : ℕ) : Option ℕ := if a + b < usizeBound then some (a + b) else none

/-- `checked_next_power_of_two`. -/
def checkedNextPowerOfTwo (a : ℕ) : Option ℕ :=
  if 2 ^ Nat.clog 2 a < usizeBound then some (2 ^ Nat.clog 2 a) else none

/-- `debug_assert!`. -/
def debugAssert (p : Prop) [Decidable p] : Option Unit := if p then some () else none

/-! ## Buffers -/

/-- The failure of an allocation. -/
inductive AllocError
  | allocError

/-- The storage of a `LinearFifo`. -/
inductive LinearFifoBuffer
  | staticBuffer (n : ℕ)
  | dynamicBuffer

namespace LinearFifoBuffer

/-- `POWERS_OF_TWO`. -/
def powersOfTwo : LinearFifoBuffer → Bool
  | staticBuffer n => n.isPowerOfTwo
  | dynamicBuffer => true

/-- `DYNAMIC`. -/
def dynamic : LinearFifoBuffer → Bool
  | staticBuffer _ => false
  | dynamicBuffer => true

/-- The index of a cell, from a sum of the head and an offset. -/
def index (B : LinearFifoBuffer) (sum bufLen : ℕ) : Option ℕ :=
  if B.powersOfTwo then (usizeSub bufLen 1).map (sum &&& ·) else usizeRem sum bufLen

end LinearFifoBuffer

/-- The items of initialized cells. -/
def assumeInitSlice (cs : List (Option α)) : Option (List α) := cs.mapM id

/-- The bounds of the slice from `a` to `b`. -/
def sliceRange (bufLen a b : ℕ) : Option (ℕ × ℕ) :=
  if a ≤ b ∧ b ≤ bufLen then some (a, b) else none

/-- `ptr::copy` of `n` cells. -/
def ptrCopy (src : List α) (start : ℕ) (dst : List α) (n : ℕ) : Option (List α) :=
  if start + n ≤ src.length ∧ n ≤ dst.length then some (writeAt dst 0 (cells src start (start + n)))
  else none

/-- `copy_from_slice` of items into the first cells of the slice from `a` to `b`. -/
def copyFromSlice (buf : List (Option α)) (a b : ℕ) (src : List α) : Option (List (Option α)) :=
  if src.length ≤ b - a then some (writeAt buf a (src.map some)) else none

/-! ## The operations -/

/-- The cells, the first of those with an item, and how many these are. -/
structure LinearFifo (α : Type) where
  buf : List (Option α)
  head : ℕ
  count : ℕ

namespace LinearFifo

/-- `init`. -/
def init : LinearFifoBuffer → LinearFifo α
  | .staticBuffer n => ⟨replicate n none, 0, 0⟩
  | .dynamicBuffer => ⟨[], 0, 0⟩

variable (B : LinearFifoBuffer) (f : LinearFifo α)

/-- `reset_head_if_empty`. -/
def resetHeadIfEmpty : LinearFifo α := if f.count = 0 then { f with head := 0 } else f

/-- `realign`. -/
def realign : Option (LinearFifo α) := do
  let room ← usizeSub f.buf.length f.head
  let buf ← (if room ≥ f.count then ptrCopy f.buf f.head f.buf f.count
    else (debugAssert (f.head ≤ f.buf.length)).map fun _ => f.buf.rotate f.head)
  let (a, b) ← sliceRange f.buf.length f.count f.buf.length
  some { f with buf := writeAt buf a (replicate (b - a) none), head := 0 }

/-- `ensure_total_capacity`. -/
def ensureTotalCapacity (size : ℕ) : Option (Except AllocError Unit × LinearFifo α) :=
  if f.buf.length ≥ size then some (.ok (), f)
  else if B.dynamic then do
    let f ← f.realign
    match if B.powersOfTwo then checkedNextPowerOfTwo size else some size with
    | none => some (.error .allocError, f)
    | some newSize =>
      let new := replicate newSize none
      let new ← (if f.count > 0 then ptrCopy f.buf 0 new f.count else some new)
      some (.ok (), { f with buf := new, head := 0 })
  else some (.error .allocError, f)

/-- `writable_length`. -/
def writableLength : Option ℕ := usizeSub f.buf.length f.count

/-- `ensure_unused_capacity`. -/
def ensureUnusedCapacity (size : ℕ) : Option (Except AllocError Unit × LinearFifo α) := do
  let writable ← f.writableLength
  if writable ≥ size then some (.ok (), f)
  else
    match checkedAdd f.count size with
    | none => some (.error .allocError, f)
    | some total => f.ensureTotalCapacity B total

/-- `readable_length`. -/
def readableLength : ℕ := f.count

/-- The bounds of `readable_slice` and `readable_slice_mut`. -/
def readableRange (offset : ℕ) : Option (ℕ × ℕ) :=
  if offset > f.count then some (0, 0)
  else
    let start := f.head + offset
    if start ≥ f.buf.length then
      let start := start - f.buf.length
      sliceRange f.buf.length start (start + (f.count - offset))
    else sliceRange f.buf.length start (min (f.head + f.count) f.buf.length)

/-- `readable_slice`. -/
def readableSlice (offset : ℕ) : Option (List α) := do
  let (a, b) ← f.readableRange offset
  assumeInitSlice (cells f.buf a b)

/-- `poison`, of the first `n` cells of the slice from `a` to `b`. -/
def poison (a b n : ℕ) : Option (LinearFifo α) := do
  debugAssert (n ≤ b - a)
  some { f with buf := writeAt f.buf a (replicate n none) }

/-- `discard`. -/
def discard (count : ℕ) : Option (LinearFifo α) := do
  debugAssert (count ≤ f.count)
  let (a, b) ← f.readableRange 0
  let sliceLen := b - a
  let poisoned ← (if sliceLen ≥ count then f.poison a b count
    else do
      let poisoned ← f.poison a b sliceLen
      let (a, b) ← poisoned.readableRange sliceLen
      poisoned.poison a b (count - sliceLen))
  let sum := f.head + count
  -- with a wrapping subtraction the mask leaves everything in an empty buffer
  let head ← (if B.powersOfTwo then some (sum &&& wrappingSub f.buf.length 1)
    else usizeRem sum f.buf.length)
  some { poisoned with head := head, count := f.count - count }

/-- `read_item`. -/
def readItem : Option (Option α × LinearFifo α) :=
  if f.count = 0 then some (none, f)
  else do
    let item ← f.buf[f.head]?.join
    let f ← f.discard B 1
    some (some item, f)

/-- `read`, as what it copies into a slice of length `left`. -/
def read (left : ℕ) (f : LinearFifo α) : Option (List α × LinearFifo α) :=
  if left = 0 then some ([], f)
  else
    match f.readableSlice 0 with
    | none => none
    | some [] => some ([], f)
    | some (item :: slice) => do
      let n := min (slice.length + 1) left
      let f ← f.discard B n
      let (items, f) ← read (left - n) f
      some ((item :: slice).take n ++ items, f)
  termination_by left

/-- The bounds of `writable_slice`. -/
def writableRange (offset : ℕ) : Option (ℕ × ℕ) :=
  if offset > f.buf.length then some (0, 0)
  else do
    let writable ← f.writableLength
    let tail := f.head + offset + f.count
    if tail < f.buf.length then sliceRange f.buf.length tail f.buf.length
    else
      let start := tail - f.buf.length
      let len ← usizeSub writable offset
      sliceRange f.buf.length start (start + len)

/-- The bounds of `writable_with_size`. -/
def writableWithSize (size : ℕ) : Option (Except AllocError (ℕ × ℕ) × LinearFifo α) := do
  match ← f.ensureUnusedCapacity B size with
  | (.error e, f) => some (.error e, f)
  | (.ok (), f) =>
    let (a, b) ← f.writableRange 0
    let f ← (if b - a < size then f.realign else some f)
    let (a, b) ← f.writableRange 0
    debugAssert (b - a ≥ size)
    some (.ok (a, a + size), f)

/-- `update`. -/
def update (count : ℕ) : Option (LinearFifo α) := do
  debugAssert (f.count + count ≤ f.buf.length)
  some { f with count := f.count + count }

/-- A caller of `writable_with_size` that puts `data` into the slice and calls `update`. -/
def fill (size : ℕ) (data : List α) : Option (Except AllocError Unit × LinearFifo α) := do
  match ← f.writableWithSize B size with
  | (.error e, f) => some (.error e, f)
  | (.ok (a, b), f) =>
    let buf ← copyFromSlice f.buf a b data
    let f ← { f with buf := buf }.update data.length
    some (.ok (), f)

/-- The loop of `write_assume_capacity`. -/
def writeLoop : List α → LinearFifo α → Option (LinearFifo α)
  | [], f => some f
  | item :: src, f =>
    match f.writableRange 0 with
    | none => none
    | some (a, b) =>
      if b - a = 0 then none
      else do
        let n := min (b - a) (src.length + 1)
        let buf ← copyFromSlice f.buf a b ((item :: src).take n)
        let f ← { f with buf := buf }.update n
        writeLoop ((item :: src).drop n) f
  termination_by src => src.length
  decreasing_by
    rw [length_drop, length_cons]
    omega

/-- `write_assume_capacity`. -/
def writeAssumeCapacity (src : List α) : Option (LinearFifo α) := do
  debugAssert ((← f.writableLength) ≥ src.length)
  writeLoop src f

/-- `write_item_assume_capacity`. -/
def writeItemAssumeCapacity (item : α) : Option (LinearFifo α) := do
  let tail ← B.index (f.head + f.count) f.buf.length
  debugAssert (tail < f.buf.length)
  { f with buf := writeAt f.buf tail [some item] }.update 1

/-- `write_item`. -/
def writeItem (item : α) : Option (Except AllocError Unit × LinearFifo α) := do
  match ← f.ensureUnusedCapacity B 1 with
  | (.error e, f) => some (.error e, f)
  | (.ok (), f) => (f.writeItemAssumeCapacity B item).map (.ok (), ·)

/-- `write`. -/
def write (src : List α) : Option (Except AllocError Unit × LinearFifo α) := do
  match ← f.ensureUnusedCapacity B src.length with
  | (.error e, f) => some (.error e, f)
  | (.ok (), f) => (f.writeAssumeCapacity src).map (.ok (), ·)

/-- `rewind`. -/
def rewind (count : ℕ) : Option (LinearFifo α) := do
  debugAssert ((← f.writableLength) ≥ count)
  let room ← usizeSub f.buf.length count
  let head ← B.index (f.head + room) f.buf.length
  some { f with head := head, count := f.count + count }

/-- `unget`. -/
def unget (src : List α) : Option (Except AllocError Unit × LinearFifo α) := do
  match ← f.ensureUnusedCapacity B src.length with
  | (.error e, f) => some (.error e, f)
  | (.ok (), f) =>
    let f ← f.rewind B src.length
    let (a, b) ← f.readableRange 0
    let sliceLen := b - a
    let buf ← copyFromSlice f.buf a b (src.take (min sliceLen src.length))
    let f := { f with buf := buf }
    if src.length > sliceLen then do
      let (a, b) ← f.readableRange sliceLen
      let buf ← copyFromSlice f.buf a b (src.drop sliceLen)
      some (.ok (), { f with buf := buf })
    else some (.ok (), f)

/-- `peek_item`. -/
def peekItem (offset : ℕ) : Option α := do
  debugAssert (offset < f.count)
  let index ← B.index (f.head + offset) f.buf.length
  f.buf[index]?.join

/-- `shift_down_one`, of the slice from `a` to `b`. -/
def shiftDownOne (buf : List (Option α)) (a b : ℕ) : Option (List (Option α)) :=
  (sliceRange buf.length a b).map fun (a, b) => shiftDown buf a b

/-- `ordered_remove_item`. -/
def orderedRemoveItem (offset : ℕ) : Option (LinearFifo α) :=
  if offset = 0 then f.discard B 1
  else do
    debugAssert (offset < f.count)
    let room ← usizeSub f.buf.length f.head
    let buf ← (if room ≥ f.count then shiftDownOne f.buf (f.head + offset) f.buf.length
      else do
        let index ← B.index (f.head + offset) f.buf.length
        let wrapLen ← usizeSub (f.head + f.count) f.buf.length
        if index < f.head then shiftDownOne f.buf index wrapLen
        else do
          let wrapped ← f.buf[0]?
          let buf ← shiftDownOne f.buf index f.buf.length
          let last ← usizeSub f.buf.length 1
          shiftDownOne (writeAt buf last [wrapped]) 0 wrapLen)
    some { f with buf := buf, count := f.count - 1 }

end LinearFifo

end Soup.Collections
