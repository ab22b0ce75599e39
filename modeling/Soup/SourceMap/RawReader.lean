import Soup.SourceMap.Text

/-!
# Reading a blob by addresses

The reader of the internal source map as it goes through memory. A blob from disk is trusted for no
more than what `is_valid_blob` has checked, so each read says where it is: a read of memory outside
the blob is a `fault`, and so is a shift by 64 bits or more. A stream is a slice of the blob, whose
`get` is checked against the length of the slice and ends in `nothing`, the `None` of the source.

The loops have no fuel. An index, a count and a length are natural numbers; a position is below the
length of the blob and three `u16`, and a delta index is below 64.

On a blob that `is_valid_blob` accepts it does what `Blob` does on the bytes that are left
(`find_eq`, `forEach_eq`).
-/

namespace Soup.SourceMap

open Soup.Lib

/-- How a function that reads a blob ends. -/
inductive Outcome (α : Type) where
  | ok (value : α)
  | nothing
  | fault
deriving DecidableEq, Repr

namespace Outcome

instance : Monad Outcome where
  pure := ok
  bind x f :=
    match x with
    | ok value => f value
    | nothing => nothing
    | fault => fault

variable {α β : Type}

@[simp] theorem bind_ok (value : α) (f : α → Outcome β) : (ok value >>= f) = f value :=
  rfl

@[simp] theorem pure_eq (value : α) : (pure value : Outcome α) = ok value :=
  rfl

theorem bind_eq_ok {x : Outcome α} {f : α → Outcome β} {value : β} :
    x >>= f = ok value ↔ ∃ a, x = ok a ∧ f a = ok value := by
  cases x <;> simp

end Outcome

namespace Raw

/-! ## Memory -/

/-- The bytes of the blob at an address. -/
def readAt (blob : Bytes) (address n : ℕ) : Outcome Bytes :=
  if address + n ≤ blob.length then .ok ((blob.drop address).take n) else .fault

/-- A slice of a blob. -/
structure Slice where
  blob : Bytes
  offset : ℕ
  len : ℕ

/-- `slice.get(i)?`. -/
def Slice.get (self : Slice) (i : ℕ) : Outcome UInt8 :=
  if i < self.len then do
    let bytes ← readAt self.blob (self.offset + i) 1
    return bytes.headD 0
  else .nothing

/-- `slice.get(pos..)?.first_chunk::<n>()?`. -/
def Slice.chunk (self : Slice) (pos n : ℕ) : Outcome Bytes :=
  if pos + n ≤ self.len then readAt self.blob (self.offset + pos) n else .nothing

/-- The loop of `read_varint`: the bits and the position behind them. -/
def readVarintLoop (bytes : Slice) (shift result i : ℕ) : Outcome (ℕ × ℕ) :=
  if shift > 28 then .ok (result, i)
  else do
    let byte ← bytes.get i
    let result := result ||| (((byte.toNat &&& 0x7F) <<< shift) % 2 ^ 32)
    if byte.toNat &&& 0x80 = 0 then .ok (result, i + 1)
    else readVarintLoop bytes (shift + 7) result (i + 1)
  termination_by 35 - shift

/-- `read_varint`, as the number and the position behind it. -/
def readVarint (bytes : Slice) (pos : ℕ) : Outcome (ℤ × ℕ) := do
  let first ← bytes.get pos
  if first.toNat < 0x80 then .ok (zigzagDecode first.toNat, pos + 1)
  else
    let (result, pos) ← readVarintLoop bytes 7 (first.toNat &&& 0x7F) (pos + 1)
    .ok (zigzagDecode result, pos)

/-- `read_u64_le`. -/
def readU64Le (bytes : Slice) (pos : ℕ) : Outcome ℕ := do
  let chunk ← bytes.chunk pos 8
  return ofLittleEndian chunk

/-- `test_bit`. -/
def testBit (mask idx : ℕ) : Outcome Bool :=
  if idx < 64 then .ok (mask.testBit idx) else .fault

/-! ## Windows -/

structure WindowReader where
  bytes : Slice
  genColPos : ℕ := 0
  origLineExcPos : ℕ := 0
  origColExcPos : ℕ := 0
  genLineExcPos : ℕ := 0
  srcIdxExcPos : ℕ := 0
  genLineMask : ℕ := 0
  origLineEqMask : ℕ := 0
  origColEqMask : ℕ := 0
  srcIdxEqMask : ℕ := 0
  count : ℕ := 0
  flags : ℕ := 0
  genLineExcNextIdx : ℕ := 0
  deltaIdx : ℕ := 0

namespace WindowReader

/-- The `while` of `parse_flagged_sections` with `left` pairs to go, and the position behind the
`0xFF`. -/
def skipPairs (bytes : Slice) (left pos : ℕ) : Outcome ℕ := do
  let c ← bytes.get pos
  if c = 0xFF then .ok (pos + 1)
  else
    match left with
    | 0 => .nothing
    | left + 1 =>
      let (_, pos) ← readVarint bytes (pos + 1)
      skipPairs bytes left pos

def parseExceptions (self : WindowReader) (pos : ℕ) : Outcome (WindowReader × ℕ) :=
  if self.flags &&& flagHasGenLineExceptions ≠ 0 then do
    let first ← self.bytes.get pos
    let next ← skipPairs self.bytes (syncInterval - 1) pos
    .ok ({ self with genLineExcPos := pos, genLineExcNextIdx := first.toNat }, next)
  else .ok (self, pos)

def parseFlaggedSections (self : WindowReader) (pos : ℕ) : Outcome WindowReader := do
  let (self, pos) ← self.parseExceptions pos
  if self.flags &&& flagHasSrcIdx ≠ 0 then
    let mask ← readU64Le self.bytes pos
    .ok { self with srcIdxEqMask := mask, srcIdxExcPos := pos + 8 }
  else .ok self

/-- `parse`. Nobody looks at a reader whose window was not validated. -/
def parse (self : WindowReader) (start : ℕ) : Outcome WindowReader := do
  let header ← self.bytes.chunk start 32
  let fixed := ofLittleEndian (header.take 8)
  let lenAt (off : ℕ) := (fixed >>> (8 * off)) &&& 0xFFFF
  let flags := (fixed >>> 8) &&& 0xFF
  let genColPos := start + 32
  let origLineExcPos := genColPos + lenAt 2
  let origColExcPos := origLineExcPos + lenAt 4
  let self := { self with
    genColPos
    origLineExcPos
    origColExcPos
    genLineMask := ofLittleEndian ((header.drop 8).take 8)
    origLineEqMask := ofLittleEndian ((header.drop 16).take 8)
    origColEqMask := ofLittleEndian ((header.drop 24).take 8)
    flags
    genLineExcNextIdx := 0xFF
    count := 0
    deltaIdx := 0 }
  let self ←
    if flags ≠ 0 then self.parseFlaggedSections (origColExcPos + lenAt 6) else .ok self
  .ok { self with count := min (fixed &&& 0xFF) syncInterval }

def done (self : WindowReader) : Bool := self.deltaIdx + 1 ≥ self.count

/-- The first half of `next_rare`. -/
def nextException (self : WindowReader) (deltaIdx : ℕ) (genLine origLine : ℤ) :
    Outcome (WindowReader × ℤ × ℤ) :=
  if self.genLineExcNextIdx = deltaIdx then do
    let (d, p) ← readVarint self.bytes (self.genLineExcPos + 1)
    let equal ← testBit self.origLineEqMask deltaIdx
    let next ← self.bytes.get p
    .ok ({ self with genLineExcPos := p, genLineExcNextIdx := next.toNat }, d,
      if equal then d else origLine)
  else .ok (self, genLine, origLine)

/-- The second half of `next_rare`. -/
def nextSrcIdx (self : WindowReader) (deltaIdx : ℕ) (sourceIndex : ℤ) :
    Outcome (WindowReader × ℤ) :=
  if self.flags &&& flagHasSrcIdx ≠ 0 then do
    let equal ← testBit self.srcIdxEqMask deltaIdx
    if equal then .ok (self, sourceIndex)
    else
      let (d, pos) ← readVarint self.bytes self.srcIdxExcPos
      .ok ({ self with srcIdxExcPos := pos }, wrappingAdd sourceIndex d)
  else .ok (self, sourceIndex)

/-- `if self.flags != 0 { self.next_rare(..)? }`. -/
def nextFlagged (self : WindowReader) (deltaIdx : ℕ) (genLine origLine sourceIndex : ℤ) :
    Outcome (WindowReader × ℤ × ℤ × ℤ) :=
  if self.flags ≠ 0 then do
    let (self, genLine, origLine) ← self.nextException deltaIdx genLine origLine
    let (self, sourceIndex) ← self.nextSrcIdx deltaIdx sourceIndex
    .ok (self, genLine, origLine, sourceIndex)
  else .ok (self, genLine, origLine, sourceIndex)

/-- A varint of a lane, or what the bit of the mask says it is. -/
def readUnless (bytes : Slice) (mask deltaIdx : ℕ) (value : ℤ) (pos : ℕ) : Outcome (ℤ × ℕ) := do
  let equal ← testBit mask deltaIdx
  if equal then .ok (value, pos) else readVarint bytes pos

def applyNext (self : WindowReader) (state : SourceMapState) :
    Outcome (WindowReader × SourceMapState) := do
  let deltaIdx := self.deltaIdx
  let genLineBit ← testBit self.genLineMask deltaIdx
  let genLine : ℤ := if genLineBit then 1 else 0
  let (genCol, genColPos) ← readVarint self.bytes self.genColPos
  let (origLine, origLineExcPos) ←
    readUnless self.bytes self.origLineEqMask deltaIdx genLine self.origLineExcPos
  let (origCol, origColExcPos) ←
    readUnless self.bytes self.origColEqMask deltaIdx genCol self.origColExcPos
  let self : WindowReader := { self with
    deltaIdx := deltaIdx + 1
    genColPos
    origLineExcPos
    origColExcPos }
  let (self, genLine, origLine, sourceIndex) ←
    self.nextFlagged deltaIdx genLine origLine state.sourceIndex
  .ok (self,
    { generatedLine :=
        if genLine ≠ 0 then wrappingAdd state.generatedLine genLine else state.generatedLine
      generatedColumn :=
        if genLine ≠ 0 then genCol else wrappingAdd state.generatedColumn genCol
      sourceIndex
      originalLine := wrappingAdd state.originalLine origLine
      originalColumn := wrappingAdd state.originalColumn origCol })

/-- With a `count` of 0 nothing else of the reader is looked at. -/
def next (self : WindowReader) (state : SourceMapState) : Outcome (WindowReader × SourceMapState) :=
  match self.applyNext state with
  | .ok result => .ok result
  | .nothing => .ok ({ self with count := 0 }, state)
  | .fault => .fault

/-- The deltas that are left. -/
def remaining (self : WindowReader) : ℕ := self.count - self.deltaIdx

variable {result : WindowReader × SourceMapState} {state : SourceMapState}

section Keeps

variable {self : WindowReader} {deltaIdx : ℕ} {genLine origLine sourceIndex : ℤ}

/-- The readers are in the same window of the same slice. -/
def Beside (a b : WindowReader) : Prop :=
  a.bytes = b.bytes ∧ a.count = b.count ∧ a.deltaIdx = b.deltaIdx

theorem Beside.trans {a b c : WindowReader} (h : a.Beside b) (h' : b.Beside c) : a.Beside c :=
  ⟨h.1.trans h'.1, h.2.1.trans h'.2.1, h.2.2.trans h'.2.2⟩

theorem nextException_beside {result : WindowReader × ℤ × ℤ}
    (h : self.nextException deltaIdx genLine origLine = .ok result) : result.1.Beside self := by
  unfold nextException at h
  split at h
  · obtain ⟨_, _, h⟩ := Outcome.bind_eq_ok.1 h
    obtain ⟨_, _, h⟩ := Outcome.bind_eq_ok.1 h
    obtain ⟨_, _, h⟩ := Outcome.bind_eq_ok.1 h
    cases h
    exact ⟨rfl, rfl, rfl⟩
  · cases h
    exact ⟨rfl, rfl, rfl⟩

theorem nextSrcIdx_beside {result : WindowReader × ℤ}
    (h : self.nextSrcIdx deltaIdx sourceIndex = .ok result) : result.1.Beside self := by
  unfold nextSrcIdx at h
  split at h
  · obtain ⟨_, _, h⟩ := Outcome.bind_eq_ok.1 h
    split at h
    · cases h
      exact ⟨rfl, rfl, rfl⟩
    · obtain ⟨_, _, h⟩ := Outcome.bind_eq_ok.1 h
      cases h
      exact ⟨rfl, rfl, rfl⟩
  · cases h
    exact ⟨rfl, rfl, rfl⟩

theorem nextFlagged_beside {result : WindowReader × ℤ × ℤ × ℤ}
    (h : self.nextFlagged deltaIdx genLine origLine sourceIndex = .ok result) :
    result.1.Beside self := by
  unfold nextFlagged at h
  split at h
  · obtain ⟨_, hexception, h⟩ := Outcome.bind_eq_ok.1 h
    obtain ⟨_, hsrcIdx, h⟩ := Outcome.bind_eq_ok.1 h
    cases h
    exact (nextSrcIdx_beside hsrcIdx).trans (nextException_beside hexception)
  · cases h
    exact ⟨rfl, rfl, rfl⟩

theorem applyNext_beside (h : self.applyNext state = .ok result) :
    result.1.Beside { self with deltaIdx := self.deltaIdx + 1 } := by
  unfold applyNext at h
  obtain ⟨_, _, h⟩ := Outcome.bind_eq_ok.1 h
  obtain ⟨_, _, h⟩ := Outcome.bind_eq_ok.1 h
  obtain ⟨_, _, h⟩ := Outcome.bind_eq_ok.1 h
  obtain ⟨_, _, h⟩ := Outcome.bind_eq_ok.1 h
  obtain ⟨_, hflagged, h⟩ := Outcome.bind_eq_ok.1 h
  cases h
  have hbeside := nextFlagged_beside hflagged
  exact ⟨hbeside.1, hbeside.2⟩

end Keeps

variable {self : WindowReader}

/-- A step takes a delta or ends the window. -/
theorem next_cases (h : self.next state = .ok result) :
    result.1.bytes = self.bytes ∧
      (result.1.count = self.count ∧ result.1.deltaIdx = self.deltaIdx + 1 ∨
        result.1.count = 0) := by
  unfold next at h
  split at h
  · next heq =>
    cases h
    exact ⟨(applyNext_beside heq).1, Or.inl (applyNext_beside heq).2⟩
  · cases h
    exact ⟨rfl, Or.inr rfl⟩
  · cases h

theorem remaining_next (hdone : ¬ self.done = true)
    (h : self.next state = .ok result) : result.1.remaining < self.remaining := by
  have hlt : self.deltaIdx + 1 < self.count := by simpa [done] using hdone
  obtain ⟨-, hcases⟩ := next_cases h
  unfold remaining
  omega

end WindowReader

/-! ## The blob -/

def totalLen (blob : Bytes) : Outcome ℕ := do
  return ofLittleEndian (← readAt blob 0 8)

def mappingCount (blob : Bytes) : Outcome ℕ := do
  return ofLittleEndian (← readAt blob 8 8)

def syncCount (blob : Bytes) : Outcome ℕ := do
  return ofLittleEndian (← readAt blob 24 4)

def streamOffset (blob : Bytes) : Outcome ℕ := do
  return ofLittleEndian (← readAt blob 28 4)

/-- The address is `HEADER_SIZE + index * size_of::<SyncEntry>()`. -/
def syncEntry (blob : Bytes) (index : ℕ) : Outcome SyncEntry := do
  let entry ← readAt blob (32 + index * 24) 24
  return {
    generatedLine := readI32 entry
    generatedColumn := readI32 (entry.drop 4)
    byteOffset := readU32 (entry.drop 8)
    originalLine := readI32 (entry.drop 12)
    originalColumn := readI32 (entry.drop 16)
    sourceIndex := readI32 (entry.drop 20) }

/-- A length below zero is a fault. -/
def stream (blob : Bytes) : Outcome Slice := do
  let offset ← streamOffset blob
  let total ← totalLen blob
  if offset ≤ total then .ok { blob, offset, len := total - offset } else .fault

def isValidBlob (blob : Bytes) : Outcome Bool :=
  if blob.length < 32 then .ok false
  else do
    let total ← totalLen blob
    if total ≠ blob.length then .ok false
    else
      let syncN ← syncCount blob
      let streamOff ← streamOffset blob
      let syncEnd := 32 + syncN * 24
      if streamOff < syncEnd then .ok false
      else if streamOff > total then .ok false
      else if total < streamOff + 1 then .ok false
      else .ok true

/-! ## Queries -/

/-- `seed_window` of a new reader. -/
def seedWindow (blob : Bytes) (bytes : Slice) (syncIdx : ℕ) :
    Outcome (WindowReader × SourceMapState) := do
  let se ← syncEntry blob syncIdx
  let reader ← WindowReader.parse { bytes } se.byteOffset
  .ok (reader, se.toState)

/-- The `while` of `for_each` and of `append_vlq_to`, with what they do with a state. Was the window
read to its end? -/
def walk {σ : Type} (each : σ → SourceMapState → σ) (reader : WindowReader)
    (state : SourceMapState) (acc : σ) : Outcome (σ × Bool) :=
  if _hdone : reader.done then .ok (acc, true)
  else
    match _h : reader.next state with
    | .ok (reader, state) =>
      if reader.count = 0 then .ok (acc, false) else walk each reader state (each acc state)
    | .nothing => .nothing
    | .fault => .fault
  termination_by reader.remaining
  decreasing_by exact WindowReader.remaining_next _hdone _h

/-- The loop over the windows from `idx` on. -/
def walkWindows {σ : Type} (each : σ → SourceMapState → σ) (blob : Bytes) (bytes : Slice)
    (syncCount idx : ℕ) (acc : σ) : Outcome σ :=
  if idx < syncCount then
    match seedWindow blob bytes idx with
    | .ok (reader, state) => do
      let (acc, intact) ← walk each reader state (each acc state)
      if intact then walkWindows each blob bytes syncCount (idx + 1) acc else .ok acc
    | .nothing => .ok acc
    | .fault => .fault
  else .ok acc
  termination_by syncCount - idx

/-- `for_each`, as the mappings that it passes. -/
def forEach (blob : Bytes) : Outcome (List Mapping) := do
  let bytes ← stream blob
  let syncCount ← syncCount blob
  walkWindows (fun acc state => acc ++ [state.toMapping]) blob bytes syncCount 0 []

/-- `append_vlq_to`. The mapping count is what it reserves memory for. -/
def appendVlqTo (blob out : Bytes) : Outcome Bytes := do
  let syncCount ← syncCount blob
  let _ ← mappingCount blob
  let bytes ← stream blob
  let emitter ← walkWindows emitVlq blob bytes syncCount 0 { out }
  return emitter.out

/-- The binary search of `locate_window`. -/
def locateLoop (blob : Bytes) (targetLine targetCol : ℤ) (lo hi : ℕ) : Outcome ℕ :=
  if lo < hi then do
    let mid := lo + (hi - lo) / 2
    let entry ← syncEntry blob mid
    if entry.toState.lessOrEqual targetLine targetCol then
      locateLoop blob targetLine targetCol (mid + 1) hi
    else locateLoop blob targetLine targetCol lo mid
  else .ok lo
  termination_by hi - lo

def locateWindow (blob : Bytes) (targetLine targetCol : ℤ) : Outcome ℕ := do
  let nSync ← syncCount blob
  if nSync = 0 then .nothing
  else
    let lo ← locateLoop blob targetLine targetCol 0 nSync
    if lo = 0 then .nothing else .ok (lo - 1)

/-- The `while` of `find`, as the reader behind it and `best`. -/
def findLoop (targetLine targetCol : ℤ) (reader : WindowReader) (state : SourceMapState) :
    Outcome (WindowReader × SourceMapState) :=
  if _hdone : reader.done then .ok (reader, state)
  else
    match _h : reader.next state with
    | .ok (reader, nxt) =>
      if nxt.lessOrEqual targetLine targetCol then findLoop targetLine targetCol reader nxt
      else .ok (reader, state)
    | .nothing => .nothing
    | .fault => .fault
  termination_by reader.remaining
  decreasing_by exact WindowReader.remaining_next _hdone _h

/-- `find`. -/
def find (blob : Bytes) (targetLine targetCol : ℤ) : Outcome Mapping := do
  let syncIdx ← locateWindow blob targetLine targetCol
  let bytes ← stream blob
  let (reader, state) ← seedWindow blob bytes syncIdx
  let (reader, best) ← findLoop targetLine targetCol reader state
  if reader.count = 0 ∨ best.generatedLine ≠ targetLine then .nothing else .ok best.toMapping

end Raw

end Soup.SourceMap
