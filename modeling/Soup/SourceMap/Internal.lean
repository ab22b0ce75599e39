import Soup.SourceMap.Vlq
import Soup.Lib.LittleEndian

/-!
# The internal source map

The blob that the printer writes its mappings into. `Builder` collects the mappings of a window and
writes a window of 64 as deltas in lanes, with the absolute state of its first mapping in a sync
entry. `WindowReader` applies the deltas one by one.

An `i32` is an integer here. The additions of the reader wrap around, those of the builder are of
coordinates that are not negative. A position in the stream is the bytes that are left from it on.
-/

namespace Soup.SourceMap

open Soup.Lib

/-- `u32::MAX`. -/
def u32Max : ℕ := 2 ^ 32 - 1

/-- `i32::wrapping_add`. -/
def wrappingAdd (x y : ℤ) : ℤ := (x + y).bmod (2 ^ 32)

/-- The fields of `SourceMapState`, and of the `State` of a window. -/
structure SourceMapState where
  generatedLine : ℤ := 0
  generatedColumn : ℤ := 0
  sourceIndex : ℤ := 0
  originalLine : ℤ := 0
  originalColumn : ℤ := 0
deriving DecidableEq, Repr

structure LineColumnOffset where
  lines : ℤ := 0
  columns : ℤ := 0
deriving DecidableEq, Repr

structure Mapping where
  generated : LineColumnOffset
  original : LineColumnOffset
  sourceIndex : ℤ
  nameIndex : ℤ
deriving DecidableEq, Repr

/-! ## Varints -/

/-- The shifts and the exclusive or of the source, on 32 bits. -/
def zigzagEncode (value : ℤ) : ℕ :=
  let v := BitVec.ofInt 32 value
  ((v <<< 1) ^^^ v.sshiftRight 31).toNat

def zigzagDecode (value : ℕ) : ℤ :=
  let v := BitVec.ofNat 32 value
  ((v >>> 1) ^^^ -(v &&& 1#32)).toInt

/-- A `u32` has at most `MAX_VARINT_LEN` digits of seven bits. -/
def writeVarint (signed : ℤ) : Bytes :=
  ((digits 128 5 (zigzagEncode signed)).getD []).map UInt8.ofNat

/-- The loop of `read_varint`, which ends with a shift over 28. -/
def readVarintLoop : ℕ → ℕ → ℕ → Bytes → Option (ℕ × Bytes)
  | 0, _, result, rest => some (result, rest)
  | _ + 1, _, _, [] => none
  | fuel + 1, shift, result, byte :: rest =>
    let result := result ||| (((byte.toNat &&& 0x7F) <<< shift) % 2 ^ 32)
    if byte.toNat &&& 0x80 = 0 then some (result, rest)
    else readVarintLoop fuel (shift + 7) result rest

/-- The number at the position, and what is left after it. -/
def readVarint : Bytes → Option (ℤ × Bytes)
  | [] => none
  | first :: rest =>
    if first.toNat < 0x80 then some (zigzagDecode first.toNat, rest)
    else
      (readVarintLoop 4 7 (first.toNat &&& 0x7F) rest).map fun (result, rest) =>
        (zigzagDecode result, rest)

/-! ## Fixed fields -/

def readU64 (rest : Bytes) : Option ℕ :=
  if rest.length < 8 then none else some (ofLittleEndian (rest.take 8))

def readU32 (rest : Bytes) : ℕ := ofLittleEndian (rest.take 4)

def readI32 (rest : Bytes) : ℤ := (readU32 rest : ℤ).bmod (2 ^ 32)

def i32Bytes (value : ℤ) : Bytes := toLittleEndian 4 (value % 2 ^ 32).toNat

/-! ## Windows -/

/-- `SYNC_INTERVAL`. -/
def syncInterval : ℕ := 64

/-- `FLAG_HAS_GEN_LINE_EXCEPTIONS`. -/
def flagHasGenLineExceptions : ℕ := 1 <<< 2

/-- `FLAG_HAS_SRC_IDX`. -/
def flagHasSrcIdx : ℕ := 1 <<< 3

/-- What a mapping adds to the one before it; a column on a new line counts from its start. -/
structure Delta where
  genLine : ℤ
  genCol : ℤ
  origLine : ℤ
  origCol : ℤ
  srcIdx : ℤ
deriving DecidableEq, Repr

def Delta.between (prev current : SourceMapState) : Delta :=
  let genLine := current.generatedLine - prev.generatedLine
  { genLine
    genCol :=
      if genLine ≠ 0 then current.generatedColumn
      else current.generatedColumn - prev.generatedColumn
    origLine := current.originalLine - prev.originalLine
    origCol := current.originalColumn - prev.originalColumn
    srcIdx := current.sourceIndex - prev.sourceIndex }

def deltas : SourceMapState → List SourceMapState → List Delta
  | _, [] => []
  | prev, current :: rest => Delta.between prev current :: deltas current rest

/-- A generated line delta that the bit of the mask does not say. -/
def Delta.exceptional (d : Delta) : Bool := d.genLine > 1 || d.genLine < 0

/-- The masks and the lanes of a window, with the bit of delta `k` for its equalities. -/
structure Lanes where
  genLineMask : ℕ := 0
  origLineEqMask : ℕ := 0
  origColEqMask : ℕ := 0
  srcIdxEqMask : ℕ := 0
  genCol : Bytes := []
  origLine : Bytes := []
  origCol : Bytes := []
  genLine : Bytes := []
  srcIdx : Bytes := []
  flags : ℕ := 0
deriving DecidableEq, Repr

/-- `*mask |= bit`, under a condition. -/
def setBit (condition : Bool) (k mask : ℕ) : ℕ := if condition then mask ||| 1 <<< k else mask

/-- The loop of `flush_window` over the deltas from the index `k` on. -/
def lanes : ℕ → List Delta → Lanes
  | _, [] => {}
  | k, d :: ds =>
    let l := lanes (k + 1) ds
    { genLineMask := setBit (d.genLine ≥ 1) k l.genLineMask
      genCol := writeVarint d.genCol ++ l.genCol
      origLineEqMask := setBit (d.origLine = d.genLine) k l.origLineEqMask
      origLine := if d.origLine = d.genLine then l.origLine
      else writeVarint d.origLine ++ l.origLine
      origColEqMask := setBit (d.origCol = d.genCol) k l.origColEqMask
      origCol := if d.origCol = d.genCol then l.origCol else writeVarint d.origCol ++ l.origCol
      genLine :=
        if d.exceptional then UInt8.ofNat k :: (writeVarint d.genLine ++ l.genLine) else l.genLine
      srcIdxEqMask := setBit (d.srcIdx = 0) k l.srcIdxEqMask
      srcIdx := if d.srcIdx = 0 then l.srcIdx else writeVarint d.srcIdx ++ l.srcIdx
      flags :=
        (if d.exceptional then l.flags ||| flagHasGenLineExceptions else l.flags) |||
          (if d.srcIdx = 0 then 0 else flagHasSrcIdx) }

/-- The fixed header of a window of `n` mappings. -/
def windowHeader (n : ℕ) (l : Lanes) : Bytes :=
  [UInt8.ofNat n, UInt8.ofNat l.flags] ++ toLittleEndian 2 l.genCol.length ++
    toLittleEndian 2 l.origLine.length ++ toLittleEndian 2 l.origCol.length ++
    toLittleEndian 8 l.genLineMask ++ toLittleEndian 8 l.origLineEqMask ++
    toLittleEndian 8 l.origColEqMask

/-- The section of the generated line exceptions, closed by `0xFF`. -/
def genLineSection (l : Lanes) : Bytes :=
  if l.flags &&& flagHasGenLineExceptions ≠ 0 then l.genLine ++ [0xFF] else []

def srcIdxSection (l : Lanes) : Bytes :=
  if l.flags &&& flagHasSrcIdx ≠ 0 then toLittleEndian 8 l.srcIdxEqMask ++ l.srcIdx else []

/-- What `flush_window` writes for the mappings `first :: rest`. -/
def window (first : SourceMapState) (rest : List SourceMapState) : Bytes :=
  let l := lanes 0 (deltas first rest)
  windowHeader (rest.length + 1) l ++ l.genCol ++ l.origLine ++ l.origCol ++ genLineSection l ++
    srcIdxSection l

/-! ## The builder -/

structure SyncEntry where
  generatedLine : ℤ
  generatedColumn : ℤ
  byteOffset : ℕ
  originalLine : ℤ
  originalColumn : ℤ
  sourceIndex : ℤ
deriving DecidableEq, Repr

def SyncEntry.bytes (e : SyncEntry) : Bytes :=
  i32Bytes e.generatedLine ++ i32Bytes e.generatedColumn ++ toLittleEndian 4 e.byteOffset ++
    i32Bytes e.originalLine ++ i32Bytes e.originalColumn ++ i32Bytes e.sourceIndex

/-- A mapping that `mark_object_brace` marked. -/
structure ObjectBrace where
  generated : LineColumnOffset
  original : LineColumnOffset
deriving DecidableEq, Repr

def ObjectBrace.bytes (o : ObjectBrace) : Bytes :=
  i32Bytes o.generated.lines ++ i32Bytes o.generated.columns ++ i32Bytes o.original.lines ++
    i32Bytes o.original.columns

/-- The pending lanes are the list `pending` of their rows. -/
structure Builder where
  generatedLine : ℤ := 0
  pendingGeneratedLineDelta : ℤ := 0
  count : ℕ := 0
  pending : List SourceMapState := []
  syncEntries : List SyncEntry := []
  winStream : Bytes := []
  objectBraces : List ObjectBrace := []
deriving DecidableEq, Repr

namespace Builder

def flushWindow (self : Builder) : Builder :=
  match self.pending with
  | [] => self
  | first :: rest =>
    { self with
      syncEntries := self.syncEntries ++
        [{ generatedLine := first.generatedLine
           generatedColumn := first.generatedColumn
           byteOffset := self.winStream.length % 2 ^ 32
           originalLine := first.originalLine
           originalColumn := first.originalColumn
           sourceIndex := first.sourceIndex }]
      winStream := self.winStream ++ window first rest
      pending := [] }

def appendLineSeparator (self : Builder) : Builder :=
  { self with pendingGeneratedLineDelta := self.pendingGeneratedLineDelta + 1 }

/-- The generated line of `current` is not looked at. -/
def appendMapping (self : Builder) (current : SourceMapState) : Builder :=
  let generatedLine := self.generatedLine + self.pendingGeneratedLineDelta
  let self : Builder := { self with
    generatedLine
    pendingGeneratedLineDelta := 0
    pending := self.pending ++ [{ current with generatedLine }]
    count := self.count + 1 }
  if self.pending.length = syncInterval then self.flushWindow else self

def markObjectBrace (self : Builder) (last : SourceMapState) : Builder :=
  { self with
    objectBraces := self.objectBraces ++
      [{ generated := { lines := self.generatedLine, columns := last.generatedColumn }
         original := { lines := last.originalLine, columns := last.originalColumn } }] }

/-- `finalize`, with the length and the count that `generate_chunk` puts in the first 16 bytes.
`none` is a count that does not fit into its `u32`. -/
def finalize (self : Builder) : Option Bytes :=
  let self := self.flushWindow
  let syncBytes := (self.syncEntries.map SyncEntry.bytes).flatten
  let objectBraces := (self.objectBraces.map ObjectBrace.bytes).flatten
  let streamOffset := 32 + syncBytes.length
  let total := streamOffset + self.winStream.length + objectBraces.length + 1
  if streamOffset ≤ u32Max ∧ self.objectBraces.length ≤ u32Max ∧
      self.syncEntries.length ≤ u32Max then
    some (toLittleEndian 8 total ++ toLittleEndian 8 self.count ++ toLittleEndian 4 0 ++
      toLittleEndian 4 self.objectBraces.length ++ toLittleEndian 4 self.syncEntries.length ++
      toLittleEndian 4 streamOffset ++ syncBytes ++ self.winStream ++ objectBraces ++ [0])
  else none

end Builder

/-! ## The reader -/

/-- The positions are the bytes that are left; `genLineExc` is at the index of the next
exception. -/
structure WindowReader where
  genCol : Bytes := []
  origLineExc : Bytes := []
  origColExc : Bytes := []
  genLineExc : Bytes := []
  srcIdxExc : Bytes := []
  genLineMask : ℕ := 0
  origLineEqMask : ℕ := 0
  origColEqMask : ℕ := 0
  srcIdxEqMask : ℕ := 0
  count : ℕ := 0
  flags : ℕ := 0
  genLineExcNextIdx : ℕ := 0
  deltaIdx : ℕ := 0
deriving DecidableEq, Repr

namespace WindowReader

/-- Passes the pairs of an index and a varint, at most `pairs` of them, and the `0xFF` after
them. -/
def skipPairs : ℕ → Bytes → Option Bytes
  | _, [] => none
  | 0, c :: rest => if c = 0xFF then some rest else none
  | pairs + 1, c :: rest =>
    if c = 0xFF then some rest
    else
      match readVarint rest with
      | none => none
      | some (_, rest) => skipPairs pairs rest

/-- The section of the generated line exceptions, and the position after it. -/
def parseExceptions (self : WindowReader) (pos : Bytes) : Option (WindowReader × Bytes) :=
  if self.flags &&& flagHasGenLineExceptions ≠ 0 then
    match pos with
    | [] => none
    | first :: _ =>
      (skipPairs (syncInterval - 1) pos).map fun rest =>
        ({ self with genLineExc := pos, genLineExcNextIdx := first.toNat }, rest)
  else some (self, pos)

def parseFlaggedSections (self : WindowReader) (pos : Bytes) : Option WindowReader := do
  let (self, pos) ← self.parseExceptions pos
  if self.flags &&& flagHasSrcIdx ≠ 0 then
    (readU64 pos).map fun mask => { self with srcIdxEqMask := mask, srcIdxExc := pos.drop 8 }
  else some self

/-- `parse` at the position; `none` is a window that extends past the end. -/
def parse (pos : Bytes) : Option WindowReader :=
  if pos.length < 32 then none
  else
    let fixed := ofLittleEndian (pos.take 8)
    let lenAt (off : ℕ) := (fixed >>> (8 * off)) &&& 0xFFFF
    let flags := (fixed >>> 8) &&& 0xFF
    let genCol := pos.drop 32
    let origLineExc := genCol.drop (lenAt 2)
    let origColExc := origLineExc.drop (lenAt 4)
    let self : WindowReader :=
      { genCol
        origLineExc
        origColExc
        genLineMask := ofLittleEndian ((pos.drop 8).take 8)
        origLineEqMask := ofLittleEndian ((pos.drop 16).take 8)
        origColEqMask := ofLittleEndian ((pos.drop 24).take 8)
        flags
        genLineExcNextIdx := 0xFF }
    (if flags ≠ 0 then self.parseFlaggedSections (origColExc.drop (lenAt 6)) else some self).map
      fun self => { self with count := min (fixed &&& 0xFF) syncInterval }

def done (self : WindowReader) : Bool := self.deltaIdx + 1 ≥ self.count

/-- The first half of `next_rare`: the two line deltas, where the delta is the next exception. -/
def nextException (self : WindowReader) (deltaIdx : ℕ) (genLine origLine : ℤ) :
    Option (WindowReader × ℤ × ℤ) :=
  if self.genLineExcNextIdx = deltaIdx then
    match readVarint (self.genLineExc.drop 1) with
    | some (d, next :: rest) =>
      some ({ self with genLineExc := next :: rest, genLineExcNextIdx := next.toNat }, d,
        if self.origLineEqMask.testBit deltaIdx then d else origLine)
    | _ => none
  else some (self, genLine, origLine)

/-- The second half of `next_rare`. -/
def nextSrcIdx (self : WindowReader) (deltaIdx : ℕ) (sourceIndex : ℤ) : Option (WindowReader × ℤ) :=
  if self.flags &&& flagHasSrcIdx ≠ 0 ∧ ¬self.srcIdxEqMask.testBit deltaIdx then
    match readVarint self.srcIdxExc with
    | some (d, rest) => some ({ self with srcIdxExc := rest }, wrappingAdd sourceIndex d)
    | none => none
  else some (self, sourceIndex)

/-- The rare part of a delta, as the reader, the two line deltas and the source index. -/
def nextRare (self : WindowReader) (deltaIdx : ℕ) (genLine origLine sourceIndex : ℤ) :
    Option (WindowReader × ℤ × ℤ × ℤ) := do
  let (self, genLine, origLine) ← self.nextException deltaIdx genLine origLine
  let (self, sourceIndex) ← self.nextSrcIdx deltaIdx sourceIndex
  some (self, genLine, origLine, sourceIndex)

/-- `if self.flags != 0 { self.next_rare(..)? }`. -/
def nextFlagged (self : WindowReader) (deltaIdx : ℕ) (genLine origLine sourceIndex : ℤ) :
    Option (WindowReader × ℤ × ℤ × ℤ) :=
  if self.flags ≠ 0 then self.nextRare deltaIdx genLine origLine sourceIndex
  else some (self, genLine, origLine, sourceIndex)

/-- A varint of a lane, or what the bit of the mask says it is. -/
def readUnless (equal : Bool) (value : ℤ) (lane : Bytes) : Option (ℤ × Bytes) :=
  if equal then some (value, lane) else readVarint lane

/-- Applies the next delta. `none` is a lane that runs past the end of the stream. -/
def applyNext (self : WindowReader) (state : SourceMapState) :
    Option (WindowReader × SourceMapState) := do
  let deltaIdx := self.deltaIdx
  let genLine : ℤ := if self.genLineMask.testBit deltaIdx then 1 else 0
  let (genCol, genColRest) ← readVarint self.genCol
  let (origLine, origLineRest) ←
    readUnless (self.origLineEqMask.testBit deltaIdx) genLine self.origLineExc
  let (origCol, origColRest) ←
    readUnless (self.origColEqMask.testBit deltaIdx) genCol self.origColExc
  let self : WindowReader := { self with
    deltaIdx := deltaIdx + 1
    genCol := genColRest
    origLineExc := origLineRest
    origColExc := origColRest }
  let (self, genLine, origLine, sourceIndex) ←
    self.nextFlagged deltaIdx genLine origLine state.sourceIndex
  some (self,
    { generatedLine :=
        if genLine ≠ 0 then wrappingAdd state.generatedLine genLine else state.generatedLine
      generatedColumn :=
        if genLine ≠ 0 then genCol else wrappingAdd state.generatedColumn genCol
      sourceIndex
      originalLine := wrappingAdd state.originalLine origLine
      originalColumn := wrappingAdd state.originalColumn origCol })

/-- A delta that cannot be read makes `count` 0 and leaves the state. -/
def next (self : WindowReader) (state : SourceMapState) : WindowReader × SourceMapState :=
  (self.applyNext state).getD ({ self with count := 0 }, state)

end WindowReader

/-! ## The blob -/

namespace Blob

def totalLen (blob : Bytes) : ℕ := ofLittleEndian (blob.take 8)

def syncCount (blob : Bytes) : ℕ := readU32 (blob.drop 24)

def streamOffset (blob : Bytes) : ℕ := readU32 (blob.drop 28)

/-- The stream, with all that follows it. -/
def stream (blob : Bytes) : Bytes := (blob.take (totalLen blob)).drop (streamOffset blob)

def syncEntry (blob : Bytes) (index : ℕ) : SyncEntry :=
  let entry := blob.drop (32 + index * 24)
  { generatedLine := readI32 entry
    generatedColumn := readI32 (entry.drop 4)
    byteOffset := readU32 (entry.drop 8)
    originalLine := readI32 (entry.drop 12)
    originalColumn := readI32 (entry.drop 16)
    sourceIndex := readI32 (entry.drop 20) }

end Blob

def SyncEntry.toState (e : SyncEntry) : SourceMapState where
  generatedLine := e.generatedLine
  generatedColumn := e.generatedColumn
  sourceIndex := e.sourceIndex
  originalLine := e.originalLine
  originalColumn := e.originalColumn

namespace SourceMapState

/-- `State::to_mapping`. -/
def toMapping (s : SourceMapState) : Mapping where
  generated := { lines := s.generatedLine, columns := s.generatedColumn }
  original := { lines := s.originalLine, columns := s.originalColumn }
  sourceIndex := s.sourceIndex
  nameIndex := -1

def lessOrEqual (s : SourceMapState) (line col : ℤ) : Bool :=
  s.generatedLine < line || (s.generatedLine == line && s.generatedColumn ≤ col)

end SourceMapState

namespace Blob

/-- `seed_window`. -/
def seedWindow (blob : Bytes) (syncIdx : ℕ) : Option (WindowReader × SourceMapState) :=
  let entry := syncEntry blob syncIdx
  (WindowReader.parse ((stream blob).drop entry.byteOffset)).map fun reader =>
    (reader, entry.toState)

/-- The loop of `for_each` inside a window, and whether the window was read to its end. -/
def walk : ℕ → WindowReader → SourceMapState → List SourceMapState × Bool
  | 0, _, _ => ([], true)
  | fuel + 1, reader, state =>
    if reader.done then ([], true)
    else
      let (reader, state) := reader.next state
      if reader.count = 0 then ([], false)
      else
        let (states, intact) := walk fuel reader state
        (state :: states, intact)

/-- The windows from `idx` on, `n` of them. -/
def walkWindows (blob : Bytes) : ℕ → ℕ → List SourceMapState
  | 0, _ => []
  | n + 1, idx =>
    match seedWindow blob idx with
    | none => []
    | some (reader, state) =>
      let (states, intact) := walk reader.count reader state
      state :: states ++ if intact then walkWindows blob n (idx + 1) else []

/-- Every state, in the order in which `for_each` and `append_vlq_to` pass them. -/
def states (blob : Bytes) : List SourceMapState := walkWindows blob (syncCount blob) 0

/-- `for_each`. -/
def forEach (blob : Bytes) : List Mapping := (states blob).map SourceMapState.toMapping

/-- The binary search of `locate_window`, with what is left between `lo` and `hi` as fuel. -/
def locateLoop (blob : Bytes) (line col : ℤ) : ℕ → ℕ → ℕ → ℕ
  | 0, lo, _ => lo
  | fuel + 1, lo, hi =>
    if lo < hi then
      let mid := lo + (hi - lo) / 2
      if (syncEntry blob mid).toState.lessOrEqual line col then
        locateLoop blob line col fuel (mid + 1) hi
      else locateLoop blob line col fuel lo mid
    else lo

def locateWindow (blob : Bytes) (line col : ℤ) : Option ℕ :=
  let lo := locateLoop blob line col (syncCount blob) 0 (syncCount blob)
  if lo = 0 then none else some (lo - 1)

/-- The loop of `find` inside a window: the reader after it, and `best`. -/
def findLoop (line col : ℤ) : ℕ → WindowReader → SourceMapState → WindowReader × SourceMapState
  | 0, reader, best => (reader, best)
  | fuel + 1, reader, best =>
    if reader.done then (reader, best)
    else
      let (reader, nxt) := reader.next best
      if nxt.lessOrEqual line col then findLoop line col fuel reader nxt else (reader, best)

/-- `InternalSourceMap::find`. -/
def find (blob : Bytes) (line col : ℤ) : Option Mapping :=
  match locateWindow blob line col with
  | none => none
  | some syncIdx =>
    match seedWindow blob syncIdx with
    | none => none
    | some (reader, state) =>
      let (reader, best) := findLoop line col reader.count reader state
      if reader.count = 0 ∨ best.generatedLine ≠ line then none else some best.toMapping

end Blob

end Soup.SourceMap
