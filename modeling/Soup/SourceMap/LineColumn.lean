import Soup.Wtf8
import Soup.SourceMap.Blob

/-!
# Lines and columns

The three scanners of a text: `LineColumnOffset::advance`, the update of the generated position in
the builder of a chunk, and `LineOffsetTable::generate_in`. Columns are counted in UTF-16 code
units.

An offset into a slice becomes the bytes that are left from it on, and an `i32` or a `u32` is an
integer: a text is shorter than 2 GiB.
-/

namespace Soup.SourceMap

open List

/-- A newline: LF, CR, U+2028 or U+2029. -/
def isNewline (c : ℤ) : Bool := c = 0x0D || c = 0x0A || c = 0x2028 || c = 0x2029

/-- The UTF-16 code units of a code point. -/
def utf16Width (c : ℤ) : ℤ := if c > 0xFFFF then 2 else 1

/-! ## `LineColumnOffset::advance` -/

/-- `LineColumnOffset::advance`, with `rest` as what is left of the input. -/
def LineColumnOffset.advance (this : LineColumnOffset) (rest : Bytes) : LineColumnOffset :=
  match _h : indexOfNewlineOrNonAscii rest with
  | none => { this with columns := this.columns + rest.length }
  | some i =>
    let this := { this with columns := this.columns + i }
    let tail := rest.drop i
    let (c, width) := nextCodepoint tail
    if width = 0 then advance { this with columns := this.columns + 1 } (tail.drop 1)
    else
      let after := tail.drop width
      if isNewline c then
        -- the line feed of a Windows newline ends the line
        if c = 0x0D ∧ tail[1]? = some 0x0A then
          advance { this with columns := this.columns + 1 } after
        else advance { lines := this.lines + 1, columns := 0 } after
      else advance { this with columns := this.columns + utf16Width c } after
  termination_by rest.length
  decreasing_by
    all_goals
      have := indexOfNewlineOrNonAscii_lt _h
      simp only [length_drop]
      omega

/-! ## The builder of a chunk -/

/-- What `update_generated_line_and_column` reads and writes. `sourceMap` is what it calls on the
source map, in order. -/
structure NewBuilder where
  sourceMap : List Op := []
  prevState : SourceMapState := {}
  lastGeneratedUpdate : ℕ := 0
  generatedColumn : ℤ := 0
  hasPrevState : Bool := false
  lineStartsWithMapping : Bool := false
  coverLinesWithoutMappings : Bool := false

namespace NewBuilder

def appendMappingWithoutRemapping (self : NewBuilder) (currentState : SourceMapState) :
    NewBuilder :=
  { self with
    sourceMap := self.sourceMap ++ [.mapping currentState]
    prevState := currentState
    hasPrevState := true }

def needsMapping (self : NewBuilder) : Bool :=
  self.coverLinesWithoutMappings && !self.lineStartsWithMapping && self.hasPrevState

/-- A mapping at the start of the line, if it has none and needs one. -/
def coverLine (self : NewBuilder) (needsMapping : Bool) : NewBuilder :=
  if needsMapping then
    self.appendMappingWithoutRemapping { self.prevState with generatedColumn := 0 }
  else self

def newLine (self : NewBuilder) : NewBuilder :=
  { self with
    sourceMap := self.sourceMap ++ [.lineSeparator]
    prevState := { self.prevState with
      generatedLine := self.prevState.generatedLine + 1
      generatedColumn := 0 }
    generatedColumn := 0
    lineStartsWithMapping := false }

def addColumns (self : NewBuilder) (columns : ℤ) : NewBuilder :=
  { self with generatedColumn := self.generatedColumn + columns }

/-- The loop of `update_generated_line_and_column_slow`. -/
def updateSlowLoop (self : NewBuilder) (needsMapping : Bool) (rest : Bytes) : NewBuilder :=
  match rest with
  | [] => self
  | first :: tail =>
    let len := wtf8ByteSequenceLength first
    let c := decodeWtf8Rune ((first :: tail).take len) len unicodeReplacement
    -- `i` is at the code point after this one
    let after := (first :: tail).drop len
    if 14 ≤ c ∧ c ≤ 127 then
      match indexOfNewlineOrNonAscii after with
      | some j => updateSlowLoop (self.addColumns (j + 1)) needsMapping (after.drop j)
      | none => self.addColumns (after.length + 1)
    else if isNewline c then
      -- the byte after the one `i` is at
      if c = 0x0D ∧ after[1]? = some 0x0A then updateSlowLoop self needsMapping after
      else
        let self := (self.coverLine needsMapping).newLine
        updateSlowLoop self self.needsMapping after
    else updateSlowLoop (self.addColumns (utf16Width c)) needsMapping after
  termination_by rest.length
  decreasing_by
    all_goals
      have : 1 ≤ wtf8ByteSequenceLength first := one_le_wtf8ByteSequenceLength first
      simp only [length_drop, length_cons]
      omega

/-- `update_generated_line_and_column`. -/
def updateGeneratedLineAndColumn (self : NewBuilder) (output : Bytes) : NewBuilder :=
  let slice := output.drop self.lastGeneratedUpdate
  let pureAscii := if slice.length < 16 then !slice.any isNewlineOrNonAscii
    else indexOfNewlineOrNonAscii slice = none
  let self := if pureAscii then self.addColumns slice.length
    else self.updateSlowLoop self.needsMapping slice
  { self with lastGeneratedUpdate := output.length }

end NewBuilder

/-! ## `LineOffsetTable` -/

/-- A row. `none` is the `i32::MAX` of a line with ASCII only. -/
structure LineOffsetTable where
  columnsForNonAscii : List ℤ
  byteOffsetToFirstNonAscii : Option ℕ
  byteOffsetToStartOfLine : ℕ

namespace LineOffsetTable

/-- The column of a byte offset on the line of a row, as `add_source_mapping` looks it up. -/
def column (self : LineOffsetTable) (start : ℕ) : ℤ :=
  let originalColumn := start - self.byteOffsetToStartOfLine
  match self.byteOffsetToFirstNonAscii with
  | some firstNonAscii =>
    if originalColumn ≥ firstNonAscii ∧ self.columnsForNonAscii ≠ [] then
      self.columnsForNonAscii.getD (originalColumn - firstNonAscii) 0
    else originalColumn
  | none => originalColumn

/-- The loop of `find_line`. `none` is an index out of bounds. -/
def findLineLoop (byteOffsetsToStartOfLine : List ℕ) (locStart originalLine count : ℕ) : Option ℕ :=
  if count > 0 then
    let step := count / 2
    let i := originalLine + step
    match byteOffsetsToStartOfLine[i]? with
    | none => none
    | some byteOffset =>
      if byteOffset ≤ locStart then
        findLineLoop byteOffsetsToStartOfLine locStart (i + 1) (count - step - 1)
      else findLineLoop byteOffsetsToStartOfLine locStart originalLine step
  else some originalLine
  termination_by count

/-- `find_line`. -/
def findLine (byteOffsetsToStartOfLine : List ℕ) (locStart : ℕ) : Option ℤ :=
  (findLineLoop byteOffsetsToStartOfLine locStart 0 byteOffsetsToStartOfLine.length).map
    fun originalLine => (originalLine : ℤ) - 1

/-- `find_line_with_hint`. Each offset is read behind the test that it is in bounds. -/
def findLineWithHint (offsets : List ℕ) (locStart hint : ℕ) : Option ℤ :=
  let len := offsets.length
  if hint < len ∧ offsets.getD hint 0 ≤ locStart then
    if hint + 1 = len ∨ locStart < offsets.getD (hint + 1) 0 then some hint
    else if hint + 2 = len ∨ locStart < offsets.getD (hint + 2) 0 then some (hint + 1)
    else if hint + 3 = len ∨ locStart < offsets.getD (hint + 3) 0 then some (hint + 2)
    else findLine offsets locStart
  else findLine offsets locStart

/-- The original column of a byte offset on the line of a row. `none` is an index out of bounds. -/
def originalColumn (self : LineOffsetTable) (locStart : ℕ) : Option ℤ :=
  let originalColumn : ℤ := locStart - self.byteOffsetToStartOfLine
  match self.byteOffsetToFirstNonAscii with
  | some firstNonAscii =>
    if originalColumn ≥ firstNonAscii ∧ self.columnsForNonAscii ≠ [] then
      self.columnsForNonAscii[(originalColumn - firstNonAscii).toNat]?
    else some originalColumn
  | none => some originalColumn

/-- The original line and column that `add_source_mapping` has for a byte offset. -/
def originalPosition (lineOffsetTables : List LineOffsetTable) (locStart hint : ℕ) :
    Option (ℤ × ℤ) := do
  let byteOffsets := lineOffsetTables.map (·.byteOffsetToStartOfLine)
  let originalLine ← findLineWithHint byteOffsets locStart hint
  let row ← lineOffsetTables[(max originalLine 0).toNat]?
  let originalColumn ← row.originalColumn locStart
  return (max originalLine 0, max originalColumn 0)

/-- The variables of the loop of `generate_in`. -/
structure Scan where
  list : List LineOffsetTable := []
  column : ℤ := 0
  byteOffsetToFirstNonAscii : Option ℕ := none
  columnByteOffset : ℕ := 0
  lineByteOffset : ℕ := 0
  columnsForNonAscii : List ℤ := []

/-- The row of the line. -/
def Scan.row (s : Scan) : LineOffsetTable where
  columnsForNonAscii := s.columnsForNonAscii
  byteOffsetToFirstNonAscii := s.byteOffsetToFirstNonAscii
  byteOffsetToStartOfLine := s.lineByteOffset

/-- The columns of the bytes up to `lineBytesSoFar`. -/
def Scan.extend (s : Scan) (lineBytesSoFar : ℕ) : Scan :=
  { s with
    columnsForNonAscii := s.columnsForNonAscii ++
      replicate (lineBytesSoFar - s.columnByteOffset + 1) s.column
    columnByteOffset := lineBytesSoFar + 1 }

/-- The start of a line and its first byte that is not ASCII. -/
def Scan.enter (s : Scan) (c : ℤ) (offset : ℕ) : Scan :=
  let s := if s.column = 0 then { s with lineByteOffset := offset } else s
  if c > 0x7F ∧ s.byteOffsetToFirstNonAscii = none then
    { s with
      columnByteOffset := offset - s.lineByteOffset
      byteOffsetToFirstNonAscii := some (offset - s.lineByteOffset) }
  else s

/-- The column offsets of the bytes of a line that has one which is not ASCII. -/
def Scan.record (s : Scan) (offset : ℕ) : Scan :=
  if s.byteOffsetToFirstNonAscii = none then s else s.extend (offset - s.lineByteOffset)

/-- The end of a line. -/
def Scan.newLine (s : Scan) : Scan where
  list := s.list ++ [s.row]

/-- The loop of `generate_in` over contents of `len` bytes. -/
def scanLoop (len : ℕ) (s : Scan) (remaining : Bytes) : Scan :=
  match remaining with
  | [] => s
  | b0 :: tail =>
    let len_ := wtf8ByteSequenceLength b0
    let cpLen := min len_ (tail.length + 1)
    let c : ℤ := if len_ = 1 then b0.toNat else decodeWtf8Rune ((b0 :: tail).take cpLen) len_ 0
    let offset := len - (tail.length + 1)
    let s := s.enter c offset
    if s.byteOffsetToFirstNonAscii = none ∧ 14 ≤ c ∧ c ≤ 127 then
      -- skip ahead to the next newline or non-ASCII byte
      match indexOfNewlineOrNonAscii ((b0 :: tail).drop cpLen) with
      | some j =>
        scanLoop len { s with column := s.column + (cpLen + j : ℕ) } ((b0 :: tail).drop (cpLen + j))
      | none => { s with column := s.column + (tail.length + 1 : ℕ) }
    else
      let s := s.record offset
      if isNewline c then
        if c = 0x0D ∧ tail.head? = some 0x0A then
          scanLoop len { s with column := s.column + 1 } tail
        else scanLoop len s.newLine ((b0 :: tail).drop cpLen)
      else
        scanLoop len { s with column := s.column + utf16Width c } ((b0 :: tail).drop cpLen)
  termination_by remaining.length
  decreasing_by
    all_goals
      have : 1 ≤ wtf8ByteSequenceLength b0 := one_le_wtf8ByteSequenceLength b0
      simp only [length_drop, length_cons]
      omega

/-- `generate_in`. -/
def generate (contents : Bytes) : List LineOffsetTable :=
  let s := scanLoop contents.length {} contents
  let s := if s.column = 0 then { s with lineByteOffset := contents.length } else s
  let s := if s.columnsForNonAscii = [] then s else s.extend (contents.length - s.lineByteOffset)
  s.list ++ [s.row]

end LineOffsetTable

end Soup.SourceMap
