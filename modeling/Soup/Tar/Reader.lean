import Soup.Bytes

/-!
# Fields, headers and the state of the tar reader

`tar/num.rs`. Overflow saturates, and a field ends at the first byte that is not a digit. An `i64`
is an integer; the checked operations of the source are `checked`.
-/

namespace Soup.Tar

/-- `i64::MIN`. -/
def i64Min : ℤ := -2 ^ 63

/-- `i64::MAX`. -/
def i64Max : ℤ := 2 ^ 63 - 1

/-- What an operation of `i64` that checks for overflow gives. -/
def checked (value : ℤ) : Option ℤ := if i64Min ≤ value ∧ value ≤ i64Max then some value else none

/-- The loop of `parse_base_n`, from the value on. -/
def parseDigits (base : ℕ) (negative : Bool) : ℤ → Bytes → ℤ
  | value, [] => value
  | value, c :: cs =>
    let digit := (c - b '0').toNat
    if base ≤ digit then value
    else
      match (checked (value * base)).bind fun v =>
        checked (v + if negative then -(digit : ℤ) else digit) with
      | none => if negative then i64Min else i64Max
      | some next => parseDigits base negative next cs

/-- `parse_base_n`. -/
def parseBaseN (field : Bytes) (base : ℕ) : ℤ :=
  match field.dropWhile fun c => c == b ' ' || c == b '\t' with
  | [] => 0
  | c :: cs =>
    if c = b '-' then parseDigits base true 0 cs else parseDigits base false 0 (c :: cs)

/-- `parse_decimal`. -/
def parseDecimal (field : Bytes) : ℤ := parseBaseN field 10

/-- The end of `parse_base_256`, where at most eight bytes are left. -/
def finishBase256 (negative : Bool) (c : UInt8) (rest : Bytes) : ℤ :=
  let fill : UInt8 := if negative then 0xff else 0
  if (c ^^^ fill) &&& 0x80 ≠ 0 then if negative then i64Min else i64Max
  else
    let value : UInt64 := if negative then 0xffffffffffffffff else 0
    let value := (value <<< 8) ||| c.toUInt64
    (rest.foldl (fun (value : UInt64) (byte : UInt8) => (value <<< 8) ||| byte.toUInt64)
      value).toInt64.toInt

/-- The loop of `parse_base_256`, which passes over the bytes that only fill. -/
def skipFill (negative : Bool) : UInt8 → Bytes → ℤ
  | c, [] => finishBase256 negative c []
  | c, next :: tail =>
    if 8 ≤ (next :: tail).length then
      if c ≠ if negative then 0xff else 0 then if negative then i64Min else i64Max
      else skipFill negative next tail
    else finishBase256 negative c (next :: tail)

/-- `parse_base_256`: big-endian two's complement whose top bit is the base-256 marker. -/
def parseBase256 : Bytes → ℤ
  | [] => 0
  | first :: rest =>
    let negative : Bool := first &&& 0x40 ≠ 0
    skipFill negative (if negative then first ||| 0x80 else first &&& 0x7f) rest

/-- `parse_field`: octal, or base-256 when the top bit of the first byte is set. -/
def parseField (field : Bytes) : ℤ :=
  match field with
  | [] => parseBaseN field 8
  | first :: _ => if first &&& 0x80 ≠ 0 then parseBase256 field else parseBaseN field 8

/-- `parse_pax_time`: `seconds[.fraction]`. -/
def parsePaxTime (value : Bytes) : Option ℤ :=
  match value with
  | [] => some 0
  | first :: rest =>
    let negative : Bool := first = b '-'
    let digits := if negative then rest else value
    let fraction := digits.dropWhile isAsciiDigit
    let seconds := (digits.takeWhile isAsciiDigit).foldlM (fun (seconds : ℤ) c =>
      (checked (seconds * 10)).bind fun v => checked (v + (c - b '0').toNat)) 0
    seconds.bind fun seconds =>
      match fraction with
      | [] => some (if negative then -seconds else seconds)
      | c :: rest =>
        if c = b '.' ∧ rest.all isAsciiDigit then some (if negative then -seconds else seconds)
        else none

example : parseField (text "0000644 ") = 420 := by decide +kernel

example : parseField [0x80, 0, 0, 0, 0, 0, 0, 2, 0, 0, 0, 1] = 2 ^ 33 + 1 := by decide +kernel

/-!
## The header block

`tar/header.rs`. A block is the list of its 512 bytes.
-/

/-- `BLOCK_SIZE`. -/
def blockSize : ℕ := 512

/-- A `[u8; BLOCK_SIZE]`. -/
abbrev Block := Bytes

/-- `padding_for`, for a size that is not negative: how many bytes fill the last block up behind
`size` bytes. -/
def paddingFor (size : ℤ) : ℤ := -size % 512

/-- `slice_to_nul`. -/
def sliceToNul (buf : Bytes) : Bytes := buf.takeWhile (· ≠ 0)

namespace Header

/-- `h[start..stop]`. -/
def field (h : Block) (start stop : ℕ) : Bytes := (h.drop start).take (stop - start)

def name (h : Block) : Bytes := field h 0 100
def mode (h : Block) : ℤ := parseField (field h 100 108)
def size (h : Block) : ℤ := parseField (field h 124 136)
def mtime (h : Block) : ℤ := parseField (field h 136 148)
def typeflag (h : Block) : UInt8 := h.getD 156 0
def linkname (h : Block) : Bytes := field h 157 257
def magic (h : Block) : Bytes := field h 257 265
def prefixOf (h : Block) : Bytes := field h 345 500

/-- `USTAR_MAGIC`. -/
def ustarMagic : Bytes := text "ustar\x0000"

/-- `gnu::MAGIC`. -/
def gnuMagic : Bytes := text "ustar  \x00"

/-- `gnu::sparse`. -/
def gnuSparse (h : Block) : Bytes := field h 386 482

/-- `gnu::is_extended`. -/
def gnuIsExtended (h : Block) : Bool := h.getD 482 0 ≠ 0

/-- `gnu::real_size`. -/
def gnuRealSize (h : Block) : Bytes := field h 483 495

/-- `gnu::extension_sparse`. -/
def extensionSparse (h : Block) : Bytes := field h 0 504

/-- `gnu::extension_is_extended`. -/
def extensionIsExtended (h : Block) : Bool := h.getD 504 0 ≠ 0

/-- `is_null`. -/
def isNull (h : Block) : Bool := h.all (· == 0)

/-- The sum of some bytes. -/
def sum (bytes : Bytes) : ℕ := (bytes.map UInt8.toNat).sum

/-- `checksum_ok`. Old tars summed signed bytes, so either sum is accepted. -/
def checksumOk (h : Block) : Bool :=
  let field := field h 148 156
  (field.all fun c => c == b ' ' || c == 0 || (b '0' ≤ c && c ≤ b '7')) &&
    let expected := parseField field
    let unsigned : ℤ := sum h - sum field + sum (List.replicate 8 (b ' '))
    let negative : ℤ := (h.filter fun c => 128 ≤ c).length
    expected = unsigned || expected = unsigned - negative * 256

/-- `number_field_looks_valid`. -/
def numberFieldLooksValid (field : Bytes) : Bool :=
  match field with
  | [] => true
  | first :: _ =>
    first = 0x80 || first = 0xff || first = 0 ||
      ((field.dropWhile (· == b ' ')).dropWhile fun c => b '0' ≤ c && c ≤ b '7').all
        fun c => c == b ' ' || c == 0

/-- `has_magic`. -/
def hasMagic (h : Block) : Bool := magic h = ustarMagic || magic h = gnuMagic

/-- `is_plausible`. -/
def isPlausible (h : Block) : Bool :=
  let flag := typeflag h
  checksumOk h &&
    (flag = 0 || (b '0' ≤ flag && flag ≤ b '9') || isAsciiAlphabetic flag) &&
    [field h 100 108, field h 108 116, field h 116 124, field h 136 148, field h 124 136,
      field h 329 337, field h 337 345].all numberFieldLooksValid

end Header

/-!
## The state of the tar reader

`tar/reader.rs`. A buffer with a length of its own is the list of the bytes that are in it: `block`
are the first `block_len` bytes of the source's `block`, `line` the first `line_len` of its `line`,
and `pax_key` the whole key up to its first NUL, of which the source keeps the first `KEY_CAPACITY`
bytes and the length. An `i64` is an integer. The sums of sizes stay below `2 ^ 61`, so that the
saturating additions of the source are plain ones here; where a value of the archive may overflow,
the operation is a checked one. Failed allocations are left out.

`composes` stands for `compose::compose(..).is_some()`, with its tables of the Unicode data.
-/

/-- `reader::Dialect`. -/
inductive Dialect
  | general
  | npm
  deriving DecidableEq, Repr

/-- `reader::Charset`: which pax strings convert. -/
inductive Charset
  | ascii
  | utf8
  deriving DecidableEq, Repr

/-- `reader::Options`. -/
structure Options where
  dialect : Dialect
  charset : Charset
  macMetadata : Bool
  deriving DecidableEq, Repr

/-- `reader::PathEncoding`. -/
inductive PathEncoding
  | bytes
  | pax
  | utf8
  deriving DecidableEq, Repr

/-- `error::Error`, without those of the gzip layers and of the sparse data that is read into
memory. -/
inductive Error
  | unrecognizedFormat
  | badChecksum
  | endWithinHeaders
  | truncatedHeader
  | truncatedData
  | truncatedMetadata
  | truncatedPaxName
  | truncatedMacMetadata
  | truncatedSkip
  | truncatedInput (needed available : ℤ)
  | truncatedSparse
  | redundantHeader (flag : String)
  | invalidSpecialHeaderSize (size : ℤ)
  | invalidPaxHeaderSize (size : ℤ)
  | emptyPaxHeader
  | emptyPaxGlobalHeader
  | malformedPaxAttribute
  | paxSizeOverflow
  | negativeFileSize
  | negativeSize
  | sizeOverflow
  | lineTooLong
  | malformedSparseMap
  | sparseMapTooLarge
  | oversizedMacMetadata
  deriving DecidableEq, Repr

/-- `reader::Entry`. -/
structure Entry where
  path : Bytes := []
  pathEncoding : PathEncoding := .bytes
  link : Bytes := []
  isSymlink : Bool := false
  mode : UInt32 := 0
  size : ℤ := 0
  mtime : Option ℤ := none
  deriving DecidableEq, Repr

/-- `S::IFMT` and the types of files, from `bun_core::S`. -/
def ifmt : UInt32 := 0o170000
def iflnk : UInt32 := 0o120000
def ifreg : UInt32 := 0o100000
def ifchr : UInt32 := 0o020000
def ifblk : UInt32 := 0o060000
def ifdir : UInt32 := 0o040000
def ififo : UInt32 := 0o010000

namespace Entry

/-- `Entry::filetype`. -/
def filetype (e : Entry) : UInt32 := e.mode &&& ifmt

/-- `Entry::set_filetype`. -/
def setFiletype (e : Entry) (filetype : UInt32) : Entry :=
  { e with mode := (e.mode &&& ~~~ifmt) ||| filetype }

end Entry

/-- `reader::Status`. The worse of two is the one to keep. -/
inductive Status
  | failed
  | warn
  | ok
  deriving DecidableEq, Repr

/-- `Status::min`. -/
def Status.worse : Status → Status → Status
  | .failed, _ => .failed
  | _, .failed => .failed
  | .warn, _ => .warn
  | _, .warn => .warn
  | .ok, .ok => .ok

/-- `Status::warn_unless`. -/
def Status.warnUnless (ok : Bool) : Status := if ok then .ok else .warn

/-- `reader::Format`. -/
inductive Format
  | old
  | ustar
  | pax
  | gnu
  deriving DecidableEq, Repr

/-- `reader::SparseBlock`. -/
structure SparseBlock where
  offset : ℤ
  remaining : ℤ
  hole : Bool
  deriving DecidableEq, Repr

namespace Seen

/-! The bits of `seen`. -/

def solarisAcl : UInt32 := 1
def paxGlobal : UInt32 := 2
def longLink : UInt32 := 4
def longName : UInt32 := 8
def volume : UInt32 := 16
def pax : UInt32 := 32
def macMetadata : UInt32 := 512

end Seen

namespace SizeField

/-! The bits of `size_fields`. -/

def gnuSparseRealsize : UInt8 := 1
def gnuSparseSize : UInt8 := 2
def schilyRealsize : UInt8 := 4
def paxSize : UInt8 := 8

end SizeField

def pathnameLimit : ℤ := 1024 * 1024
def userNameLimit : ℤ := 65536
def sparseMapLimit : ℤ := 8 * 1024 * 1024
def xattrLimit : ℤ := 16 * 1024 * 1024
def fflagsLimit : ℤ := 512
def entryLimit : ℤ := 0x0fffffffffffffff
def paxBodyLimit : ℤ := 1024 * 1024 * 1024
def paxLineLimit : ℤ := 99999999
def numberLimit : ℤ := 64
def timeLimit : ℤ := 128
def symlinkTypeLimit : ℤ := 16
def charsetLimit : ℤ := 64
def xattrNameLimit : ℕ := 128
def sparseVersionLimit : ℤ := 10
def sparseMapLineLimit : ℤ := 100
def keyCapacity : ℕ := 32

def libarchiveXattr : Bytes := text "LIBARCHIVE.xattr."
def schilyXattr : Bytes := text "SCHILY.xattr."

/-- `reader::AfterSkip`. -/
inductive AfterSkip
  | betweenHeaders (status : Status)
  | paxNewline (status : Status)
  | macMetadata
  | sparseMap
  | endOfEntry
  | nextEntry
  deriving DecidableEq, Repr

/-- `reader::Number`. -/
inductive Number
  | sparseOffset
  | sparseNumBytes
  | sparseSize
  | sparseMajor
  | sparseMinor
  | sparseRealSize
  | schilyRealSize
  | size
  | unused
  deriving DecidableEq, Repr

/-- `reader::Text`. -/
inductive PaxText
  | path
  | pathOverride
  | linkPath
  | userName
  | groupName
  deriving DecidableEq, Repr

/-- `reader::Collect`. -/
inductive Collect
  | longName
  | longLink
  | number (which : Number)
  | time (isMtime : Bool)
  | paxText (which : PaxText)
  | headerCharset
  | symlinkType
  | sparseMap
  | holesData
  deriving DecidableEq, Repr

/-- `reader::SparseMapField`. -/
inductive SparseMapField
  | count
  | offset
  | size
  deriving DecidableEq, Repr

/-- `reader::State`. -/
inductive State
  | nextEntry
  | header
  | skip (left : ℤ) (after : AfterSkip)
  | collect (left : ℕ) (what : Collect)
  | paxLength
  | paxKey
  | paxNewline (status : Status)
  | oldSparseExtension
  | sparseMapLine (field : SparseMapField)
  | emit
  | data
  | drain
  | done
  | failed (error : Error)
  deriving DecidableEq, Repr

/-- `reader::Reader`. -/
structure Reader where
  options : Options
  state : State := .nextEntry
  block : Bytes := []
  mainHeader : Block := []
  collected : Bytes := []
  status : Status := .ok
  eofIsFatal : Bool := false
  seen : UInt32 := 0
  paxIsUtf8 : Bool := true
  sparseAttributesSeen : Bool := false
  paxPath : Bytes := []
  paxPathOverride : Bytes := []
  paxLink : Bytes := []
  userNameConverts : Bool := true
  groupNameConverts : Bool := true
  paxStatus : Status := .ok
  paxLeft : ℤ := 0
  paxPadding : ℤ := 0
  paxLineLength : ℤ := 0
  paxLinePos : ℤ := 0
  paxKey : Bytes := []
  paxKeyEnded : Bool := false
  paxKeyStarted : Bool := false
  entry : Entry := {}
  sizeFields : UInt8 := 0
  sparse : List SparseBlock := []
  sparseHead : ℕ := 0
  sparseMapLeft : ℤ := 0
  sparseMapEntries : ℤ := 0
  sparseMapOffset : ℤ := 0
  line : Bytes := []
  format : Format := .old
  typeflag : UInt8 := 0
  sparseMajor : ℤ := 0
  sparseMinor : ℤ := 0
  sparseOffset : ℤ := 0
  sparseNumBytes : ℤ := 0
  gnuSparseSize : ℤ := 0
  gnuSparseRealSize : ℤ := 0
  schilyRealSize : ℤ := 0
  paxSize : ℤ := 0
  diskSize : ℤ := 0
  bytesRemaining : ℤ := 0
  skipped : ℤ := 0
  padding : ℤ := 0
  nullBlocks : ℕ := 0
  deriving DecidableEq, Repr

namespace Reader

/-- `Reader::new`. -/
def new (options : Options) : Reader := { options }

/-- `Reader::is_npm`. -/
def isNpm (r : Reader) : Bool := r.options.dialect = .npm

/-- `Reader::skip_entry`. -/
def skipEntry (r : Reader) : Reader :=
  if r.state = .data then { r with state := .nextEntry } else r

/-- `Reader::reset_header_state`. -/
def resetHeaderState (r : Reader) : Reader :=
  { r with
    paxIsUtf8 := true
    sparseAttributesSeen := false
    paxPath := []
    paxPathOverride := []
    paxLink := []
    userNameConverts := true
    groupNameConverts := true }

/-- `Reader::between_headers`. -/
def betweenHeaders (r : Reader) (status : Status) : Reader :=
  { r with
    status := r.status.worse status
    eofIsFatal := if r.seen &&& ~~~(Seen.volume ||| Seen.paxGlobal) ≠ 0 then true else r.eofIsFatal
    state := .header }

/-- `Reader::mark_seen`, where the answer is read with `hasSeen` before. -/
def markSeen (r : Reader) (bit : UInt32) : Reader := { r with seen := r.seen ||| bit }

/-- What `Reader::mark_seen` answers. -/
def hasSeen (r : Reader) (bit : UInt32) : Bool := r.seen &&& bit ≠ 0

/-- `Reader::skip_body`. -/
def skipBody (r : Reader) (size : ℤ) (status : Status) : Reader :=
  { r with state := .skip (size + paddingFor size) (.betweenHeaders status) }

/-- `Reader::converts`. -/
def converts (composes : Bytes → Bool) (r : Reader) (text : Bytes) : Bool :=
  let text := sliceToNul text
  match r.options.charset with
  | .ascii => text.all (· < 128)
  | .utf8 => text.all (· < 128) || composes text

end Reader

end Soup.Tar
