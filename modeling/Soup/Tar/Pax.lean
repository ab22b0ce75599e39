import Soup.Tar.Reader

/-!
# Sparse maps and pax headers

The parts of `tar/reader.rs` that take the records of a pax header in, and the sparse maps that are
found there and in GNU headers.
-/

namespace Soup.Tar.Reader

/-! ## Sparse blocks -/

/-- What `add_sparse_block` answers: whether there can be such a block. -/
def sparseBlockFits (offset remaining : ℤ) : Bool :=
  0 ≤ remaining && 0 ≤ offset && (checked (offset + remaining)).isSome

/-- `Reader::add_sparse_block`. A block that cannot be is replaced by an empty one. -/
def addSparseBlock (r : Reader) (offset remaining : ℤ) (hole : Bool) : Reader :=
  { r with sparse := r.sparse ++
      [if sparseBlockFits offset remaining then { offset, remaining, hole }
        else { offset := 0, remaining := 0, hole := false }] }

/-- `Reader::add_pending_sparse_block`. -/
def addPendingSparseBlock (r : Reader) : Except Error Reader :=
  if sparseBlockFits r.sparseOffset r.sparseNumBytes then
    .ok { r.addSparseBlock r.sparseOffset r.sparseNumBytes false with
      sparseOffset := -1, sparseNumBytes := -1 }
  else .error .malformedSparseMap

/-- The loop of `parse_sparse_map_0_1`, with the offset that waits for its size. -/
def sparseMapFields (r : Reader) : Option ℤ → List Bytes → Reader × Bool
  | _, [] => (r, true)
  | offset, field :: fields =>
    if ¬ field.all isAsciiDigit then (r, false)
    else
      let value := parseDecimal field
      match offset with
      | none => r.sparseMapFields (some value) fields
      | some offset =>
        let r' := r.addSparseBlock offset value false
        if sparseBlockFits offset value then r'.sparseMapFields none fields else (r', false)

/-- `Reader::parse_sparse_map_0_1`: `offset,size,offset,size,...`. -/
def parseSparseMap01 (r : Reader) (map : Bytes) : Reader × Bool :=
  r.sparseMapFields none (map.splitOn (b ','))

/-- The loop of `parse_holes_data` over the fields between blanks. -/
def holesFields (r : Reader) (stop : ℤ) (hole : Bool) : List Bytes → Except Error (Reader × Bool)
  | [] => .ok (r, true)
  | field :: fields =>
    if ¬ field.all isAsciiDigit then .ok (r, false)
    else
      let start := stop
      let stop := parseDecimal field
      if start < stop then
        if sparseBlockFits start (stop - start) then
          (r.addSparseBlock start (stop - start) hole).holesFields stop (!hole) fields
        else .error .malformedSparseMap
      else r.holesFields stop (!hole) fields

/-- `Reader::parse_holes_data`. -/
def parseHolesData (r : Reader) (value : Bytes) : Except Error (Reader × Bool) :=
  match value with
  | [] => .ok (r, false)
  | first :: rest =>
    if first = b ' ' then r.holesFields 0 true (rest.splitOn (b ' ')) else .ok (r, false)

/-- The loop of `add_old_sparse_entries`. -/
def oldSparseEntries (r : Reader) : List Bytes → Except Error Reader
  | [] => .ok r
  | entry :: entries =>
    let offset := entry.take 12
    let numBytes := entry.drop 12
    if offset.head? = some 0 then .ok r
    else if sparseBlockFits (parseField offset) (parseField numBytes) then
      (r.addSparseBlock (parseField offset) (parseField numBytes) false).oldSparseEntries entries
    else .error .malformedSparseMap

/-- `Reader::add_old_sparse_entries`. An entry is an offset and a length, of 12 bytes each. -/
def addOldSparseEntries (r : Reader) (entries : Bytes) : Except Error Reader :=
  r.oldSparseEntries
    ((List.range (entries.length / 24)).map fun i => (entries.drop (24 * i)).take 24)

/-! ## The lines of a pax header -/

/-- `Reader::begin_pax_line`. -/
def beginPaxLine (r : Reader) : Reader :=
  { r with paxLineLength := 0, paxLinePos := 0, paxKeyStarted := false, state := .paxLength }

/-- `Reader::begin_pax`. -/
def beginPax (r : Reader) (size : ℤ) : Except Error Reader :=
  if ¬ (0 ≤ size ∧ size ≤ entryLimit) then .error (.invalidPaxHeaderSize size)
  else if size = 0 then .error .emptyPaxHeader
  else if paxBodyLimit < size then .ok (r.skipBody size .warn)
  else
    .ok (beginPaxLine { r with
      paxStatus := .ok, paxLeft := size, paxPadding := paddingFor size })

/-- `Reader::skip_rest_of_pax`. -/
def skipRestOfPax (r : Reader) (status : Status) : Reader :=
  { r with state := .skip (r.paxLeft - r.paxLinePos + r.paxPadding) (.betweenHeaders status) }

/-- `Reader::ignore_rest_of_pax`. -/
def ignoreRestOfPax (r : Reader) : Reader := r.skipRestOfPax .warn

/-- The `Value` of `on_pax_key`: what becomes of the value of a record. -/
inductive Value
  | skip (status : Status)
  | collect (what : Collect)
  deriving DecidableEq, Repr

/-- The closure `number` of `on_pax_key`. -/
def numberValue (length : ℤ) (which : Number) : Except Error Value :=
  if numberLimit < length then .error .malformedPaxAttribute else .ok (.collect (.number which))

/-- The closure `time` of `on_pax_key`. -/
def timeValue (length : ℤ) (isMtime : Bool) : Except Error Value :=
  if timeLimit < length then .error .malformedPaxAttribute else .ok (.collect (.time isMtime))

/-- The closure `warn_unless` of `on_pax_key`. -/
def warnUnless (ok : Bool) : Value := .skip (.warnUnless ok)

/-- The keys of `on_pax_key` that go on behind `GNU.sparse`. `whole` says that nothing of the key is
missing. -/
def sparseValue (r : Reader) (sparse : Bytes) (whole : Bool) (length : ℤ) :
    Except Error (Reader × Value) :=
  let r := if sparse = [] ∨ (1 < sparse.length ∧ sparse.head? = some (b '.')) then
    { r with sparseAttributesSeen := true } else r
  if ¬ whole then .ok (r, .skip .ok)
  else if sparse = text ".numblocks" then
    .ok ({ r with sparseOffset := -1, sparseNumBytes := -1, sparseMajor := 0, sparseMinor := 0 },
      .skip .ok)
  else if sparse = text ".offset" then (numberValue length .sparseOffset).map (r, ·)
  else if sparse = text ".numbytes" then (numberValue length .sparseNumBytes).map (r, ·)
  else if sparse = text ".size" then (numberValue length .sparseSize).map (r, ·)
  else if sparse = text ".map" then
    .ok ({ r with sparseMajor := 0, sparseMinor := 1 },
      if sparseMapLimit < length then .skip .failed else .collect .sparseMap)
  else if sparse = text ".major" then (numberValue length .sparseMajor).map (r, ·)
  else if sparse = text ".minor" then (numberValue length .sparseMinor).map (r, ·)
  else if sparse = text ".name" then
    .ok (r, if pathnameLimit < length then .skip .warn else .collect (.paxText .pathOverride))
  else if sparse = text ".realsize" then (numberValue length .sparseRealSize).map (r, ·)
  else .ok (r, .skip .ok)

/-- The other keys of `on_pax_key`, of which `key` are the first `KEY_CAPACITY` bytes and `keyLen`
the length. -/
def plainValue (key : Bytes) (keyLen : ℕ) (length : ℤ) : Except Error Value :=
  let is (name : Bytes) : Bool := keyLen ≤ keyCapacity && key == name
  if is (text "LIBARCHIVE.creationtime") ∨ is (text "atime") ∨ is (text "ctime") then
    timeValue length false
  else if is (text "LIBARCHIVE.symlinktype") then
    .ok (if length < symlinkTypeLimit then .collect .symlinkType else .skip .warn)
  else if (libarchiveXattr <+: key ∧ libarchiveXattr.length < keyLen) ∨
      is (text "RHT.security.selinux") then
    .ok (warnUnless (length ≤ xattrLimit))
  else if is (text "SCHILY.devmajor") ∨ is (text "SCHILY.devminor") ∨ is (text "SCHILY.dev") ∨
      is (text "SCHILY.ino") ∨ is (text "SCHILY.nlink") ∨ is (text "gid") ∨ is (text "uid") then
    numberValue length .unused
  else if is (text "SCHILY.fflags") then .ok (warnUnless (length < fflagsLimit))
  else if is (text "SCHILY.realsize") then numberValue length .schilyRealSize
  else if schilyXattr <+: key ∧ schilyXattr.length < keyLen then
    .ok (warnUnless (length < xattrLimit && keyLen - schilyXattr.length ≤ xattrNameLimit))
  else if is (text "SUN.holesdata") then
    .ok (if length < sparseMapLimit then .collect .holesData else .skip .failed)
  else if is (text "gname") ∨ is (text "uname") then
    .ok (if userNameLimit < length then .skip .warn
      else if is (text "gname") then .collect (.paxText .groupName)
      else .collect (.paxText .userName))
  else if is (text "hdrcharset") then
    .ok (if length < charsetLimit then .collect .headerCharset else .skip .warn)
  else if is (text "linkpath") ∨ is (text "path") then
    .ok (if pathnameLimit < length then .skip .warn
      else if is (text "path") then .collect (.paxText .path)
      else .collect (.paxText .linkPath))
  else if is (text "mtime") then timeValue length true
  else if is (text "size") then numberValue length .size
  else .ok (.skip .ok)

/-- The choice of `on_pax_key` by the key. -/
def paxValue (r : Reader) (length : ℤ) : Except Error (Reader × Value) :=
  let key := r.paxKey.take keyCapacity
  if r.isNpm ∧ (key.head?.any fun c => b 'A' ≤ c && c ≤ b 'Z') then .ok (r, .skip .ok)
  else if text "GNU.sparse" <+: key then
    r.sparseValue (key.drop 10) (r.paxKey.length ≤ keyCapacity) length
  else (plainValue key r.paxKey.length length).map (r, ·)

/-- `Reader::on_pax_key`. -/
def onPaxKey (r : Reader) : Except Error Reader :=
  let withNewline := r.paxLineLength - r.paxLinePos
  let r := { r with paxLeft := r.paxLeft - r.paxLinePos, paxLinePos := 0 }
  if withNewline = 0 then .ok r.ignoreRestOfPax
  else
    let length := withNewline - 1
    let r := { r with paxLeft := r.paxLeft - length }
    (r.paxValue length).map fun (r, value) =>
      match value with
      | Value.skip status => { r with state := .skip length (.paxNewline status) }
      | .collect what => { r with collected := [], state := .collect length.toNat what }

/-- `Reader::finish_pax`. -/
def finishPax (composes : Bytes → Bool) (r : Reader) : Reader :=
  let utf8 := r.paxIsUtf8
  let path := if r.paxPathOverride = [] then r.paxPath else r.paxPathOverride
  let pathConverts := !utf8 || r.converts composes path
  let linkConverts := !utf8 || r.converts composes r.paxLink
  let entry := if path = [] then r.entry else
    { r.entry with
      path := sliceToNul path
      pathEncoding := if utf8 && pathConverts then .pax else .bytes }
  let entry := if r.paxLink = [] then entry else { entry with link := sliceToNul r.paxLink }
  let status := if path ≠ [] ∧ ¬ pathConverts then .warn else r.paxStatus
  let status := if utf8 ∧ ¬ (r.userNameConverts ∧ r.groupNameConverts) then .warn else status
  let status := if r.paxLink ≠ [] ∧ ¬ linkConverts then .warn else status
  { r with entry, state := .skip (r.paxLeft + r.paxPadding) (.betweenHeaders status) }

/-! ## The values of the records -/

/-- `Reader::on_pax_number`. -/
def onPaxNumber (r : Reader) (which : Number) (value : ℤ) : Except Error Reader :=
  match which with
  | .sparseOffset =>
    let r := { r with sparseOffset := value }
    if r.sparseNumBytes ≠ -1 then r.addPendingSparseBlock else .ok r
  | .sparseNumBytes =>
    let r := { r with sparseNumBytes := value }
    if r.sparseOffset ≠ -1 then r.addPendingSparseBlock else .ok r
  | .sparseSize =>
    .ok { r with gnuSparseSize := value, sizeFields := r.sizeFields ||| SizeField.gnuSparseSize }
  | .sparseMajor => .ok (if value ≤ sparseVersionLimit then { r with sparseMajor := value } else r)
  | .sparseMinor => .ok (if value ≤ sparseVersionLimit then { r with sparseMinor := value } else r)
  | .unused => .ok r
  | .sparseRealSize =>
    .ok { r with
      gnuSparseRealSize := value, sizeFields := r.sizeFields ||| SizeField.gnuSparseRealsize }
  | .schilyRealSize =>
    .ok { r with
      schilyRealSize := value, sizeFields := r.sizeFields ||| SizeField.schilyRealsize }
  | .size => .ok { r with paxSize := value, sizeFields := r.sizeFields ||| SizeField.paxSize }

/-- The cases of `use_collected` that end in front of the newline of a record, with the status that
they find. -/
def usePaxValue (composes : Bytes → Bool) (r : Reader) (what : Collect) (value : Bytes) :
    Except Error (Reader × Status) :=
  match what with
  | .longName | .longLink => .ok (r, .ok)
  | .number which =>
    let parsed := parseDecimal value
    if 0 ≤ parsed ∧ parsed ≠ i64Max then (r.onPaxNumber which parsed).map (·, .ok)
    else if which = .size then .error .paxSizeOverflow
    else .ok (r, .warn)
  | .time isMtime =>
    let seconds := parsePaxTime value
    .ok (if isMtime ∧ seconds.isSome then { r with entry := { r.entry with mtime := seconds } }
      else r, .warnUnless seconds.isSome)
  | .paxText .path => .ok ({ r with paxPath := value }, .ok)
  | .paxText .pathOverride => .ok ({ r with paxPathOverride := value }, .ok)
  | .paxText .linkPath => .ok ({ r with paxLink := value }, .ok)
  | .paxText .userName => .ok ({ r with userNameConverts := r.converts composes value }, .ok)
  | .paxText .groupName => .ok ({ r with groupNameConverts := r.converts composes value }, .ok)
  | .headerCharset =>
    let utf8 := if value = text "BINARY" then some false
      else if value = text "ISO-IR 10646 2000 UTF-8" then some true else none
    .ok ({ r with paxIsUtf8 := utf8.getD r.paxIsUtf8 }, .warnUnless utf8.isSome)
  | .symlinkType => .ok (r, .warnUnless (value = text "file" || value = text "dir"))
  | .sparseMap =>
    let (r, parses) := r.parseSparseMap01 value
    .ok (r, .warnUnless parses)
  | .holesData => (r.parseHolesData value).map fun (r, parses) => (r, .warnUnless parses)

/-- `Reader::use_collected`. -/
def useCollected (composes : Bytes → Bool) (r : Reader) (what : Collect) (value : Bytes) :
    Except Error Reader :=
  match what with
  | .longName =>
    .ok { r with
      entry := { r.entry with path := sliceToNul value, pathEncoding := .bytes }
      state := .skip (paddingFor value.length) (.betweenHeaders .ok) }
  | .longLink =>
    .ok { r with
      entry := { r.entry with link := sliceToNul value }
      state := .skip (paddingFor value.length) (.betweenHeaders .ok) }
  | _ => (r.usePaxValue composes what value).map fun (r, status) =>
    { r with state := .paxNewline status }

/-- `Reader::pax_prologue_ran_out`, where the source gives `Continue`: whether the prologue has come
to the end of its line or of the header. -/
def paxPrologueAtEnd (r : Reader) : Bool :=
  r.paxLeft ≤ r.paxLinePos || (r.state = .paxKey && r.paxLineLength ≤ r.paxLinePos)

/-!
## What a header does to the reader

The parts of `tar/reader.rs` behind `Reader::on_header`. An error leaves nothing of the reader but
the error itself, so the functions that may fail give the next reader or the error.
-/

/-! ### The entry's own header -/

/-- The start of `finish_header`: an entry without a sparse map has one block. -/
def ensureSparse (r : Reader) : Reader :=
  if r.sparse = [] then r.addSparseBlock 0 r.bytesRemaining false else r

/-- The `plain_file` of `finish_header`. -/
def plainFile (r : Reader) : Bool := r.typeflag = b '0' || r.typeflag = 0

/-- `finish_header`, where a file whose name ends in a slash becomes a directory. -/
def makeDirectory (r : Reader) (status : Status) : Reader :=
  let mayBeDirectory : Bool := if r.isNpm then r.plainFile else status = .ok
  if mayBeDirectory ∧ r.entry.filetype = ifreg ∧ r.entry.path.getLast? = some (b '/') then
    { r with entry := r.entry.setFiletype ifdir, bytesRemaining := 0, padding := 0 }
  else r

/-- `finish_header`, where npm does not take the entry for a file. -/
def refuseFile (r : Reader) : Reader :=
  if r.isNpm ∧ r.entry.filetype = ifreg ∧
      (¬ (r.plainFile ∨ r.typeflag = b '7') ∨ 0 ∈ r.paxPath) then
    { r with entry := r.entry.setFiletype 0 }
  else r

/-- `Reader::finish_header`. -/
def finishHeader (r : Reader) (status : Status) : Reader :=
  { (r.ensureSparse.makeDirectory status).refuseFile with state := .emit }

/-- The loop of `is_mac_metadata_name`: what is behind the last slash that is not the end. -/
def macMetadataName (name : Bytes) : Bytes → Bytes
  | [] => name
  | c :: rest =>
    if c = b '/' then macMetadataName (if rest = [] then name else rest) rest
    else macMetadataName name rest

/-- `is_mac_metadata_name`: the last component is `._` and at least one more character. -/
def isMacMetadataName (path : Bytes) : Bool :=
  let name := macMetadataName path path
  2 < name.length && text "._" <+: name

/-- `Reader::after_main_header`. -/
def afterMainHeader (r : Reader) : Except Error Reader :=
  if r.status = .failed then .error .sparseMapTooLarge
  else if r.options.macMetadata ∧ ¬ r.hasSeen Seen.macMetadata ∧ isMacMetadataName r.entry.path then
    let size := r.entry.size
    if xattrLimit < size then .error .oversizedMacMetadata
    else .ok { r with state := .skip (size + paddingFor size) .macMetadata }
  else if r.sparseAttributesSeen then
    if ¬ (r.typeflag = b 'S' ∨ r.typeflag = b '0') then .ok (r.finishHeader .warn)
    else if r.sparseMajor = 0 ∧ (r.sparseMinor = 0 ∨ r.sparseMinor = 1) then
      .ok (r.finishHeader r.status)
    else if r.sparseMajor = 1 ∧ r.sparseMinor = 0 then
      .ok { r with
        sparse := [], sparseHead := 0, sparseMapLeft := r.bytesRemaining, line := []
        state := .sparseMapLine .count }
    else .ok (r.finishHeader .warn)
  else .ok (r.finishHeader r.status)

/-- Whether `size_fields` has a bit. -/
def hasSize (r : Reader) (field : UInt8) : Bool := r.sizeFields &&& field ≠ 0

/-- The length of the file that `header_common` finds. -/
def diskSizeOf (r : Reader) (headerSize : ℤ) : ℤ :=
  if r.hasSize SizeField.gnuSparseRealsize then r.gnuSparseRealSize
  else if r.hasSize SizeField.gnuSparseSize ∧ r.sparseMajor = 0 then r.gnuSparseSize
  else if r.hasSize SizeField.schilyRealsize then r.schilyRealSize
  else if r.hasSize SizeField.paxSize then r.paxSize
  else headerSize

/-- The length of the body that `header_common` finds. -/
def bodySizeOf (r : Reader) (headerSize : ℤ) : ℤ :=
  if r.hasSize SizeField.gnuSparseSize ∧ r.sparseMajor = 1 then r.gnuSparseSize
  else if r.hasSize SizeField.paxSize then r.paxSize
  else headerSize

/-- The closure `no_body` of `header_common`. -/
def noBody (r : Reader) (filetype : UInt32) : Reader :=
  { r with entry := { r.entry.setFiletype filetype with size := 0 }, bytesRemaining := 0 }

/-- `ignore_size` of a hard link. -/
def ignoreSize (r : Reader) (h : Block) : Bool :=
  match r.format with
  | .pax => false
  | .old | .gnu => true
  | .ustar => Header.hasMagic h && Header.isPlausible h

/-- What `header_common` makes of the type of the entry. -/
def applyTypeflag (r : Reader) (h : Block) : Reader :=
  let flag := r.typeflag
  if flag = b '1' then
    if 0 < r.entry.size then
      let r := { r with entry := r.entry.setFiletype ifreg }
      if r.ignoreSize h then { r with entry := { r.entry with size := 0 }, bytesRemaining := 0 }
        else r
    else r
  else if flag = b '2' then
    let link := if r.entry.link = [] then sliceToNul (Header.linkname h) else r.entry.link
    { r with entry := { r.entry with isSymlink := true, link } }.noBody iflnk
  else if flag = b '3' then r.noBody ifchr
  else if flag = b '4' then r.noBody ifblk
  else if flag = b '5' then r.noBody ifdir
  else if flag = b '6' then r.noBody ififo
  else if flag = b 'D' then { r with entry := r.entry.setFiletype ifdir }
  else if flag = b 'M' then r
  else { r with entry := r.entry.setFiletype ifreg }

/-- `Reader::header_common`. -/
def headerCommon (r : Reader) (h : Block) : Except Error Reader :=
  let entry := { r.entry with
    mode := UInt32.ofInt (Header.mode h)
    mtime := r.entry.mtime.or (some (Header.mtime h)) }
  let headerSize := Header.size h
  let diskSize := r.diskSizeOf headerSize
  let bytesRemaining := r.bodySizeOf headerSize
  if diskSize < 0 then .error .negativeFileSize
  else if entryLimit < diskSize then .error .sizeOverflow
  else if bytesRemaining < 0 then .error .negativeSize
  else if entryLimit < bytesRemaining then .error .sizeOverflow
  else
    let r := { r with
      entry := { entry with size := diskSize }, diskSize, bytesRemaining
      typeflag := Header.typeflag h }
    let r := r.applyTypeflag h
    { r with padding := paddingFor r.bytesRemaining }.afterMainHeader

/-- The path that `on_main_header` takes from a header, unless there is one already. -/
def takePath (r : Reader) (path : Bytes) : Reader :=
  if r.entry.path = [] then { r with entry := { r.entry with path, pathEncoding := .bytes } } else r

/-- The path of a ustar header, from its two parts. -/
def ustarPath (h : Block) : Bytes :=
  let front := sliceToNul (Header.prefixOf h)
  let slash := if front ≠ [] ∧ front.getLast? ≠ some (b '/') then [b '/'] else []
  front ++ slash ++ sliceToNul (Header.name h)

/-- `Reader::on_main_header`. -/
def onMainHeader (r : Reader) (h : Block) : Except Error Reader :=
  let magic := Header.magic h
  if magic = Header.gnuMagic then
    let r := { r with format := .gnu }.takePath (sliceToNul (Header.name h))
    if r.isNpm then r.headerCommon h
    else
      let r := if (Header.gnuRealSize h).head? ≠ some 0 then
        { r with
          gnuSparseRealSize := parseField (Header.gnuRealSize h)
          sizeFields := r.sizeFields ||| SizeField.gnuSparseRealsize } else r
      if (Header.gnuSparse h).head? ≠ some 0 then
        (r.addOldSparseEntries (Header.gnuSparse h)).bind fun r =>
          if Header.gnuIsExtended h then
            .ok { r with mainHeader := h, state := .oldSparseExtension }
          else r.headerCommon h
      else r.headerCommon h
  else if text "ustar" <+: magic ∧ (¬ r.isNpm ∨ magic = Header.ustarMagic) then
    let r := { r with format := if r.format ≠ Format.pax then Format.ustar else r.format }
    (r.takePath (ustarPath h)).headerCommon h
  else
    ({ r with format := .old }.takePath (sliceToNul (Header.name h))).headerCommon h

/-! ### The other headers -/

/-- `Reader::begin_body`: the body of a header whose size is not trusted past `PATHNAME_LIMIT`. -/
def beginBody (r : Reader) (size : ℤ) (collect : Option Collect) : Except Error Reader :=
  if ¬ (0 ≤ size ∧ size ≤ entryLimit) then .error (.invalidSpecialHeaderSize size)
  else if pathnameLimit < size then .ok (r.skipBody size .warn)
  else
    match collect with
    | none => .ok (r.skipBody size .ok)
    | some what => .ok { r with collected := [], state := .collect size.toNat what }

/-- `Reader::on_header`, for the headers `A` to `X` that are not the entry's own. -/
def onSpecialHeader (r : Reader) (flag : UInt8) (size : ℤ) : Except Error Reader :=
  if flag = b 'A' then
    if r.hasSeen Seen.solarisAcl then .error (.redundantHeader "A")
    else { r.markSeen Seen.solarisAcl with format := .pax }.beginBody size none
  else if flag = b 'g' then
    if r.hasSeen Seen.paxGlobal then .error (.redundantHeader "g")
    else if ¬ (0 ≤ size ∧ size ≤ entryLimit) then .error (.invalidSpecialHeaderSize size)
    else if size = 0 then .error .emptyPaxGlobalHeader
    else .ok ({ r.markSeen Seen.paxGlobal with format := .pax }.skipBody size .ok)
  else if flag = b 'K' then
    let status := if r.hasSeen Seen.longLink then r.status.worse .warn else r.status
    { r.markSeen Seen.longLink with status, format := .gnu }.beginBody size (some .longLink)
  else if flag = b 'L' then
    let status := if r.hasSeen Seen.longName then r.status.worse .warn else r.status
    { r.markSeen Seen.longName with status, format := .gnu }.beginBody size (some .longName)
  else if flag = b 'V' then
    let status := if r.hasSeen Seen.volume then r.status.worse .warn else r.status
    if ¬ (0 ≤ size ∧ size ≤ pathnameLimit) then .error (.invalidSpecialHeaderSize size)
    else .ok ({ r.markSeen Seen.volume with status, format := .gnu }.skipBody size .ok)
  else
    if r.hasSeen Seen.pax then
      .error (.redundantHeader (if flag = b 'x' then "x" else "X'/'x"))
    else { r.markSeen Seen.pax with format := .pax }.beginPax size

/-- The types of the headers that say something about the entry behind them. -/
def isSpecial (flag : UInt8) : Bool :=
  flag ∈ [b 'A', b 'g', b 'K', b 'L', b 'V', b 'x', b 'X']

/-- `Reader::on_header`. -/
def onHeader (r : Reader) (block : Block) : Except Error Reader :=
  if Header.isNull block then
    if r.isNpm then
      .ok { r with
        nullBlocks := r.nullBlocks + 1
        state := if r.nullBlocks + 1 = 2 then .drain else r.state }
    else .ok r
  else
    let r := { r with nullBlocks := 0 }
    if ¬ Header.checksumOk block then
      if r.eofIsFatal then .error .badChecksum
      -- A header is looked for one block further on, with nothing carried over.
      else .ok { r with state := .nextEntry }
    else if isSpecial (Header.typeflag block) then
      r.onSpecialHeader (Header.typeflag block) (Header.size block)
    else r.onMainHeader block

/-! ### The sparse map in front of the data -/

/-- `Reader::on_sparse_map_line`, behind the lines of the map. -/
def finishSparseMap (r : Reader) : Except Error Reader :=
  let read := r.bytesRemaining - r.sparseMapLeft
  let toSkip := paddingFor read
  if r.sparseMapLeft < toSkip then .error .malformedSparseMap
  else
    .ok { r with
      bytesRemaining := r.bytesRemaining - (read + toSkip), state := .skip toSkip .sparseMap }

/-- `Reader::on_sparse_map_line`, where it goes on to the next line or to the end of the map. -/
def nextSparseMapLine (r : Reader) : Except Error Reader :=
  if 0 < r.sparseMapEntries then
    .ok { r with
      sparseMapEntries := r.sparseMapEntries - 1, state := .sparseMapLine .offset }
  else r.finishSparseMap

/-- `Reader::on_sparse_map_line`. -/
def onSparseMapLine (r : Reader) (field : SparseMapField) : Except Error Reader :=
  let line := r.line
  let r := { r with sparseMapLeft := r.sparseMapLeft - line.length, line := [] }
  if line.head? = some (b '#') then .ok r
  else
    let digits := if line.getLast? = some (b '\n') then line.dropLast else line
    if ¬ digits.all isAsciiDigit then .error .malformedSparseMap
    else
      let value := parseDecimal digits
      match field with
      | .count => { r with sparseMapEntries := value }.nextSparseMapLine
      | .offset => .ok { r with sparseMapOffset := value, state := .sparseMapLine .size }
      | .size =>
        if sparseBlockFits r.sparseMapOffset value then
          (r.addSparseBlock r.sparseMapOffset value false).nextSparseMapLine
        else .error .malformedSparseMap

end Soup.Tar.Reader
