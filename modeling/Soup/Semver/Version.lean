import Soup.Bytes

/-!
# Versions, comparators and ranges

`Version.rs`: a version is three `u64` numbers and a `Tag`. The source keeps a tag's strings
as offsets into the text they were read from, with a hash; here they are their bytes, so the
buffers that `order` takes next to each version are gone.

`Version.parse` reads a version with up to three parts, any of which may be a wildcard, from
the start of a slice and says how far it got (`ParseResult.len`). It never fails: what it could
not read clears `valid`. `Tag.parseWithPreCount` reads `-pre+build`.
-/

namespace Soup.Semver

/-- `Tag`: the prerelease and the build metadata, empty when there is none. -/
structure Tag where
  pre : Bytes := []
  build : Bytes := []
deriving DecidableEq, Repr, Inhabited

namespace Tag

/-- `-0`, the lowest prerelease. -/
def ZERO_PRE : Tag := { pre := [b '0'] }

def hasPre (t : Tag) : Bool := !t.pre.isEmpty

def hasBuild (t : Tag) : Bool := !t.build.isEmpty

/-- The loop of `order_pre` over the parts of both prereleases. -/
def orderParts : List Bytes → List Bytes → Ordering
  | [], [] => .eq
  | _ :: _, [] => .gt
  | [], _ :: _ => .lt
  | lhs :: lhss, rhs :: rhss =>
    match parseUnsigned lhs, parseUnsigned rhs with
    | some _, none => .lt
    | none, some _ => .gt
    | none, none => (order lhs rhs).then (orderParts lhss rhss)
    | some x, some y => (cmp x.toNat y.toNat).then (orderParts lhss rhss)

def orderPre (lhs rhs : Tag) : Ordering :=
  orderParts (splitDots lhs.pre) (splitDots rhs.pre)

def orderWithoutBuild (lhs rhs : Tag) : Ordering :=
  if lhs.pre ≠ [] ∧ rhs.pre ≠ [] then orderPre lhs rhs
  else order lhs.pre rhs.pre

/-- `Tag::order`, which reads the build metadata too. -/
def orderWithBuild (lhs rhs : Tag) : Ordering :=
  if lhs.pre ≠ [] ∧ rhs.pre ≠ [] then orderPre lhs rhs
  else (order lhs.pre rhs.pre).then (order lhs.build rhs.build)

end Tag

/-- `VersionType<u64>`. -/
structure Version where
  major : UInt64 := 0
  minor : UInt64 := 0
  patch : UInt64 := 0
  tag : Tag := {}
deriving DecidableEq, Repr, Inhabited

namespace Version

def isZero (v : Version) : Bool := v.patch == 0 && v.minor == 0 && v.major == 0

def orderWithoutTag (lhs rhs : Version) : Ordering :=
  if lhs.major < rhs.major then .lt
  else if lhs.major > rhs.major then .gt
  else if lhs.minor < rhs.minor then .lt
  else if lhs.minor > rhs.minor then .gt
  else if lhs.patch < rhs.patch then .lt
  else if lhs.patch > rhs.patch then .gt
  else if lhs.tag.hasPre then
    if !rhs.tag.hasPre then .lt else .eq
  else if rhs.tag.hasPre then .gt
  else .eq

def orderWithoutBuild (lhs rhs : Version) : Ordering :=
  if orderWithoutTag lhs rhs ≠ .eq then orderWithoutTag lhs rhs
  else lhs.tag.orderWithoutBuild rhs.tag

/-- `Version::order`. -/
def orderWithBuild (lhs rhs : Version) : Ordering :=
  if orderWithoutTag lhs rhs ≠ .eq then orderWithoutTag lhs rhs
  else lhs.tag.orderWithBuild rhs.tag

end Version

/-! ## Reading a tag -/

/-- `State` of `parse_with_pre_count`. -/
inductive TagState where
  | none
  | pre
  | build
deriving DecidableEq, Repr

/-- Is `c` a letter, a digit or a `.`? A `-` and a `+` have arms of their own. -/
def isTagCharacter (c : UInt8) : Bool :=
  isAsciiAlphabetic c || isAsciiDigit c || c == b '.'

/-- Where the loop of `parse_with_pre_count` stands. -/
structure TagScan where
  tag : Tag := {}
  state : TagState := .none
  start : ℕ := 0
  i : ℕ := 0
deriving Repr

/-- The `_` arm: the tag ends here. -/
def TagScan.stop (input : Bytes) (s : TagScan) : TagScan :=
  match s.state with
  | .none => s
  | .pre => { s with tag.pre := (input.take s.i).drop s.start, state := .none }
  | .build => { s with tag.build := (input.take s.i).drop s.start, state := .none }

/-- The `+` arm. -/
def TagScan.plus (input : Bytes) (initialPreCount : ℕ) (s : TagScan) : TagScan :=
  let tag :=
    if s.state = .pre ∨ s.state = .none ∧ 0 < initialPreCount then
      { s.tag with pre := (input.take s.i).drop s.start }
    else s.tag
  if s.state ≠ .build then { tag, state := .build, start := s.i + 1, i := s.i + 1 }
  else { s with tag, i := s.i + 1 }

/-- The `-` arm: inside a prerelease or build metadata, `-` is an identifier character. -/
def TagScan.dash (s : TagScan) : TagScan :=
  if s.state = .none then { s with state := .pre, start := s.i + 1, i := s.i + 1 }
  else { s with i := s.i + 1 }

/-- The loop of `parse_with_pre_count` over what is left of `input`. -/
def tagLoop (input : Bytes) (initialPreCount : ℕ) : Bytes → TagScan → TagScan
  | [], s => s
  | c :: cs, s =>
    if c = b '+' then tagLoop input initialPreCount cs (s.plus input initialPreCount)
    else if c = b '-' then tagLoop input initialPreCount cs s.dash
    else if isTagCharacter c then tagLoop input initialPreCount cs { s with i := s.i + 1 }
    else s.stop input

/-- `TagResult`. -/
structure TagResult where
  tag : Tag := {}
  len : ℕ := 0
deriving DecidableEq, Repr

/-- What `parse_with_pre_count` does after its loop. -/
def TagScan.finish (input : Bytes) (initialPreCount : ℕ) (s : TagScan) : TagResult :=
  let s := if s.state = .none ∧ 0 < initialPreCount then { s with state := .pre, start := 0 } else s
  match s.state with
  | .none => { tag := s.tag, len := s.i }
  | .pre => { tag := { s.tag with pre := (input.take s.i).drop s.start }, len := s.i }
  | .build => { tag := { s.tag with build := (input.take s.i).drop s.start }, len := s.i }

def Tag.parseWithPreCount (input : Bytes) (initialPreCount : ℕ) : TagResult :=
  let counted := input.takeWhile (· != b ' ')
  if counted.count (b '+') = 0 ∧ initialPreCount + counted.count (b '-') = 0 then {}
  else (tagLoop input initialPreCount input {}).finish input initialPreCount

def Tag.parse (input : Bytes) : TagResult := Tag.parseWithPreCount input 0

/-! ## Reading a version -/

/-- `query::token::Wildcard`. -/
inductive Wildcard where
  | none
  | major
  | minor
  | patch
deriving DecidableEq, Repr, Inhabited

/-- `Partial<u64>`: a version whose parts may be absent. -/
structure Partial where
  major : Option UInt64 := none
  minor : Option UInt64 := none
  patch : Option UInt64 := none
  tag : Tag := {}
deriving DecidableEq, Repr, Inhabited

def Partial.min (p : Partial) : Version where
  major := p.major.getD 0
  minor := p.minor.getD 0
  patch := p.patch.getD 0
  tag := p.tag

/-- `ParseResult<u64>`. -/
structure ParseResult where
  wildcard : Wildcard := .none
  valid : Bool := true
  /-- A number before any wildcard is above `u64::MAX`. -/
  overflow : Bool := false
  version : Partial := {}
  /-- Where parsing stopped. -/
  len : ℕ := 0
deriving DecidableEq, Repr, Inhabited

/-- `result.version.major = number` for the part 0, and so on. -/
def ParseResult.setPart (r : ParseResult) (part : ℕ) (number : Option UInt64) : ParseResult :=
  match part with
  | 0 => { r with version.major := number }
  | 1 => { r with version.minor := number }
  | _ => { r with version.patch := number }

/-- The bytes `Version::parse` skips first: whitespace and version separators. -/
def isLeading (c : UInt8) : Bool := isWhitespaceChar c || c == b 'v' || c == b '='

def isWildcardChar (c : UInt8) : Bool := c == b 'x' || c == b '*' || c == b 'X'

/-- The bytes at which the loop of `Version::parse` stops and steps back by one. -/
def isStepBack (c : UInt8) : Bool :=
  c == b '|' || c == b '^' || c == b '#' || c == b '&' || c == b '%' || c == b '!'

/-- Where the second pass of `Version::parse` stands: `rest` is `&input[i..]`, `prev` the byte
before it. -/
structure Scan where
  i : ℕ
  prev : Option UInt8
  rest : Bytes
  partI : ℕ := 0
  result : ParseResult := {}
deriving Repr

namespace Scan

/-- `i += n`. -/
def skip (s : Scan) (n : ℕ) : Scan :=
  { s with
    i := s.i + n
    prev := if n = 0 then s.prev else s.rest[n - 1]?
    rest := s.rest.drop n }

/-- `result.valid = false`. -/
def invalid (s : Scan) : Scan := { s with result.valid := false }

/-- A `.` is passed over where a part may follow. -/
def skipDot (s : Scan) : Scan :=
  if s.rest.head? = some (b '.') ∧ s.partI ≠ 3 then s.skip 1 else s

/-- The arm of a digit. `true` is `break`. -/
def number (s : Scan) : Scan × Bool :=
  let digits := s.rest.takeWhile isAsciiDigit
  let s := s.skip digits.length
  if s.partI < 3 then
    let number := parseUnsigned digits
    let s := if number.isNone then s.invalid else s
    if number.isNone ∧ s.result.wildcard = .none then
      ({ s with result.overflow := true }, true)
    else
      ({ s with result := s.result.setPart s.partI number, partI := s.partI + 1 }.skipDot, false)
  else (s.skipDot, false)

/-- The arm of `-` and `+`. -/
def tagged (s : Scan) (c : UInt8) : Scan :=
  let fewestParts := if c = b '+' then 1 else 2
  if s.partI < fewestParts ∧ s.result.wildcard = .none then s.invalid
  else
    let tagResult := Tag.parse s.rest
    { s with result.version.tag := tagResult.tag }.skip tagResult.len

/-- The first wildcard stands for the part it is in and those after it. -/
def setWildcard (s : Scan) : Scan :=
  if s.result.wildcard = .none then
    match s.partI with
    | 0 => { s with result.wildcard := .major, partI := 1 }
    | 1 => { s with result.wildcard := .minor, partI := 2 }
    | 2 => { s with result.wildcard := .patch, partI := 3 }
    | _ => s
  else s

/-- The arm of `x`, `*` and `X`. -/
def wild (s : Scan) : Scan :=
  let s := if s.prev.any isAsciiDigit then s.invalid else s
  let s := s.skip (s.rest.takeWhile isWildcardChar).length
  let s := if s.rest.head? = some (b '.') then s.skip 1 else s
  s.setWildcard

/-- The last arm, where `1.0.0rc.1` is read. -/
def other (s : Scan) (c : UInt8) : Scan :=
  if s.result.wildcard = .none ∧ 2 ≤ s.partI ∧ isAsciiAlphabetic c then
    let tagResult := Tag.parseWithPreCount s.rest 1
    { s with result.version.tag := tagResult.tag }.skip tagResult.len
  else s.invalid

/-- One round of the second pass at the byte `c`. `true` is `break`. -/
def step (s : Scan) (c : UInt8) : Scan × Bool :=
  if c = b ' ' then (s, true)
  else if isStepBack c then ({ s with i := s.i - 1 }, true)
  else if isAsciiDigit c then s.number
  else if c = b '.' then (s.invalid, true)
  else if c = b '-' ∨ c = b '+' then (s.tagged c, true)
  else if isWildcardChar c then (s.wild, false)
  else (s.other c, true)

/-- The second pass. Each round takes a byte at least, so `fuel` is the number of bytes. -/
def loop : ℕ → Scan → Scan
  | 0, s => s
  | fuel + 1, s =>
    match s.rest with
    | [] => s
    | c :: _ =>
      match s.step c with
      | (s, true) => s
      | (s, false) => loop fuel s

/-- What `Version::parse` does after the second pass. -/
def finish (s : Scan) : ParseResult :=
  let result :=
    if s.result.wildcard = .none then
      match s.partI with
      | 0 => { s.result with valid := false, wildcard := .major }
      | 1 => { s.result with wildcard := .minor }
      | 2 => { s.result with wildcard := .patch }
      | _ => s.result
    else s.result
  { result with len := s.i }

end Scan

def Version.parse (input : Bytes) : ParseResult :=
  if input.isEmpty then { valid := false }
  else
    let i := (input.takeWhile isLeading).length
    if i = input.length then { valid := false, wildcard := .major, len := i }
    else
      (Scan.loop input.length
        { i, prev := if i = 0 then none else input[i - 1]?, rest := input.drop i }).finish

/-!
## Comparators and ranges

`SemverRange.rs`: a comparator is an operator and a version, a range is up to two of them. The
constructors that desugar a partial version fall back to another bound where a number would go
past `u64::MAX`.
-/

inductive Op where
  | unset
  | eql
  | lt
  | lte
  | gt
  | gte
deriving DecidableEq, Repr, Inhabited

structure Comparator where
  op : Op := .unset
  version : Version := {}
deriving DecidableEq, Repr, Inhabited

namespace Comparator

/-- `<0.0.0-0`, which no version satisfies. -/
def nullSet : Comparator := { op := .lt, version := { tag := .ZERO_PRE } }

/-- `< {major+1}.0.0-0`. -/
def ltNextMajor (major : UInt64) : Comparator :=
  match checkedAddOne major with
  | some m => { op := .lt, version := { major := m, tag := .ZERO_PRE } }
  | none =>
    { op := .lte
      version := { major := .ofNat u64Max, minor := .ofNat u64Max, patch := .ofNat u64Max } }

/-- `< {major}.{minor+1}.0-0`. -/
def ltNextMinor (major minor : UInt64) : Comparator :=
  match checkedAddOne minor with
  | some m => { op := .lt, version := { major, minor := m, tag := .ZERO_PRE } }
  | none => { op := .lte, version := { major, minor := .ofNat u64Max, patch := .ofNat u64Max } }

/-- `< {major}.{minor}.{patch+1}-0`. -/
def ltNextPatch (major minor patch : UInt64) : Comparator :=
  match checkedAddOne patch with
  | some p => { op := .lt, version := { major, minor, patch := p, tag := .ZERO_PRE } }
  | none => { op := .lte, version := { major, minor, patch := .ofNat u64Max } }

/-- `>= {major+1}.0.0` with the tag `tag`; matches nothing on overflow. -/
def gteNextMajor (major : UInt64) (tag : Tag) : Comparator :=
  match checkedAddOne major with
  | some m => { op := .gte, version := { major := m, tag } }
  | none => nullSet

/-- `>= {major}.{minor+1}.0`, or the next major on overflow. -/
def gteNextMinor (major minor : UInt64) (tag : Tag) : Comparator :=
  match checkedAddOne minor with
  | some m => { op := .gte, version := { major, minor := m, tag } }
  | none => gteNextMajor major tag

def satisfies (c : Comparator) (version : Version) : Bool :=
  match version.orderWithoutBuild c.version with
  | .eq => c.op == .lte || c.op == .gte || c.op == .eql
  | .gt => c.op == .gt || c.op == .gte
  | .lt =>
    match c.op with
    -- `>=0.0.0` matches any version, so `0.0.0-a` satisfies it
    | .gte => c.version.isZero && !c.version.tag.hasPre
    | op => op == .lt || op == .lte

end Comparator

structure Range where
  left : Comparator := {}
  right : Comparator := {}
deriving DecidableEq, Repr, Inhabited

namespace Range

/-- `floor` is the tag of the lower bound. -/
def initWildcard (version : Version) (wildcard : Wildcard) (floor : Tag) : Range :=
  match wildcard with
  | .none => { left := { op := .eql, version } }
  | .major => { left := { op := .gte, version := { tag := floor } } }
  | .minor =>
    { left := .ltNextMajor version.major
      right := { op := .gte, version := { major := version.major, tag := floor } } }
  | .patch =>
    { left := .ltNextMinor version.major version.minor
      right :=
        { op := .gte
          version := { major := version.major, minor := version.minor, tag := floor } } }

def hasLeft (r : Range) : Bool := r.left.op != .unset

def hasRight (r : Range) : Bool := r.right.op != .unset

def satisfies (r : Range) (version : Version) : Bool :=
  if !r.hasLeft then true
  else if !r.left.satisfies version then false
  else if r.hasRight && !r.right.satisfies version then false
  else true

/-- Does `version` have the `major.minor.patch` of the comparator's prerelease? -/
def preMatches (c : Comparator) (version : Version) : Bool :=
  c.version.tag.hasPre && version.patch == c.version.patch && version.minor == c.version.minor
    && version.major == c.version.major

/-- Also returns what `pre_matched` is afterwards. -/
def satisfiesPre (r : Range) (version : Version) (preMatched : Bool) : Bool × Bool :=
  if !r.hasLeft then (true, preMatched)
  else
    let preMatched := preMatched || preMatches r.left version ||
      (r.hasRight && preMatches r.right version)
    if !r.left.satisfies version then (false, preMatched)
    else if r.hasRight && !r.right.satisfies version then (false, preMatched)
    else (true, preMatched)

end Range

end Soup.Semver
