import Soup.Semver.Version

/-!
# Queries and the range parser

`SemverQuery.rs`: a `Query` is a chain of ranges that all have to hold, a `Group` a list of
queries of which one has to. The source links them with `next` pointers and keeps a pointer to
the last node of each list, where it appends; here the nodes after the first are a list and
appending is at its end.

`scan` is the loop of `parse_with`, one `Parser.step` a round. The only early return is the one
for a number that does not fit, which is `none` here and the null set in `parseWith`.
-/

namespace Soup.Semver

/-- The chain of AND ranges: `range` and those of its `next` nodes. -/
structure Query where
  range : Range := {}
  next : List Range := []
deriving DecidableEq, Repr, Inhabited

namespace Query

/-- All the ranges of the chain. -/
def ranges (q : Query) : List Range := q.range :: q.next

/-- The version when this chain is one `=version` comparator. -/
def exactVersion (q : Query) : Option Version :=
  if q.next.isEmpty && q.range.left.op == .eql && !q.range.hasRight then some q.range.left.version
  else none

def satisfies (q : Query) (version : Version) : Bool :=
  q.ranges.all fun r => r.satisfies version

/-- The loop of `Query::satisfies_pre`. -/
def satisfiesPreLoop (version : Version) : List Range → Bool → Bool × Bool
  | [], preMatched => (true, preMatched)
  | r :: rs, preMatched =>
    match r.satisfiesPre version preMatched with
    | (false, preMatched) => (false, preMatched)
    | (true, preMatched) => satisfiesPreLoop version rs preMatched

def satisfiesPre (q : Query) (version : Version) (preMatched : Bool) : Bool × Bool :=
  satisfiesPreLoop version q.ranges preMatched

/-- `List::and_range`. -/
def andRange (q : Query) (range : Range) : Query :=
  if !q.range.hasLeft && !q.range.hasRight then { q with range }
  else { q with next := q.next ++ [range] }

end Query

/-- `Flags`. -/
structure Flags where
  build : Bool := false
  pre : Bool := false
  skipped : Bool := false
deriving DecidableEq, Repr, Inhabited

/-- The OR'd queries: `head` and those of its `next` nodes. -/
structure Group where
  head : Query := {}
  next : List Query := []
  flags : Flags := {}
deriving DecidableEq, Repr, Inhabited

namespace Group

/-- The AND chains that are OR'd together. -/
def alternatives (g : Group) : List Query := g.head :: g.next

def fromComparator (left : Comparator) : Group := { head := { range := { left } } }

/-- A group that no version satisfies. -/
def nullSet : Group := fromComparator .nullSet

/-- Appends to the last query. -/
def andRange (g : Group) (range : Range) : Group :=
  match g.next.getLast? with
  | none => { g with head := g.head.andRange range }
  | some last => { g with next := g.next.dropLast ++ [last.andRange range] }

def orRange (g : Group) (range : Range) : Group :=
  if g.next.isEmpty && g.head.next.isEmpty && !g.head.range.hasLeft then
    { g with head.range := range }
  else { g with next := g.next ++ [{ range }] }

/-- `List::satisfies`. -/
def listSatisfies (g : Group) (version : Version) : Bool :=
  g.alternatives.any fun q => q.satisfies version

/-- `List::satisfies_pre`. -/
def listSatisfiesPre (g : Group) (version : Version) : Bool :=
  g.alternatives.any fun q =>
    let (satisfied, preMatched) := q.satisfiesPre version false
    satisfied && preMatched

def satisfies (g : Group) (version : Version) : Bool :=
  if version.tag.hasPre then g.listSatisfiesPre version else g.listSatisfies version

/-- True when `parse` found no comparator at all. -/
def isEmpty (g : Group) : Bool :=
  g.next.isEmpty && g.head.next.isEmpty && !g.head.range.hasLeft

end Group

/-! ## Tokens -/

inductive TokenTag where
  | none
  | gt
  | gte
  | lt
  | lte
  | version
  | tilda
  | caret
deriving DecidableEq, Repr, Inhabited

structure Token where
  tag : TokenTag := .none
  wildcard : Wildcard := .none
deriving DecidableEq, Repr, Inhabited

namespace Token

/-- The arm of `^` in `to_range`. -/
def caretRange (parsed : ParseResult) (floor : Tag) : Range :=
  let version := parsed.version
  match version.major with
  | none => if parsed.valid then .initWildcard version.min .major floor else {}
  | some major =>
    match version.minor with
    | none =>
      { left := { op := .gte, version := { major, tag := floor } }, right := .ltNextMajor major }
    | some minor =>
      match version.patch with
      | none =>
        let left : Comparator := { op := .gte, version := { major, minor, tag := floor } }
        if major = 0 then { left, right := .ltNextMinor 0 minor }
        else { left, right := .ltNextMajor major }
      | some patch =>
        if major = 0 then
          let tag := if version.tag.hasPre then version.tag
            else { version.tag with pre := floor.pre }
          { left := { op := .gte, version := { major, minor, patch, tag } }
            right := if minor = 0 then .ltNextPatch 0 0 patch else .ltNextMinor 0 minor }
        else
          { left := { op := .gte, version := { major, minor, patch, tag := version.tag } }
            right := .ltNextMajor major }

/-- The arm of `~` in `to_range`. -/
def tildaRange (parsed : ParseResult) (floor : Tag) : Range :=
  let version := parsed.version
  match version.major with
  | none => if parsed.valid then .initWildcard version.min .major floor else {}
  | some major =>
    match version.minor with
    | none => { left := { op := .gte, version := { major } }, right := .ltNextMajor major }
    | some minor =>
      { left :=
          match version.patch with
          | none => { op := .gte, version := { major, minor } }
          | some patch => { op := .gte, version := { major, minor, patch, tag := version.tag } }
        right := .ltNextMinor major minor }

/-- What `to_range` does for `>`, `>=`, `<` and `<=`. -/
def xRange (op : Op) (wildcard : Wildcard) (parsed : ParseResult) (floor : Tag) : Range :=
  let version := parsed.version
  let major := version.major.getD 0
  let minor := version.minor.getD 0
  let firstOfPartial (tag : Tag) : Comparator := { op, version := { major, minor, tag } }
  match op, wildcard with
  | op, .none => { left := { op, version := version.min } }
  | op, .major =>
    if (op = .gt ∨ op = .lt) ∧ parsed.valid then { left := .nullSet }
    -- an operator before text that is not a version, such as `>latest`, also gets here
    else .initWildcard version.min .major floor
  | .gte, _ => { left := firstOfPartial floor }
  | .lt, _ => { left := firstOfPartial .ZERO_PRE }
  | .gt, .minor => { left := .gteNextMajor major floor }
  | .gt, .patch => { left := .gteNextMinor major minor floor }
  | _, .minor => { left := .ltNextMajor major }
  | _, .patch => { left := .ltNextMinor major minor }

/-- `floor` is the tag of a lower bound that is derived instead of written. The source's
`TokenTag::None` is unreachable. -/
def toRange (token : Token) (parsed : ParseResult) (floor : Tag) : Range :=
  match token.tag with
  | .caret => caretRange parsed floor
  | .tilda => tildaRange parsed floor
  | .none => {}
  | .version =>
    if token.wildcard ≠ .none then .initWildcard parsed.version.min token.wildcard floor
    else { left := { op := .eql, version := parsed.version.min } }
  | .gt => xRange .gt token.wildcard parsed floor
  | .gte => xRange .gte token.wildcard parsed floor
  | .lt => xRange .lt token.wildcard parsed floor
  | .lte => xRange .lte token.wildcard parsed floor

end Token

/-! ## The range parser -/

/-- `while i < input.len() && input[i] == c { i += 1 }`. -/
def skipByte (c : UInt8) (rest : Bytes) : Bytes := rest.dropWhile (· == c)

/-- The variables of `parse_with` that live across rounds; the cursor is the rest of the input. -/
structure Parser where
  list : Group := {}
  token : Token := {}
  isOr : Bool := false
  /-- Only spaces lie between the cursor and the last comparator, and that comparator is valid. -/
  afterComparator : Bool := false
deriving Repr

namespace Parser

def setSkipped (p : Parser) : Parser := { p with list.flags.skipped := true }

/-- The flags of a version that was read. -/
def setFlags (p : Parser) (parsed : ParseResult) : Parser :=
  let tag := parsed.version.tag
  { p with
    list.flags :=
      { build := p.list.flags.build || tag.hasBuild
        pre := p.list.flags.pre || tag.hasPre
        skipped := p.list.flags.skipped || !parsed.valid } }

/-- What the match on `input[i]` leaves: the parser, the rest of the input, `skip_round` and
`no_operator`. -/
structure Round where
  parser : Parser
  rest : Bytes
  skipRound : Bool := false
  noOperator : Bool := false

/-- The arm of `>` and `<`; `< =1` is `<=1`. -/
def angle (p : Parser) (c : UInt8) (cs : Bytes) : Round :=
  let rest := skipByte (b ' ') cs
  let orEqual := rest.head? = some (b '=')
  let tag : TokenTag :=
    if c = b '>' then if orEqual then .gte else .gt
    else if orEqual then .lte else .lt
  { parser := { p with token.tag := tag }
    rest := skipByte (b ' ') (if orEqual then rest.drop 1 else rest) }

/-- The match on `input[i]`, which is `c`. -/
def round (p : Parser) (c : UInt8) (cs : Bytes) : Round :=
  if c = b '>' ∨ c = b '<' then p.angle c cs
  else if c = b '=' ∨ c = b 'v' then
    { parser := { p with token.tag := .version }, rest := skipByte (b ' ') cs, noOperator := true }
  else if c = b '~' then
    { parser := { p with token.tag := .tilda }
      rest := skipByte (b ' ') (if cs.head? = some (b '>') then cs.drop 1 else cs) }
  else if c = b '^' then
    { parser := { p with token.tag := .caret }, rest := skipByte (b ' ') cs }
  else if isAsciiDigit c ∨ isWildcardChar c then
    { parser := { p with token.tag := .version }, rest := c :: cs, noOperator := true }
  else if c = b '|' then
    { parser := { p with token.tag := .none, isOr := true }
      rest := skipByte (b ' ') (skipByte (b '|') cs), skipRound := true }
  else if c = b '-' then
    { parser := p, rest := skipByte (b ' ') cs }
  else if c = b ' ' then
    { parser := p, rest := skipByte (b ' ') cs, skipRound := true }
  else
    { parser := { p with token.tag := .none, afterComparator := false }.setSkipped
      rest := cs.dropWhile fun c => c != b ' ' && c != b '|', skipRound := true }

/-- `i += strings::length_of_leading_whitespace_ascii(&input[i..])`. -/
def skipWhitespace (rest : Bytes) : Bytes := rest.dropWhile isWhitespaceChar

/-- The end of the lookahead, past the hyphen and a `v` or `=`. -/
def hyphenateAt (rest : Bytes) : Option Bytes :=
  match rest with
  | [] => none
  | _ =>
    match skipWhitespace rest with
    | [] => none
    | e :: es => if isAsciiDigit e ∨ isWildcardChar e then some (e :: es) else none

/-- The lookahead for `1.0.0 - 2.0.0`. Returns what is left at the second version. -/
def hyphenate (rest : Bytes) : Option Bytes :=
  if rest.head? = some (b ' ') ∨ rest.head? = some (b '-') then
    match skipWhitespace rest with
    | c :: cs =>
      if c ≠ b '-' then none
      else
        match skipWhitespace cs with
        | [] => none
        | d :: ds => hyphenateAt (if d = b 'v' ∨ d = b '=' then ds else d :: ds)
    | [] => none
  else none

/-- The range of `first - second`. -/
def hyphenRange (first second : ParseResult) (floor : Tag) : Range :=
  let version := first.version.min
  let secondVersion := second.version.min
  { left :=
      { op := .gte
        version := if version.tag.hasPre then version else { version with tag.pre := floor.pre } }
    right :=
      match second.wildcard with
      | .major => {}
      | .minor => .ltNextMajor secondVersion.major
      | .patch => .ltNextMinor secondVersion.major secondVersion.minor
      | .none =>
        if floor.hasPre && !secondVersion.tag.hasPre then
          .ltNextPatch secondVersion.major secondVersion.minor secondVersion.patch
        else { op := .lte, version := secondVersion } }

/-- What a round does with the range it has read. -/
def append (p : Parser) (range : Range) (afterComparator : Bool) : Parser :=
  { list := if p.isOr then p.list.orRange range else p.list.andRange range
    token := { p.token with wildcard := .none }
    isOr := false
    afterComparator }

/-- The part of a round after the match, where a version is read. `none` is a number that does
not fit. -/
def comparator (r : Round) (floor : Tag) : Option (Parser × Bytes) :=
  let parsed := Version.parse r.rest
  if parsed.overflow then none
  else
    let p : Parser := { r.parser.setFlags parsed with token.wildcard := parsed.wildcard }
    let rollback := r.rest.drop parsed.len
    match hyphenate rollback with
    | some rest =>
      -- malformed text starts an alternative so that it cannot narrow the range
      let p : Parser := { p with isOr := p.isOr || r.noOperator }
      let second := Version.parse rest
      if second.overflow then none
      else
        some ((p.setFlags second).append (hyphenRange parsed second floor) false,
          rest.drop (second.len + 1))
    | none =>
      let rest := rollback.drop 1
      let p : Parser := { p with
        isOr := p.isOr || (r.noOperator && !(p.afterComparator && parsed.valid)) }
      if p.token.tag = .none then
        -- no pending comparator, so the chunk is skipped
        some (setSkipped { p with token.wildcard := .none }, rest)
      else
        some (p.append (p.token.toRange parsed floor)
          (parsed.valid && rollback.head? = some (b ' ')), rest)

/-- A round of the loop of `parse_with` at the byte `c`. -/
def step (p : Parser) (floor : Tag) (c : UInt8) (cs : Bytes) : Option (Parser × Bytes) :=
  let r := p.round c cs
  if r.skipRound then some (r.parser, r.rest) else comparator r floor

/-- The loop of `parse_with`. Each round takes a byte at least, so `fuel` is the number of
bytes. -/
def scan (floor : Tag) : ℕ → Parser → Bytes → Option Group
  | 0, p, _ => some p.list
  | _ + 1, p, [] => some p.list
  | fuel + 1, p, c :: cs =>
    match p.step floor c cs with
    | none => none
    | some (p, rest) => scan floor fuel p rest

end Parser

def parseWith (input : Bytes) (floor : Tag) : Group :=
  (Parser.scan floor input.length {} input).getD .nullSet

/-- `query::parse`. -/
def parse (input : Bytes) : Group := parseWith input {}

/-- Did a number in `input` not fit into a `u64`? -/
def overflows (input : Bytes) : Bool := (Parser.scan {} input.length {} input).isNone

end Soup.Semver
