import Soup.Bytes

/-!
# Brace expansion

The lexer of `braces.rs` in ASCII mode, `calculate_expanded_amount`, and the two expanders behind
`expand`: `expand_flat` over a table of indices, and `expand_nested` over the tree that `Parser`
reads. A panic is `Stop.panic`: an index out of range, `unwrap` of `None`, a failed cast and
arithmetic that overflows.

A `Group` is told by the token that it begins at, which stands for its address: `bubble_up` and
`bubble_up_next` are the `cells` of the state.
-/

namespace Soup.Shell

/-! ## Characters -/

structure InputChar where
  char : UInt8
  escaped : Bool
deriving DecidableEq

/-- `ShellCharIter::eat`, on what is left of the source. -/
def eat : Bytes → Option (InputChar × Bytes)
  | [] => none
  | ch :: rest =>
    if ch ≠ b '\\' then some ({ char := ch, escaped := false }, rest)
    else
      match rest with
      | [] => none
      | ch :: rest => some ({ char := ch, escaped := true }, rest)

/-- What `eat` gives until there is nothing to eat. -/
def chars : Bytes → List InputChar
  | [] => []
  | ch :: rest =>
    if ch ≠ b '\\' then { char := ch, escaped := false } :: chars rest
    else
      match rest with
      | [] => []
      | ch :: rest => { char := ch, escaped := true } :: chars rest

theorem chars_eq_eat (input : Bytes) : chars input =
    match eat input with
    | none => []
    | some (c, rest) => c :: chars rest := by
  rcases input with _ | ⟨ch, rest⟩
  · rfl
  by_cases h : ch = b '\\'
  · rcases rest with _ | ⟨escaped, rest⟩ <;> simp [chars, eat, h]
  · rw [chars.eq_def]
    simp [eat, h]

/-! ## Tokens -/

/-- An entry of the expansion table: the tokens of a variant. -/
structure ExpansionVariant where
  start : ℕ
  stop : ℕ

/-- The entries of a group in the expansion table. -/
structure ExpansionVariants where
  idx : ℕ := 0
  stop : ℕ := 0
deriving DecidableEq

inductive Token
  | opening (variants : ExpansionVariants)
  | comma
  | text (txt : Bytes)
  | closing
  | eof
deriving DecidableEq

def Token.toText : Token → Bytes
  | .opening _ => [b '{']
  | .comma => [b ',']
  | .text txt => txt
  | .closing => [b '}']
  | .eof => []

/-- Why brace expansion stops. -/
inductive Stop
  | panic
  | unexpectedToken
  | tooManyBraces
  | outOfFuel
deriving DecidableEq

/-- `xs[i]`. -/
def index {α : Type} (xs : List α) (i : ℕ) : Except Stop α :=
  match xs[i]? with
  | some x => .ok x
  | none => .error .panic

/-- `xs[start..end]`. -/
def slice {α : Type} (xs : List α) (start stop : ℕ) : Except Stop (List α) :=
  if start ≤ stop ∧ stop ≤ xs.length then .ok ((xs.take stop).drop start) else .error .panic

/-- `u16::try_from(n).expect("int cast")`. -/
def u16 (n : ℕ) : Except Stop ℕ := if n < 2 ^ 16 then .ok n else .error .panic

theorem u16_eq {n : ℕ} (h : n < 2 ^ 16) : u16 n = .ok n := if_pos h

/-! ## The lexer -/

structure OpenBrace where
  tokIdx : ℕ
  hasComma : Bool := false

structure Lexer where
  tokens : List Token := []
  braceStack : List OpenBrace := []

def appendChar (tokens : List Token) (char : UInt8) : List Token :=
  match tokens.getLast? with
  | some (.text last) => tokens.dropLast ++ [.text (last ++ [char])]
  | _ => tokens ++ [.text [char]]

def replaceTokenWithString (tokens : List Token) (tokenIdx : ℕ) : Except Stop (List Token) := do
  let tok ← index tokens tokenIdx
  return tokens.set tokenIdx (.text tok.toText)

/-- The body of the loop of `tokenize_impl`. -/
def Lexer.step (self : Lexer) (input : InputChar) : Except Stop Lexer :=
  let literal : Lexer := { self with tokens := appendChar self.tokens input.char }
  if input.escaped then .ok literal
  else if input.char = b '{' then
    .ok {
      tokens := self.tokens ++ [.opening {}]
      braceStack := { tokIdx := self.tokens.length } :: self.braceStack }
  else if input.char = b '}' then
    match self.braceStack with
    | top :: braceStack =>
      if top.hasComma then .ok { tokens := self.tokens ++ [.closing], braceStack }
      else do
        -- A group with no comma of its own is literal text.
        let tokens ← replaceTokenWithString self.tokens top.tokIdx
        return { tokens := tokens ++ [.text [b '}']], braceStack }
    | [] => .ok literal
  else if input.char = b ',' then
    match self.braceStack with
    | top :: braceStack =>
      .ok {
        tokens := self.tokens ++ [.comma]
        braceStack := { top with hasComma := true } :: braceStack }
    | [] => .ok literal
  else .ok literal

/-- The loop of `rollback_braces`, from the token after the open brace on. -/
def rollbackFrom : ℕ → List Token → List Token
  | _, [] => []
  | braces + 1, tok :: rest =>
    match tok with
    | .opening _ => tok :: rollbackFrom (braces + 2) rest
    | .closing => tok :: rollbackFrom braces rest
    | _ => tok :: rollbackFrom (braces + 1) rest
  | 0, tok :: rest =>
    match tok with
    | .opening _ => tok :: rollbackFrom 1 rest
    | .eof => tok :: rollbackFrom 0 rest
    | _ => .text tok.toText :: rollbackFrom 0 rest

def rollbackBraces (tokens : List Token) (startingIdx : ℕ) : Except Stop (List Token) := do
  let tokens ← replaceTokenWithString tokens startingIdx
  return tokens.take (startingIdx + 1) ++ rollbackFrom 0 (tokens.drop (startingIdx + 1))

/-- The tokens that `flatten_tokens` has written. -/
structure Flattened where
  tokens : List Token := []
  braceCount : ℕ := 0
  containsNested : Bool := false

/-- The body of the loop of `flatten_tokens`. -/
def Flattened.step (self : Flattened) (tok : Token) : Except Stop Flattened := do
  let (braceCount, containsNested) ← match tok with
    | .opening _ =>
      .ok (self.braceCount + 1, self.containsNested || decide (self.braceCount + 1 > 1))
    | .closing =>
      if self.braceCount = 0 then .error .panic
      else .ok (self.braceCount - 1, self.containsNested)
    | _ => .ok (self.braceCount, self.containsNested)
  let tokens := match self.tokens.getLast?, tok with
    | some (.text prev), .text cur => self.tokens.dropLast ++ [.text (prev ++ cur)]
    | _, _ => self.tokens ++ [tok]
  return { tokens, braceCount, containsNested }

structure LexerOutput where
  tokens : List Token
  containsNested : Bool

/-- `NewLexer::tokenize` in ASCII mode. -/
def tokenize (src : Bytes) : Except Stop LexerOutput := do
  let lexer ← (chars src).foldlM Lexer.step {}
  let tokens ← lexer.braceStack.foldlM (fun tokens top => rollbackBraces tokens top.tokIdx)
    lexer.tokens
  let flattened ← tokens.foldlM Flattened.step {}
  return {
    tokens := flattened.tokens ++ [.eof]
    containsNested := flattened.containsNested }

/-! ## The number of results -/

structure StackEntry where
  segmentProduct : ℕ := 1
  accumulator : ℕ := 0

structure Amount where
  nestedBraceStack : List StackEntry := []
  variantCount : ℕ := 0

section Amount

variable (add mul : ℕ → ℕ → ℕ)

/-- The body of the loop of `calculate_expanded_amount`. -/
def Amount.step (self : Amount) : Token → Except Stop Amount
  | .opening _ => .ok { self with nestedBraceStack := {} :: self.nestedBraceStack }
  | .comma =>
    match self.nestedBraceStack with
    | top :: stack =>
      let top := { segmentProduct := 1, accumulator := add top.accumulator top.segmentProduct }
      .ok { self with nestedBraceStack := top :: stack }
    | [] => .error .panic
  | .closing =>
    match self.nestedBraceStack with
    | entry :: stack =>
      let total := add entry.accumulator entry.segmentProduct
      match stack with
      | parent :: stack =>
        let parent := { parent with segmentProduct := mul parent.segmentProduct total }
        .ok { self with nestedBraceStack := parent :: stack }
      | [] =>
        .ok {
          nestedBraceStack := []
          variantCount := if self.variantCount = 0 then total else mul self.variantCount total }
    | [] => .error .panic
  | _ => .ok self

def amountWith (tokens : List Token) : Except Stop ℕ := do
  let amount ← tokens.foldlM (Amount.step add mul) {}
  return amount.variantCount

end Amount

/-- `u32::MAX`. -/
def u32Max : ℕ := 2 ^ 32 - 1

/-- `u32::saturating_add`. -/
def saturatingAdd (m n : ℕ) : ℕ := min (m + n) u32Max

/-- `u32::saturating_mul`. -/
def saturatingMul (m n : ℕ) : ℕ := min (m * n) u32Max

def calculateExpandedAmount (tokens : List Token) : Except Stop ℕ :=
  amountWith saturatingAdd saturatingMul tokens

/-! ## The results -/

/-- The buffers and `out_key_counter`. -/
structure Buffers where
  out : List Bytes
  outKeyCounter : ℕ := 1

namespace Buffers

variable (self : Buffers)

/-- `out[out_key].extend_from_slice(txt)`. -/
def extend (outKey : ℕ) (txt : Bytes) : Except Stop Buffers := do
  let buffer ← index self.out outKey
  return { self with out := self.out.set outKey (buffer ++ txt) }

/-- `out[out_key].len()`. -/
def length (outKey : ℕ) : Except Stop ℕ := do
  let buffer ← index self.out outKey
  return buffer.length

/-- A new key, whose buffer gets what `out_key` had. -/
def fork (outKey length : ℕ) : Except Stop (ℕ × Buffers) := do
  let newKey := self.outKeyCounter
  let low ← slice self.out 0 newKey
  let buffer ← index low outKey
  let start ← slice buffer 0 length
  let self ← self.extend newKey start
  return (newKey, { self with outKeyCounter := newKey + 1 })

end Buffers

/-! ## Without nesting -/

structure BraceState where
  tokIdx : ℕ
  prevTokEnd : ℕ

structure Table where
  tokens : List Token
  table : List ExpansionVariant := []
  braceStack : List BraceState := []

/-- The body of the loop of `build_expansion_table`. -/
def Table.step (self : Table) (i : ℕ) : Except Stop Table := do
  match ← index self.tokens i with
  | .opening opened =>
    let tableIdx ← u16 self.table.length
    return {
      self with
      tokens := self.tokens.set i (.opening { opened with idx := tableIdx })
      braceStack := { tokIdx := i, prevTokEnd := i } :: self.braceStack }
  | .closing =>
    match self.braceStack with
    | top :: braceStack =>
      let table := self.table ++ [{ start := top.prevTokEnd + 1, stop := i }]
      match ← index self.tokens top.tokIdx with
      | .opening opened =>
        let stop ← u16 table.length
        return {
          tokens := self.tokens.set top.tokIdx (.opening { opened with stop })
          table, braceStack }
      | _ => return { self with table, braceStack }
    | [] => .error .panic
  | .comma =>
    match self.braceStack with
    | top :: braceStack =>
      return {
        self with
        table := self.table ++ [{ start := top.prevTokEnd + 1, stop := i }]
        braceStack := { top with prevTokEnd := i } :: braceStack }
    | [] => .error .panic
  | _ => return self

def buildExpansionTable (tokens : List Token) :
    Except Stop (List Token × List ExpansionVariant) := do
  if tokens.length > 2 ^ 16 - 1 then .error .unexpectedToken
  else
    let table ← (List.range tokens.length).foldlM Table.step { tokens }
    return (table.tokens, table.table)

section Flat

variable (tokens : List Token) (expansionTable : List ExpansionVariant)
  (recurse : Buffers → ℕ → ℕ → ℕ → ℕ → Except Stop Buffers)

/-- The loop over the variants in `expand_flat`, with the recursion as `recurse`. -/
def flatVariants (outKey depth skipOverIdx stop startingLen : ℕ) :
    ℕ → List ExpansionVariant → Buffers → Except Stop Buffers
  | _, [], out => .ok out
  | i, variant :: variants, out => do
    let (newKey, out) ← if i = 0 then .ok (outKey, out) else out.fork outKey startingLen
    let out ← recurse out newKey depth variant.start variant.stop
    let out ← recurse out newKey depth skipOverIdx stop
    flatVariants outKey depth skipOverIdx stop startingLen (i + 1) variants out

/-- The loop over the tokens in `expand_flat`. -/
def flatAtoms (outKey stop : ℕ) : ℕ → List Token → Buffers → Except Stop Buffers
  | _, [], out => .ok out
  | depth, atom :: atoms, out =>
    match atom with
    | .text txt => do
      let out ← out.extend outKey txt
      flatAtoms outKey stop depth atoms out
    | .closing =>
      if depth = 0 then .error .panic else flatAtoms outKey stop (depth - 1) atoms out
    | .opening expansionVariants =>
      if depth + 1 ≥ 2 ^ 8 then .error .panic
      else do
        let variants ← slice expansionTable expansionVariants.idx expansionVariants.stop
        let last ← index variants (variants.length - 1)
        let startingLen ← out.length outKey
        flatVariants recurse outKey (depth + 1) last.stop stop startingLen 0 variants out
    | _ => flatAtoms outKey stop depth atoms out

end Flat

/-- `expand_flat`; `fuel` bounds the depth of the recursion. -/
def expandFlat (tokens : List Token) (expansionTable : List ExpansionVariant) :
    ℕ → Buffers → ℕ → ℕ → ℕ → ℕ → Except Stop Buffers
  | 0, _, _, _, _, _ => .error .outOfFuel
  | fuel + 1, out, outKey, depth, start, stop =>
    if start ≥ tokens.length ∨ stop > tokens.length then .ok out
    else do
      let atoms ← slice tokens start stop
      flatAtoms expansionTable (expandFlat tokens expansionTable fuel) outKey stop depth atoms out

/-! ## The parser -/

mutual

inductive Atom
  | text (txt : Bytes)
  | expansion (variants : List Group)

inductive GroupAtoms
  | single (atom : Atom)
  | many (atoms : List Atom)

inductive Group
  | mk (id : ℕ) (atoms : GroupAtoms)

end

def Group.id : Group → ℕ
  | .mk id _ => id

def Group.atoms : Group → GroupAtoms
  | .mk _ atoms => atoms

def Group.ofList (id : ℕ) : List Atom → Group
  | [single] => .mk id (.single single)
  | many => .mk id (.many many)

namespace Parser

variable (tokens : List Token)

def peek (current : ℕ) : Except Stop Token := index tokens current

def isAtEnd (current : ℕ) : Except Stop Bool := do return (← peek tokens current) == .eof

def advance (current : ℕ) : Except Stop (Token × ℕ) := do
  let current := if ← isAtEnd tokens current then current else current + 1
  if current > 0 then return (← index tokens (current - 1), current)
  else return (← peek tokens current, current)

/-- `match_any`: consumes the token if it is one of those. -/
def matchAny (is : Token → Bool) (current : ℕ) : Except Stop (Bool × ℕ) := do
  if is (← peek tokens current) then
    let (_, current) ← advance tokens current
    return (true, current)
  else return (false, current)

def isClosingOrEof : Token → Bool
  | .closing => true
  | .eof => true
  | _ => false

mutual

def parseAtom : ℕ → ℕ → Except Stop (Option Atom × ℕ)
  | 0, _ => .error .outOfFuel
  | fuel + 1, current => do
    let (tok, current) ← advance tokens current
    match tok with
    | .opening _ =>
      let (variants, current) ← parseExpansion fuel current
      return (some (.expansion variants), current)
    | .text txt => return (some (.text txt), current)
    | .eof => return (none, current)
    | _ => .error .unexpectedToken

/-- `parse_expansion`, one round of the outer loop and what follows it. -/
def parseExpansion : ℕ → ℕ → Except Stop (List Group × ℕ)
  | 0, _ => .error .outOfFuel
  | fuel + 1, start => do
    let (group, close, current) ← parseGroup fuel start
    if close then return ([Group.ofList start group], current)
    else
      let (variants, current) ← parseExpansion fuel current
      return (Group.ofList start group :: variants, current)

/-- The inner loop of `parse_expansion`, with whether the group was the last. -/
def parseGroup : ℕ → ℕ → Except Stop (List Atom × Bool × ℕ)
  | 0, _ => .error .outOfFuel
  | fuel + 1, current => do
    let (close, current) ← matchAny tokens isClosingOrEof current
    if close then return ([], true, current)
    else
      let (comma, current) ← matchAny tokens (· == .comma) current
      if comma then return ([], false, current)
      else
        match ← parseAtom fuel current with
        | (some atom, current) =>
          let (group, close, current) ← parseGroup fuel current
          return (atom :: group, close, current)
        | (none, current) => return ([], true, current)

end

/-- The loop of `parse`. -/
def parseNodes : ℕ → ℕ → Except Stop (List Atom)
  | 0, _ => .error .outOfFuel
  | fuel + 1, current => do
    let (done, current) ← matchAny tokens (· == .eof) current
    if done then return []
    else
      match ← parseAtom tokens fuel current with
      | (some atom, current) => return atom :: (← parseNodes fuel current)
      | (none, _) => return []

end Parser

def maxBraceGroups : ℕ := 256

def Token.isOpening : Token → Bool
  | .opening _ => true
  | _ => false

def checkBraceGroupCount (tokens : List Token) : Except Stop Unit :=
  if (tokens.filter Token.isOpening).length > maxBraceGroups then .error .tooManyBraces else .ok ()

def Parser.parse (fuel : ℕ) (tokens : List Token) : Except Stop Group := do
  checkBraceGroupCount tokens
  let nodes ← parseNodes tokens fuel 0
  return Group.ofList 0 nodes

/-! ## With nesting -/

/-- The buffers, and `bubble_up` and `bubble_up_next` of the groups. -/
structure Nest where
  out : Buffers
  cells : ℕ → Option (Group × ℕ)

section Nested

variable (recurse : Nest → Group → ℕ → ℕ → Except Stop Nest)

/-- Goes up a level. -/
def bubbleUp (self : Nest) (root : Group) (outKey : ℕ) : Except Stop Nest :=
  match self.cells root.id with
  | some (bubbleUp, next) => recurse self bubbleUp outKey next
  | none => .ok self

/-- The loop over the variants in `expand_nested`, with the recursion as `recurse`. -/
def nestedVariants (root : Group) (next outKey length : ℕ) :
    ℕ → List Group → Nest → Except Stop Nest
  | _, [], self => .ok self
  | j, group :: groups, self => do
    let cells := Function.update self.cells group.id (some (root, next))
    let (newKey, out) ← if j = 0 then .ok (outKey, self.out) else self.out.fork outKey length
    let self ← recurse { out, cells } group newKey 0
    nestedVariants root next outKey length (j + 1) groups self

/-- The loop over the atoms of a group in `expand_nested`. -/
def nestedAtoms (root : Group) (outKey : ℕ) : ℕ → List Atom → Nest → Except Stop Nest
  | _, [], self => bubbleUp recurse self root outKey
  | i, atom :: atoms, self => do
    let i ← u16 i
    match atom with
    | .text txt =>
      let out ← self.out.extend outKey txt
      nestedAtoms root outKey (i + 1) atoms { self with out }
    | .expansion variants =>
      let length ← self.out.length outKey
      let next ← u16 (i + 1)
      nestedVariants recurse root next outKey length 0 variants self

end Nested

/-- `expand_nested`; `fuel` bounds the depth of the recursion. -/
def expandNested : ℕ → Nest → Group → ℕ → ℕ → Except Stop Nest
  | 0, _, _, _, _ => .error .outOfFuel
  | fuel + 1, self, root, outKey, start =>
    match root.atoms with
    | .single atom =>
      if start > 0 then bubbleUp (expandNested fuel) self root outKey
      else
        match atom with
        | .text txt => do
          let out ← self.out.extend outKey txt
          bubbleUp (expandNested fuel) { self with out } root outKey
        | .expansion variants => do
          let length ← self.out.length outKey
          nestedVariants (expandNested fuel) root 1 outKey length 0 variants self
    | .many atoms =>
      if start ≥ atoms.length then bubbleUp (expandNested fuel) self root outKey
      else nestedAtoms (expandNested fuel) root outKey start (atoms.drop start) self

/-! ## Expansion -/

/-- `expand`, with what it leaves in the buffers. -/
def expand (fuel : ℕ) (tokens : List Token) (out : List Bytes) (containsNested : Bool) :
    Except Stop (List Bytes) := do
  checkBraceGroupCount tokens
  if !containsNested then
    let (tokens, table) ← buildExpansionTable tokens
    let buffers ← expandFlat tokens table fuel { out } 0 0 0 tokens.length
    return buffers.out
  else
    let root ← Parser.parse fuel tokens
    let nest ← expandNested fuel { out := { out }, cells := fun _ => none } root 0 0
    return nest.out.out

end Soup.Shell
