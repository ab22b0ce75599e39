import Soup.SourceMap.Window

/-!
# The mappings text

The text of a source map's `mappings`: `append_mapping_to_buffer` writes a segment of it,
`append_vlq_to` writes a whole blob, and `mapping::parse` reads it.

A round of the loop of `parse` passes the `;` at the position and reads a segment. Where the text
is long, a vectorised kernel reads a part of it before; it is a parameter, with the state and the
position at which it hands over. The lines are added up without wrapping, since a text is far
shorter than `i32::MAX`.
-/

namespace Soup.SourceMap

open List Nat

/-! ## Writing -/

/-- `i32::saturating_sub`. -/
def saturatingSub (x y : ℤ) : ℤ := max i32Min (min i32Max (x - y))

/-- `buffer.last()`, and 0 for an empty buffer. -/
def lastByte (buffer : Bytes) : UInt8 := buffer.getLast?.getD 0

def appendMappingToBuffer (buffer : Bytes) (lastByte : UInt8) (prev current : SourceMapState) :
    Bytes :=
  let needsComma := lastByte ≠ 0 ∧ lastByte ≠ b ';' ∧ lastByte ≠ b '"'
  buffer ++ (if needsComma then [b ','] else []) ++
    encode (saturatingSub current.generatedColumn prev.generatedColumn) ++
    encode (saturatingSub current.sourceIndex prev.sourceIndex) ++
    encode (saturatingSub current.originalLine prev.originalLine) ++
    encode (saturatingSub current.originalColumn prev.originalColumn)

/-- What `append_vlq_to` carries from mapping to mapping. -/
structure Emitter where
  prev : SourceMapState := {}
  generatedLine : ℤ := 0
  out : Bytes := []
deriving DecidableEq, Repr

def emitVlq (self : Emitter) (state : SourceMapState) : Emitter :=
  let self : Emitter :=
    if self.generatedLine < state.generatedLine then
      { out := self.out ++
          replicate (state.generatedLine - self.generatedLine).toNat (b ';')
        prev := { self.prev with generatedColumn := 0 }
        generatedLine := state.generatedLine }
    else self
  { self with
    out := appendMappingToBuffer self.out (lastByte self.out) self.prev state
    prev := state }

/-- `append_vlq_to` into an empty buffer. -/
def appendVlqTo (blob : Bytes) : Bytes := ((Blob.states blob).foldl emitVlq {}).out

/-! ## Parsing -/

structure ParseOptions where
  allowNames : Bool := false
  sort : Bool := false
deriving DecidableEq, Repr

/-- The errors of `parse`, but for allocation. -/
inductive ParseError where
  | missingGeneratedColumnValue
  | invalidGeneratedColumnValue
  | invalidSourceIndexDelta
  | invalidSourceIndexValue
  | missingOriginalLine
  | invalidOriginalLineValue
  | missingOriginalColumnValue
  | invalidOriginalColumnValue
  | invalidNameIndexDelta
deriving DecidableEq, Repr

structure ParseFail where
  err : ParseError
  start : ℤ
deriving DecidableEq, Repr

/-- The variables of `parse`, and the list. -/
structure ParseState where
  generated : LineColumnOffset := {}
  original : LineColumnOffset := {}
  nameIndex : ℤ := 0
  sourceIndex : ℤ := 0
  needsSort : Bool := false
  hasNames : Bool := false
  mapping : List Mapping := []
deriving DecidableEq, Repr

section

variable (total : ℕ) (sourcesCount : ℤ) (options : ParseOptions)

/-- The `Loc` of an error, the offset of what remains of the `total` bytes. -/
def locStart (remain : Bytes) : ℤ := min (total - remain.length : ℕ) i32Max

/-- Reads a field and adds it to `absolute`. `missing` is the error of a field that cannot be read,
`invalid` the error of a sum that is not `ok`. Returns the delta, the sum and what remains. -/
def accumulate (missing invalid : ParseError) (ok : ℤ → Bool) (absolute : ℤ) (remain : Bytes) :
    Except ParseFail (ℤ × ℤ × Bytes) :=
  let delta := decode remain 0
  let sum := wrappingAdd absolute delta.value
  if delta.start = 0 then .error { err := missing, start := locStart total remain }
  else if ¬ok sum then .error { err := invalid, start := locStart total remain }
  else .ok (delta.value, sum, remain.drop delta.start)

def notNegative (x : ℤ) : Bool := 0 ≤ x

def isSource (x : ℤ) : Bool := 0 ≤ x && x < sourcesCount

/-- The end of a segment with an original position: its name, if there is one, and the comma. -/
def parseName (s : ParseState) (remain : Bytes) : Except ParseFail (ParseState × Bytes) :=
  match remain with
  | [] => .ok (s, [])
  | c :: cs =>
    if c = b ',' then .ok (s, cs)
    else if c = b ';' then .ok (s, remain)
    else
      let delta := decode remain 0
      if delta.start = 0 then
        .error { err := .invalidNameIndexDelta, start := locStart total remain }
      else
        let rest := remain.drop delta.start
        .ok (if options.allowNames then
            { s with nameIndex := wrappingAdd s.nameIndex delta.value, hasNames := true }
          else s,
          if rest.head? = some (b ',') then rest.drop 1 else rest)

/-- `mapping.append(..)`. -/
def ParseState.append (s : ParseState) : ParseState :=
  { s with
    mapping := s.mapping ++
      [{ generated := s.generated
         original := s.original
         sourceIndex := s.sourceIndex
         nameIndex := if s.hasNames then s.nameIndex else -1 }] }

/-- The fields of a segment behind the generated column. -/
def parseOriginal (s : ParseState) (remain : Bytes) : Except ParseFail (ParseState × Bytes) := do
  let (_, sourceIndex, remain) ← accumulate total .invalidSourceIndexDelta
    .invalidSourceIndexValue (isSource sourcesCount) s.sourceIndex remain
  let (_, lines, remain) ← accumulate total .missingOriginalLine .invalidOriginalLineValue
    notNegative s.original.lines remain
  let (_, columns, remain) ← accumulate total .missingOriginalColumnValue
    .invalidOriginalColumnValue notNegative s.original.columns remain
  let (s, remain) ← parseName total options
    { s with sourceIndex, original := { lines, columns } } remain
  .ok (s.append, remain)

/-- A segment. With one field it has no original position and is ignored. -/
def parseSegment (s : ParseState) (remain : Bytes) : Except ParseFail (ParseState × Bytes) := do
  let (delta, columns, remain) ← accumulate total .missingGeneratedColumnValue
    .invalidGeneratedColumnValue notNegative s.generated.columns remain
  let s : ParseState := { s with
    needsSort := s.needsSort || delta < 0
    generated.columns := columns }
  match remain with
  | [] => .ok (s, [])
  | c :: cs =>
    if c = b ',' then .ok (s, cs)
    else if c = b ';' then .ok (s, c :: cs)
    else parseOriginal total sourcesCount options s (c :: cs)

/-- The `;` at the position, however many they are. -/
def ParseState.newlines (s : ParseState) (n : ℕ) : ParseState :=
  { s with generated := { lines := s.generated.lines + n, columns := 0 } }

/-- A round of the loop of `parse`. -/
def parseRound (s : ParseState) (remain : Bytes) : Except ParseFail (ParseState × Bytes) :=
  if remain.head? = some (b ';') then
    let semicolons := (remain.takeWhile (· == b ';')).length
    let remain := remain.drop semicolons
    let s := s.newlines semicolons
    if remain = [] then .ok (s, []) else parseSegment total sourcesCount options s remain
  else parseSegment total sourcesCount options s remain

/-- The loop of `parse`. A round takes a byte at least. -/
def parseLoop : ℕ → ParseState → Bytes → Except ParseFail ParseState
  | 0, s, _ => .ok s
  | _ + 1, s, [] => .ok s
  | fuel + 1, s, c :: cs =>
    match parseRound total sourcesCount options s (c :: cs) with
    | .error fail => .error fail
    | .ok (s, remain) => parseLoop fuel s remain

/-- The loop from the state `s` on, over all that remains. -/
def parseFrom (s : ParseState) (remain : Bytes) : Except ParseFail ParseState :=
  parseLoop total sourcesCount options remain.length s remain

end

/-- The order of `SortContext`, as `≤`; the sort is stable. -/
def Mapping.lessOrEqual (m n : Mapping) : Bool :=
  m.generated.lines < n.generated.lines ||
    (m.generated.lines == n.generated.lines && m.generated.columns ≤ n.generated.columns)

/-- `parse_simd`: the state at which it hands over, and `resume_at`. -/
abbrev Kernel := Bytes → ℤ → ParseOptions → ParseState × ℕ

/-- The kernel hands over at a state that the loop passes. -/
def Kernel.Resumes (kernel : Kernel) : Prop :=
  ∀ bytes sourcesCount options, parseFrom bytes.length sourcesCount options
      (kernel bytes sourcesCount options).1 (bytes.drop (kernel bytes sourcesCount options).2) =
    parseFrom bytes.length sourcesCount options {} bytes

/-- `SIMD_THRESHOLD`. -/
def simdThreshold : ℕ := 128

/-- `mapping::parse`, with its list of mappings. -/
def parse (kernel : Kernel) (bytes : Bytes) (sourcesCount : ℤ) (options : ParseOptions) :
    Except ParseFail (List Mapping) :=
  let (s, resumeAt) :=
    if bytes.length ≥ simdThreshold then kernel bytes sourcesCount options else ({}, 0)
  match parseFrom bytes.length sourcesCount options s (bytes.drop resumeAt) with
  | .error fail => .error fail
  | .ok s =>
    .ok (if s.needsSort && options.sort then s.mapping.mergeSort Mapping.lessOrEqual
      else s.mapping)

/-!
## Texts and positions

A mappings text is a sequence of `;` and of segments of one, four or five fields, with a `,` between
two segments (`render`). Reading it moves a position; the mappings are the positions behind the
segments with an original position (`positions`). `append_mapping_to_buffer` adds a segment to a
text (`appendMappingToBuffer_render`).
-/

/-! ### Tokens -/

inductive Token where
  | newline
  | segment (fields : List Bytes)
deriving DecidableEq, Repr

/-- The comma in front of a segment that follows a segment. -/
def separator : List Token → Bytes
  | .segment _ :: _ => [b ',']
  | _ => []

def render : List Token → Bytes
  | [] => []
  | .newline :: ts => b ';' :: render ts
  | .segment fields :: ts => fields.flatten ++ (separator ts ++ render ts)

/-- One, four or five fields. -/
structure IsSegment (fields : List Bytes) : Prop where
  isField : ∀ field ∈ fields, IsField field
  length : fields.length = 1 ∨ fields.length = 4 ∨ fields.length = 5

/-- A text of segments. -/
def IsText (ts : List Token) : Prop := ∀ fields, .segment fields ∈ ts → IsSegment fields

/-- The position behind a segment. -/
def advance (p : SourceMapState) : List Bytes → SourceMapState
  | [] => p
  | column :: source :: line :: originalColumn :: _ =>
    { p with
      generatedColumn := p.generatedColumn + fieldValue column
      sourceIndex := p.sourceIndex + fieldValue source
      originalLine := p.originalLine + fieldValue line
      originalColumn := p.originalColumn + fieldValue originalColumn }
  | column :: _ => { p with generatedColumn := p.generatedColumn + fieldValue column }

def Token.advance (p : SourceMapState) : Token → SourceMapState
  | .newline => { p with generatedLine := p.generatedLine + 1, generatedColumn := 0 }
  | .segment fields => SourceMap.advance p fields

/-- Has the segment an original position? -/
def isMapping (fields : List Bytes) : Bool := 4 ≤ fields.length

/-- The mappings of a text, read from the position `p` on. -/
def positions (p : SourceMapState) : List Token → List SourceMapState
  | [] => []
  | .newline :: ts => positions (Token.newline.advance p) ts
  | .segment fields :: ts =>
    (if isMapping fields then [advance p fields] else []) ++ positions (advance p fields) ts

/-- The position behind a text. -/
def endPosition (p : SourceMapState) (ts : List Token) : SourceMapState :=
  ts.foldl Token.advance p

/-- The coordinates behind a segment are in bounds. -/
structure InBounds (sourcesCount : ℤ) (fields : List Bytes) (p : SourceMapState) : Prop where
  generatedColumn : IsCoordinate p.generatedColumn
  sourceIndex : isMapping fields = true → IsCoordinate p.sourceIndex ∧ p.sourceIndex < sourcesCount
  originalLine : isMapping fields = true → IsCoordinate p.originalLine
  originalColumn : isMapping fields = true → IsCoordinate p.originalColumn

/-- The coordinates of a text stay in bounds. -/
def Readable (sourcesCount : ℤ) : SourceMapState → List Token → Prop
  | _, [] => True
  | p, .newline :: ts => Readable sourcesCount (Token.newline.advance p) ts
  | p, .segment fields :: ts =>
    InBounds sourcesCount fields (advance p fields) ∧
      Readable sourcesCount (advance p fields) ts

variable (p : SourceMapState)

theorem positions_append (ts ts' : List Token) :
    positions p (ts ++ ts') = positions p ts ++ positions (endPosition p ts) ts' := by
  induction ts generalizing p with
  | nil => rfl
  | cons t ts ih =>
    cases t with
    | newline => exact ih _
    | segment fields =>
      rw [cons_append, positions, positions, ih, append_assoc]
      rfl

variable {ts : List Token}

theorem readable_append {sourcesCount : ℤ} {p : SourceMapState} {ts' : List Token} :
    Readable sourcesCount p (ts ++ ts') ↔
      Readable sourcesCount p ts ∧ Readable sourcesCount (endPosition p ts) ts' := by
  induction ts generalizing p with
  | nil => exact ⟨fun h => ⟨trivial, h⟩, fun h => h.2⟩
  | cons t ts ih =>
    cases t with
    | newline => exact ih
    | segment fields =>
      rw [cons_append, Readable, Readable, ih, and_assoc]
      rfl

theorem endPosition_append (ts ts' : List Token) :
    endPosition p (ts ++ ts') = endPosition (endPosition p ts) ts' :=
  foldl_append

theorem IsText.append {ts' : List Token} (h : IsText ts) (h' : IsText ts') :
    IsText (ts ++ ts') := by
  intro fields hfields
  rcases mem_append.1 hfields with hfields | hfields
  · exact h fields hfields
  · exact h' fields hfields

variable (n : ℕ)

theorem isText_newlines : IsText (replicate n .newline) := by
  intro fields hfields
  cases eq_of_mem_replicate hfields

variable {fields : List Bytes}

theorem isText_cons (h : IsSegment fields) (hts : IsText ts) : IsText (.segment fields :: ts) := by
  intro fields' hfields
  rcases mem_cons.1 hfields with heq | hfields
  · cases heq
    exact h
  · exact hts fields' hfields

theorem isText_segment (h : IsSegment fields) :
    IsText [.segment fields] := isText_cons h (by simp [IsText])

/-! ### Texts one after the other -/

def endsInSegment (ts : List Token) : Bool :=
  match ts.getLast? with
  | some (.segment _) => true
  | _ => false

/-- The comma between two texts. -/
def joint (ts ts' : List Token) : Bytes := if endsInSegment ts then separator ts' else []

theorem render_append (ts ts' : List Token) :
    render (ts ++ ts') = render ts ++ (joint ts ts' ++ render ts') := by
  induction ts with
  | nil => rfl
  | cons t ts ih =>
    rcases ts with _ | ⟨u, ts⟩
    · cases t with
      | newline => rfl
      | segment fields =>
        change _ = fields.flatten ++ ([] ++ []) ++ (separator ts' ++ render ts')
        rw [append_nil, append_nil]
        rfl
    · have hjoint : joint (t :: u :: ts) ts' = joint (u :: ts) ts' := by
        unfold joint endsInSegment
        rw [getLast?_cons_cons]
      rw [hjoint]
      cases t with
      | newline =>
        rw [cons_append, render, ih]
        rfl
      | segment fields =>
        have hseparator : separator (u :: ts ++ ts') = separator (u :: ts) := by
          cases u <;> rfl
        rw [cons_append, render, hseparator, ih, render]
        simp only [append_assoc]

theorem lastByte_append (bytes : Bytes) {tail : Bytes} (h : tail ≠ []) :
    lastByte (bytes ++ tail) ∈ tail := by
  unfold lastByte
  rw [getLast?_append, getLast?_eq_some_getLast h]
  exact getLast_mem h

theorem IsSegment.flatten_ne_nil (h : IsSegment fields) : fields.flatten ≠ [] := by
  obtain ⟨hfields, hlength⟩ := h
  rcases fields with _ | ⟨field, fields⟩
  · simp at hlength
  · rw [flatten_cons]
    exact append_ne_nil_of_left_ne_nil (hfields field mem_cons_self).ne_nil _

/-- What may stand in front of a text. -/
def Opens (front : Bytes) : Prop := lastByte front = 0 ∨ lastByte front = b '"'

/-- The last byte says if a text ends in a segment. -/
theorem lastByte_render {front : Bytes} (hfront : Opens front) (hts : IsText ts) :
    endsInSegment ts = true ↔ lastByte (front ++ render ts) ≠ 0 ∧
      lastByte (front ++ render ts) ≠ b ';' ∧ lastByte (front ++ render ts) ≠ b '"' := by
  rcases eq_nil_or_concat ts with rfl | ⟨ts, t, rfl⟩
  · rw [render, append_nil]
    exact ⟨fun h => absurd h (by decide), fun h => hfront.elim (absurd · h.1) (absurd · h.2.2)⟩
  rw [concat_eq_append] at hts ⊢
  rw [render_append, ← append_assoc, ← append_assoc]
  unfold endsInSegment
  rw [getLast?_concat]
  cases t with
  | newline =>
    have hlast := lastByte_append (front ++ render ts ++ joint ts [.newline])
      (cons_ne_nil (b ';') [])
    rw [render, render, mem_singleton.1 hlast]
    exact ⟨fun h => absurd h (by decide), fun h => absurd rfl h.2.1⟩
  | segment fields =>
    have hsegment := hts fields (by simp)
    have hlast := lastByte_append (front ++ render ts ++ joint ts [.segment fields])
      hsegment.flatten_ne_nil
    obtain ⟨field, hfield, hmem⟩ := mem_flatten.1 hlast
    obtain ⟨-, h₁, h₂, h₃⟩ := (hsegment.isField field hfield).mem_ne hmem
    have hrender : render [.segment fields] = fields.flatten := by
      change fields.flatten ++ ([] ++ []) = _
      rw [append_nil, append_nil]
    rw [hrender]
    exact ⟨fun _ => ⟨h₃, h₁, h₂⟩, fun _ => rfl⟩

/-! ### Writing a segment -/

/-- The coordinates that the fields are added to are in bounds. -/
structure Bounded (p : SourceMapState) : Prop where
  generatedColumn : IsCoordinate p.generatedColumn
  sourceIndex : IsCoordinate p.sourceIndex
  originalLine : IsCoordinate p.originalLine
  originalColumn : IsCoordinate p.originalColumn

theorem bounded_zero : Bounded {} := ⟨by decide, by decide, by decide, by decide⟩

theorem Bounded.onLine {p : SourceMapState} (h : Bounded p) (line : ℤ) :
    Bounded { p with generatedLine := line } :=
  ⟨h.generatedColumn, h.sourceIndex, h.originalLine, h.originalColumn⟩

/-- The segment that leads from `prev` to `current`. -/
def fieldsBetween (prev current : SourceMapState) : List Bytes :=
  [encode (current.generatedColumn - prev.generatedColumn),
    encode (current.sourceIndex - prev.sourceIndex),
    encode (current.originalLine - prev.originalLine),
    encode (current.originalColumn - prev.originalColumn)]

variable {x y : ℤ}

theorem sub_bounds (hx : IsCoordinate x) (hy : IsCoordinate y) :
    i32Min < x - y ∧ x - y ≤ i32Max := by
  unfold IsCoordinate i32Max at *
  unfold i32Min
  omega

theorem isField_between (hx : IsCoordinate x) (hy : IsCoordinate y) :
    IsField (encode (x - y)) := by
  obtain ⟨h₁, h₂⟩ := sub_bounds hx hy
  exact isField_encode h₁.le h₂

variable {prev current : SourceMapState}

theorem isSegment_between (hprev : Bounded prev)
    (hcurrent : Bounded current) {names : List Bytes} (hnames : ∀ name ∈ names, IsField name)
    (hlen : names.length ≤ 1) : IsSegment (fieldsBetween prev current ++ names) where
  isField field hfield := by
    rcases mem_append.1 hfield with hfield | hfield
    · simp only [fieldsBetween, mem_cons, not_mem_nil, or_false] at hfield
      rcases hfield with rfl | rfl | rfl | rfl
      · exact isField_between hcurrent.generatedColumn hprev.generatedColumn
      · exact isField_between hcurrent.sourceIndex hprev.sourceIndex
      · exact isField_between hcurrent.originalLine hprev.originalLine
      · exact isField_between hcurrent.originalColumn hprev.originalColumn
    · exact hnames field hfield
  length := by
    simp only [fieldsBetween, length_append, length_cons, length_nil]
    omega

theorem saturatingSub_coordinates (hx : IsCoordinate x) (hy : IsCoordinate y) :
    saturatingSub x y = x - y := by
  obtain ⟨h₁, h₂⟩ := sub_bounds hx hy
  unfold saturatingSub
  omega

theorem advance_between (hprev : Bounded prev) (hcurrent : Bounded current) (names : List Bytes) :
    advance prev (fieldsBetween prev current ++ names) =
      { current with generatedLine := prev.generatedLine } := by
  have hfield : ∀ {x y : ℤ}, IsCoordinate x → IsCoordinate y →
      y + fieldValue (encode (x - y)) = x := by
    intro x y hx hy
    obtain ⟨h₁, h₂⟩ := sub_bounds hx hy
    rw [fieldValue_encode h₁ h₂]
    omega
  unfold fieldsBetween
  simp only [cons_append, advance]
  rw [hfield hcurrent.generatedColumn hprev.generatedColumn,
    hfield hcurrent.sourceIndex hprev.sourceIndex,
    hfield hcurrent.originalLine hprev.originalLine,
    hfield hcurrent.originalColumn hprev.originalColumn]

/-- The segment that is written behind a text, with what is written behind it. -/
theorem appendMappingToBuffer_render {front : Bytes} (hfront : Opens front) {ts : List Token}
    (hts : IsText ts) (hprev : Bounded prev)
    (hcurrent : Bounded current) (names : List Bytes) (ts' : List Token) :
    appendMappingToBuffer (front ++ render ts) (lastByte (front ++ render ts)) prev current ++
        (names.flatten ++ (separator ts' ++ render ts')) =
      front ++ render (ts ++ .segment (fieldsBetween prev current ++ names) :: ts') := by
  unfold appendMappingToBuffer
  rw [saturatingSub_coordinates hcurrent.generatedColumn hprev.generatedColumn,
    saturatingSub_coordinates hcurrent.sourceIndex hprev.sourceIndex,
    saturatingSub_coordinates hcurrent.originalLine hprev.originalLine,
    saturatingSub_coordinates hcurrent.originalColumn hprev.originalColumn]
  have hcomma : (if lastByte (front ++ render ts) ≠ 0 ∧ lastByte (front ++ render ts) ≠ b ';' ∧
      lastByte (front ++ render ts) ≠ b '"' then [b ','] else []) =
        joint ts (.segment (fieldsBetween prev current ++ names) :: ts') := by
    unfold joint
    simp only [← lastByte_render hfront hts]
    rfl
  rw [render_append, render]
  dsimp only
  rw [hcomma]
  simp only [fieldsBetween, cons_append, nil_append, flatten_cons, append_assoc]

theorem endsInSegment_newlines : endsInSegment (replicate n .newline) = false := by
  unfold endsInSegment
  cases n with
  | zero => rfl
  | succ n => rw [getLast?_replicate, if_neg (succ_ne_zero n)]

theorem endPosition_newlines :
    endPosition p (replicate n .newline) =
      if n = 0 then p
      else { p with generatedLine := p.generatedLine + n, generatedColumn := 0 } := by
  induction n generalizing p with
  | zero => rfl
  | succ n ih =>
    have hstep : endPosition p (replicate (n + 1) .newline) =
        endPosition (Token.newline.advance p) (replicate n .newline) := rfl
    rw [hstep, ih, if_neg (succ_ne_zero n)]
    split
    next hn =>
      subst hn
      rfl
    · unfold Token.advance
      rw [cast_succ, add_assoc, add_comm 1]

theorem render_newlines : render (replicate n .newline) = replicate n (b ';') := by
  induction n with
  | zero => rfl
  | succ n ih => rw [replicate_succ, render, ih, replicate_succ]

theorem positions_newlines : positions p (replicate n .newline) = [] := by
  induction n generalizing p with
  | zero => rfl
  | succ n ih => rw [replicate_succ, positions, ih]

theorem readable_newlines (sourcesCount : ℤ) (n : ℕ) (p : SourceMapState) :
    Readable sourcesCount p (replicate n .newline) := by
  induction n generalizing p with
  | zero => trivial
  | succ n ih => exact ih _

end Soup.SourceMap
