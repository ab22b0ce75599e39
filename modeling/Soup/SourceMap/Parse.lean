import Soup.SourceMap.Text

/-!
# Parsing a text

`parse` reads a text if its coordinates stay in bounds, and has its mappings (`parse_render`);
otherwise it fails (`parse_render_error`).
-/

namespace Soup.SourceMap

open List Nat

/-! ## What follows a segment -/

/-- `tail` is what stands behind a segment, and `rest` what is left when it was passed. -/
def Follows (tail rest : Bytes) : Prop :=
  (tail = [] ∧ rest = []) ∨ tail = b ',' :: rest ∨ ∃ cs, tail = b ';' :: cs ∧ rest = tail

theorem follows_render (ts : List Token) : Follows (separator ts ++ render ts) (render ts) := by
  rcases ts with _ | ⟨_ | fields, ts⟩
  · exact .inl ⟨rfl, rfl⟩
  · exact .inr (.inr ⟨render ts, rfl, rfl⟩)
  · exact .inr (.inl rfl)

/-! ## Fields -/

theorem vlqValue_bounds {vlq : ℕ} (h : vlq < 2 ^ 32) :
    -i32Max ≤ vlqValue vlq ∧ vlqValue vlq ≤ i32Max := by
  unfold vlqValue i32Max
  rw [shiftRight_eq_div_pow]
  split <;> omega

theorem decodeLoop_lt {fuel i shift vlq : ℕ} {bytes : Bytes} {j m : ℕ} (hvlq : vlq < 2 ^ 32)
    (h : decodeLoop fuel i shift vlq bytes = some (j, m)) : m < 2 ^ 32 := by
  induction fuel generalizing i shift vlq bytes with
  | zero => cases h
  | succ fuel ih =>
    rcases bytes with _ | ⟨byte, rest⟩
    · cases h
    · have hnext : vlq ||| (((base64Lut byte &&& 31) <<< (shift &&& 31)) % 2 ^ 32) < 2 ^ 32 :=
        or_lt_two_pow hvlq (mod_lt _ (by decide))
      simp only [decodeLoop] at h
      split at h
      · cases h
        exact hnext
      · exact ih hnext h

theorem decode_bounds (encoded : Bytes) (start : ℕ) :
    -i32Max ≤ (decode encoded start).value ∧ (decode encoded start).value ≤ i32Max := by
  unfold decode
  split
  next hloop => exact vlqValue_bounds (decodeLoop_lt (by decide) hloop)
  next =>
    unfold i32Max
    constructor <;> simp

theorem fieldValue_bounds (field : Bytes) :
    -i32Max ≤ fieldValue field ∧ fieldValue field ≤ i32Max := decode_bounds field 0

/-- A wrapping sum of a coordinate and a field is not negative when it does not wrap. -/
theorem wrappingAdd_nonneg_iff {x y : ℤ} (hx : IsCoordinate x) (hy : -i32Max ≤ y)
    (hy' : y ≤ i32Max) : 0 ≤ wrappingAdd x y ↔ IsCoordinate (x + y) := by
  obtain ⟨h₁, h₂⟩ := hx
  unfold IsCoordinate i32Max at *
  constructor
  · intro h
    by_cases hfits : x + y ≤ 2 ^ 31 - 1
    · rw [wrappingAdd_of_isI32 ⟨by unfold i32Min; omega, by unfold i32Max; omega⟩] at h
      exact ⟨h, hfits⟩
    · have hwrap : wrappingAdd x y = x + y - 2 ^ 32 := by
        unfold wrappingAdd
        rw [Int.bmod_def]
        omega
      omega
  · rintro ⟨h, h'⟩
    rw [wrappingAdd_of_isI32 ⟨by unfold i32Min; omega, by unfold i32Max; omega⟩]
    exact h

variable {ts : List Token}

section

variable {total : ℕ} {sourcesCount : ℤ} {options : ParseOptions} {missing invalid : ParseError}
  {absolute : ℤ}

variable {field : Bytes}

theorem accumulate_field {ok : ℤ → Bool} (h : IsField field) (tail : Bytes) :
    accumulate total missing invalid ok absolute (field ++ tail) =
      if ok (wrappingAdd absolute (fieldValue field)) = true then
        .ok (fieldValue field, wrappingAdd absolute (fieldValue field), tail)
      else .error { err := invalid, start := locStart total (field ++ tail) } := by
  have hlen := length_pos_iff.2 h.ne_nil
  unfold accumulate
  simp only [decode_field h]
  rw [if_neg (by omega), drop_left]
  split_ifs <;> simp_all

/-- A coordinate that is accumulated. -/
theorem accumulate_coordinate
    (h : IsField field) (habsolute : IsCoordinate absolute) (tail : Bytes) :
    (IsCoordinate (absolute + fieldValue field) →
      accumulate total missing invalid notNegative absolute (field ++ tail) =
        .ok (fieldValue field, absolute + fieldValue field, tail)) ∧
    (¬IsCoordinate (absolute + fieldValue field) →
      ∃ fail, accumulate total missing invalid notNegative absolute (field ++ tail) =
        .error fail) := by
  obtain ⟨h₁, h₂⟩ := fieldValue_bounds field
  have hiff := wrappingAdd_nonneg_iff habsolute h₁ h₂
  rw [accumulate_field h]
  simp only [notNegative, decide_eq_true_eq]
  constructor
  · intro hsum
    rw [if_pos (hiff.2 hsum), wrappingAdd_of_isI32 hsum.isI32]
  · intro hsum
    rw [if_neg fun hok => hsum (hiff.1 hok)]
    exact ⟨_, rfl⟩

theorem accumulate_source
    (h : IsField field) (habsolute : IsCoordinate absolute) (tail : Bytes) :
    (IsCoordinate (absolute + fieldValue field) ∧ absolute + fieldValue field < sourcesCount →
      accumulate total missing invalid (isSource sourcesCount) absolute (field ++ tail) =
        .ok (fieldValue field, absolute + fieldValue field, tail)) ∧
    (¬(IsCoordinate (absolute + fieldValue field) ∧ absolute + fieldValue field < sourcesCount) →
      ∃ fail, accumulate total missing invalid (isSource sourcesCount) absolute (field ++ tail) =
        .error fail) := by
  obtain ⟨h₁, h₂⟩ := fieldValue_bounds field
  have hiff := wrappingAdd_nonneg_iff habsolute h₁ h₂
  rw [accumulate_field h]
  unfold isSource
  simp only [Bool.and_eq_true, decide_eq_true_eq]
  constructor
  · rintro ⟨hsum, hlt⟩
    have heq := wrappingAdd_of_isI32 hsum.isI32
    rw [if_pos ⟨hiff.2 hsum, by rw [heq]; exact hlt⟩, heq]
  · intro hnot
    rw [if_neg]
    · exact ⟨_, rfl⟩
    · rintro ⟨hpos, hlt⟩
      have hsum := hiff.1 hpos
      have heq := wrappingAdd_of_isI32 hsum.isI32
      exact hnot ⟨hsum, by rwa [heq] at hlt⟩

/-! ## Segments -/

/-- The position of `parse`. -/
def ParseState.position (s : ParseState) : SourceMapState where
  generatedLine := s.generated.lines
  generatedColumn := s.generated.columns
  sourceIndex := s.sourceIndex
  originalLine := s.original.lines
  originalColumn := s.original.columns

/-- A mapping but for its name. -/
def Mapping.state (m : Mapping) : SourceMapState where
  generatedLine := m.generated.lines
  generatedColumn := m.generated.columns
  sourceIndex := m.sourceIndex
  originalLine := m.original.lines
  originalColumn := m.original.columns

def ParseState.states (s : ParseState) : List SourceMapState := s.mapping.map Mapping.state

variable (s : ParseState)

theorem states_append : s.append.states = s.states ++ [s.position] := by
  unfold ParseState.append ParseState.states
  rw [map_append]
  rfl

/-- The name index, and whether there are names. -/
def ParseState.names (s : ParseState) : ℤ × Bool := (s.nameIndex, s.hasNames)

def ParseState.nameIndexes (s : ParseState) : List ℤ := s.mapping.map Mapping.nameIndex

/-- The name index that a mapping gets. -/
def nameIndexOf (names : ℤ × Bool) : ℤ := if names.2 then names.1 else -1

theorem nameIndexes_append : s.append.nameIndexes = s.nameIndexes ++ [nameIndexOf s.names] := by
  unfold ParseState.append ParseState.nameIndexes
  rw [map_append]
  rfl

/-- The names behind the fifth field of a segment, if it has one. -/
def nameAfter (options : ParseOptions) (names : ℤ × Bool) : List Bytes → ℤ × Bool
  | [] => names
  | name :: _ =>
    if options.allowNames then (wrappingAdd names.1 (fieldValue name), true) else names

/-- The name indexes of the mappings of a text. -/
def nameIndexes (options : ParseOptions) : ℤ × Bool → List Token → List ℤ
  | _, [] => []
  | names, .newline :: ts => nameIndexes options names ts
  | names, .segment fields :: ts =>
    (if isMapping fields then [nameIndexOf (nameAfter options names (fields.drop 4))] else []) ++
      nameIndexes options (nameAfter options names (fields.drop 4)) ts

/-- The name and the comma, or what follows without them. -/
theorem parseName_names {names : List Bytes} (hnames : ∀ name ∈ names, IsField name)
    (hlen : names.length ≤ 1) {tail rest : Bytes} (ht : Follows tail rest) (s : ParseState) :
    parseName total options s (names.flatten ++ tail) =
      .ok ({ s with
        nameIndex := (nameAfter options s.names names).1
        hasNames := (nameAfter options s.names names).2 }, rest) := by
  rcases names with _ | ⟨name, _ | ⟨_, _⟩⟩
  · rw [flatten_nil, nil_append, nameAfter, ParseState.names]
    rcases ht with ⟨rfl, rfl⟩ | rfl | ⟨cs, rfl, rfl⟩
    · rfl
    · rw [parseName, if_pos rfl]
    · rw [parseName, if_neg (by decide), if_pos rfl]
  · have hname := hnames name mem_cons_self
    have hdecode := decode_field hname tail
    obtain ⟨c, cs, hcons⟩ := exists_cons_of_ne_nil hname.ne_nil
    obtain ⟨hc₁, hc₂, -⟩ := hname.mem_ne (show c ∈ name by simp [hcons])
    have htail : (if tail.head? = some (b ',') then tail.drop 1 else tail) = rest := by
      rcases ht with ⟨rfl, rfl⟩ | rfl | ⟨ds, rfl, rfl⟩
      · rfl
      · rw [head?_cons, if_pos rfl, drop_one, tail_cons]
      · rw [head?_cons, if_neg (by decide)]
    have hvalue : fieldValue name = fieldValue (c :: cs) := by rw [hcons]
    rw [flatten_cons, flatten_nil, append_nil, nameAfter, hvalue]
    rw [hcons, cons_append] at hdecode ⊢
    rw [parseName, if_neg hc₁, if_neg hc₂]
    simp only [hdecode]
    rw [if_neg (by simp), ← cons_append, ← hcons, drop_left, htail]
    cases options.allowNames <;> rfl
  · simp at hlen

theorem parseOriginal_fields {source line column : Bytes} {names : List Bytes}
    (hsource : IsField source) (hline : IsField line) (hcolumn : IsField column)
    (hnames : ∀ name ∈ names, IsField name) (hlen : names.length ≤ 1) {tail rest : Bytes}
    (ht : Follows tail rest) {s : ParseState} (hs₁ : IsCoordinate s.sourceIndex)
    (hs₂ : IsCoordinate s.original.lines) (hs₃ : IsCoordinate s.original.columns) :
    (IsCoordinate (s.sourceIndex + fieldValue source) ∧
        s.sourceIndex + fieldValue source < sourcesCount →
      IsCoordinate (s.original.lines + fieldValue line) →
      IsCoordinate (s.original.columns + fieldValue column) →
      parseOriginal total sourcesCount options s
          (source ++ (line ++ (column ++ (names.flatten ++ tail)))) =
        .ok (({ s with
          sourceIndex := s.sourceIndex + fieldValue source
          original :=
            { lines := s.original.lines + fieldValue line
              columns := s.original.columns + fieldValue column }
          nameIndex := (nameAfter options s.names names).1
          hasNames := (nameAfter options s.names names).2 } : ParseState).append, rest)) ∧
    (¬((IsCoordinate (s.sourceIndex + fieldValue source) ∧
        s.sourceIndex + fieldValue source < sourcesCount) ∧
      IsCoordinate (s.original.lines + fieldValue line) ∧
      IsCoordinate (s.original.columns + fieldValue column)) →
      ∃ fail, parseOriginal total sourcesCount options s
        (source ++ (line ++ (column ++ (names.flatten ++ tail)))) = .error fail) := by
  have h₁ := @accumulate_source total sourcesCount .invalidSourceIndexDelta
    .invalidSourceIndexValue _ _ hsource hs₁ (line ++ (column ++ (names.flatten ++ tail)))
  have h₂ := @accumulate_coordinate total .missingOriginalLine .invalidOriginalLineValue _ _ hline
    hs₂ (column ++ (names.flatten ++ tail))
  have h₃ := @accumulate_coordinate total .missingOriginalColumnValue
    .invalidOriginalColumnValue _ _ hcolumn hs₃ (names.flatten ++ tail)
  unfold parseOriginal
  constructor
  · intro hok₁ hok₂ hok₃
    have hname := @parseName_names total options names hnames hlen tail rest ht { s with
        sourceIndex := s.sourceIndex + fieldValue source
        original :=
          { lines := s.original.lines + fieldValue line
            columns := s.original.columns + fieldValue column } }
    rw [h₁.1 hok₁]
    dsimp only [bind, Except.bind]
    rw [h₂.1 hok₂]
    dsimp only [bind, Except.bind]
    rw [h₃.1 hok₃]
    dsimp only [bind, Except.bind]
    rw [hname]
    rfl
  · intro hnot
    by_cases hok₁ : IsCoordinate (s.sourceIndex + fieldValue source) ∧
        s.sourceIndex + fieldValue source < sourcesCount
    · rw [h₁.1 hok₁]
      dsimp only [bind, Except.bind]
      by_cases hok₂ : IsCoordinate (s.original.lines + fieldValue line)
      · rw [h₂.1 hok₂]
        dsimp only [bind, Except.bind]
        obtain ⟨fail, hfail⟩ := h₃.2 fun hok₃ => hnot ⟨hok₁, hok₂, hok₃⟩
        rw [hfail]
        exact ⟨fail, rfl⟩
      · obtain ⟨fail, hfail⟩ := h₂.2 hok₂
        rw [hfail]
        exact ⟨fail, rfl⟩
    · obtain ⟨fail, hfail⟩ := h₁.2 hok₁
      rw [hfail]
      exact ⟨fail, rfl⟩

/-- What a segment leaves. -/
structure AfterSegment (options : ParseOptions) (s : ParseState) (fields : List Bytes)
    (s' : ParseState) : Prop where
  position : s'.position = advance s.position fields
  names : s'.names = nameAfter options s.names (fields.drop 4)
  nameIndexes : s'.nameIndexes =
    s.nameIndexes ++ if isMapping fields then [nameIndexOf s'.names] else []
  states : s'.states =
    s.states ++ if isMapping fields then [advance s.position fields] else []
  needsSort : s'.needsSort =
    (s.needsSort || decide (s'.position.generatedColumn < s.position.generatedColumn))

/-- The state behind the generated column of a segment. -/
def ParseState.afterColumn (s : ParseState) (column : Bytes) : ParseState :=
  { s with
    needsSort := s.needsSort || fieldValue column < 0
    generated.columns := s.generated.columns + fieldValue column }

theorem parseSegment_column {column : Bytes} (hcolumn : IsField column) {s : ParseState}
    (hs : IsCoordinate s.generated.columns) (remain : Bytes) :
    (IsCoordinate (s.generated.columns + fieldValue column) →
      parseSegment total sourcesCount options s (column ++ remain) =
        match remain with
        | [] => .ok (s.afterColumn column, [])
        | c :: cs =>
          if c = b ',' then .ok (s.afterColumn column, cs)
          else if c = b ';' then .ok (s.afterColumn column, c :: cs)
          else parseOriginal total sourcesCount options (s.afterColumn column) (c :: cs)) ∧
    (¬IsCoordinate (s.generated.columns + fieldValue column) →
      ∃ fail, parseSegment total sourcesCount options s (column ++ remain) = .error fail) := by
  obtain ⟨hok, herror⟩ := @accumulate_coordinate total .missingGeneratedColumnValue
    .invalidGeneratedColumnValue _ _ hcolumn hs remain
  unfold parseSegment
  constructor
  · intro hcoordinate
    rw [hok hcoordinate]
    rfl
  · intro hnot
    obtain ⟨fail, hfail⟩ := herror hnot
    rw [hfail]
    exact ⟨fail, rfl⟩

variable {fields : List Bytes}

theorem parseSegment_fields (h : IsSegment fields) {s : ParseState}
    (hs : Bounded s.position) {tail rest : Bytes} (ht : Follows tail rest) :
    (InBounds sourcesCount fields (advance s.position fields) →
      ∃ s', parseSegment total sourcesCount options s (fields.flatten ++ tail) = .ok (s', rest) ∧
        AfterSegment options s fields s') ∧
    (¬InBounds sourcesCount fields (advance s.position fields) →
      ∃ fail, parseSegment total sourcesCount options s (fields.flatten ++ tail) =
        .error fail) := by
  obtain ⟨hfields, hlength⟩ := h
  rcases fields with _ | ⟨column, more⟩
  · simp at hlength
  obtain ⟨hcolumn, hmore⟩ := forall_mem_cons.1 hfields
  have hsort : (s.needsSort || decide (fieldValue column < 0)) = (s.needsSort ||
      decide (s.generated.columns + fieldValue column < s.generated.columns)) := by
    congr 1
    rw [decide_eq_decide]
    omega
  rw [flatten_cons, append_assoc]
  obtain ⟨hok, herror⟩ := @parseSegment_column total sourcesCount options column hcolumn s
    hs.generatedColumn (more.flatten ++ tail)
  rcases more with _ | ⟨source, more⟩
  · constructor
    · intro hin
      refine ⟨s.afterColumn column, ?_, rfl, rfl, (append_nil _).symm, (append_nil _).symm, hsort⟩
      rw [hok hin.generatedColumn, flatten_nil, nil_append]
      rcases ht with ⟨rfl, rfl⟩ | rfl | ⟨cs, rfl, rfl⟩
      · rfl
      · exact if_pos rfl
      · exact (if_neg (by decide)).trans (if_pos rfl)
    · intro hnot
      exact herror fun hcoordinate => hnot ⟨hcoordinate, nofun, nofun, nofun⟩
  · obtain ⟨line, originalColumn, names, rfl, hlen⟩ : ∃ line originalColumn names,
        more = line :: originalColumn :: names ∧ names.length ≤ 1 := by
      rcases more with _ | ⟨line, _ | ⟨originalColumn, names⟩⟩
      · simp at hlength
      · simp at hlength
      · simp only [length_cons] at hlength
        exact ⟨line, originalColumn, names, rfl, by omega⟩
    obtain ⟨hsource, hmore⟩ := forall_mem_cons.1 hmore
    obtain ⟨hline, hmore⟩ := forall_mem_cons.1 hmore
    obtain ⟨horiginal, hnames⟩ := forall_mem_cons.1 hmore
    have hmapping : isMapping (column :: source :: line :: originalColumn :: names) = true :=
      decide_eq_true (by simp)
    obtain ⟨hok', herror'⟩ := @parseOriginal_fields total sourcesCount options source line
      originalColumn names hsource hline horiginal hnames hlen tail rest ht (s.afterColumn column)
      hs.sourceIndex hs.originalLine hs.originalColumn
    simp only [flatten_cons, append_assoc] at hok herror ⊢
    by_cases hcoordinate : IsCoordinate (s.generated.columns + fieldValue column)
    · obtain ⟨c, cs, hcons⟩ := exists_cons_of_ne_nil hsource.ne_nil
      obtain ⟨hc₁, hc₂, -⟩ := hsource.mem_ne (show c ∈ source by simp [hcons])
      rw [hok hcoordinate]
      rw [hcons] at hok' herror' ⊢
      simp only [cons_append] at hok' herror' ⊢
      rw [if_neg hc₁, if_neg hc₂]
      rw [← hcons] at hok' herror' ⊢
      constructor
      · intro hin
        have hparse := hok' (hin.sourceIndex hmapping) (hin.originalLine hmapping)
          (hin.originalColumn hmapping)
        refine ⟨_, hparse, rfl, rfl, ?_, ?_, hsort⟩
        · rw [nameIndexes_append, if_pos hmapping]
          rfl
        · rw [states_append, if_pos hmapping]
          rfl
      · intro hnot
        exact herror' fun hall =>
          hnot ⟨hcoordinate, fun _ => hall.1, fun _ => hall.2.1, fun _ => hall.2.2⟩
    · exact ⟨fun hin => absurd hin.generatedColumn hcoordinate, fun _ => herror hcoordinate⟩

/-! ## The loop -/

variable {remain : Bytes} {rest : Bytes}

theorem accumulate_length {ok : ℤ → Bool} {delta sum : ℤ}
    (h : accumulate total missing invalid ok absolute remain = .ok (delta, sum, rest)) :
    rest.length ≤ remain.length - 1 := by
  unfold accumulate at h
  dsimp only at h
  split_ifs at h with hstart
  cases h
  rw [length_drop]
  omega

variable {s : ParseState} {s' : ParseState}

theorem parseName_length
    (h : parseName total options s remain = .ok (s', rest)) : rest.length ≤ remain.length := by
  unfold parseName at h
  split at h
  · cases h
    exact le_rfl
  · dsimp only at h
    split_ifs at h <;> cases h <;> simp only [length_drop, length_cons] <;> omega

theorem parseOriginal_length
    (h : parseOriginal total sourcesCount options s remain = .ok (s', rest)) :
    rest.length ≤ remain.length := by
  unfold parseOriginal at h
  dsimp only [bind, Except.bind] at h
  split at h
  · cases h
  next first hfirst =>
  split at h
  · cases h
  next second hsecond =>
  split at h
  · cases h
  next third hthird =>
  split at h
  · cases h
  next fourth hfourth =>
  cases h
  have h₁ := accumulate_length hfirst
  have h₂ := accumulate_length hsecond
  have h₃ := accumulate_length hthird
  have h₄ := parseName_length hfourth
  omega

theorem parseSegment_length
    (h : parseSegment total sourcesCount options s remain = .ok (s', rest)) :
    rest.length ≤ remain.length - 1 := by
  unfold parseSegment at h
  dsimp only [bind, Except.bind] at h
  split at h
  · cases h
  next column hcolumn =>
  have hlength := accumulate_length hcolumn
  split at h
  · cases h
    exact zero_le _
  next c cs hcs =>
  rw [hcs, length_cons] at hlength
  split_ifs at h
  · cases h
    omega
  · cases h
    exact hlength
  · have hrest := parseOriginal_length h
    rw [length_cons] at hrest
    omega

theorem parseRound_length {c : UInt8} {cs rest : Bytes}
    (h : parseRound total sourcesCount options s (c :: cs) = .ok (s', rest)) :
    rest.length ≤ cs.length := by
  unfold parseRound at h
  dsimp only at h
  split_ifs at h with hnewline hnil
  · cases h
    exact zero_le _
  · have hrest := parseSegment_length h
    rw [length_drop, length_cons] at hrest
    omega
  · exact parseSegment_length h

theorem parseLoop_fuel {fuel : ℕ} (h : remain.length ≤ fuel) :
    parseLoop total sourcesCount options fuel s remain =
      parseFrom total sourcesCount options s remain := by
  induction fuel using Nat.strong_induction_on generalizing s remain with
  | _ fuel ih =>
    rcases remain with _ | ⟨c, cs⟩
    · cases fuel <;> rfl
    rcases fuel with _ | fuel
    · simp at h
    rw [length_cons] at h
    unfold parseFrom
    rw [length_cons, parseLoop, parseLoop]
    split
    · rfl
    next s' rest hround =>
    have hrest := parseRound_length hround
    rw [ih fuel (lt_add_one _) (by omega)]
    rcases lt_or_ge cs.length (fuel + 1) with hlt | hge
    · exact (ih cs.length hlt hrest).symm
    · omega

theorem parseFrom_cons (c : UInt8) (cs : Bytes) :
    parseFrom total sourcesCount options s (c :: cs) =
      match parseRound total sourcesCount options s (c :: cs) with
      | .error fail => .error fail
      | .ok (s, remain) => parseFrom total sourcesCount options s remain := by
  have hloop : parseFrom total sourcesCount options s (c :: cs) =
      parseLoop total sourcesCount options (cs.length + 1) s (c :: cs) := rfl
  rw [hloop, parseLoop]
  cases hround : parseRound total sourcesCount options s (c :: cs) with
  | error fail => rfl
  | ok after =>
    obtain ⟨s', rest⟩ := after
    exact parseLoop_fuel (parseRound_length hround)

theorem newlines_newlines (m n : ℕ) : (s.newlines m).newlines n = s.newlines (m + n) := by
  unfold ParseState.newlines
  simp only [cast_add, add_assoc]

theorem parseRound_newline (c : UInt8) (cs : Bytes) :
    parseRound total sourcesCount options s (b ';' :: c :: cs) =
      parseRound total sourcesCount options (s.newlines 1) (c :: cs) := by
  unfold parseRound
  rw [head?_cons, head?_cons, if_pos rfl]
  by_cases hc : c = b ';'
  · subst hc
    rw [if_pos rfl]
    simp only [newlines_newlines, takeWhile_cons, beq_self_eq_true, if_true,
      length_cons, drop_succ_cons, add_comm 1]
  · have hne : ¬(c == b ';') = true := by simpa using hc
    have hhead : some c ≠ some (b ';') := by simpa using hc
    rw [if_neg hhead]
    simp only [takeWhile_cons, beq_self_eq_true, if_true, if_neg hne, length_cons,
      length_nil, drop_succ_cons, drop_zero]
    rw [if_neg (cons_ne_nil c cs)]

/-- One `;` at a time. -/
theorem parseFrom_newline (rest : Bytes) :
    parseFrom total sourcesCount options s (b ';' :: rest) =
      parseFrom total sourcesCount options (s.newlines 1) rest := by
  rcases rest with _ | ⟨c, cs⟩
  · rfl
  · rw [parseFrom_cons, parseFrom_cons, parseRound_newline]

theorem position_newlines :
    (s.newlines 1).position = Token.newline.advance s.position := rfl

/-- A segment and what follows it. -/
theorem parseFrom_segment (h : IsSegment fields) {s : ParseState}
    (hs : Bounded s.position) {tail rest : Bytes} (ht : Follows tail rest) :
    (InBounds sourcesCount fields (advance s.position fields) →
      ∃ s', parseFrom total sourcesCount options s (fields.flatten ++ tail) =
        parseFrom total sourcesCount options s' rest ∧ AfterSegment options s fields s') ∧
    (¬InBounds sourcesCount fields (advance s.position fields) →
      ∃ fail, parseFrom total sourcesCount options s (fields.flatten ++ tail) =
        .error fail) := by
  obtain ⟨hok, herror⟩ := @parseSegment_fields total sourcesCount options fields h s hs tail rest ht
  obtain ⟨c, cs, hcons, hc⟩ : ∃ c cs, fields.flatten ++ tail = c :: cs ∧ c ≠ b ';' := by
    obtain ⟨hfields, hlength⟩ := h
    rcases fields with _ | ⟨column, more⟩
    · simp at hlength
    have hcolumn := hfields column mem_cons_self
    obtain ⟨c, cs, rfl⟩ := exists_cons_of_ne_nil hcolumn.ne_nil
    exact ⟨c, cs ++ (more.flatten ++ tail), by simp, (hcolumn.mem_ne mem_cons_self).2.1⟩
  have hround : parseRound total sourcesCount options s (fields.flatten ++ tail) =
      parseSegment total sourcesCount options s (fields.flatten ++ tail) := by
    unfold parseRound
    rw [hcons, head?_cons, if_neg (by simpa using hc)]
  have hfrom := @parseFrom_cons total sourcesCount options s c cs
  rw [← hcons, hround] at hfrom
  constructor
  · intro hin
    obtain ⟨s', hparse, hafter⟩ := hok hin
    rw [hparse] at hfrom
    exact ⟨s', hfrom, hafter⟩
  · intro hnot
    obtain ⟨fail, hparse⟩ := herror hnot
    rw [hparse] at hfrom
    exact ⟨fail, hfrom⟩

/-! ## Whole texts -/

variable {fields : List Bytes}

theorem InBounds.bounded {p : SourceMapState} (hp : Bounded p)
    (h : InBounds sourcesCount fields (advance p fields)) : Bounded (advance p fields) := by
  obtain ⟨hcolumn, hsource, hline, horiginal⟩ := h
  rcases fields with _ | ⟨column, _ | ⟨source, _ | ⟨line, _ | ⟨originalColumn, names⟩⟩⟩⟩
  · exact hp
  · exact ⟨hcolumn, hp.sourceIndex, hp.originalLine, hp.originalColumn⟩
  · exact ⟨hcolumn, hp.sourceIndex, hp.originalLine, hp.originalColumn⟩
  · exact ⟨hcolumn, hp.sourceIndex, hp.originalLine, hp.originalColumn⟩
  · have hmapping : isMapping (column :: source :: line :: originalColumn :: names) = true :=
      decide_eq_true (by simp)
    exact ⟨hcolumn, (hsource hmapping).1, hline hmapping, horiginal hmapping⟩

theorem bounded_newline {p : SourceMapState} (hp : Bounded p) : Bounded (Token.newline.advance p) :=
  ⟨⟨le_rfl, show (0 : ℤ) ≤ i32Max by decide⟩, hp.sourceIndex, hp.originalLine, hp.originalColumn⟩

/-- The generated position of `s` is at or before that of `t`. -/
def SourceMapState.atOrBefore (s t : SourceMapState) : Bool :=
  s.lessOrEqual t.generatedLine t.generatedColumn

theorem atOrBefore_iff {s t : SourceMapState} :
    s.atOrBefore t = true ↔ s.generatedLine < t.generatedLine ∨
      s.generatedLine = t.generatedLine ∧ s.generatedColumn ≤ t.generatedColumn := by
  simp [SourceMapState.atOrBefore, SourceMapState.lessOrEqual]

/-- The mappings of `s` are in order if it does not say that they are to be sorted. -/
def ParseState.Ordered (s : ParseState) : Prop :=
  s.needsSort = false →
    s.states.Pairwise (fun m n => m.atOrBefore n = true) ∧
      ∀ m ∈ s.states, m.atOrBefore s.position = true

theorem ParseState.Ordered.newline (h : s.Ordered) : (s.newlines 1).Ordered := by
  intro hsort
  obtain ⟨hpairwise, hlast⟩ := h hsort
  refine ⟨hpairwise, fun m hm => ?_⟩
  have hmem := atOrBefore_iff.1 (hlast m hm)
  rw [position_newlines, atOrBefore_iff]
  refine .inl ?_
  change m.generatedLine < s.position.generatedLine + 1
  omega

theorem generatedLine_advance (p : SourceMapState) (fields : List Bytes) :
    (advance p fields).generatedLine = p.generatedLine := by
  unfold advance
  split <;> rfl

theorem ParseState.Ordered.segment (h : s.Ordered)
    (hafter : AfterSegment options s fields s') : s'.Ordered := by
  intro hsort
  obtain ⟨hposition, -, -, hstates, hneeds⟩ := hafter
  rw [hsort] at hneeds
  obtain ⟨hneeds, hcolumn⟩ := Bool.or_eq_false_iff.1 hneeds.symm
  obtain ⟨hpairwise, hlast⟩ := h hneeds
  have hline : s'.position.generatedLine = s.position.generatedLine := by
    rw [hposition, generatedLine_advance]
  have hbefore : ∀ m ∈ s.states, m.atOrBefore s'.position = true := by
    intro m hm
    have hmem := atOrBefore_iff.1 (hlast m hm)
    have hle := of_decide_eq_false hcolumn
    rw [atOrBefore_iff]
    omega
  rw [hstates]
  split
  · rw [← hposition]
    constructor
    · refine pairwise_append.2 ⟨hpairwise, pairwise_singleton _ _, fun m hm n hn => ?_⟩
      obtain rfl := mem_singleton.1 hn
      exact hbefore m hm
    · intro m hm
      rcases mem_append.1 hm with hm | hm
      · exact hbefore m hm
      · obtain rfl := mem_singleton.1 hm
        exact atOrBefore_iff.2 (.inr ⟨rfl, le_rfl⟩)
  · rw [append_nil]
    exact ⟨hpairwise, hbefore⟩

/-- What a text leaves. -/
structure AfterText (options : ParseOptions) (s : ParseState) (ts : List Token) (s' : ParseState) :
    Prop where
  position : s'.position = endPosition s.position ts
  nameIndexes : s'.nameIndexes = s.nameIndexes ++ SourceMap.nameIndexes options s.names ts
  states : s'.states = s.states ++ positions s.position ts
  ordered : s.Ordered → s'.Ordered

theorem AfterText.newline (h : AfterText options (s.newlines 1) ts s') :
    AfterText options s (.newline :: ts) s' where
  position := h.position
  nameIndexes := h.nameIndexes
  states := h.states
  ordered hs := h.ordered hs.newline

theorem AfterText.segment {t s' : ParseState} (ht : AfterSegment options s fields t)
    (h : AfterText options t ts s') :
    AfterText options s (.segment fields :: ts) s' where
  position := by
    rw [h.position, ht.position]
    rfl
  nameIndexes := by
    rw [h.nameIndexes, ht.nameIndexes, ht.names, append_assoc]
    rfl
  states := by
    rw [h.states, ht.states, ht.position, append_assoc]
    rfl
  ordered hs := h.ordered (hs.segment ht)

/-- The loop reads a text whose coordinates stay in bounds, and fails on any other. -/
theorem parseFrom_render {ts : List Token} (hts : IsText ts) {s : ParseState}
    (hs : Bounded s.position) :
    (Readable sourcesCount s.position ts →
      ∃ s', parseFrom total sourcesCount options s (render ts) = .ok s' ∧
        AfterText options s ts s') ∧
    (¬Readable sourcesCount s.position ts →
      ∃ fail, parseFrom total sourcesCount options s (render ts) = .error fail) := by
  induction ts generalizing s with
  | nil =>
    refine ⟨fun _ => ⟨s, rfl, rfl, (append_nil _).symm, (append_nil _).symm, id⟩,
      fun h => absurd trivial h⟩
  | cons t ts ih =>
    have hts' : IsText ts := fun fields hfields => hts fields (mem_cons_of_mem _ hfields)
    cases t with
    | newline =>
      obtain ⟨hok, herror⟩ := @ih hts' (s.newlines 1) (bounded_newline hs)
      rw [render, parseFrom_newline]
      constructor
      · intro hread
        obtain ⟨s', hparse, hafter⟩ := hok hread
        exact ⟨s', hparse, hafter.newline⟩
      · exact herror
    | segment fields =>
      obtain ⟨hok, herror⟩ := @parseFrom_segment total sourcesCount options fields
        (hts fields mem_cons_self) s hs _ _ (follows_render ts)
      rw [render]
      by_cases hin : InBounds sourcesCount fields (advance s.position fields)
      · obtain ⟨t, hparse, hsegment⟩ := hok hin
        have hbounded : Bounded t.position := hsegment.position ▸ hin.bounded hs
        obtain ⟨hok', herror'⟩ := @ih hts' t hbounded
        rw [hsegment.position] at hok' herror'
        rw [hparse]
        constructor
        · rintro ⟨-, hread⟩
          obtain ⟨s', hrest, hafter⟩ := hok' hread
          exact ⟨s', hrest, hafter.segment hsegment⟩
        · intro hnot
          exact herror' fun hread => hnot ⟨hin, hread⟩
      · exact ⟨fun hread => absurd hread.1 hin, fun _ => herror hin⟩

end

/-- The mappings that `parse` has of the mappings of a text. -/
def sorted (options : ParseOptions) (states : List SourceMapState) : List SourceMapState :=
  if options.sort then states.mergeSort SourceMapState.atOrBefore else states

theorem sorted_of_pairwise (options : ParseOptions) {states : List SourceMapState}
    (h : states.Pairwise fun m n => m.atOrBefore n = true) : sorted options states = states := by
  unfold sorted
  split
  · exact mergeSort_of_pairwise h
  · rfl

theorem map_state_mergeSort (ms : List Mapping) :
    (ms.mergeSort Mapping.lessOrEqual).map Mapping.state =
      (ms.map Mapping.state).mergeSort SourceMapState.atOrBefore :=
  map_mergeSort fun _ _ _ _ => rfl

/-- A kernel that hands over at the start. -/
def Kernel.idle : Kernel := fun _ _ _ => ({}, 0)

theorem Kernel.idle_resumes : Kernel.idle.Resumes := fun _ _ _ => rfl

variable {kernel : Kernel} {sourcesCount : ℤ}

theorem parse_eq (hkernel : kernel.Resumes) (bytes : Bytes) (options : ParseOptions) :
    parse kernel bytes sourcesCount options =
      match parseFrom bytes.length sourcesCount options {} bytes with
      | .error fail => .error fail
      | .ok s =>
        .ok (if s.needsSort && options.sort then s.mapping.mergeSort Mapping.lessOrEqual
          else s.mapping) := by
  unfold parse
  split
  next s resumeAt hresume =>
  have hfrom : parseFrom bytes.length sourcesCount options s (bytes.drop resumeAt) =
      parseFrom bytes.length sourcesCount options {} bytes := by
    split at hresume
    · have h := hkernel bytes sourcesCount options
      rwa [hresume] at h
    · cases hresume
      rw [drop_zero]
  exact hfrom ▸ rfl

/-- `parse` has the mappings of a text whose coordinates stay in bounds, with their names. -/
theorem parse_render_mappings (hkernel : kernel.Resumes) (options : ParseOptions) (hts : IsText ts)
    (hread : Readable sourcesCount {} ts) :
    ∃ ms, ms.map Mapping.state = positions {} ts ∧
      ms.map Mapping.nameIndex = nameIndexes options (0, false) ts ∧
      parse kernel (render ts) sourcesCount options =
        .ok (if options.sort then ms.mergeSort Mapping.lessOrEqual else ms) := by
  obtain ⟨s, hparse, hafter⟩ := (@parseFrom_render (render ts).length sourcesCount options ts hts
    {} bounded_zero).1 hread
  refine ⟨s.mapping, hafter.states, hafter.nameIndexes, ?_⟩
  rw [parse_eq hkernel, hparse]
  cases hneeds : s.needsSort with
  | true =>
    dsimp only
    rw [hneeds, Bool.true_and]
  | false =>
    -- Nothing was out of order, so that a sort would change nothing.
    have hinit : ({} : ParseState).Ordered :=
      fun _ => ⟨List.Pairwise.nil, by simp [ParseState.states]⟩
    have hordered := (hafter.ordered hinit hneeds).1
    rw [ParseState.states, pairwise_map] at hordered
    have hsame : s.mapping.mergeSort Mapping.lessOrEqual = s.mapping :=
      mergeSort_of_pairwise hordered
    dsimp only
    rw [hsame, ite_self, ite_self]

theorem parse_render (hkernel : kernel.Resumes) (options : ParseOptions) (hts : IsText ts)
    (hread : Readable sourcesCount {} ts) :
    ∃ ms, parse kernel (render ts) sourcesCount options = .ok ms ∧
      ms.map Mapping.state = sorted options (positions {} ts) := by
  obtain ⟨ms, hstates, -, hparse⟩ := parse_render_mappings hkernel options hts hread
  refine ⟨_, hparse, ?_⟩
  unfold sorted
  split
  · rw [map_state_mergeSort, hstates]
  · exact hstates

end Soup.SourceMap
