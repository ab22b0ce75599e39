import Soup.SourceMap.Parse

/-!
# Shifting columns

`SourceMapPieces::finalize` moves the columns of finished mappings: it passes the text and writes
the generated column anew where a segment crosses a shift. On tokens this is `shiftColumns`
(`finalize_render`). The mappings are then those of the text, each with its column shifted by the
last shift before it on its line (`finalize_decodes`).
-/

namespace Soup.SourceMap

open List Nat

/-! ## The loop -/

structure SourceMapShifts where
  before : LineColumnOffset
  after : LineColumnOffset
deriving DecidableEq, Repr

structure SourceMapPieces where
  prefix_ : Bytes := []
  mappings : Bytes := []
  suffix : Bytes := []
deriving DecidableEq, Repr

def LineColumnOffset.comesBefore (a c : LineColumnOffset) : Bool :=
  a.lines < c.lines ∨ (a.lines = c.lines ∧ a.columns < c.columns)

/-- What a shift adds to a column. -/
def SourceMapShifts.delta (shift : SourceMapShifts) : ℤ :=
  shift.after.columns - shift.before.columns

/-- Advances to the latest shift before `generated`. Has a boundary been crossed? -/
def crossShifts (generated : LineColumnOffset) :
    List SourceMapShifts → List SourceMapShifts × Bool
  | shift :: next :: shifts =>
    if next.before.comesBefore generated then ((crossShifts generated (next :: shifts)).1, true)
    else (shift :: next :: shifts, false)
  | shifts => (shifts, false)

/-- The variables of `finalize` about the shifts. -/
structure ShiftState where
  shifts : List SourceMapShifts
  generated : LineColumnOffset := {}
  prevShiftColumnDelta : ℤ := 0
deriving DecidableEq, Repr

/-- The variables of `finalize`. -/
structure PiecesState extends ShiftState where
  startOfRun : ℕ := 0
  current : ℕ := 0
  j : Bytes
deriving DecidableEq, Repr

/-- The end of the name, if there is one. -/
def skipName (mappings : Bytes) (current : ℕ) : ℕ :=
  match mappings[current]? with
  | some c => if c ≠ b ',' ∧ c ≠ b ';' then (decode mappings current).start else current
  | none => current

def skipComma (mappings : Bytes) (current : ℕ) : ℕ :=
  if mappings[current]? = some (b ',') then current + 1 else current

/-- The end of the fields behind the generated column, and of the comma. -/
def skipFields (mappings : Bytes) (current : ℕ) : ℕ :=
  let current := (decode mappings current).start
  let current := (decode mappings current).start
  let current := (decode mappings current).start
  skipComma mappings (skipName mappings current)

/-- A round of the loop of `finalize`. -/
def piecesRound (mappings : Bytes) (s : PiecesState) : PiecesState :=
  if mappings[s.current]? = some (b ';') then
    { s with
      generated := { lines := s.generated.lines + 1, columns := 0 }
      prevShiftColumnDelta := 0
      current := s.current + 1 }
  else
    let potentialEndOfRun := s.current
    let decodeResult := decode mappings s.current
    let generated : LineColumnOffset :=
      { s.generated with columns := s.generated.columns + decodeResult.value }
    let potentialStartOfRun := decodeResult.start
    let current := skipFields mappings decodeResult.start
    let (shifts, didCrossBoundary) := crossShifts generated s.shifts
    match shifts with
    | [] => { s with generated, current, shifts }
    | shift :: _ =>
      if didCrossBoundary ∧ shift.after.lines = generated.lines then
        { shifts
          startOfRun := potentialStartOfRun
          current
          generated
          prevShiftColumnDelta := shift.delta
          j := s.j ++ (mappings.take potentialEndOfRun).drop s.startOfRun ++
            encode (decodeResult.value + shift.delta - s.prevShiftColumnDelta) }
      else { s with generated, current, shifts }

/-- The loop of `finalize`; a round takes a byte at least. -/
def piecesLoop (mappings : Bytes) : ℕ → PiecesState → PiecesState
  | 0, s => s
  | fuel + 1, s =>
    if s.current < mappings.length then piecesLoop mappings fuel (piecesRound mappings s) else s

namespace SourceMapPieces

def finalize (self : SourceMapPieces) (shifts : List SourceMapShifts) : Bytes :=
  if self.mappings = [] ∧ self.suffix = [] then self.prefix_
  else
    let s := piecesLoop self.mappings self.mappings.length { shifts, j := self.prefix_ }
    s.j ++ self.mappings.drop s.startOfRun ++ self.suffix

end SourceMapPieces

/-! ## On tokens -/

namespace ShiftState

def newline (q : ShiftState) : ShiftState :=
  { q with
    generated := { lines := q.generated.lines + 1, columns := 0 }
    prevShiftColumnDelta := 0 }

/-- The state behind a segment with the generated column `column`, and the column that is written
for it. -/
def segment (q : ShiftState) (column : Bytes) : ShiftState × Bytes :=
  let generated : LineColumnOffset :=
    { q.generated with columns := q.generated.columns + fieldValue column }
  let (shifts, didCrossBoundary) := crossShifts generated q.shifts
  match shifts with
  | [] => ({ q with generated, shifts }, column)
  | shift :: _ =>
    if didCrossBoundary ∧ shift.after.lines = generated.lines then
      ({ shifts, generated, prevShiftColumnDelta := shift.delta },
        encode (fieldValue column + shift.delta - q.prevShiftColumnDelta))
    else ({ q with generated, shifts }, column)

/-- What `finalize` makes of a text. -/
def shiftColumns : ShiftState → List Token → List Token
  | _, [] => []
  | q, .newline :: ts => .newline :: shiftColumns q.newline ts
  | q, .segment [] :: ts => .segment [] :: shiftColumns q ts
  | q, .segment (column :: fields) :: ts =>
    .segment ((q.segment column).2 :: fields) :: shiftColumns (q.segment column).1 ts

theorem separator_shiftColumns (q : ShiftState) (ts : List Token) :
    separator (q.shiftColumns ts) = separator ts := by
  rcases ts with _ | ⟨_ | ⟨_ | ⟨column, fields⟩⟩, ts⟩ <;> rfl

end ShiftState

/-! ## The bytes -/

variable {i : ℕ} {bytes x y : Bytes}

theorem drop_of_drop (h : bytes.drop i = x ++ y) : bytes.drop (i + x.length) = y := by
  rw [← drop_drop, h, drop_left]

theorem run_of_drop (h : bytes.drop i = x ++ y) : (bytes.take (i + x.length)).drop i = x := by
  rw [drop_take, h, Nat.add_sub_cancel_left, take_left]

/-- A run that goes on over `x`. -/
theorem run_append {start i : ℕ} (hstart : start ≤ i) (h : bytes.drop i = x ++ y) :
    (bytes.take (i + x.length)).drop start = (bytes.take i).drop start ++ x := by
  have hi : i ≤ bytes.length ∨ x = [] := by
    by_contra hlt
    obtain ⟨hlt, hx⟩ := not_or.1 hlt
    rw [drop_of_length_le (by omega)] at h
    exact hx (append_eq_nil_iff.1 h.symm).1
  rcases hi with hi | rfl
  · rw [take_add, h, take_left, drop_append_of_le_length]
    rw [length_take_of_le hi]
    exact hstart
  · rw [length_nil, add_zero, append_nil]

theorem getElem?_of_drop {bytes y : Bytes} (h : bytes.drop i = y) : bytes[i]? = y.head? := by
  rw [← h, head?_drop]

variable {ts : List Token}

theorem skipComma_of_drop {bytes : Bytes} (h : bytes.drop i = separator ts ++ render ts) :
    skipComma bytes i = i + (separator ts).length := by
  unfold skipComma
  rw [getElem?_of_drop h]
  rcases ts with _ | ⟨_ | fields, ts⟩
  · exact if_neg nofun
  · exact if_neg (show some (b ';') ≠ some (b ',') by decide)
  · exact if_pos rfl

theorem skipName_of_drop {bytes : Bytes} {names : List Bytes}
    (hnames : ∀ name ∈ names, IsField name) (hlen : names.length ≤ 1)
    (h : bytes.drop i = names.flatten ++ (separator ts ++ render ts)) :
    skipName bytes i = i + names.flatten.length := by
  unfold skipName
  rw [getElem?_of_drop h]
  rcases names with _ | ⟨name, _ | ⟨_, _⟩⟩
  · rcases ts with _ | ⟨_ | fields, ts⟩
    · rfl
    · exact if_neg (fun hne => hne.2 rfl)
    · exact if_neg (fun hne => hne.1 rfl)
  · have hname := hnames name mem_cons_self
    obtain ⟨c, cs, hcons⟩ := exists_cons_of_ne_nil hname.ne_nil
    obtain ⟨hc₁, hc₂, -⟩ := hname.mem_ne (show c ∈ name by simp [hcons])
    rw [flatten_cons, flatten_nil, append_nil] at h ⊢
    rw [decode_of_drop hname h]
    have hhead : (name ++ (separator ts ++ render ts)).head? = some c := by
      rw [hcons]
      rfl
    rw [hhead]
    exact if_pos ⟨hc₁, hc₂⟩
  · simp at hlen

theorem skipFields_of_drop {bytes source line column : Bytes} {names : List Bytes}
    (hsource : IsField source) (hline : IsField line) (hcolumn : IsField column)
    (hnames : ∀ name ∈ names, IsField name) (hlen : names.length ≤ 1) {ts : List Token} {i : ℕ}
    (h : bytes.drop i = source ++ (line ++ (column ++ (names.flatten ++
      (separator ts ++ render ts))))) :
    skipFields bytes i = i +
      (source ++ (line ++ (column ++ (names.flatten ++ separator ts)))).length := by
  have h₁ := drop_of_drop h
  have h₂ := drop_of_drop h₁
  have h₃ := drop_of_drop h₂
  unfold skipFields
  rw [decode_of_drop hsource h]
  dsimp only
  rw [decode_of_drop hline h₁]
  rw [decode_of_drop hcolumn h₂]
  rw [skipName_of_drop hnames hlen h₃, skipComma_of_drop (drop_of_drop h₃)]
  simp only [length_append, add_assoc]

/-! ## The run -/

/-- The bytes that `finalize` has decided on. -/
def PiecesState.written (mappings : Bytes) (s : PiecesState) : Bytes :=
  s.j ++ (mappings.take s.current).drop s.startOfRun

/-- Segments with an original position only. -/
def HasMappings (ts : List Token) : Prop := ∀ fields, .segment fields ∈ ts → isMapping fields = true

variable {mappings : Bytes}

theorem piecesRound_newline {s : PiecesState}
    (hdrop : mappings.drop s.current = render (.newline :: ts)) (hrun : s.startOfRun ≤ s.current) :
    ∃ s', piecesRound mappings s = s' ∧ s'.toShiftState = s.toShiftState.newline ∧
      mappings.drop s'.current = render ts ∧ s'.startOfRun ≤ s'.current ∧
      s'.written mappings = s.written mappings ++ [b ';'] := by
  have hhead := getElem?_of_drop hdrop
  have hrest : mappings.drop s.current = [b ';'] ++ render ts := hdrop
  refine ⟨_, if_pos hhead, rfl, drop_of_drop hrest, le_succ_of_le hrun, ?_⟩
  unfold PiecesState.written
  rw [append_assoc]
  exact congrArg _ (run_append hrun hrest)

theorem piecesRound_segment {s : PiecesState} {column : Bytes}
    {fields : List Bytes} (hsegment : IsSegment (column :: fields))
    (hmapping : isMapping (column :: fields) = true)
    (hdrop : mappings.drop s.current = render (.segment (column :: fields) :: ts))
    (hrun : s.startOfRun ≤ s.current) :
    ∃ s', piecesRound mappings s = s' ∧ s'.toShiftState = (s.toShiftState.segment column).1 ∧
      mappings.drop s'.current = render ts ∧ s'.startOfRun ≤ s'.current ∧
      s'.written mappings = s.written mappings ++
        ((s.toShiftState.segment column).2 ++ (fields.flatten ++ separator ts)) := by
  obtain ⟨hfields, hlength⟩ := hsegment
  obtain ⟨hcolumn, hmore⟩ := forall_mem_cons.1 hfields
  have hwhole : mappings.drop s.current =
      column ++ (fields.flatten ++ (separator ts ++ render ts)) := by
    rw [hdrop, render, flatten_cons, append_assoc]
  have hrest := drop_of_drop hwhole
  have hskip : skipFields mappings (s.current + column.length) =
      s.current + column.length + (fields.flatten ++ separator ts).length := by
    obtain ⟨source, line, originalColumn, names, rfl⟩ : ∃ source line originalColumn names,
        fields = source :: line :: originalColumn :: names := by
      rcases fields with _ | ⟨source, _ | ⟨line, _ | ⟨originalColumn, names⟩⟩⟩
      · cases hmapping
      · cases hmapping
      · cases hmapping
      · exact ⟨_, _, _, _, rfl⟩
    have hskip := @skipFields_of_drop mappings source line originalColumn names
      (hmore _ (by simp)) (hmore _ (by simp)) (hmore _ (by simp))
      (fun name hname => hmore name (by simp [hname]))
      (by simp only [length_cons] at hlength; omega) ts
      (s.current + column.length) (by rw [hrest]; simp)
    rw [hskip]
    simp
  have hafter : mappings.drop (s.current + column.length) =
      (fields.flatten ++ separator ts) ++ render ts := by rw [hrest, append_assoc]
  have hnot : ¬mappings[s.current]? = some (b ';') := by
    obtain ⟨c, cs, hcons⟩ := exists_cons_of_ne_nil hcolumn.ne_nil
    obtain ⟨-, hc, -⟩ := hcolumn.mem_ne (show c ∈ column by simp [hcons])
    rw [getElem?_of_drop hwhole, hcons]
    simpa using hc
  have hcurrent : s.current + column.length + (fields.flatten ++ separator ts).length =
      s.current + (column ++ (fields.flatten ++ separator ts)).length := by
    simp only [length_append, add_assoc]
  have hkept : (mappings.take (s.current + column.length +
      (fields.flatten ++ separator ts).length)).drop s.startOfRun =
        (mappings.take s.current).drop s.startOfRun ++
          (column ++ (fields.flatten ++ separator ts)) := by
    rw [hcurrent]
    exact @run_append _ _ (render ts) _ _ hrun (by simp only [hwhole, append_assoc])
  have hnext := drop_of_drop hafter
  unfold piecesRound ShiftState.segment PiecesState.written
  rw [if_neg hnot, decode_of_drop hcolumn hwhole]
  dsimp only
  rw [hskip]
  generalize crossShifts { s.generated with columns := s.generated.columns + fieldValue column }
    s.shifts = crossed
  obtain ⟨shifts, didCrossBoundary⟩ := crossed
  rcases shifts with _ | ⟨shift, shifts⟩
  · refine ⟨_, rfl, rfl, hnext, by dsimp only; omega, ?_⟩
    rw [hkept, append_assoc]
  · dsimp only
    split
    · refine ⟨_, rfl, rfl, hnext, le_add_right _ _, ?_⟩
      rw [run_of_drop hafter]
      simp only [append_assoc]
    · refine ⟨_, rfl, rfl, hnext, by dsimp only; omega, ?_⟩
      rw [hkept, append_assoc]

/-- The loop leaves what it has decided on, and the rest of the text with the columns shifted. -/
theorem piecesLoop_render {ts : List Token} (hts : IsText ts)
    (hmappings : HasMappings ts) {s : PiecesState} (hdrop : mappings.drop s.current = render ts)
    (hrun : s.startOfRun ≤ s.current) {fuel : ℕ} (hfuel : (render ts).length ≤ fuel) :
    (piecesLoop mappings fuel s).j ++ mappings.drop (piecesLoop mappings fuel s).startOfRun =
      s.written mappings ++ render (s.toShiftState.shiftColumns ts) := by
  induction ts generalizing s fuel with
  | nil =>
    have hend : mappings.length ≤ s.current := drop_eq_nil_iff.1 hdrop
    have hloop : piecesLoop mappings fuel s = s := by
      cases fuel with
      | zero => rfl
      | succ fuel => exact if_neg (by omega)
    rw [hloop, PiecesState.written, take_of_length_le hend]
    exact (append_nil _).symm
  | cons t ts ih =>
    have hts' : IsText ts := fun fields hfields => hts fields (mem_cons_of_mem _ hfields)
    have hmappings' : HasMappings ts := fun fields hfields =>
      hmappings fields (mem_cons_of_mem _ hfields)
    cases t with
    | newline =>
      obtain ⟨fuel, rfl⟩ : ∃ m, fuel = m + 1 := ⟨fuel - 1, by simp [render] at hfuel; omega⟩
      obtain ⟨s', hround, hstate, hnext, hrun', hwritten⟩ := piecesRound_newline hdrop hrun
      have hlt : s.current < mappings.length := by
        by_contra hge
        rw [drop_of_length_le (not_lt.1 hge)] at hdrop
        cases hdrop
      rw [piecesLoop, if_pos hlt, hround,
        ih hts' hmappings' hnext hrun' (by simpa [render] using hfuel), hwritten, hstate,
        append_assoc]
      rfl
    | segment fields =>
      have hsegment := hts fields mem_cons_self
      rcases fields with _ | ⟨column, fields⟩
      · cases hmappings [] mem_cons_self
      obtain ⟨s', hround, hstate, hnext, hrun', hwritten⟩ := piecesRound_segment hsegment
        (hmappings _ mem_cons_self) hdrop hrun
      have hpos : 0 < column.length :=
        length_pos_iff.2 (hsegment.isField column mem_cons_self).ne_nil
      have hlength : (render (.segment (column :: fields) :: ts)).length =
          column.length + fields.flatten.length + (separator ts).length + (render ts).length := by
        rw [render, flatten_cons]
        simp only [length_append, add_assoc]
      obtain ⟨fuel, rfl⟩ : ∃ m, fuel = m + 1 := ⟨fuel - 1, by omega⟩
      have hlt : s.current < mappings.length := by
        by_contra hge
        rw [drop_of_length_le (not_lt.1 hge)] at hdrop
        rw [← hdrop, length_nil] at hlength
        omega
      rw [piecesLoop, if_pos hlt, hround, ih hts' hmappings' hnext hrun' (by omega), hwritten,
        hstate, ShiftState.shiftColumns, render, ShiftState.separator_shiftColumns]
      simp only [flatten_cons, append_assoc]

/-- `finalize` has the text with its columns shifted, between its prefix and its suffix. -/
theorem finalize_render {self : SourceMapPieces} (hts : IsText ts) (hmappings : HasMappings ts)
    (hself : self.mappings = render ts) (shifts : List SourceMapShifts) :
    self.finalize shifts = self.prefix_ ++ render (({ shifts } : ShiftState).shiftColumns ts) ++
      self.suffix := by
  have hloop := @piecesLoop_render self.mappings ts hts hmappings { shifts, j := self.prefix_ }
    hself le_rfl self.mappings.length (by rw [hself])
  unfold SourceMapPieces.finalize
  split
  next hempty =>
    obtain ⟨hempty, hsuffix⟩ := hempty
    rw [hself] at hempty
    have hnil : ts = [] := by
      rcases ts with _ | ⟨_ | fields, ts⟩
      · rfl
      · cases hempty
      · exact absurd (append_eq_nil_iff.1 hempty).1
          (hts fields mem_cons_self).flatten_ne_nil
    rw [hnil, hsuffix, append_nil]
    exact (append_nil _).symm
  next hnot =>
    dsimp only
    rw [hloop]
    simp [PiecesState.written]

/-! ## The last shift before a position -/

def SourceMapState.generated (s : SourceMapState) : LineColumnOffset where
  lines := s.generatedLine
  columns := s.generatedColumn

/-- What the last of the shifts that is before the position on its line adds to its column. -/
def shiftDelta (shifts : List SourceMapShifts) (generated : LineColumnOffset) : ℤ :=
  match (shifts.filter fun shift => shift.before.lines = generated.lines ∧
      shift.before.columns < generated.columns).getLast? with
  | some shift => shift.delta
  | none => 0

/-- A mapping with its column shifted. -/
def shiftColumn (shifts : List SourceMapShifts) (s : SourceMapState) : SourceMapState :=
  { s with generatedColumn := s.generatedColumn + shiftDelta shifts s.generated }

/-- Shifts in order, each of which keeps its line. The first of them shifts nothing. -/
structure IsShifts (shifts : List SourceMapShifts) : Prop where
  sorted : shifts.Pairwise fun s t => t.before.comesBefore s.before = false
  lines : ∀ shift ∈ shifts, shift.after.lines = shift.before.lines
  zero : ∃ shift rest, shifts = shift :: rest ∧ shift.delta = 0

/-- A mapping with only its column shifted. -/
def Mapping.shift (shifts : List SourceMapShifts) (m : Mapping) : Mapping :=
  { m with generated.columns := m.generated.columns + shiftDelta shifts m.generated }

variable {a c : LineColumnOffset}

theorem comesBefore_iff :
    a.comesBefore c = true ↔ a.lines < c.lines ∨ a.lines = c.lines ∧ a.columns < c.columns := by
  simp [LineColumnOffset.comesBefore]

theorem not_comesBefore_iff :
    a.comesBefore c = false ↔ c.lines < a.lines ∨ c.lines = a.lines ∧ c.columns ≤ a.columns := by
  rw [← Bool.not_eq_true, comesBefore_iff]
  omega

/-- `shift` is the current one of the shifts `all` at `generated`: it is before it, or the first. -/
structure IsCurrent (all passed : List SourceMapShifts) (shift : SourceMapShifts)
    (rest : List SourceMapShifts) (generated : LineColumnOffset) : Prop where
  eq : all = passed ++ shift :: rest
  before : shift.before.comesBefore generated = true ∨ (passed = [] ∧ shift.delta = 0)

section

variable {all passed rest : List SourceMapShifts} {shift : SourceMapShifts}
  {generated : LineColumnOffset}

theorem shiftDelta_of_isCurrent (hsorted : IsShifts all)
    (h : IsCurrent all passed shift rest generated)
    (hrest : ∀ s ∈ rest, s.before.comesBefore generated = false) :
    shiftDelta all generated = if shift.before.lines = generated.lines then shift.delta else 0 := by
  obtain ⟨rfl, hbefore⟩ := h
  have hnone : rest.filter (fun s => s.before.lines = generated.lines ∧
      s.before.columns < generated.columns) = [] := by
    refine filter_eq_nil_iff.2 fun s hs hq => ?_
    have hs' := not_comesBefore_iff.1 (hrest s hs)
    have hq' := of_decide_eq_true hq
    omega
  unfold shiftDelta
  rw [filter_append, filter_cons, hnone]
  by_cases hon : shift.before.lines = generated.lines ∧ shift.before.columns < generated.columns
  · rw [if_pos (decide_eq_true hon), getLast?_concat, if_pos hon.1]
  · rw [if_neg (fun h => hon (of_decide_eq_true h)), append_nil]
    rcases hbefore with hbefore | ⟨rfl, hzero⟩
    · have hline := comesBefore_iff.1 hbefore
      have hpassed : passed.filter (fun s => s.before.lines = generated.lines ∧
          s.before.columns < generated.columns) = [] := by
        refine filter_eq_nil_iff.2 fun s hs hq => ?_
        have hle := not_comesBefore_iff.1
          ((pairwise_append.1 hsorted.sorted).2.2 s hs shift mem_cons_self)
        have hq' := of_decide_eq_true hq
        omega
      rw [hpassed, if_neg (by omega)]
      rfl
    · rw [hzero, ite_self]
      rfl

/-- After the crossing, none of the shifts behind the current one is before the position. -/
theorem crossShifts_isCurrent (hsorted : IsShifts all)
    (hall : all = passed ++ shift :: rest) (generated : LineColumnOffset) :
    ∃ passed' shift' rest', all = passed' ++ shift' :: rest' ∧
      (∀ s ∈ rest', s.before.comesBefore generated = false) ∧
      ((crossShifts generated (shift :: rest) = (shift' :: rest', true) ∧
          shift'.before.comesBefore generated = true ∧
          shift'.before.comesBefore shift.before = false) ∨
        (crossShifts generated (shift :: rest) = (shift' :: rest', false) ∧
          passed' = passed ∧ shift' = shift ∧ rest' = rest)) := by
  induction rest generalizing passed shift with
  | nil => exact ⟨passed, shift, [], hall, by simp, .inr ⟨rfl, rfl, rfl, rfl⟩⟩
  | cons next rest ih =>
    have hpairwise := (pairwise_append.1 (hall ▸ hsorted.sorted)).2.1
    obtain ⟨hshift, hnext⟩ := pairwise_cons.1 hpairwise
    have hle := hshift next mem_cons_self
    rw [crossShifts]
    by_cases hcross : next.before.comesBefore generated = true
    · rw [if_pos hcross]
      obtain ⟨passed', shift', rest', hall', hrest', h⟩ :=
        @ih (passed ++ [shift]) next (by rw [hall]; simp)
      refine ⟨passed', shift', rest', hall', hrest', .inl ?_⟩
      rcases h with ⟨heq, hbefore, hle'⟩ | ⟨heq, rfl, rfl, rfl⟩
      · rw [heq]
        refine ⟨rfl, hbefore, ?_⟩
        rw [not_comesBefore_iff] at *
        omega
      · rw [heq]
        exact ⟨rfl, hcross, hle⟩
    · rw [if_neg hcross]
      refine ⟨passed, shift, next :: rest, hall, fun s hs => ?_, .inr ⟨rfl, rfl, rfl, rfl⟩⟩
      rw [Bool.not_eq_true] at hcross
      rcases mem_cons.1 hs with rfl | hs
      · exact hcross
      · have hs' := (pairwise_cons.1 hnext).1 s hs
        rw [not_comesBefore_iff] at *
        omega

end

/-! ## The mappings of the shifted text -/

namespace ShiftState

/-- The state is at the current one of the shifts `all`. -/
structure Tracks (all : List SourceMapShifts) (q : ShiftState) : Prop where
  current : ∃ passed shift rest, IsCurrent all passed shift rest q.generated ∧
    q.shifts = shift :: rest ∧
    q.prevShiftColumnDelta = if shift.before.lines = q.generated.lines then shift.delta else 0

variable {all : List SourceMapShifts} {q : ShiftState}

theorem tracks_init (h : IsShifts all) : ({ shifts := all } : ShiftState).Tracks all := by
  obtain ⟨shift, rest, rfl, hzero⟩ := h.zero
  exact ⟨[], shift, rest, ⟨rfl, .inr ⟨rfl, hzero⟩⟩, rfl, by rw [hzero, ite_self]⟩

theorem Tracks.newline (h : q.Tracks all) : q.newline.Tracks all := by
  obtain ⟨passed, shift, rest, ⟨hall, hbefore⟩, hshifts, -⟩ := h.current
  refine ⟨passed, shift, rest, ⟨hall, ?_⟩, hshifts, ?_⟩
  · refine hbefore.imp (fun hbefore => ?_) id
    rw [comesBefore_iff] at hbefore ⊢
    unfold ShiftState.newline
    dsimp only
    omega
  · unfold ShiftState.newline
    dsimp only
    rcases hbefore with hbefore | ⟨-, hzero⟩
    · rw [comesBefore_iff] at hbefore
      rw [if_neg (by omega)]
    · rw [hzero, ite_self]

/-- A segment: the state behind it adds what the last shift before its column does, and the column
that is written leads there. -/
theorem Tracks.segment (hall : IsShifts all) (h : q.Tracks all) {column : Bytes}
    (hforward : 0 ≤ fieldValue column) :
    (q.segment column).1.Tracks all ∧
      (q.segment column).1.generated =
        { q.generated with columns := q.generated.columns + fieldValue column } ∧
      (q.segment column).1.prevShiftColumnDelta = shiftDelta all
        { q.generated with columns := q.generated.columns + fieldValue column } ∧
      ((q.segment column).2 = column ∧
          (q.segment column).1.prevShiftColumnDelta = q.prevShiftColumnDelta ∨
        (q.segment column).2 = encode (fieldValue column +
          (q.segment column).1.prevShiftColumnDelta - q.prevShiftColumnDelta)) := by
  obtain ⟨passed, shift, rest, ⟨heq, hbefore⟩, hshifts, hprev⟩ := h.current
  obtain ⟨passed', shift', rest', heq', hrest', hcross⟩ := crossShifts_isCurrent hall heq
    { q.generated with columns := q.generated.columns + fieldValue column }
  unfold ShiftState.segment
  rw [hshifts]
  dsimp only
  rcases hcross with ⟨hcross, hbefore', hle⟩ | ⟨hcross, rfl, rfl, rfl⟩
  · have hcurrent : IsCurrent all passed' shift' rest'
        { q.generated with columns := q.generated.columns + fieldValue column } :=
      ⟨heq', .inl hbefore'⟩
    have hdelta := shiftDelta_of_isCurrent hall hcurrent hrest'
    have hkeeps := hall.lines shift' (by rw [heq']; simp)
    rw [hcross]
    dsimp only at hdelta ⊢
    by_cases hline : shift'.before.lines = q.generated.lines
    · rw [if_pos ⟨rfl, hkeeps.trans hline⟩]
      rw [if_pos hline] at hdelta
      exact ⟨⟨passed', shift', rest', hcurrent, rfl, (if_pos hline).symm⟩, rfl, hdelta.symm,
        .inr rfl⟩
    · rw [if_neg fun h => hline (hkeeps.symm.trans h.2)]
      rw [if_neg hline] at hdelta
      have hzero : q.prevShiftColumnDelta = 0 := by
        rw [hprev]
        rw [comesBefore_iff] at hbefore'
        rw [not_comesBefore_iff] at hle
        dsimp only at hbefore'
        rw [if_neg (by omega)]
      exact ⟨⟨passed', shift', rest', hcurrent, rfl, hzero.trans (if_neg hline).symm⟩, rfl,
        hzero.trans hdelta.symm, .inl ⟨rfl, rfl⟩⟩
  · have hcurrent : IsCurrent all passed' shift' rest'
        { q.generated with columns := q.generated.columns + fieldValue column } := by
      refine ⟨heq, hbefore.imp (fun hbefore => ?_) id⟩
      rw [comesBefore_iff] at hbefore ⊢
      dsimp only
      omega
    have hdelta := shiftDelta_of_isCurrent hall hcurrent hrest'
    rw [hcross]
    dsimp only at hdelta ⊢
    rw [if_neg (by simp)]
    exact ⟨⟨passed', shift', rest', hcurrent, rfl, hprev⟩, rfl, hprev.trans hdelta.symm,
      .inl ⟨rfl, rfl⟩⟩

variable {sourcesCount : ℤ}

theorem positions_forward {p : SourceMapState} (hmappings : HasMappings ts)
    (hread : Readable sourcesCount p ts) :
    ∀ s ∈ positions p ts, p.generatedLine ≤ s.generatedLine ∧ 0 ≤ s.generatedColumn := by
  induction ts generalizing p with
  | nil => simp [positions]
  | cons t ts ih =>
    have hmappings' : HasMappings ts := fun fields hfields =>
      hmappings fields (mem_cons_of_mem _ hfields)
    intro s hs
    cases t with
    | newline =>
      obtain ⟨hline, hcolumn⟩ := ih hmappings' hread s hs
      refine ⟨le_trans ?_ hline, hcolumn⟩
      unfold Token.advance
      dsimp only
      omega
    | segment fields =>
      obtain ⟨hin, hread⟩ := hread
      rw [positions, if_pos (hmappings fields mem_cons_self)] at hs
      rcases mem_cons.1 hs with rfl | hs
      · exact ⟨(generatedLine_advance p fields).ge, hin.generatedColumn.1⟩
      · obtain ⟨hline, hcolumn⟩ := ih hmappings' hread s hs
        rw [generatedLine_advance] at hline
        exact ⟨hline, hcolumn⟩

theorem generatedColumn_advance (p : SourceMapState) (column : Bytes) (fields : List Bytes) :
    (advance p (column :: fields)).generatedColumn = p.generatedColumn + fieldValue column := by
  rcases fields with _ | ⟨source, _ | ⟨line, _ | ⟨originalColumn, names⟩⟩⟩ <;> rfl

/-- The position of the shifted text. -/
def position (q : ShiftState) (p : SourceMapState) : SourceMapState :=
  { p with generatedColumn := p.generatedColumn + q.prevShiftColumnDelta }

/-- The shifted text is a text, and its mappings are the shifted mappings. -/
theorem Tracks.shiftColumns (hall : IsShifts all) (hq : q.Tracks all) {p : SourceMapState}
    (hp : q.generated = p.generated) (hts : IsText ts)
    (hmappings : HasMappings ts) (hread : Readable sourcesCount p ts)
    (hforward : (p :: positions p ts).Pairwise fun m n => m.atOrBefore n = true)
    (hcolumn : IsCoordinate (q.position p).generatedColumn)
    (hshifted : ∀ s ∈ positions p ts, IsCoordinate (shiftColumn all s).generatedColumn) :
    IsText (q.shiftColumns ts) ∧ Readable sourcesCount (q.position p) (q.shiftColumns ts) ∧
      positions (q.position p) (q.shiftColumns ts) = (positions p ts).map (shiftColumn all) := by
  induction ts generalizing q p with
  | nil => exact ⟨hts, trivial, rfl⟩
  | cons t ts ih =>
    have hts' : IsText ts := fun fields hfields => hts fields (mem_cons_of_mem _ hfields)
    have hmappings' : HasMappings ts := fun fields hfields =>
      hmappings fields (mem_cons_of_mem _ hfields)
    cases t with
    | newline =>
      have hline : ∀ s ∈ positions (Token.newline.advance p) ts,
          (Token.newline.advance p).atOrBefore s = true := by
        intro s hs
        obtain ⟨hle, hnonneg⟩ := positions_forward hmappings' hread s hs
        rw [atOrBefore_iff]
        unfold Token.advance at hle ⊢
        dsimp only at hle ⊢
        omega
      have hgenerated : q.newline.generated = (Token.newline.advance p).generated := by
        unfold ShiftState.newline
        rw [hp]
        rfl
      have hposition : q.newline.position (Token.newline.advance p) =
          Token.newline.advance (q.position p) := rfl
      obtain ⟨htext, hreads, hpositions⟩ := ih hq.newline hgenerated hts' hmappings' hread
        (pairwise_cons.2 ⟨hline, (pairwise_cons.1 hforward).2⟩)
        ⟨le_rfl, show (0 : ℤ) ≤ i32Max by decide⟩ hshifted
      rw [hposition] at hreads hpositions
      exact ⟨(isText_newlines 1).append htext, hreads, hpositions⟩
    | segment fields =>
      have hsegment := hts fields mem_cons_self
      have hmapping := hmappings fields mem_cons_self
      rcases fields with _ | ⟨column, fields⟩
      · cases hmapping
      obtain ⟨hin, hread⟩ := hread
      rw [positions, if_pos hmapping] at hforward hshifted ⊢
      rw [singleton_append] at hforward hshifted ⊢
      obtain ⟨hfirst, hforward⟩ := pairwise_cons.1 hforward
      have hle := atOrBefore_iff.1 (hfirst _ mem_cons_self)
      rw [generatedLine_advance, generatedColumn_advance] at hle
      obtain ⟨htracks, hgenerated, hprev, hwritten⟩ :=
        hq.segment hall (show 0 ≤ fieldValue column by omega)
      have hnext : (q.segment column).1.generated = (advance p (column :: fields)).generated := by
        rw [hgenerated, hp]
        unfold SourceMapState.generated
        rw [generatedLine_advance, generatedColumn_advance]
      rw [← hgenerated, hnext] at hprev
      have hmoved : shiftColumn all (advance p (column :: fields)) =
          (q.segment column).1.position (advance p (column :: fields)) := by
        unfold shiftColumn ShiftState.position
        rw [hprev]
      obtain ⟨hcoordinate, hshifted⟩ := forall_mem_cons.1 hshifted
      rw [hmoved] at hcoordinate
      obtain ⟨htext, hreads, hpositions⟩ := ih htracks hnext hts' hmappings' hread hforward
        hcoordinate hshifted
      obtain ⟨hfield, hvalue⟩ : IsField (q.segment column).2 ∧
          fieldValue (q.segment column).2 = fieldValue column +
            (q.segment column).1.prevShiftColumnDelta - q.prevShiftColumnDelta := by
        rcases hwritten with ⟨hsame, hkept⟩ | hwritten
        · rw [hsame, hkept]
          exact ⟨hsegment.isField column mem_cons_self, by omega⟩
        · have hbetween : fieldValue column + (q.segment column).1.prevShiftColumnDelta -
              q.prevShiftColumnDelta =
                ((q.segment column).1.position (advance p (column :: fields))).generatedColumn -
                  (q.position p).generatedColumn := by
            unfold ShiftState.position
            dsimp only
            rw [generatedColumn_advance]
            omega
          obtain ⟨hlower, hupper⟩ := sub_bounds hcoordinate hcolumn
          rw [hwritten, hbetween]
          exact ⟨isField_between hcoordinate hcolumn, fieldValue_encode hlower hupper⟩
      have hadvance : advance (q.position p) ((q.segment column).2 :: fields) =
          (q.segment column).1.position (advance p (column :: fields)) := by
        have hcolumns : p.generatedColumn + q.prevShiftColumnDelta +
            fieldValue (q.segment column).2 =
              p.generatedColumn + fieldValue column +
                (q.segment column).1.prevShiftColumnDelta := by
          rw [hvalue]
          omega
        unfold ShiftState.position advance
        split <;> simp_all
      have hmapping' : isMapping ((q.segment column).2 :: fields) = true := hmapping
      have hsegment' : IsSegment ((q.segment column).2 :: fields) :=
        ⟨forall_mem_cons.2 ⟨hfield, (forall_mem_cons.1 hsegment.isField).2⟩, hsegment.length⟩
      refine ⟨isText_cons hsegment' htext, ?_, ?_⟩
      · rw [ShiftState.shiftColumns, Readable, hadvance]
        exact ⟨⟨hcoordinate, fun _ => hin.sourceIndex hmapping, fun _ => hin.originalLine hmapping,
          fun _ => hin.originalColumn hmapping⟩, hreads⟩
      · rw [ShiftState.shiftColumns, positions, if_pos hmapping', hadvance, hpositions,
          map_cons, hmoved]
        rfl

end ShiftState

/-- Mappings with the same names, and with shifted positions, are shifted mappings. -/
theorem eq_map_shift {shifts : List SourceMapShifts} : ∀ {original shifted : List Mapping},
    shifted.map Mapping.state = (original.map Mapping.state).map (shiftColumn shifts) →
    shifted.map Mapping.nameIndex = original.map Mapping.nameIndex →
    shifted = original.map (Mapping.shift shifts)
  | [], [], _, _ => rfl
  | ⟨⟨_, _⟩, ⟨_, _⟩, _, _⟩ :: original, ⟨⟨_, _⟩, ⟨_, _⟩, _, _⟩ :: shifted, hstates, hnames => by
    obtain ⟨hstate, hstates⟩ := cons_eq_cons.1 hstates
    obtain ⟨hname, hnames⟩ := cons_eq_cons.1 hnames
    obtain ⟨hline, hcolumn, hsource, hlines, hcolumns⟩ := SourceMapState.mk.inj hstate
    dsimp only [Mapping.state] at *
    rw [eq_map_shift hstates hnames, map_cons, Mapping.shift]
    subst hline hcolumn hsource hlines hcolumns hname
    rfl

theorem ShiftState.nameIndexes_shiftColumns (options : ParseOptions) {names : ℤ × Bool} :
    ∀ (q : ShiftState) (ts : List Token),
      nameIndexes options names (q.shiftColumns ts) = nameIndexes options names ts
  | _, [] => rfl
  | _, .newline :: ts => nameIndexes_shiftColumns options _ ts
  | q, .segment [] :: ts => by
    rw [shiftColumns, nameIndexes, nameIndexes, nameIndexes_shiftColumns options q ts]
  | q, .segment (column :: fields) :: ts => by
    rw [shiftColumns, nameIndexes, nameIndexes, drop_succ_cons, drop_succ_cons,
      nameIndexes_shiftColumns options _ ts]
    rfl

/-- What `parse` has of the text that `finalize` leaves: the mappings of the text before, in their
order and with their names, each with its column shifted. -/
theorem finalize_decodes {kernel : Kernel} (hkernel : kernel.Resumes) {ts : List Token}
    (hts : IsText ts) (hmappings : HasMappings ts) {sourcesCount : ℤ}
    (hread : Readable sourcesCount {} ts)
    (hforward : (positions {} ts).Pairwise fun m n => m.atOrBefore n = true)
    {shifts : List SourceMapShifts} (hshifts : IsShifts shifts)
    (hshifted : ∀ s ∈ positions {} ts, IsCoordinate (shiftColumn shifts s).generatedColumn)
    (before after : Bytes) :
    ∃ out, SourceMapPieces.finalize
        { prefix_ := before, mappings := render ts, suffix := after } shifts =
          before ++ out ++ after ∧
      ∀ options, ∃ original : List Mapping, original.map Mapping.state = positions {} ts ∧
        parse kernel (render ts) sourcesCount options = .ok original ∧
        parse kernel out sourcesCount options = .ok
          (if options.sort then (original.map (Mapping.shift shifts)).mergeSort Mapping.lessOrEqual
            else original.map (Mapping.shift shifts)) := by
  have hfirst : ∀ s ∈ positions {} ts, ({} : SourceMapState).atOrBefore s = true := by
    intro s hs
    obtain ⟨hline, hcolumn⟩ := ShiftState.positions_forward hmappings hread s hs
    rw [atOrBefore_iff]
    dsimp only at hline ⊢
    omega
  obtain ⟨htext, hreads, hpositions⟩ := (ShiftState.tracks_init hshifts).shiftColumns hshifts
    (show _ = SourceMapState.generated {} from rfl) hts hmappings hread
    (pairwise_cons.2 ⟨hfirst, hforward⟩) bounded_zero.generatedColumn hshifted
  refine ⟨_, finalize_render hts hmappings rfl shifts, fun options => ?_⟩
  obtain ⟨original, hstates, hnames, hparse⟩ := parse_render_mappings hkernel options hts hread
  obtain ⟨shifted, hstates', hnames', hparse'⟩ :=
    parse_render_mappings hkernel options htext hreads
  rw [← hstates, pairwise_map] at hforward
  have hsame : original.mergeSort Mapping.lessOrEqual = original := mergeSort_of_pairwise hforward
  rw [hsame, ite_self] at hparse
  rw [ShiftState.nameIndexes_shiftColumns, ← hnames] at hnames'
  rw [← hstates] at hpositions
  rw [eq_map_shift (hstates'.trans hpositions) hnames'] at hparse'
  exact ⟨original, hstates, hparse, hparse'⟩

/-- Two mappings, the second with a name and with a shift by five columns in front of it. -/
theorem finalize_decodes_two : ∃ (out : Bytes) (original : List Mapping), SourceMapPieces.finalize
      { prefix_ := [b '"'], mappings := render [.segment (fieldsBetween {} {}),
          .segment (fieldsBetween {} { generatedColumn := 5 } ++ [encode 2])], suffix := [b '"'] }
      [{ before := {}, after := {} },
        { before := { columns := 2 }, after := { columns := 7 } }] = [b '"'] ++ out ++ [b '"'] ∧
    original.map Mapping.state = [{}, { generatedColumn := 5 }] ∧
    parse Kernel.idle out 1 { allowNames := true } = .ok (original.map (Mapping.shift
      [{ before := {}, after := {} },
        { before := { columns := 2 }, after := { columns := 7 } }])) := by
  have hfirst : IsSegment (fieldsBetween {} {}) :=
    @isSegment_between {} {} bounded_zero bounded_zero [] (by simp) (zero_le 1)
  have hsecond : IsSegment (fieldsBetween {} { generatedColumn := 5 } ++ [encode 2]) :=
    @isSegment_between {} { generatedColumn := 5 } bounded_zero
      ⟨by decide, by decide, by decide, by decide⟩ [encode 2]
      (forall_mem_singleton.2 (isField_encode (by decide) (by decide))) (le_refl 1)
  have hmappings : HasMappings [.segment (fieldsBetween {} {}),
      .segment (fieldsBetween {} { generatedColumn := 5 } ++ [encode 2])] := by
    intro fields hfields
    simp only [mem_cons, not_mem_nil, or_false] at hfields
    rcases hfields with heq | heq <;> cases heq <;> rfl
  have hin : ∀ {fields : List Bytes} {p : SourceMapState}, IsCoordinate p.generatedColumn →
      p.sourceIndex = 0 → p.originalLine = 0 → p.originalColumn = 0 → InBounds 1 fields p := by
    intro fields p h₁ h₂ h₃ h₄
    refine ⟨h₁, fun _ => ?_, fun _ => ?_, fun _ => ?_⟩
    · rw [h₂]
      decide
    · rw [h₃]
      decide
    · rw [h₄]
      decide
  obtain ⟨out, hout, hall⟩ := @finalize_decodes Kernel.idle Kernel.idle_resumes _
    (isText_cons hfirst (isText_segment hsecond)) hmappings 1
    ⟨hin (by decide) (by decide) (by decide) (by decide),
      hin (by decide) (by decide) (by decide) (by decide), trivial⟩ (by decide)
    [{ before := {}, after := {} }, { before := { columns := 2 }, after := { columns := 7 } }]
    ⟨by decide, by decide, _, _, rfl, by decide⟩ (by decide) [b '"'] [b '"']
  obtain ⟨original, hstates, -, hparse⟩ := hall { allowNames := true }
  exact ⟨out, original, hout, hstates.trans (by decide), hparse⟩

end Soup.SourceMap
