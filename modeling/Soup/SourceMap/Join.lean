import Soup.SourceMap.Parse

/-!
# Joining chunks

The mappings of a chunk are relative to the zero state. `append_source_map_chunk` appends a chunk to
a text: it puts the first mapping of the chunk relative to the end of the text, and copies the
others. The chunk's mappings are then shifted to where the chunk starts
(`appendSourceMapChunk_decodes`).
-/

namespace Soup.SourceMap

open List Token

/-- The second half of `append_source_map_chunk`. What was pushed to the joiner is `j`; its nodes
are not empty. -/
def appendFirstMapping (j : Bytes) (prevEndState startState : SourceMapState)
    (sourceMap : Bytes) : Bytes :=
  let generatedColumn := decode sourceMap 0
  let sourceIndex := decode sourceMap generatedColumn.start
  let originalLine := decode sourceMap sourceIndex.start
  let originalColumn := decode sourceMap originalLine.start
  let startState : SourceMapState :=
    { startState with
      sourceIndex := startState.sourceIndex + sourceIndex.value
      generatedColumn := startState.generatedColumn + generatedColumn.value
      originalLine := startState.originalLine + originalLine.value
      originalColumn := startState.originalColumn + originalColumn.value }
  j ++ appendMappingToBuffer [] (lastByte j) prevEndState startState ++
    sourceMap.drop originalColumn.start

/-- `append_source_map_chunk`, up to the leading `;` of the chunk. -/
def appendSourceMapChunk (j : Bytes) (prevEndState startState : SourceMapState)
    (sourceMap : Bytes) : Bytes :=
  let lineBreaks := startState.generatedLine ≠ 0
  let j := if lineBreaks then j ++ replicate startState.generatedLine.toNat (b ';') else j
  let prevEndState : SourceMapState :=
    if lineBreaks then { prevEndState with generatedColumn := 0 } else prevEndState
  let semicolons := (sourceMap.takeWhile (· == b ';')).length
  if semicolons < sourceMap.length ∧ semicolons > 0 then
    appendFirstMapping (j ++ sourceMap.take semicolons) { prevEndState with generatedColumn := 0 }
      { startState with generatedColumn := 0 } (sourceMap.drop semicolons)
  else appendFirstMapping j prevEndState startState sourceMap

/-! ## Shifted mappings -/

/-- `s` in a chunk that starts at `start`. Only on the first line the columns are shifted. -/
def SourceMapState.shifted (start s : SourceMapState) : SourceMapState where
  generatedLine := start.generatedLine + s.generatedLine
  generatedColumn :=
    if s.generatedLine = 0 then start.generatedColumn + s.generatedColumn else s.generatedColumn
  sourceIndex := start.sourceIndex + s.sourceIndex
  originalLine := start.originalLine + s.originalLine
  originalColumn := start.originalColumn + s.originalColumn

variable (start : SourceMapState)

theorem shifted_zero : start.shifted {} = start := by
  unfold SourceMapState.shifted
  simp

variable {p : SourceMapState}

theorem shifted_newline (h : 0 ≤ p.generatedLine) :
    start.shifted (newline.advance p) = newline.advance (start.shifted p) := by
  unfold SourceMapState.shifted Token.advance
  dsimp only
  rw [if_neg (by omega), add_assoc]

theorem shifted_advance (start p : SourceMapState) (fields : List Bytes) :
    start.shifted (advance p fields) = advance (start.shifted p) fields := by
  by_cases hline : p.generatedLine = 0 <;>
    rcases fields with _ | ⟨column, _ | ⟨source, _ | ⟨line, _ | ⟨originalColumn, names⟩⟩⟩⟩ <;>
      simp [advance, SourceMapState.shifted, hline, add_assoc]

theorem positions_shifted (h : 0 ≤ p.generatedLine) (ts : List Token) :
    positions (start.shifted p) ts = (positions p ts).map start.shifted := by
  induction ts generalizing p with
  | nil => rfl
  | cons t ts ih =>
    cases t with
    | newline =>
      have hnext : 0 ≤ (newline.advance p).generatedLine := by
        unfold Token.advance
        dsimp only
        omega
      rw [positions, positions, ← shifted_newline start h, ih hnext]
    | segment fields =>
      have hnext : 0 ≤ (advance p fields).generatedLine := by rwa [generatedLine_advance]
      rw [positions, positions, ← shifted_advance, ih hnext, map_append]
      split <;> rfl

/-! ## The first mapping -/

theorem appendMappingToBuffer_eq (buffer : Bytes) (lastByte : UInt8)
    (prev current : SourceMapState) :
    appendMappingToBuffer buffer lastByte prev current =
      buffer ++ appendMappingToBuffer [] lastByte prev current := by
  unfold appendMappingToBuffer
  simp only [nil_append, append_assoc]

variable {prev start : SourceMapState}

/-- The first mapping of a chunk behind a text. -/
theorem appendFirstMapping_render {front : Bytes} (hfront : Opens front) {ts : List Token}
    (hts : IsText ts) (hprev : Bounded prev) {first : List Bytes}
    (hfirst : IsSegment first) (hmapping : isMapping first = true)
    (hcurrent : Bounded (advance start first)) (rest : List Token) :
    appendFirstMapping (front ++ render ts) prev start
        (first.flatten ++ (separator rest ++ render rest)) =
      front ++ render (ts ++
        .segment (fieldsBetween prev (advance start first) ++ first.drop 4) :: rest) := by
  obtain ⟨hfields, -⟩ := hfirst
  obtain ⟨column, source, line, originalColumn, names, rfl⟩ : ∃ column source line originalColumn
      names, first = column :: source :: line :: originalColumn :: names := by
    rcases first with _ | ⟨column, _ | ⟨source, _ | ⟨line, _ | ⟨originalColumn, names⟩⟩⟩⟩
    · cases hmapping
    · cases hmapping
    · cases hmapping
    · cases hmapping
    · exact ⟨_, _, _, _, _, rfl⟩
  have hread : ∀ {front field tail : Bytes}, IsField field →
      decode (front ++ (field ++ tail)) front.length =
        { value := fieldValue field, start := front.length + field.length } :=
    fun hfield => decode_of_drop hfield drop_left
  have h₁ := @hread [] _
    (source ++ (line ++ (originalColumn ++ (names.flatten ++ (separator rest ++ render rest)))))
    (hfields column (by simp))
  have h₂ := @hread column _
    (line ++ (originalColumn ++ (names.flatten ++ (separator rest ++ render rest))))
    (hfields source (by simp))
  have h₃ := @hread (column ++ source) _
    (originalColumn ++ (names.flatten ++ (separator rest ++ render rest)))
    (hfields line (by simp))
  have h₄ := @hread (column ++ (source ++ line)) _
    (names.flatten ++ (separator rest ++ render rest)) (hfields originalColumn (by simp))
  have hrest := @drop_left _ (column ++ (source ++ (line ++ originalColumn)))
    (names.flatten ++ (separator rest ++ render rest))
  simp only [nil_append, append_assoc, length_nil, length_append,
    zero_add, ← add_assoc] at h₁ h₂ h₃ h₄ hrest
  have hwrite := appendMappingToBuffer_render hfront hts hprev hcurrent names rest
  rw [appendMappingToBuffer_eq] at hwrite
  unfold appendFirstMapping
  simp only [flatten_cons, append_assoc, h₁, h₂, h₃, h₄, hrest]
  simp only [append_assoc] at hwrite
  exact hwrite

/-! ## The chunk -/

theorem render_newlines_append (n : ℕ) (ts : List Token) :
    render (replicate n newline ++ ts) = replicate n (b ';') ++ render ts := by
  rw [render_append, render_newlines, joint, endsInSegment_newlines]
  rfl

theorem render_append_newlines (ts : List Token) (n : ℕ) :
    render (ts ++ replicate n newline) = render ts ++ replicate n (b ';') := by
  have hjoint : joint ts (replicate n newline) = [] := by
    unfold joint
    split
    · cases n <;> rfl
    · rfl
  rw [render_append, hjoint, render_newlines, nil_append]

/-- The leading `;` of a chunk are copied. -/
theorem appendSourceMapChunk_newlines (j : Bytes) (prev start : SourceMapState) (n : ℕ)
    {c : UInt8} (hc : c ≠ b ';') (cs : Bytes) :
    appendSourceMapChunk j prev start (replicate n (b ';') ++ c :: cs) =
      appendFirstMapping
        (j ++ replicate start.generatedLine.toNat (b ';') ++ replicate n (b ';'))
        (if start.generatedLine ≠ 0 ∨ n ≠ 0 then { prev with generatedColumn := 0 } else prev)
        (if n ≠ 0 then { start with generatedColumn := 0 } else start) (c :: cs) := by
  have hsemicolons : ((replicate n (b ';') ++ c :: cs).takeWhile (· == b ';')).length = n := by
    rw [takeWhile_append_of_pos (by simp), takeWhile_cons_of_neg (by simpa using hc),
      append_nil, length_replicate]
  have htake : (replicate n (b ';') ++ c :: cs).take n = replicate n (b ';') := by
    rw [take_left' length_replicate]
  have hdrop : (replicate n (b ';') ++ c :: cs).drop n = c :: cs := by
    rw [drop_left' length_replicate]
  unfold appendSourceMapChunk
  dsimp only
  rw [hsemicolons, htake, hdrop]
  by_cases hline : start.generatedLine = 0
  · rcases Nat.eq_zero_or_pos n with rfl | hn
    · simp [hline]
    · have hne : n ≠ 0 := by omega
      simp [hline, hne, hn]
  · rcases Nat.eq_zero_or_pos n with rfl | hn
    · simp [hline]
    · have hne : n ≠ 0 := by omega
      simp [hline, hne, hn]

theorem endPosition_bounded {sourcesCount : ℤ} (hp : Bounded p)
    {ts : List Token} (hread : Readable sourcesCount p ts) : Bounded (endPosition p ts) := by
  induction ts generalizing p with
  | nil => exact hp
  | cons t ts ih =>
    cases t with
    | newline => exact ih (bounded_newline hp) hread
    | segment fields => exact ih (hread.1.bounded hp) hread.2

/-- A chunk that starts with a mapping, behind lines without one. -/
def StartsWithMapping (ts : List Token) : Prop :=
  ∃ n first rest, ts = replicate n newline ++ segment first :: rest ∧
    isMapping first = true

/-- Where a chunk starts behind a text. -/
def chunkStart (ts : List Token) (start : SourceMapState) : SourceMapState :=
  { start with generatedLine := (endPosition {} ts).generatedLine + start.generatedLine }

theorem advance_line (p : SourceMapState) (line : ℤ) (fields : List Bytes) :
    advance { p with generatedLine := line } fields =
      { advance p fields with generatedLine := line } := by
  unfold advance
  split <;> rfl

/-- The position behind line breaks, but for the line. -/
theorem endPosition_line_breaks (p : SourceMapState) (n : ℕ) :
    endPosition p (replicate n newline) =
      { (if n ≠ 0 then { p with generatedColumn := 0 } else p : SourceMapState) with
        generatedLine := p.generatedLine + n } := by
  rw [endPosition_newlines]
  by_cases hn : n = 0
  · simp [hn]
  · simp [hn]

theorem bounded_line_start (hp : Bounded p) (P : Prop) [Decidable P] :
    Bounded (if P then { p with generatedColumn := 0 } else p) := by
  split
  · exact ⟨⟨le_rfl, show (0 : ℤ) ≤ i32Max by decide⟩, hp.sourceIndex, hp.originalLine,
      hp.originalColumn⟩
  · exact hp

/-- The chunk `ts₂` behind the text `ts₁`: its first mapping is put relative to the end of `ts₁`,
and leads to the same position as before. -/
theorem appendSourceMapChunk_render {front : Bytes} (hfront : Opens front) {ts₁ ts₂ : List Token}
    (h₁ : IsText ts₁) (h₂ : IsText ts₂) (hchunk : StartsWithMapping ts₂) {sourcesCount : ℤ}
    (hread₁ : Readable sourcesCount {} ts₁)
    (hprev : { prev with generatedLine := (endPosition {} ts₁).generatedLine } =
      endPosition {} ts₁)
    (hline : 0 ≤ start.generatedLine) (hstart : Bounded start)
    (hread₂ : Readable sourcesCount (chunkStart ts₁ start) ts₂) :
    ∃ ts, appendSourceMapChunk (front ++ render ts₁) prev start (render ts₂) =
        front ++ render ts ∧ IsText ts ∧ Readable sourcesCount {} ts ∧
      positions {} ts = positions {} ts₁ ++ positions (chunkStart ts₁ start) ts₂ := by
  obtain ⟨n, first, rest, rfl, hmapping⟩ := hchunk
  have hfirst : IsSegment first := h₂ first (by simp)
  have hrest : IsText rest := fun fields hfields => h₂ fields (by simp [hfields])
  obtain ⟨-, hin, hread⟩ := readable_append.1 hread₂
  -- the position in front of the first mapping, on both sides
  generalize hprev' : (if start.generatedLine ≠ 0 ∨ n ≠ 0 then { prev with generatedColumn := 0 }
    else prev : SourceMapState) = prev'
  generalize hstart' : (if n ≠ 0 then { start with generatedColumn := 0 }
    else start : SourceMapState) = start'
  have hsum : (start.generatedLine.toNat : ℤ) = start.generatedLine := Int.toNat_of_nonneg hline
  have hfrom : endPosition {} (ts₁ ++ replicate (start.generatedLine.toNat + n) newline) =
      { prev' with
        generatedLine := (endPosition {} ts₁).generatedLine + start.generatedLine + n } := by
    have hzero : start.generatedLine.toNat + n ≠ 0 ↔ start.generatedLine ≠ 0 ∨ n ≠ 0 := by omega
    rw [endPosition_append, endPosition_line_breaks, ← hprev']
    simp only [hzero]
    rw [← hprev]
    split <;> simp [hsum, add_assoc]
  have hto : endPosition (chunkStart ts₁ start) (replicate n newline) =
      { start' with
        generatedLine := (endPosition {} ts₁).generatedLine + start.generatedLine + n } := by
    rw [endPosition_line_breaks, ← hstart']
    split <;> rfl
  rw [hto, advance_line] at hin hread
  have hboundedPrev : Bounded prev' := by
    have hend := endPosition_bounded bounded_zero hread₁
    rw [← hprev] at hend
    rw [← hprev']
    exact bounded_line_start (hend.onLine prev.generatedLine) _
  have hboundedStart : Bounded start' := hstart' ▸ bounded_line_start hstart _
  have hboundedFirst : Bounded (advance start' first) := by
    rw [← advance_line] at hin
    have hbounded := hin.bounded (hboundedStart.onLine _)
    rw [advance_line] at hbounded
    exact hbounded.onLine (advance start' first).generatedLine
  have hnames : IsSegment (fieldsBetween prev' (advance start' first) ++ first.drop 4) := by
    refine isSegment_between hboundedPrev hboundedFirst
      (fun name hname => hfirst.isField name (mem_of_mem_drop hname)) ?_
    have hlength := hfirst.length
    rw [length_drop]
    omega
  have hmapping' : isMapping (fieldsBetween prev' (advance start' first) ++ first.drop 4) = true :=
    decide_eq_true (by simp [fieldsBetween])
  have hadvance : advance (endPosition {} (ts₁ ++
      replicate (start.generatedLine.toNat + n) newline))
        (fieldsBetween prev' (advance start' first) ++ first.drop 4) =
      { advance start' first with
        generatedLine := (endPosition {} ts₁).generatedLine + start.generatedLine + n } := by
    rw [hfrom, advance_line, advance_between hboundedPrev hboundedFirst]
  have hadvance' : advance (endPosition (chunkStart ts₁ start) (replicate n newline)) first =
      { advance start' first with
        generatedLine := (endPosition {} ts₁).generatedLine + start.generatedLine + n } := by
    rw [hto, advance_line]
  refine ⟨(ts₁ ++ replicate (start.generatedLine.toNat + n) newline) ++
    .segment (fieldsBetween prev' (advance start' first) ++ first.drop 4) :: rest, ?_, ?_, ?_, ?_⟩
  · obtain ⟨c, cs, hcons⟩ := exists_cons_of_ne_nil hfirst.flatten_ne_nil
    have hc : c ≠ b ';' := by
      have hmem : c ∈ first.flatten := hcons ▸ mem_cons_self
      obtain ⟨field, hfield, hmem⟩ := mem_flatten.1 hmem
      exact ((hfirst.isField field hfield).mem_ne hmem).2.1
    have hwrite := appendFirstMapping_render hfront
      (h₁.append (isText_newlines (start.generatedLine.toNat + n))) hboundedPrev hfirst hmapping
      hboundedFirst rest
    rw [render_newlines_append, render, hcons, cons_append,
      appendSourceMapChunk_newlines _ _ _ _ hc, hprev', hstart', ← cons_append, ← hcons,
      ← hwrite, render_append_newlines, ← replicate_append_replicate]
    simp only [append_assoc]
  · exact (h₁.append (isText_newlines _)).append (isText_cons hnames hrest)
  · refine readable_append.2 ⟨readable_append.2 ⟨hread₁, readable_newlines _ _ _⟩, ?_⟩
    rw [Readable, hadvance]
    exact ⟨⟨hin.generatedColumn, fun _ => hin.sourceIndex hmapping,
      fun _ => hin.originalLine hmapping, fun _ => hin.originalColumn hmapping⟩, hread⟩
  · rw [positions_append, positions_append, positions_newlines, append_nil, positions,
      hadvance, if_pos hmapping', positions_append, positions_newlines, nil_append, positions,
      hadvance', if_pos hmapping]

/-- What `parse` has of the text that a chunk was appended to: the mappings of the text, and those
of the chunk, shifted to where it starts. -/
theorem appendSourceMapChunk_decodes {kernel : Kernel} (hkernel : kernel.Resumes)
    {front : Bytes} (hfront : Opens front) {ts₁ ts₂ : List Token} (h₁ : IsText ts₁)
    (h₂ : IsText ts₂) (hchunk : StartsWithMapping ts₂) {sourcesCount : ℤ}
    {prev start : SourceMapState} (hread₁ : Readable sourcesCount {} ts₁)
    (hprev : { prev with generatedLine := (endPosition {} ts₁).generatedLine } =
      endPosition {} ts₁)
    (hline : 0 ≤ start.generatedLine) (hstart : Bounded start)
    (hread₂ : Readable sourcesCount (chunkStart ts₁ start) ts₂) :
    ∃ out, appendSourceMapChunk (front ++ render ts₁) prev start (render ts₂) = front ++ out ∧
      ∀ options, ∃ ms, parse kernel out sourcesCount options = .ok ms ∧
        ms.map Mapping.state = sorted options
          (positions {} ts₁ ++ (positions {} ts₂).map (chunkStart ts₁ start).shifted) := by
  obtain ⟨ts, hout, hts, hread, hpositions⟩ :=
    appendSourceMapChunk_render hfront h₁ h₂ hchunk hread₁ hprev hline hstart hread₂
  refine ⟨render ts, hout, fun options => ?_⟩
  have hshifted := @positions_shifted (chunkStart ts₁ start) {} le_rfl ts₂
  rw [shifted_zero] at hshifted
  rw [← hshifted, ← hpositions]
  exact parse_render hkernel options hts hread

/-- A chunk whose mapping is in the second column of its second line, on the line after the text. -/
theorem appendSourceMapChunk_decodes_two : ∃ out,
    appendSourceMapChunk (b '"' :: render [.segment (fieldsBetween {} { generatedColumn := 3 })])
        { generatedColumn := 3 } { generatedLine := 1, sourceIndex := 1 }
        (render [.newline, .segment (fieldsBetween {} { generatedColumn := 2 })]) = b '"' :: out ∧
      ∃ ms, parse Kernel.idle out 2 {} = .ok ms ∧ ms.map Mapping.state =
        [{ generatedColumn := 3 },
          { generatedLine := 2, generatedColumn := 2, sourceIndex := 1 }] := by
  have hsegment : ∀ column : ℤ, IsCoordinate column →
      IsSegment (fieldsBetween {} { generatedColumn := column }) := fun column h =>
    @isSegment_between {} { generatedColumn := column } bounded_zero
      ⟨h, bounded_zero.sourceIndex, bounded_zero.originalLine, bounded_zero.originalColumn⟩ []
      (by simp) (Nat.zero_le 1)
  have hfirst : IsText [.segment (fieldsBetween {} { generatedColumn := 3 })] :=
    isText_segment (hsegment _ (by decide))
  have hsecond : IsText [.newline, .segment (fieldsBetween {} { generatedColumn := 2 })] :=
    (isText_newlines 1).append (isText_segment (hsegment _ (by decide)))
  obtain ⟨out, hout, hall⟩ := @appendSourceMapChunk_decodes Kernel.idle Kernel.idle_resumes [b '"']
    (Or.inr rfl) _ _ hfirst hsecond ⟨1, _, [], rfl, by decide⟩ 2 { generatedColumn := 3 }
    { generatedLine := 1, sourceIndex := 1 }
    ⟨⟨by decide, fun _ => by decide, fun _ => by decide, fun _ => by decide⟩, trivial⟩
    (by decide) (by decide) ⟨by decide, by decide, by decide, by decide⟩
    ⟨⟨by decide, fun _ => by decide, fun _ => by decide, fun _ => by decide⟩, trivial⟩
  obtain ⟨ms, hparse, hms⟩ := hall {}
  exact ⟨out, hout, ms, hparse, hms.trans (by decide)⟩

end Soup.SourceMap
