import Soup.SourceMap.OriginalPosition

/-!
# Do the line and column trackers agree?

`endOf` is the position behind a text, a character at a time. `advance` has it (`advance_utf8`) and
so has the last row of the line offset table (`generate_utf8`). The builder of a chunk looks for the
line feed of a Windows newline one byte too far (`skewedEndOf`): it has the position if and only if
no line feed is one or two bytes behind a carriage return (`trackersAgree_iff`).
-/

namespace Soup.SourceMap

open List

/-! ## The position behind a text -/

/-- The position behind a text. -/
def endOf : LineColumnOffset → List Char → LineColumnOffset
  | p, [] => p
  | p, c :: t =>
    endOf (if endsLine c t then { lines := p.lines + 1, columns := 0 }
      else { p with columns := p.columns + utf16Width c.val.toNat }) t

theorem endOf_append_plain : ∀ {ps : List Char}, ps.all isPlain = true →
    ∀ (p : LineColumnOffset) (t : List Char),
      endOf p (ps ++ t) = endOf { p with columns := p.columns + ps.length } t
  | [], _, p, t => by simp
  | c :: ps, h, p, t => by
    rw [all_cons, Bool.and_eq_true] at h
    have hends : endsLine c (ps ++ t) = false := by
      rw [endsLine, isNewline_of_plain h.1, Bool.false_and]
    rw [cons_append, endOf, hends, if_neg Bool.false_ne_true, utf16Width_of_plain h.1,
      endOf_append_plain h.2]
    congr 2
    show p.columns + 1 + (ps.length : ℤ) = p.columns + ((ps.length + 1 : ℕ) : ℤ)
    omega

theorem advance_utf8 (t : List Char) (p : LineColumnOffset) : p.advance (utf8 t) = endOf p t := by
  rw [LineColumnOffset.advance]
  rcases plain_or_append t with h | ⟨ps, c, rest, rfl, hps, hc⟩
  · obtain ⟨hindex, hlen⟩ := indexOfNewlineOrNonAscii_plain h
    have hend := endOf_append_plain h p []
    rw [append_nil] at hend
    split
    · rw [hlen, hend, endOf]
    · next heq => cases hindex.symm.trans heq
  · obtain ⟨hindex, hdrop⟩ := indexOfNewlineOrNonAscii_append hc rest hps
    split
    · next heq => cases hindex.symm.trans heq
    next i heq =>
    obtain rfl := Option.some.inj (hindex.symm.trans heq)
    have hwidth : (String.utf8EncodeChar c).length ≠ 0 := fun h =>
      String.utf8EncodeChar_ne_nil (eq_nil_of_length_eq_zero h)
    rw [endOf_append_plain hps]
    simp only [hdrop, nextCodepoint_utf8, if_neg hwidth, drop_utf8_cons, second_byte_iff]
    rw [endOf]
    by_cases hn : isNewline c.val.toNat = true
    · by_cases hw : c = '\r' ∧ rest.head? = some '\n'
      · have hends : ¬ endsLine c rest = true := fun h => ((endsLine_iff c rest).1 h).2 hw
        rw [if_pos hn, if_pos hw, if_neg hends, advance_utf8 rest, hw.1]
        rfl
      · rw [if_pos hn, if_neg hw, if_pos ((endsLine_iff c rest).2 ⟨hn, hw⟩), advance_utf8 rest]
    · have hends : ¬ endsLine c rest = true := fun h => hn ((endsLine_iff c rest).1 h).1
      rw [if_neg hn, if_neg hends, advance_utf8 rest]
  termination_by t.length
  decreasing_by
    all_goals
      subst_vars
      simp only [length_append, length_cons]
      omega

/-! ## The builder of a chunk -/

/-- The position the builder has behind a text. A carriage return with a line feed two bytes behind
it is passed over, and one right in front of a line feed ends a line. -/
def skewedEndOf : LineColumnOffset → List Char → LineColumnOffset
  | p, [] => p
  | p, c :: t =>
    skewedEndOf (if c = '\r' ∧ lineFeedNext t then p
      else if isNewline c.val.toNat then { lines := p.lines + 1, columns := 0 }
      else { p with columns := p.columns + utf16Width c.val.toNat }) t

variable {c : Char}

/-- The character in front of the next step of the builder, which passes it. -/
theorem skewedEndOf_cons (hc : isNewline c.val.toNat = false) (p : LineColumnOffset)
    (t : List Char) : skewedEndOf p (c :: t) =
      skewedEndOf { p with columns := p.columns + utf16Width c.val.toNat } t := by
  have hcr : ¬ (c = '\r' ∧ lineFeedNext t = true) := by
    rintro ⟨rfl, _⟩
    exact Bool.noConfusion hc
  rw [skewedEndOf, if_neg hcr, hc, if_neg Bool.false_ne_true]

theorem skewedEndOf_append_plain : ∀ {ps : List Char}, ps.all isPlain = true →
    ∀ (p : LineColumnOffset) (t : List Char),
      skewedEndOf p (ps ++ t) = skewedEndOf { p with columns := p.columns + ps.length } t
  | [], _, p, t => by simp
  | c :: ps, h, p, t => by
    rw [all_cons, Bool.and_eq_true] at h
    rw [cons_append, skewedEndOf_cons (isNewline_of_plain h.1), utf16Width_of_plain h.1,
      skewedEndOf_append_plain h.2]
    congr 2
    show p.columns + 1 + (ps.length : ℤ) = p.columns + ((ps.length + 1 : ℕ) : ℤ)
    omega

namespace NewBuilder

variable {b : NewBuilder}

/-- The generated position. -/
def position (b : NewBuilder) : LineColumnOffset where
  lines := b.prevState.generatedLine
  columns := b.generatedColumn

theorem position_addColumns (b : NewBuilder) (n : ℤ) : (b.addColumns n).position =
    { b.position with columns := b.position.columns + n } :=
  rfl

theorem position_newLine (b : NewBuilder) (needsMapping : Bool) :
    ((b.coverLine needsMapping).newLine).position =
      { lines := b.position.lines + 1, columns := 0 } := by
  cases needsMapping <;> rfl

theorem updateSlowLoop_utf8 : ∀ (t : List Char) (b : NewBuilder) (needsMapping : Bool),
    (b.updateSlowLoop needsMapping (utf8 t)).position = skewedEndOf b.position t
  | [], b, _ => by
    rw [utf8_nil, updateSlowLoop, skewedEndOf]
  | c :: t, b, needsMapping => by
    obtain ⟨first, tail, heq, henc⟩ := encodes_utf8EncodeChar c (utf8 t)
    have hdrop := drop_utf8_cons c t
    rw [utf8_cons, heq] at hdrop
    rw [utf8_cons, heq, updateSlowLoop]
    simp only [henc.length_eq, henc.decode, hdrop]
    by_cases hskip : 14 ≤ (c.val.toNat : ℤ) ∧ (c.val.toNat : ℤ) ≤ 127
    · have hn : isNewline c.val.toNat = false := by
        simp only [isNewline, Bool.or_eq_false_iff, decide_eq_false_iff_not]
        omega
      have hwidth : utf16Width c.val.toNat = 1 := by rw [utf16Width, if_neg (by omega)]
      rw [if_pos hskip, skewedEndOf_cons hn, hwidth]
      rcases plain_or_append t with h | ⟨ps, d, rest, rfl, hps, hd⟩
      · obtain ⟨hindex, hlen⟩ := indexOfNewlineOrNonAscii_plain h
        have hend := skewedEndOf_append_plain h
          { b.position with columns := b.position.columns + 1 } []
        rw [append_nil, skewedEndOf] at hend
        have hcolumns : b.position.columns + ((t.length : ℤ) + 1) =
            b.position.columns + 1 + t.length := by omega
        rw [hindex, hend]
        simp only [position_addColumns, hlen, hcolumns]
      · obtain ⟨hindex, hdrop⟩ := indexOfNewlineOrNonAscii_append hd rest hps
        rw [hindex, skewedEndOf_append_plain hps]
        simp only [hdrop]
        have hcolumns : b.position.columns + ((ps.length : ℤ) + 1) =
            b.position.columns + 1 + ps.length := by omega
        rw [updateSlowLoop_utf8 (d :: rest)]
        simp only [position_addColumns, hcolumns]
    · rw [if_neg hskip, skewedEndOf]
      simp only [val_toNat_eq_thirteen, getElem?_one_utf8]
      by_cases hn : isNewline c.val.toNat = true
      · rw [if_pos hn]
        by_cases hcr : c = '\r' ∧ lineFeedNext t = true
        · rw [if_pos hcr, if_pos hcr, updateSlowLoop_utf8 t]
        · rw [if_neg hcr, if_neg hcr, if_pos hn, updateSlowLoop_utf8 t, position_newLine]
      · have hcr : ¬ (c = '\r' ∧ lineFeedNext t = true) := by
          rintro ⟨rfl, _⟩
          exact hn rfl
        rw [if_neg hn, if_neg hcr, if_neg hn, updateSlowLoop_utf8 t, position_addColumns]
  termination_by t => t.length
  decreasing_by
    all_goals
      subst_vars
      simp only [length_append, length_cons]
      omega

theorem pureAscii_iff {slice : Bytes} :
    (if slice.length < 16 then !slice.any isNewlineOrNonAscii
      else decide (indexOfNewlineOrNonAscii slice = none)) = true ↔
      indexOfNewlineOrNonAscii slice = none := by
  split_ifs
  · rw [indexOfNewlineOrNonAscii, findIdx?_eq_none_iff, Bool.not_eq_true', any_eq_false]
    simp only [Bool.not_eq_true]
  · exact decide_eq_true_iff

/-- The fast and the slow path together, on what was written since the last update. -/
theorem updateGeneratedLineAndColumn_utf8 (before t : List Char)
    (h : b.lastGeneratedUpdate = (utf8 before).length) :
    (b.updateGeneratedLineAndColumn (utf8 (before ++ t))).position = skewedEndOf b.position t ∧
      (b.updateGeneratedLineAndColumn (utf8 (before ++ t))).lastGeneratedUpdate =
        (utf8 (before ++ t)).length := by
  refine ⟨?_, rfl⟩
  have hslice : (utf8 (before ++ t)).drop b.lastGeneratedUpdate = utf8 t := by
    rw [h, utf8_append, drop_left]
  rw [updateGeneratedLineAndColumn]
  simp only [hslice]
  rcases plain_or_append t with hplain | ⟨ps, c, rest, rfl, hps, hc⟩
  · obtain ⟨hindex, hlen⟩ := indexOfNewlineOrNonAscii_plain hplain
    have hend := skewedEndOf_append_plain hplain b.position []
    rw [append_nil, skewedEndOf] at hend
    rw [if_pos (pureAscii_iff.2 hindex), hend, ← hlen]
    rfl
  · obtain ⟨hindex, _⟩ := indexOfNewlineOrNonAscii_append hc rest hps
    rw [if_neg (fun hpure => by cases (pureAscii_iff.1 hpure).symm.trans hindex)]
    exact updateSlowLoop_utf8 _ b _

end NewBuilder

/-! ## The line offset table -/

namespace LineOffsetTable

/-- The position behind a text. A text without line breaks goes on with the line of `p`. -/
theorem endOf_eq : ∀ (t : List Char) (p : LineColumnOffset),
    (endOf p t).lines = p.lines + lineBreaks t [] ∧
      (endOf p t).columns = (if lineBreaks t [] = 0 then p.columns else 0) +
        utf16Length (lineTo t [])
  | [], p => by simp [endOf, lineBreaks, lineTo, utf16Length]
  | c :: t, p => by
    obtain ⟨hlines, hcolumns⟩ := endOf_eq t (if endsLine c t then
      { lines := p.lines + 1, columns := 0 }
      else { p with columns := p.columns + utf16Width c.val.toNat })
    rw [endOf, hlines, hcolumns, lineTo, lineBreaks, append_nil]
    cases hends : endsLine c t with
    | true =>
      simp only [if_true, Bool.toNat_true, ite_self, Nat.add_eq_zero_iff, one_ne_zero, false_and,
        if_false, Int.natCast_add, Int.natCast_one, Int.add_assoc]
      exact ⟨trivial, trivial⟩
    | false =>
      simp only [Bool.false_eq_true, if_false, Bool.toNat_false, zero_add, true_and]
      split_ifs with hnone
      · have hline : lineTo t [] = t := lineTo_append hnone []
        have hlength := utf16Length_append [c] t
        rw [utf16Length_singleton, singleton_append] at hlength
        rw [hline, hlength, utf16Width_eq]
        omega
      · rfl

theorem column_eq {row : LineOffsetTable} {start : ℕ} {v : ℤ}
    (h : row.originalColumn start = some v) (hle : row.byteOffsetToStartOfLine ≤ start) :
    row.column start = v := by
  have hoffset : ((start : ℤ) - row.byteOffsetToStartOfLine) =
      (start - row.byteOffsetToStartOfLine : ℕ) := by omega
  simp only [LineOffsetTable.originalColumn, hoffset] at h
  rw [LineOffsetTable.column]
  cases hfirst : row.byteOffsetToFirstNonAscii with
  | none =>
    rw [hfirst] at h
    exact Option.some.inj h
  | some f =>
    simp only [hfirst, ge_iff_le, Int.ofNat_le] at h ⊢
    split_ifs at h ⊢ with hf
    · have hindex : (((start - row.byteOffsetToStartOfLine : ℕ) : ℤ) - f).toNat =
          start - row.byteOffsetToStartOfLine - f := by omega
      rw [hindex] at h
      rw [getD_eq_getElem?_getD, h]
      rfl
    · exact Option.some.inj h

/-- The rows are the lines, and the last one has the column of the end. -/
theorem generate_utf8 (t : List Char) : ((generate (utf8 t)).length : ℤ) = (endOf {} t).lines + 1 ∧
    ∃ row, (generate (utf8 t)).getLast? = some row ∧
      row.column (utf8 t).length = (endOf {} t).columns := by
  obtain ⟨hread, hlength⟩ := generate_reads t
  obtain ⟨hlines, hcolumns⟩ := endOf_eq t {}
  have hi : lineBreaks t [] < (generate (utf8 t)).length := by omega
  have hrow := hread t [] _ (append_nil t) (getElem?_eq_getElem hi)
  have hstart := hrow.start
  refine ⟨?_, (generate (utf8 t))[lineBreaks t []], ?_, ?_⟩
  · rw [hlines, hlength]
    simp
  · rw [getLast?_eq_getElem?, hlength, Nat.add_sub_cancel, getElem?_eq_getElem hi]
  · rw [column_eq hrow.column (by omega), hcolumns]
    simp

end LineOffsetTable

/-! ## Pieces -/

/-- The pieces of a text are not cut between a carriage return and a line feed. -/
def Admissible (pieces : List (List Char)) : Prop :=
  ∀ before after, pieces = before ++ after →
    ¬ (before.flatten.getLast? = some '\r' ∧ after.flatten.head? = some '\n')

/-- `advance` over the pieces. -/
def advanceAll (p : LineColumnOffset) (pieces : List (List Char)) : LineColumnOffset :=
  pieces.foldl (fun p piece => p.advance (utf8 piece)) p

/-- The updates of the builder while the pieces are written behind `before`. -/
def NewBuilder.updateAll : NewBuilder → List Char → List (List Char) → NewBuilder
  | b, _, [] => b
  | b, before, piece :: pieces =>
    (b.updateGeneratedLineAndColumn (utf8 (before ++ piece))).updateAll (before ++ piece) pieces

theorem endOf_append : ∀ {s t : List Char}, ¬ (s.getLast? = some '\r' ∧ t.head? = some '\n') →
    ∀ p, endOf p (s ++ t) = endOf (endOf p s) t
  | [], _, _, _ => rfl
  | [c], t, h, p => by
    have hends : endsLine c t = endsLine c [] := by
      by_cases hc : c = '\r'
      · have hne : t.head? ≠ some '\n' := fun ht => h ⟨by rw [hc]; rfl, ht⟩
        simp [endsLine, hne]
      · simp [endsLine, hc]
    rw [singleton_append, endOf, hends]
    rfl
  | c :: d :: s, t, h, p => by
    rw [getLast?_cons_cons] at h
    rw [cons_append, endOf, endOf_append h]
    rfl

/-- From a position behind `before`, the pieces one by one are as good as their text. -/
theorem foldl_endOf : ∀ {pieces : List (List Char)} {before : List Char} {p : LineColumnOffset},
    (∀ xs ys, pieces = xs ++ ys →
      ¬ ((before ++ xs.flatten).getLast? = some '\r' ∧ ys.flatten.head? = some '\n')) →
    pieces.foldl endOf (endOf p before) = endOf p (before ++ pieces.flatten)
  | [], before, p, _ => by simp
  | piece :: pieces, before, p, h => by
    have hcut : ¬ (before.getLast? = some '\r' ∧ piece.head? = some '\n') := by
      rintro ⟨hlast, hhead⟩
      refine h [] (piece :: pieces) rfl ⟨by simpa using hlast, ?_⟩
      rw [flatten_cons, head?_append, hhead]
      rfl
    rw [foldl_cons, ← endOf_append hcut, flatten_cons, ← append_assoc]
    refine foldl_endOf fun xs ys hxs => ?_
    have := h (piece :: xs) ys (by rw [hxs]; rfl)
    rwa [flatten_cons, ← append_assoc] at this

variable {pieces : List (List Char)}

theorem advanceAll_eq (h : Admissible pieces) :
    advanceAll {} pieces = endOf {} pieces.flatten := by
  have hfold := @foldl_endOf pieces [] {} fun xs ys hxs => by simpa using h xs ys hxs
  rw [nil_append] at hfold
  rw [← hfold]
  simp only [advanceAll, advance_utf8]
  rfl

theorem updateAll_position : ∀ (pieces : List (List Char)) {b : NewBuilder} {before : List Char},
    b.lastGeneratedUpdate = (utf8 before).length →
    (b.updateAll before pieces).position = pieces.foldl skewedEndOf b.position
  | [], _, _, _ => rfl
  | piece :: pieces, b, before, h => by
    obtain ⟨hposition, hlast⟩ := NewBuilder.updateGeneratedLineAndColumn_utf8 before piece h
    rw [NewBuilder.updateAll, updateAll_position pieces hlast, hposition, foldl_cons]

/-! ## Agreement -/

/-- A line feed is one or two bytes behind a carriage return. -/
def LineFeedNear (t : List Char) : Prop :=
  ∃ before after, t = before ++ '\r' :: after ∧
    ((utf8 after)[0]? = some 0x0A ∨ (utf8 after)[1]? = some 0x0A)

theorem lineFeedNear_iff (t : List Char) : LineFeedNear t ↔ ∃ before after,
    t = before ++ '\r' :: after ∧ (after.head? = some '\n' ∨ lineFeedNext after = true) := by
  simp only [LineFeedNear, ← head?_eq_getElem?, head?_utf8, getElem?_one_utf8]

theorem LineFeedNear.mono {s t u : List Char} (h : LineFeedNear s) :
    LineFeedNear (t ++ s ++ u) := by
  obtain ⟨before, after, rfl, hfeed⟩ := h
  refine ⟨t ++ before, after ++ u, by simp, ?_⟩
  rw [utf8_append]
  refine hfeed.imp (fun h => ?_) fun h => ?_
  all_goals
    obtain ⟨hlt, heq⟩ := List.getElem?_eq_some_iff.1 h
    rw [getElem?_append_left hlt, h]

/-- Where no line feed is near the builder has the right position. -/
theorem skewedEndOf_eq : ∀ {t : List Char}, ¬ LineFeedNear t →
    ∀ p, skewedEndOf p t = endOf p t
  | [], _, _ => rfl
  | c :: t, h, p => by
    have htail : ¬ LineFeedNear t := fun ht => h (by simpa using ht.mono (t := [c]) (u := []))
    have hfeed : c = '\r' → ¬ (t.head? = some '\n' ∨ lineFeedNext t = true) := by
      rintro rfl hfeed
      exact h ((lineFeedNear_iff _).2 ⟨[], t, rfl, hfeed⟩)
    have hends : endsLine c t = isNewline c.val.toNat := by
      rw [Bool.eq_iff_iff, endsLine_iff]
      exact and_iff_left fun hw => hfeed hw.1 (Or.inl hw.2)
    rw [skewedEndOf, if_neg (fun hw => hfeed hw.1 (Or.inr hw.2)), endOf, hends,
      skewedEndOf_eq htail]

/-- The builder of a chunk before the first update. -/
structure NewBuilder.Fresh (b : NewBuilder) : Prop where
  lastGeneratedUpdate : b.lastGeneratedUpdate = 0
  position : b.position = {}

/-- Every tracker has the same position behind the text, also in pieces. -/
structure TrackersAgree (t : List Char) : Prop where
  builder : ∀ b : NewBuilder, b.Fresh →
    (b.updateGeneratedLineAndColumn (utf8 t)).position = LineColumnOffset.advance {} (utf8 t)
  table : ((LineOffsetTable.generate (utf8 t)).length : ℤ) =
      (LineColumnOffset.advance {} (utf8 t)).lines + 1 ∧
    ∃ row, (LineOffsetTable.generate (utf8 t)).getLast? = some row ∧
      row.column (utf8 t).length = (LineColumnOffset.advance {} (utf8 t)).columns
  advancePieces : ∀ pieces, pieces.flatten = t → Admissible pieces →
    advanceAll {} pieces = LineColumnOffset.advance {} (utf8 t)
  builderPieces : ∀ pieces, pieces.flatten = t → Admissible pieces → ∀ b : NewBuilder, b.Fresh →
    (b.updateAll [] pieces).position = (b.updateGeneratedLineAndColumn (utf8 t)).position

theorem NewBuilder.Fresh.update {b : NewBuilder} (h : b.Fresh) (t : List Char) :
    (b.updateGeneratedLineAndColumn (utf8 t)).position = skewedEndOf {} t := by
  have := (updateGeneratedLineAndColumn_utf8 [] t h.lastGeneratedUpdate).1
  rwa [h.position] at this

theorem foldl_skewedEndOf : ∀ {pieces : List (List Char)}, ¬ LineFeedNear pieces.flatten →
    ∀ p, pieces.foldl skewedEndOf p = pieces.foldl endOf p
  | [], _, _ => rfl
  | piece :: pieces, h, p => by
    have hpiece : ¬ LineFeedNear piece := fun hp => h (by
      simpa using hp.mono (t := []) (u := pieces.flatten))
    have hrest : ¬ LineFeedNear pieces.flatten := fun hr => h (by
      simpa using hr.mono (t := piece) (u := []))
    rw [foldl_cons, foldl_cons, skewedEndOf_eq hpiece, foldl_skewedEndOf hrest]

variable {t : List Char}

theorem trackersAgree_of_not_near (h : ¬ LineFeedNear t) : TrackersAgree t where
  builder b hb := by rw [hb.update, skewedEndOf_eq h, advance_utf8]
  table := by
    rw [advance_utf8]
    exact LineOffsetTable.generate_utf8 t
  advancePieces pieces hflatten hcut := by rw [advanceAll_eq hcut, hflatten, advance_utf8]
  builderPieces pieces hflatten hcut b hb := by
    have hfold := advanceAll_eq hcut
    simp only [advanceAll, advance_utf8] at hfold
    rw [hb.update, skewedEndOf_eq h, updateAll_position pieces hb.lastGeneratedUpdate, hb.position,
      foldl_skewedEndOf (by rwa [hflatten]), ← hflatten]
    exact hfold

/-! ## Counting lines -/

/-- The characters that satisfy `q` with what comes behind them. -/
def countBefore (q : Char → List Char → Bool) : List Char → ℕ
  | [] => 0
  | c :: t => (q c t).toNat + countBefore q t

/-- A carriage return that the builder passes over. -/
def isPassed (c : Char) (t : List Char) : Bool := c = '\r' && lineFeedNext t

/-- What ends a line for the builder. -/
def skewedEndsLine (c : Char) (t : List Char) : Bool := isNewline c.val.toNat && !isPassed c t

/-- The carriage return of a Windows newline. -/
def startsWindowsNewline (c : Char) (t : List Char) : Bool := c = '\r' && t.head? = some '\n'

theorem countBefore_pos {q : Char → List Char → Bool} {after : List Char}
    (h : q c after = true) : ∀ before, 0 < countBefore q (before ++ c :: after)
  | [] => by
    rw [nil_append, countBefore, h]
    exact Nat.lt_add_right _ one_pos
  | d :: before => Nat.lt_add_left _ (countBefore_pos h before)

theorem lines_endOf : ∀ (t : List Char) (p : LineColumnOffset),
    (endOf p t).lines = p.lines + countBefore endsLine t
  | [], p => by simp [endOf, countBefore]
  | c :: t, p => by
    rw [endOf, lines_endOf t, countBefore]
    cases endsLine c t
    · simp
    · simp only [if_true, Bool.toNat_true]
      omega

theorem lines_skewedEndOf : ∀ (t : List Char) (p : LineColumnOffset),
    (skewedEndOf p t).lines = p.lines + countBefore skewedEndsLine t
  | [], p => by simp [skewedEndOf, countBefore]
  | c :: t, p => by
    rw [skewedEndOf, lines_skewedEndOf t, countBefore, skewedEndsLine, isPassed]
    by_cases hp : c = '\r' ∧ lineFeedNext t = true
    · simp [hp]
    · have hpassed : (decide (c = '\r') && lineFeedNext t) = false := by
        rw [← Bool.not_eq_true, Bool.and_eq_true, decide_eq_true_iff]
        exact hp
      rw [if_neg hp, hpassed]
      cases isNewline c.val.toNat
      · simp
      · simp only [if_true, Bool.not_false, Bool.and_self, Bool.toNat_true]
        omega

theorem lines_foldl_skewedEndOf : ∀ (pieces : List (List Char)) (p : LineColumnOffset),
    (pieces.foldl skewedEndOf p).lines =
      p.lines + ((pieces.map (countBefore skewedEndsLine)).sum : ℕ)
  | [], p => by simp
  | piece :: pieces, p => by
    rw [foldl_cons, lines_foldl_skewedEndOf pieces, lines_skewedEndOf, map_cons, sum_cons]
    omega

/-- Without a Windows newline the builder misses the lines it passes over. -/
theorem countBefore_passed : ∀ {t : List Char}, countBefore startsWindowsNewline t = 0 →
    countBefore skewedEndsLine t + countBefore isPassed t = countBefore endsLine t
  | [], _ => rfl
  | c :: t, h => by
    rw [countBefore, Nat.add_eq_zero_iff] at h
    have ih := countBefore_passed h.2
    have hw : (decide (c = '\r') && decide (t.head? = some '\n')) = false := by
      simpa [startsWindowsNewline] using h.1
    have hc : (skewedEndsLine c t).toNat + (isPassed c t).toNat = (endsLine c t).toNat := by
      rw [skewedEndsLine, endsLine, hw, isPassed]
      by_cases hcr : c = '\r'
      · subst hcr
        cases lineFeedNext t <;> rfl
      · simp [hcr]
    simp only [countBefore]
    omega

/-- Cut wherever a text may be cut. -/
def finest : List Char → List (List Char)
  | [] => []
  | [c] => [[c]]
  | c :: d :: t => if c = '\r' ∧ d = '\n' then [c, d] :: finest t else [c] :: finest (d :: t)

theorem flatten_finest : ∀ t : List Char, (finest t).flatten = t
  | [] => rfl
  | [c] => rfl
  | c :: d :: t => by
    rw [finest]
    split_ifs
    · rw [flatten_cons, flatten_finest t]
      rfl
    · rw [flatten_cons, flatten_finest (d :: t)]
      rfl

theorem admissible_cons {piece : List Char} (h : Admissible pieces)
    (hcut : piece.getLast? = some '\r' → pieces.flatten.head? ≠ some '\n') :
    Admissible (piece :: pieces) := by
  rintro before after heq ⟨hlast, hhead⟩
  cases before with
  | nil => simp at hlast
  | cons x xs =>
    rw [cons_append, cons.injEq] at heq
    obtain ⟨rfl, rfl⟩ := heq
    rw [flatten_cons, getLast?_append] at hlast
    cases hxs : xs.flatten.getLast? with
    | none =>
      rw [hxs, Option.none_or] at hlast
      refine hcut hlast ?_
      rw [flatten_append, getLast?_eq_none_iff.1 hxs, nil_append, hhead]
    | some c =>
      rw [hxs, Option.some_or] at hlast
      exact h xs after rfl ⟨hxs.trans hlast, hhead⟩

theorem admissible_finest : ∀ t : List Char, Admissible (finest t)
  | [] => by
    rintro before after heq ⟨hlast, _⟩
    rw [(append_eq_nil_iff.1 heq.symm).1] at hlast
    simp at hlast
  | [c] => admissible_cons (admissible_finest []) fun _ => by simp
  | c :: d :: t => by
    rw [finest]
    split_ifs with h
    · refine admissible_cons (admissible_finest t) fun hlast => ?_
      simp [h.2] at hlast
    · refine admissible_cons (admissible_finest (d :: t)) fun hlast hhead => ?_
      rw [flatten_finest] at hhead
      exact h ⟨Option.some.inj hlast, Option.some.inj hhead⟩

/-- A character that is a piece ends a line unless it starts a Windows newline. -/
theorem countBefore_singleton (h : startsWindowsNewline c t = false) :
    countBefore skewedEndsLine [c] = (endsLine c t).toNat := by
  rw [startsWindowsNewline] at h
  simp [countBefore, skewedEndsLine, isPassed, lineFeedNext, endsLine, h]

/-- Cut so the builder has a Windows newline as two. -/
theorem sum_finest : ∀ t : List Char, ((finest t).map (countBefore skewedEndsLine)).sum =
    countBefore endsLine t + countBefore startsWindowsNewline t
  | [] => rfl
  | [c] => by
    have h : startsWindowsNewline c [] = false := by simp [startsWindowsNewline]
    rw [finest, map_singleton, sum_singleton, countBefore_singleton h]
    simp [countBefore, h]
  | c :: d :: t => by
    rw [finest]
    split_ifs with h
    · obtain ⟨rfl, rfl⟩ := h
      rw [map_cons, sum_cons, sum_finest t]
      have hpair : countBefore skewedEndsLine ['\r', '\n'] = 2 := by decide
      have hcr : endsLine '\r' ('\n' :: t) = false := rfl
      have hlf : endsLine '\n' t = true := rfl
      have hw : startsWindowsNewline '\r' ('\n' :: t) = true := rfl
      have hw' : startsWindowsNewline '\n' t = false := rfl
      rw [hpair]
      simp only [countBefore, hcr, hlf, hw, hw', Bool.toNat_true, Bool.toNat_false]
      omega
    · have hw : startsWindowsNewline c (d :: t) = false := by
        rw [← Bool.not_eq_true, startsWindowsNewline, Bool.and_eq_true, decide_eq_true_iff,
          decide_eq_true_iff]
        exact fun hcd => h ⟨hcd.1, Option.some.inj hcd.2⟩
      have hcount : ∀ q, countBefore q (c :: d :: t) =
        (q c (d :: t)).toNat + countBefore q (d :: t) := fun _ => rfl
      rw [map_cons, sum_cons, sum_finest (d :: t), countBefore_singleton hw, hcount, hcount,
        hw, Bool.toNat_false]
      omega

theorem not_near_of_trackersAgree (h : TrackersAgree t) : ¬ LineFeedNear t := by
  have hfresh : NewBuilder.Fresh {} := ⟨rfl, rfl⟩
  have hwhole := congrArg LineColumnOffset.lines (h.builder {} hfresh)
  have hpieces := congrArg LineColumnOffset.lines
    (h.builderPieces (finest t) (flatten_finest t) (admissible_finest t) {} hfresh)
  rw [hfresh.update, advance_utf8, lines_skewedEndOf, lines_endOf] at hwhole
  rw [hfresh.update, updateAll_position _ rfl, hfresh.position, lines_foldl_skewedEndOf, sum_finest,
    lines_skewedEndOf] at hpieces
  have hwindows : countBefore startsWindowsNewline t = 0 := by omega
  have hpassed := countBefore_passed hwindows
  rw [lineFeedNear_iff]
  rintro ⟨before, after, rfl, hfeed | hfeed⟩
  · have hpos : 0 < countBefore startsWindowsNewline (before ++ '\r' :: after) :=
      countBefore_pos (by simp [startsWindowsNewline, hfeed]) before
    omega
  · have hpos : 0 < countBefore isPassed (before ++ '\r' :: after) :=
      countBefore_pos (by simp [isPassed, hfeed]) before
    omega

/-- The trackers agree if and only if no line feed is one or two bytes behind a carriage return. -/
theorem trackersAgree_iff (t : List Char) : TrackersAgree t ↔ ¬ LineFeedNear t :=
  ⟨not_near_of_trackersAgree, trackersAgree_of_not_near⟩

/-- Behind a Windows newline the builder is two lines on, and `advance` one. -/
theorem not_trackersAgree_windows : ¬ TrackersAgree ['\r', '\n'] ∧
    (NewBuilder.updateGeneratedLineAndColumn {} (utf8 ['\r', '\n'])).position.lines = 2 ∧
    (LineColumnOffset.advance {} (utf8 ['\r', '\n'])).lines = 1 := by
  have hfresh : NewBuilder.Fresh {} := ⟨rfl, rfl⟩
  refine ⟨fun h => not_near_of_trackersAgree h ⟨[], ['\n'], rfl, Or.inl rfl⟩, ?_, ?_⟩
  · rw [hfresh.update]
    rfl
  · rw [advance_utf8]
    rfl

end Soup.SourceMap
