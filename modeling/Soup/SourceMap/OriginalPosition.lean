import Soup.Lib.Boundary
import Soup.SourceMap.Characters

/-!
# Original positions

The table that `generate` has for a text is right at each place in the text (`generate_reads`), and
both searches find the line of the place (`findLine_eq`, `findLineWithHint_eq`). So
`add_source_mapping` has the exact line and column of the place, whatever the hint is
(`originalPosition_exact`).
-/

namespace Soup.SourceMap

open List Option Nat

namespace LineOffsetTable

open Lib

/-! ## The searches -/

section Searches

variable {offsets : List ℕ} {locStart k : ℕ}

/-- `k` lines start at or before the offset. -/
def StartsBefore (offsets : List ℕ) (locStart k : ℕ) : Prop :=
  Brackets (holdsAt (fun offset => decide (offset ≤ locStart)) offsets) k k

section

variable (h : StartsBefore offsets locStart k)
include h

theorem StartsBefore.le_length : k ≤ offsets.length := by
  obtain ⟨ys, zs, rfl, rfl, _, _⟩ := h.split
  rw [length_append]
  exact le_add_right _ _

theorem StartsBefore.le_iff {i : ℕ} (hi : i < offsets.length) : offsets[i] ≤ locStart ↔ i < k := by
  rw [← h.eq_true_iff, holdsAt_of_lt hi, decide_eq_true_iff]

theorem findLineLoop_eq : ∀ {originalLine count : ℕ},
    originalLine ≤ k → k ≤ originalLine + count → originalLine + count ≤ offsets.length →
    findLineLoop offsets locStart originalLine count = some k := by
  intro originalLine count
  induction count using Nat.strongRecOn generalizing originalLine with
  | ind count ih =>
    intro hlo hhi hlen
    unfold findLineLoop
    split_ifs with hpos
    · have hi : originalLine + count / 2 < offsets.length := by omega
      have hle := h.le_iff hi
      simp only [getElem?_eq_getElem hi, hle]
      split_ifs with hlt
      · exact ih _ (by omega) hlt (by omega) (by omega)
      · exact ih _ (by omega) hlo (by omega) (by omega)
    · rw [show k = originalLine by omega]

theorem findLine_eq : findLine offsets locStart = some ((k : ℤ) - 1) := by
  rw [findLine, findLineLoop_eq h (zero_le k) (by rw [zero_add]; exact h.le_length)
    (zero_add _).le]
  rfl

theorem StartsBefore.getD_iff {i : ℕ} (hi : i ≤ offsets.length) :
    (i = offsets.length ∨ locStart < offsets.getD i 0) ↔ k ≤ i := by
  rcases eq_or_lt_of_le hi with rfl | hlt
  · exact iff_of_true (.inl rfl) h.le_length
  · have hle := h.le_iff hlt
    rw [getD_eq_getElem?_getD, getElem?_eq_getElem hlt, getD_some]
    omega

/-- The hint makes no difference. -/
theorem findLineWithHint_eq (hint : ℕ) :
    findLineWithHint offsets locStart hint = findLine offsets locStart := by
  unfold findLineWithHint
  by_cases hfirst : hint < offsets.length ∧ offsets.getD hint 0 ≤ locStart
  · have hlt : hint < k := by
      have hle := h.le_iff hfirst.1
      have hread := hfirst.2
      rw [getD_eq_getElem?_getD, getElem?_eq_getElem hfirst.1, getD_some] at hread
      exact hle.1 hread
    have hlen := h.le_length
    rw [if_pos hfirst, findLine_eq h]
    have hone := h.getD_iff (show hint + 1 ≤ offsets.length by omega)
    by_cases h₁ : k ≤ hint + 1
    · rw [if_pos (hone.2 h₁)]
      congr 1
      omega
    have htwo := h.getD_iff (show hint + 2 ≤ offsets.length by omega)
    rw [if_neg (mt hone.1 h₁)]
    by_cases h₂ : k ≤ hint + 2
    · rw [if_pos (htwo.2 h₂)]
      congr 1
      omega
    have hthree := h.getD_iff (show hint + 3 ≤ offsets.length by omega)
    rw [if_neg (mt htwo.1 h₂)]
    by_cases h₃ : k ≤ hint + 3
    · rw [if_pos (hthree.2 h₃)]
      congr 1
      omega
    · rw [if_neg (mt hthree.1 h₃)]
  · rw [if_neg hfirst]

end

end Searches

/-! ## Rows

What a row reads at a place in the text. -/

variable {before between after t : List Char} {row : LineOffsetTable} {rows : List LineOffsetTable}

/-- The row is right at a place on its line. -/
structure ReadsAt (row : LineOffsetTable) (before after : List Char) : Prop where
  start : row.byteOffsetToStartOfLine + (utf8 (lineTo before after)).length = (utf8 before).length
  column : row.originalColumn (utf8 before).length = some (utf16Length (lineTo before after) : ℤ)

/-- The rows are right at each place in the text that is on one of their lines. -/
def ReadRight (rows : List LineOffsetTable) (t : List Char) : Prop :=
  ∀ before after row, before ++ after = t → rows[lineBreaks before after]? = some row →
    row.ReadsAt before after

/-- The row of a line that has `line` up to `offset` is right up to there. -/
structure Covers (row : LineOffsetTable) (offset : ℕ) (line : List Char) : Prop where
  start : row.byteOffsetToStartOfLine + (utf8 line).length = offset
  column : ∀ p q, p ++ q = line →
    row.originalColumn (row.byteOffsetToStartOfLine + (utf8 p).length) = some (utf16Length p : ℤ)

/-- A place on the line that ends behind `before`. -/
theorem exists_between {done rest : List Char} (heq : done ++ rest = before ++ after)
    (hends : ∀ c u, after = c :: u → endsLine c u = true)
    (hsame : lineBreaks done rest = lineBreaks before after) :
    ∃ between, before = done ++ between ∧ rest = between ++ after ∧
      lineBreaks between after = 0 := by
  rcases append_eq_append_iff.1 heq with ⟨between, rfl, rfl⟩ | ⟨between, rfl, rfl⟩
  · rw [lineBreaks_append] at hsame
    exact ⟨between, rfl, rfl, by omega⟩
  · cases between with
    | nil => exact ⟨[], by simp, rfl, rfl⟩
    | cons c between =>
      rw [lineBreaks_append, lineBreaks, hends c (between ++ rest) rfl, Bool.toNat_true] at hsame
      omega

theorem ReadRight.append (h : ReadRight rows (before ++ after))
    (hlength : rows.length = lineBreaks before after)
    (hends : ∀ c u, after = c :: u → endsLine c u = true)
    (hrow : row.Covers (utf8 before).length (lineTo before after)) :
    ReadRight (rows ++ [row]) (before ++ after) := by
  intro done rest row' heq hget
  rcases lt_trichotomy (lineBreaks done rest) rows.length with hlt | hlast | hgt
  · rw [getElem?_append_left hlt] at hget
    exact h done rest row' heq hget
  · rw [getElem?_append_right hlast.ge, hlast, Nat.sub_self, getElem?_cons_zero,
      some.injEq] at hget
    subst hget
    obtain ⟨between, rfl, rfl, hbetween⟩ := exists_between heq hends (hlast.trans hlength)
    have hline := lineTo_append hbetween done
    have hstart := hrow.start
    have hcolumn := hrow.column _ _ hline.symm
    rw [hline, utf8_append, utf8_append, length_append, length_append] at hstart
    have hoffset : row.byteOffsetToStartOfLine + (utf8 (lineTo done (between ++ after))).length =
        (utf8 done).length := by omega
    exact ⟨hoffset, by rw [← hoffset, hcolumn]⟩
  · rw [getElem?_eq_none (by rw [length_append, length_singleton]; omega)] at hget
    cases hget

/-! ## The scan -/

namespace Scan

variable {s : Scan} {offset : ℕ} {line : List Char}

/-- The column of a byte offset on a line whose first byte that is not ASCII is at `f`. -/
def ColumnOf (s : Scan) (f : ℕ) (p : List Char) : Prop :=
  if f ≤ (utf8 p).length then
    s.columnsForNonAscii[(utf8 p).length - f]? = some (utf16Length p : ℤ)
  else utf16Length p = (utf8 p).length

/-- What a line has up to `offset`. With a byte that is not ASCII there is a column for each byte
from it on, up to the first byte of the last character. -/
def OnLine (s : Scan) (offset : ℕ) (line : List Char) : Prop :=
  s.lineByteOffset + (utf8 line).length = offset ∧
    match s.byteOffsetToFirstNonAscii with
    | none => s.columnsForNonAscii = [] ∧ ∀ c ∈ line, c.val.toNat < 0x80
    | some f => s.columnsForNonAscii.length + f = s.columnByteOffset ∧
      s.columnByteOffset ≤ (utf8 line).length ∧
      ∀ p q, p ++ q = line → q ≠ [] → s.ColumnOf f p

/-- The columns are there for `offset` too. -/
def Recorded (s : Scan) (offset : ℕ) (line : List Char) : Prop :=
  s.lineByteOffset + (utf8 line).length = offset ∧
    match s.byteOffsetToFirstNonAscii with
    | none => s.columnsForNonAscii = [] ∧ ∀ c ∈ line, c.val.toNat < 0x80
    | some f => s.columnsForNonAscii.length + f = s.columnByteOffset ∧
      s.columnByteOffset = (utf8 line).length + 1 ∧ s.columnsForNonAscii ≠ [] ∧
      ∀ p q, p ++ q = line → s.ColumnOf f p

/-- The state of the loop at a place in the text. A line starts where its column is zero. -/
structure Holds (s : Scan) (before after : List Char) : Prop where
  rows : ReadRight s.list (before ++ after)
  lines : s.list.length = lineBreaks before after
  column : s.column = utf16Length (lineTo before after)
  line : lineTo before after = [] ∧ s.byteOffsetToFirstNonAscii = none ∧
      s.columnsForNonAscii = [] ∨
    lineTo before after ≠ [] ∧ s.OnLine (utf8 before).length (lineTo before after) ∧
      (s.byteOffsetToFirstNonAscii ≠ none → s.columnsForNonAscii ≠ [])

/-- A text of ASCII characters. -/
theorem length_utf8_ascii : ∀ {p : List Char}, (∀ c ∈ p, c.val.toNat < 0x80) →
    (utf8 p).length = p.length ∧ utf16Length p = p.length
  | [], _ => ⟨rfl, rfl⟩
  | c :: p, h => by
    have hc := h c mem_cons_self
    obtain ⟨hbytes, hunits⟩ := length_utf8_ascii fun d hd => h d (mem_cons_of_mem c hd)
    have hone : utf16Units c = 1 := by
      have hwidth := utf16Width_eq c
      rw [utf16Width, if_neg (by omega)] at hwidth
      omega
    have happend := utf16Length_append [c] p
    rw [utf16Length_singleton, hone, hunits, singleton_append] at happend
    rw [happend, utf8_cons, utf8EncodeChar_ascii hc, length_append, hbytes]
    simp only [length_cons, length_nil]
    omega

/-- The first byte of a line that is not ASCII. -/
theorem onLine_first (hline : s.lineByteOffset + (utf8 line).length = offset)
    (hcols : s.columnsForNonAscii = []) (hascii : ∀ c ∈ line, c.val.toNat < 0x80) :
    OnLine { s with
      columnByteOffset := offset - s.lineByteOffset
      byteOffsetToFirstNonAscii := some (offset - s.lineByteOffset) } offset line := by
  have hlength : offset - s.lineByteOffset = (utf8 line).length := by omega
  refine ⟨hline, ?_⟩
  simp only [hlength, hcols, length_nil, zero_add, le_refl, true_and]
  intro p q heq hq
  have hshort : (utf8 p).length < (utf8 line).length := by
    have hp := length_utf8_ascii hascii
    subst heq
    have hp' := length_utf8_ascii fun c hc => hascii c (mem_append_left q hc)
    rw [hp.1, hp'.1, length_append]
    have := length_pos_iff.2 hq
    omega
  obtain ⟨hbytes, hunits⟩ := length_utf8_ascii fun c hc =>
    hascii c (heq ▸ mem_append_left q hc)
  rw [ColumnOf, if_neg (not_le.2 hshort), hbytes, hunits]

theorem Holds.enter (h : s.Holds before after) (c : ℤ) :
    (s.enter c (utf8 before).length).OnLine (utf8 before).length (lineTo before after) ∧
    (s.enter c (utf8 before).length).list = s.list ∧
    (s.enter c (utf8 before).length).column = s.column ∧
    ((s.enter c (utf8 before).length).byteOffsetToFirstNonAscii = none → c ≤ 0x7F) := by
  rcases h.line with ⟨hnil, hfirst, hcols⟩ | ⟨hne, honLine, _⟩
  · have hzero : s.column = 0 := by
      rw [h.column, hnil]
      rfl
    have hstart : (utf8 before).length + (utf8 []).length = (utf8 before).length := rfl
    rw [hnil]
    simp only [Scan.enter, if_pos hzero]
    split_ifs with hc
    · exact ⟨onLine_first (s := { s with lineByteOffset := (utf8 before).length }) hstart hcols
        (fun d hd => absurd hd not_mem_nil), rfl, rfl, False.elim⟩
    · refine ⟨⟨hstart, ?_⟩, rfl, rfl, fun _ => Int.not_lt.1 fun hlt => hc ⟨hlt, hfirst⟩⟩
      simp only [hfirst]
      exact ⟨hcols, fun d hd => absurd hd not_mem_nil⟩
  · have hpos : s.column ≠ 0 := by
      rw [h.column]
      exact_mod_cast mt utf16Length_eq_zero.1 hne
    simp only [Scan.enter, if_neg hpos]
    split_ifs with hc
    · have hin := honLine.2
      simp only [hc.2] at hin
      exact ⟨onLine_first honLine.1 hin.1 hin.2, rfl, rfl, False.elim⟩
    · exact ⟨honLine, rfl, rfl, fun hfirst => Int.not_lt.1 fun hlt => hc ⟨hlt, hfirst⟩⟩

/-- The columns up to the place itself. -/
theorem OnLine.record (h : s.OnLine offset line) (hcolumn : s.column = utf16Length line) :
    (s.record offset).Recorded offset line := by
  obtain ⟨hline, hin⟩ := h
  unfold Scan.record
  cases hfirst : s.byteOffsetToFirstNonAscii with
  | none =>
    rw [hfirst] at hin
    rw [if_pos rfl]
    refine ⟨hline, ?_⟩
    rw [hfirst]
    exact hin
  | some f =>
    rw [hfirst] at hin
    obtain ⟨hlength, hle, hcolumns⟩ := hin
    rw [if_neg (some_ne_none f)]
    refine ⟨hline, ?_⟩
    have hoffset : offset - s.lineByteOffset = (utf8 line).length := by omega
    simp only [Scan.extend, hfirst, length_append, length_replicate, hoffset]
    refine ⟨by omega, trivial, by simp, fun p q heq => ?_⟩
    unfold ColumnOf
    by_cases hq : q = []
    · rw [hq, append_nil] at heq
      subst heq
      rw [if_pos (by omega), getElem?_append_right (by omega),
        getElem?_replicate_of_lt (by omega), hcolumn]
    · have hp := hcolumns p q heq hq
      unfold ColumnOf at hp
      split_ifs at hp ⊢ with hf
      · rw [getElem?_append_left (List.getElem?_eq_some_iff.1 hp).1, hp]
      · exact hp

theorem Recorded.covers (h : s.Recorded offset line) : s.row.Covers offset line := by
  obtain ⟨hline, hin⟩ := h
  refine ⟨hline, fun p q heq => ?_⟩
  have hoffset : ((s.lineByteOffset + (utf8 p).length : ℕ) : ℤ) - s.lineByteOffset =
      (utf8 p).length := by omega
  simp only [Scan.row, originalColumn, hoffset]
  cases hfirst : s.byteOffsetToFirstNonAscii with
  | none =>
    rw [hfirst] at hin
    obtain ⟨hbytes, hunits⟩ := length_utf8_ascii fun c hc =>
      hin.2 c (heq ▸ mem_append_left q hc)
    simp only [hbytes, hunits]
  | some f =>
    rw [hfirst] at hin
    obtain ⟨_, _, hne, hcolumns⟩ := hin
    have hp := hcolumns p q heq
    unfold ColumnOf at hp
    simp only [ge_iff_le, Int.ofNat_le]
    split_ifs at hp with hf
    · rw [if_pos ⟨hf, hne⟩, ← hp]
      congr 1
      omega
    · rw [if_neg fun h => hf h.1, hp]

variable {c : Char}

/-- Behind one more character of the line. -/
theorem Recorded.next (h : s.Recorded offset line) (column : ℤ)
    (hascii : s.byteOffsetToFirstNonAscii = none → c.val.toNat < 0x80) :
    OnLine { s with column := column } (offset + (String.utf8EncodeChar c).length) (line ++ [c]) ∧
      (s.byteOffsetToFirstNonAscii ≠ none → s.columnsForNonAscii ≠ []) := by
  obtain ⟨hline, hin⟩ := h
  have hlength : (utf8 (line ++ [c])).length =
      (utf8 line).length + (String.utf8EncodeChar c).length := by
    rw [utf8_append, length_append, utf8_cons, utf8_nil, append_nil]
  have hone := length_pos_iff.2 (String.utf8EncodeChar_ne_nil (c := c))
  unfold OnLine
  cases hfirst : s.byteOffsetToFirstNonAscii with
  | none =>
    rw [hfirst] at hin
    refine ⟨⟨by simp only [hlength]; omega, hin.1, fun d hd => ?_⟩, fun h => absurd rfl h⟩
    rcases mem_append.1 hd with hd | hd
    · exact hin.2 d hd
    · exact mem_singleton.1 hd ▸ hascii hfirst
  | some f =>
    rw [hfirst] at hin
    obtain ⟨hcount, hoffset, hne, hcolumns⟩ := hin
    refine ⟨⟨by simp only [hlength]; omega, hcount, by simp only [hlength]; omega,
      fun p q heq hq => ?_⟩, fun _ => hne⟩
    obtain ⟨q', d, rfl⟩ := eq_nil_or_concat q |>.resolve_left hq
    rw [concat_eq_append, ← append_assoc] at heq
    exact hcolumns p q' (append_inj_left' heq rfl)

variable {ps : List Char}

/-- Behind ASCII characters that are passed at once. -/
theorem OnLine.skip (h : s.OnLine offset line) (column : ℤ)
    (hfirst : s.byteOffsetToFirstNonAscii = none) (hascii : ∀ c ∈ ps, c.val.toNat < 0x80) :
    OnLine { s with column := column } (offset + ps.length) (line ++ ps) := by
  obtain ⟨hline, hin⟩ := h
  rw [hfirst] at hin
  unfold OnLine
  rw [utf8_append, length_append, (length_utf8_ascii hascii).1]
  refine ⟨by rw [← hline]; exact (add_assoc ..).symm, ?_⟩
  simp only [hfirst]
  exact ⟨hin.1, fun c hc => (mem_append.1 hc).elim (hin.2 c) (hascii c)⟩

/-- The state further on in the same line. -/
theorem holds_sameLine (hrows : ReadRight s.list (before ++ (between ++ after)))
    (hlines : s.list.length = lineBreaks before (between ++ after))
    (hbetween : lineBreaks between after = 0) (hne : between ≠ [])
    (hcolumn : s.column = utf16Length (lineTo before (between ++ after) ++ between))
    (honLine : s.OnLine (utf8 (before ++ between)).length
      (lineTo before (between ++ after) ++ between))
    (hcols : s.byteOffsetToFirstNonAscii ≠ none → s.columnsForNonAscii ≠ []) :
    s.Holds (before ++ between) after := by
  have hline := lineTo_append hbetween before
  refine ⟨by rwa [append_assoc], ?_, by rwa [hline], .inr ⟨?_, by rwa [hline], hcols⟩⟩
  · rw [hlines, lineBreaks_append, hbetween, add_zero]
  · rw [hline]
    exact append_ne_nil_of_right_ne_nil _ hne

/-- The state at the start of a line. -/
theorem holds_newLine (hrows : ReadRight s.list (before ++ c :: after))
    (hlines : s.list.length = lineBreaks before (c :: after)) (hends : endsLine c after = true)
    (hline : s.Recorded (utf8 before).length (lineTo before (c :: after))) :
    s.newLine.Holds (before ++ [c]) after := by
  have hnil := lineTo_of_endsLine hends before
  have hrow := hrows.append hlines (fun d u heq => by
    obtain ⟨rfl, rfl⟩ := cons.inj heq
    exact hends) hline.covers
  refine ⟨?_, ?_, by rw [hnil]; rfl, .inl ⟨hnil, rfl, rfl⟩⟩
  · rw [append_assoc]
    exact hrow
  · rw [lineBreaks_append, lineBreaks_singleton, hends, Bool.toNat_true]
    simp only [Scan.newLine, length_append, length_singleton, hlines, singleton_append]

@[simp] theorem column_record (s : Scan) (offset : ℕ) : (s.record offset).column = s.column := by
  unfold Scan.record
  split_ifs <;> rfl

@[simp] theorem list_record (s : Scan) (offset : ℕ) : (s.record offset).list = s.list := by
  unfold Scan.record
  split_ifs <;> rfl

@[simp] theorem first_record (s : Scan) (offset : ℕ) :
    (s.record offset).byteOffsetToFirstNonAscii = s.byteOffsetToFirstNonAscii := by
  unfold Scan.record
  split_ifs <;> rfl

/-- The code point at the front. -/
theorem codepoint_eq {v n : ℕ} {first : UInt8} {tail : Bytes} (h : Encodes v n first tail) :
    (if n = 1 then (first.toNat : ℤ) else decodeWtf8Rune ((first :: tail).take n) n 0) = v := by
  have hone : n = 1 → decodeWtf8Rune ((first :: tail).take n) n 0 = first.toNat := by
    rintro rfl
    rfl
  split_ifs with hn
  · rw [← hone hn, h.decode]
  · exact h.decode 0

/-- Plain characters end no line. -/
theorem lineBreaks_plain : ∀ {ps : List Char}, ps.all isPlain = true → ∀ after : List Char,
    lineBreaks ps after = 0
  | [], _, _ => rfl
  | c :: ps, h, after => by
    rw [all_cons, Bool.and_eq_true] at h
    rw [lineBreaks, endsLine, isNewline_of_plain h.1, lineBreaks_plain h.2]
    rfl

theorem ascii_of_plain (h : ps.all isPlain = true) :
    ∀ c ∈ ps, c.val.toNat < 0x80 := fun c hc =>
  ((isPlain_iff c).1 (all_eq_true.1 h c hc)).2

/-- The state behind a character that skips the plain characters behind it. -/
theorem holds_skip
    (hrows : ReadRight s.list (before ++ (c :: ps ++ after)))
    (hlines : s.list.length = lineBreaks before (c :: ps ++ after))
    (hcolumn : s.column = utf16Length (lineTo before (c :: ps ++ after)))
    (honLine : s.OnLine (utf8 before).length (lineTo before (c :: ps ++ after)))
    (hfirst : s.byteOffsetToFirstNonAscii = none)
    (hc : 14 ≤ c.val.toNat ∧ c.val.toNat < 0x80) (hps : ps.all isPlain = true) :
    Holds { s with column := s.column + (1 + ps.length : ℕ) } (before ++ c :: ps) after := by
  have hascii : ∀ d ∈ c :: ps, d.val.toNat < 0x80 := fun d hd =>
    (mem_cons.1 hd).elim (fun h => h ▸ hc.2) (ascii_of_plain hps d)
  obtain ⟨hbytes, hunits⟩ := length_utf8_ascii hascii
  have hbreaks : lineBreaks (c :: ps) after = 0 := by
    have hnot : isNewline c.val.toNat = false := by
      simp only [isNewline, Bool.or_eq_false_iff, decide_eq_false_iff_not]
      omega
    rw [lineBreaks, endsLine, hnot, lineBreaks_plain hps]
    rfl
  refine holds_sameLine hrows hlines hbreaks (cons_ne_nil c ps) ?_ ?_ fun h => absurd hfirst h
  · simp only [utf16Length_append, hunits, hcolumn, length_cons]
    omega
  · rw [utf8_append, length_append, hbytes]
    exact honLine.skip _ hfirst hascii

theorem scanLoop_utf8 {len : ℕ} : ∀ (t : List Char) {before : List Char} {s : Scan},
    (utf8 (before ++ t)).length = len → s.Holds before t →
    (scanLoop len s (utf8 t)).Holds (before ++ t) []
  | [], before, s, _, h => by
    rw [utf8_nil, scanLoop, append_nil]
    exact h
  | c :: t, before, s, hlen, h => by
    obtain ⟨first, tail, heq, henc⟩ := encodes_utf8EncodeChar c (utf8 t)
    have hdrop := drop_utf8_cons c t
    have hnext : (utf8 ((before ++ [c]) ++ t)).length = len := by rw [← hlen, append_assoc]; rfl
    have hlength : (utf8 (c :: t)).length = (String.utf8EncodeChar c).length + (utf8 t).length := by
      rw [utf8_cons, length_append]
    have hoffset : len - (tail.length + 1) = (utf8 before).length := by
      rw [← hlen, utf8_append, length_append, utf8_cons, heq, length_cons, Nat.add_sub_cancel]
    rw [utf8_cons, heq] at hdrop hlength
    rw [utf8_cons, heq, scanLoop]
    rw [length_cons] at hlength
    have hcp : min (String.utf8EncodeChar c).length (tail.length + 1) =
        (String.utf8EncodeChar c).length := by omega
    simp only [henc.length_eq, hcp, codepoint_eq henc, hdrop, hoffset]
    obtain ⟨honLine, hlist, hcolumn, hle⟩ := h.enter c.val.toNat
    generalize s.enter c.val.toNat (utf8 before).length = e at honLine hlist hcolumn hle
    have hrows : ReadRight e.list (before ++ c :: t) := hlist ▸ h.rows
    have hlines : e.list.length = lineBreaks before (c :: t) := by rw [hlist, h.lines]
    have hcolumn : e.column = utf16Length (lineTo before (c :: t)) := by rw [hcolumn, h.column]
    by_cases hskip : e.byteOffsetToFirstNonAscii = none ∧ 14 ≤ (c.val.toNat : ℤ) ∧
        (c.val.toNat : ℤ) ≤ 127
    · obtain ⟨hfirst, h14, h127⟩ := hskip
      have hbyte := (henc.ascii (by omega)).2
      have hc : 14 ≤ c.val.toNat ∧ c.val.toNat < 0x80 := by omega
      rw [if_pos ⟨hfirst, h14, h127⟩]
      rcases plain_or_append t with hplain | ⟨ps, d, rest, rfl, hps, hd⟩
      · obtain ⟨hindex, hcount⟩ := indexOfNewlineOrNonAscii_plain hplain
        rw [show tail.length + 1 = 1 + t.length by omega]
        simp only [hindex]
        rw [← append_nil (c :: t)] at hrows hlines hcolumn honLine
        exact holds_skip hrows hlines hcolumn honLine hfirst hc hplain
      · obtain ⟨hindex, hrest⟩ := indexOfNewlineOrNonAscii_append hd rest hps
        have hdrop : (first :: tail).drop (1 + ps.length) = utf8 (d :: rest) := by
          rw [← drop_drop, ← hbyte, hdrop, hrest]
        rw [← cons_append] at hrows hlines hcolumn honLine
        simp only [hindex, hbyte, hdrop]
        rw [← cons_append, ← append_assoc] at hlen ⊢
        exact scanLoop_utf8 (d :: rest) hlen
          (holds_skip hrows hlines hcolumn honLine hfirst hc hps)
    · rw [if_neg hskip]
      have hrecorded := honLine.record hcolumn
      have hsame : ¬ endsLine c t = true →
          Holds { e.record (utf8 before).length with
            column := (e.record (utf8 before).length).column + utf16Width c.val.toNat }
            (before ++ [c]) t := fun hends => by
        have hone := lineBreaks_singleton c t
        rw [Bool.eq_false_iff.2 hends] at hone
        obtain ⟨honLine, hcols⟩ := hrecorded.next (c := c)
          ((e.record (utf8 before).length).column + utf16Width c.val.toNat) fun hfirst => by
            have := hle (first_record e _ ▸ hfirst)
            omega
        refine holds_sameLine (by simpa using hrows) (by simpa using hlines) hone
          (cons_ne_nil c []) ?_ ?_ hcols
        · rw [utf16Length_append, utf16Length_singleton, utf16Width_eq, column_record, hcolumn]
          rfl
        · rw [utf8_append, length_append, utf8_cons, utf8_nil, append_nil]
          exact honLine
      rw [← singleton_append, ← append_assoc]
      by_cases hn : isNewline c.val.toNat = true
      · rw [if_pos hn]
        by_cases hw : c = '\r' ∧ t.head? = some '\n'
        · obtain ⟨rfl, hw⟩ := hw
          have htail : tail = utf8 t := hdrop
          subst htail
          rw [if_pos ⟨rfl, (head?_utf8 t).2 hw⟩]
          exact scanLoop_utf8 t hnext (hsame fun h => ((endsLine_iff _ t).1 h).2 ⟨rfl, hw⟩)
        · have hfeed : ¬ ((c.val.toNat : ℤ) = 0x0D ∧ tail.head? = some 0x0A) := by
            rintro ⟨hcr, hlf⟩
            rw [val_toNat_eq_thirteen] at hcr
            subst hcr
            have htail : tail = utf8 t := hdrop
            rw [htail, head?_utf8] at hlf
            exact hw ⟨rfl, hlf⟩
          rw [if_neg hfeed]
          exact scanLoop_utf8 t hnext (holds_newLine (by simpa using hrows) (by simpa using hlines)
            ((endsLine_iff c t).2 ⟨hn, hw⟩) hrecorded)
      · rw [if_neg hn]
        exact scanLoop_utf8 t hnext (hsame fun h => hn ((endsLine_iff c t).1 h).1)
  termination_by t => t.length
  decreasing_by
    all_goals
      subst_vars
      simp only [length_append, length_cons]
      omega

end Scan

/-! ## The table -/

/-- Behind the loop the end of the text is like one more character. -/
theorem Scan.Holds.atEnd {s : Scan} {before after : List Char} (h : s.Holds before after)
    (offset : ℕ) :
    (let s := if s.column = 0 then { s with lineByteOffset := offset } else s
      if s.columnsForNonAscii = [] then s else s.extend (offset - s.lineByteOffset)) =
      (s.enter 0 offset).record offset := by
  have henter : s.enter 0 offset =
      if s.column = 0 then { s with lineByteOffset := offset } else s := rfl
  have hcols : s.columnsForNonAscii = [] ↔ s.byteOffsetToFirstNonAscii = none := by
    rcases h.line with ⟨_, hfirst, hcols⟩ | ⟨_, honLine, hcols⟩
    · exact iff_of_true hcols hfirst
    · refine ⟨fun hnil => not_not.1 fun hne => hcols hne hnil, fun hfirst => ?_⟩
      have hin := honLine.2
      rw [hfirst] at hin
      exact hin.1
  have hcols' : (s.enter 0 offset).columnsForNonAscii = [] ↔
      (s.enter 0 offset).byteOffsetToFirstNonAscii = none := by
    rw [henter]
    split_ifs <;> exact hcols
  rw [← henter, Scan.record]
  simp only [hcols']

/-- The rows are right at each place in the text, and there is one for each line. -/
theorem generate_reads (t : List Char) : ReadRight (generate (utf8 t)) t ∧
    (generate (utf8 t)).length = lineBreaks t [] + 1 := by
  have hstart : Scan.Holds {} [] t := by
    refine ⟨fun before after row _ hget => ?_, rfl, rfl, .inl ⟨rfl, rfl, rfl⟩⟩
    rw [getElem?_nil] at hget
    cases hget
  have hend := @Scan.scanLoop_utf8 (utf8 t).length t [] {} rfl hstart
  rw [nil_append] at hend
  obtain ⟨honLine, hlist, hcolumn, _⟩ := hend.enter 0
  have hrecorded := honLine.record (hcolumn.trans hend.column)
  have hgenerate : generate (utf8 t) = (scanLoop (utf8 t).length {} (utf8 t)).list ++
      [(((scanLoop (utf8 t).length {} (utf8 t)).enter 0 (utf8 t).length).record
        (utf8 t).length).row] := by
    rw [generate, hend.atEnd, Scan.list_record, hlist]
  have hread := hend.rows.append hend.lines (fun _ _ heq => by cases heq) hrecorded.covers
  rw [append_nil] at hread
  rw [hgenerate, length_append, length_singleton, hend.lines]
  exact ⟨hread, rfl⟩

/-! ## Places in a text -/

section Places

variable (before after : List Char)

theorem utf8_length_pos {t : List Char} (h : t ≠ []) : 0 < (utf8 t).length := by
  obtain ⟨c, t, rfl⟩ := exists_cons_of_ne_nil h
  have hone := length_pos_iff.2 (String.utf8EncodeChar_ne_nil (c := c))
  rw [utf8_cons, length_append]
  omega

/-- The lines that start at or before the place are the line breaks before it and one more. -/
theorem startsBefore_generate : StartsBefore
    ((generate (utf8 (before ++ after))).map (·.byteOffsetToStartOfLine)) (utf8 before).length
    (lineBreaks before after + 1) := by
  obtain ⟨hread, hlength⟩ := generate_reads (before ++ after)
  rw [lineBreaks_append, append_nil] at hlength
  have hbounds : ((generate (utf8 (before ++ after))).map (·.byteOffsetToStartOfLine)).length =
      lineBreaks before after + lineBreaks after [] + 1 := by rw [length_map, hlength]
  -- a line starts where a place has nothing of it in front
  have hstart : ∀ {i : ℕ} {done rest : List Char}, done ++ rest = before ++ after →
      lineBreaks done rest = i → lineTo done rest = [] →
        i < (generate (utf8 (before ++ after))).length →
      holdsAt (fun offset => decide (offset ≤ (utf8 before).length))
        ((generate (utf8 (before ++ after))).map (·.byteOffsetToStartOfLine)) i =
          decide ((utf8 done).length ≤ (utf8 before).length) := fun heq hbreaks hnil hi => by
    subst hbreaks
    have hrow := (hread _ _ _ heq (getElem?_eq_getElem hi)).start
    rw [hnil] at hrow
    rw [holdsAt, getElem?_map, getElem?_eq_getElem hi, ← hrow]
    rfl
  refine ⟨le_rfl, fun i hi => ?_, fun i hi => ?_⟩
  · obtain ⟨done, rest, rfl, hbreaks, hnil⟩ := exists_lineStart before (le_of_lt_succ hi)
    rw [hstart (append_assoc ..).symm hbreaks hnil (by omega), decide_eq_true_iff, utf8_append,
      length_append]
    exact le_add_right _ _
  · rcases lt_or_ge i (lineBreaks before after + lineBreaks after [] + 1) with hlt | hge
    · obtain ⟨done, rest, heq, hbreaks, hnil⟩ := @exists_lineStart i (before ++ after) [] (by
        rw [lineBreaks_append, append_nil]
        omega)
      rw [append_nil] at hbreaks hnil
      rw [hstart heq hbreaks hnil (by omega), decide_eq_false_iff_not, not_le]
      rcases append_eq_append_iff.1 heq with ⟨between, rfl, rfl⟩ | ⟨between, rfl, rfl⟩
      · rw [lineBreaks_append, hbreaks] at hi
        omega
      · have hne : between ≠ [] := by
          rintro rfl
          rw [append_nil] at hbreaks
          rw [nil_append, hbreaks] at hi
          omega
        have hpos := utf8_length_pos hne
        rw [utf8_append, length_append]
        omega
    · exact holdsAt_of_length_le (hbounds.trans_le hge)

/-- The line of a place and its column in UTF-16 code units, whatever the hint is. -/
theorem originalPosition_exact (hint : ℕ) :
    let lineOffsetTables : List LineOffsetTable := generate (utf8 (before ++ after))
    let byteOffsets := lineOffsetTables.map (·.byteOffsetToStartOfLine)
    let start := (utf8 before).length
    findLineWithHint byteOffsets start hint = findLine byteOffsets start ∧
      findLine byteOffsets start = some (lineBreaks before after : ℤ) ∧
      originalPosition lineOffsetTables start hint =
        some ((lineBreaks before after : ℤ), (utf16Length (lineTo before after) : ℤ)) := by
  intro lineOffsetTables byteOffsets start
  have hstarts := startsBefore_generate before after
  have hhint := findLineWithHint_eq hstarts hint
  have hfind := findLine_eq hstarts
  rw [Int.natCast_add, Int.natCast_one, Int.add_sub_cancel] at hfind
  obtain ⟨hread, hlength⟩ := generate_reads (before ++ after)
  have hi : lineBreaks before after < (generate (utf8 (before ++ after))).length := by
    rw [hlength, lineBreaks_append, append_nil]
    omega
  have hcolumn := (hread before after _ rfl (getElem?_eq_getElem hi)).column
  refine ⟨hhint, hfind, ?_⟩
  rw [originalPosition]
  simp only [lineOffsetTables, start, hhint, hfind, bind_eq_bind, bind_some,
    max_eq_left (Int.natCast_nonneg _), Int.toNat_natCast, getElem?_eq_getElem hi, hcolumn]
  rfl

end Places

end LineOffsetTable

end Soup.SourceMap
