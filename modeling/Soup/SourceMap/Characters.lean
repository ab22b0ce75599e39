import Mathlib.Data.List.Induction
import Soup.SourceMap.LineColumn

/-!
# The characters of a text

What the scanners of a text see of its characters, and which of them end a line. `lineBreaks` counts
the line breaks that end at or before a place in a text, and `lineTo` is what its line has up to
there.
-/

namespace Soup.SourceMap

open List Option

/-! ## Texts -/

/-- A character that no scanner stops at. -/
def isPlain (c : Char) : Bool := 0x20 ≤ c.val.toNat && c.val.toNat < 0x80

variable {c : Char}

theorem utf8EncodeChar_ascii (h : c.val.toNat < 0x80) :
    String.utf8EncodeChar c = [UInt8.ofNat c.val.toNat] := by
  rw [String.utf8EncodeChar]
  exact if_pos (Nat.le_of_lt_succ h)

theorem toNat_ofNat_ascii {v : ℕ} (h : v < 0x80) : (UInt8.ofNat v).toNat = v := by
  rw [UInt8.toNat_ofNat', Nat.mod_eq_of_lt (by omega)]

theorem isNewlineOrNonAscii_iff (byte : UInt8) :
    isNewlineOrNonAscii byte = true ↔ 0x80 ≤ byte.toNat ∨ byte.toNat < 0x20 := by
  rw [isNewlineOrNonAscii, Bool.or_eq_true, decide_eq_true_iff, decide_eq_true_iff,
    gt_iff_lt, UInt8.lt_iff_toNat_lt, UInt8.lt_iff_toNat_lt]
  exact Iff.rfl

theorem isPlain_iff (c : Char) : isPlain c = true ↔ 0x20 ≤ c.val.toNat ∧ c.val.toNat < 0x80 := by
  rw [isPlain, Bool.and_eq_true, decide_eq_true_iff, decide_eq_true_iff]

theorem utf8_cons_plain (h : isPlain c = true) (t : List Char) :
    ∃ byte, utf8 (c :: t) = byte :: utf8 t ∧ isNewlineOrNonAscii byte = false := by
  rw [isPlain_iff] at h
  refine ⟨UInt8.ofNat c.val.toNat, by rw [utf8_cons, utf8EncodeChar_ascii h.2]; rfl, ?_⟩
  rw [← Bool.not_eq_true, isNewlineOrNonAscii_iff, toNat_ofNat_ascii h.2]
  omega

theorem isNewlineOrNonAscii_of_not_plain (h : isPlain c = false) (t : List Char) :
    ∃ byte rest, utf8 (c :: t) = byte :: rest ∧ isNewlineOrNonAscii byte = true := by
  obtain ⟨byte, rest, heq, henc⟩ := encodes_utf8EncodeChar c (utf8 t)
  refine ⟨byte, rest, heq, ?_⟩
  rw [← Bool.not_eq_true, isPlain_iff] at h
  rw [isNewlineOrNonAscii_iff]
  rcases lt_or_ge c.val.toNat 0x80 with hlt | hge
  · rw [(henc.ascii hlt).1, toNat_ofNat_ascii hlt]
    omega
  · exact .inl (UInt8.le_iff_toNat_le.1 (henc.not_ascii hge).1)

/-- The characters in front that no scanner stops at. -/
theorem indexOfNewlineOrNonAscii_plain : ∀ {ps : List Char}, ps.all isPlain = true →
    indexOfNewlineOrNonAscii (utf8 ps) = none ∧ (utf8 ps).length = ps.length
  | [], _ => ⟨rfl, rfl⟩
  | c :: ps, h => by
    rw [all_cons, Bool.and_eq_true] at h
    obtain ⟨byte, heq, hbyte⟩ := utf8_cons_plain h.1 ps
    obtain ⟨hindex, hlen⟩ := indexOfNewlineOrNonAscii_plain h.2
    rw [heq, length_cons, length_cons, hlen]
    refine ⟨?_, rfl⟩
    rw [indexOfNewlineOrNonAscii] at hindex ⊢
    rw [findIdx?_cons, hbyte, hindex]
    rfl

theorem indexOfNewlineOrNonAscii_append (hc : isPlain c = false) (t : List Char) :
    ∀ {ps : List Char}, ps.all isPlain = true →
      indexOfNewlineOrNonAscii (utf8 (ps ++ c :: t)) = some ps.length ∧
      (utf8 (ps ++ c :: t)).drop ps.length = utf8 (c :: t)
  | [], _ => by
    obtain ⟨byte, rest, heq, hbyte⟩ := isNewlineOrNonAscii_of_not_plain hc t
    refine ⟨?_, rfl⟩
    rw [nil_append, heq, indexOfNewlineOrNonAscii, findIdx?_cons, hbyte]
    rfl
  | p :: ps, h => by
    rw [all_cons, Bool.and_eq_true] at h
    obtain ⟨byte, heq, hbyte⟩ := utf8_cons_plain h.1 (ps ++ c :: t)
    obtain ⟨hindex, hdrop⟩ := indexOfNewlineOrNonAscii_append hc t h.2
    rw [cons_append, heq, length_cons, drop_succ_cons, hdrop]
    refine ⟨?_, rfl⟩
    rw [indexOfNewlineOrNonAscii] at hindex ⊢
    rw [findIdx?_cons, hbyte, hindex]
    rfl

theorem plain_or_append : ∀ t : List Char, t.all isPlain = true ∨
    ∃ ps c rest, t = ps ++ c :: rest ∧ ps.all isPlain = true ∧ isPlain c = false
  | [] => .inl rfl
  | c :: t => by
    by_cases hc : isPlain c = true
    · rcases plain_or_append t with h | ⟨ps, d, rest, rfl, hps, hd⟩
      · exact .inl (by rw [all_cons, hc, h]; rfl)
      · exact .inr ⟨c :: ps, d, rest, rfl, by rw [all_cons, hc, hps]; rfl, hd⟩
    · exact .inr ⟨[], c, t, rfl, rfl, Bool.eq_false_iff.2 hc⟩

theorem nextCodepoint_utf8 (c : Char) (t : List Char) :
    nextCodepoint (utf8 (c :: t)) = ((c.val.toNat : ℤ), (String.utf8EncodeChar c).length) := by
  obtain ⟨first, tail, heq, henc⟩ := encodes_utf8EncodeChar c (utf8 t)
  rw [utf8_cons, heq, nextCodepoint]
  rcases lt_or_ge c.val.toNat 0x80 with hlt | hge
  · obtain ⟨hfirst, hlen⟩ := henc.ascii hlt
    have hnat : first.toNat = c.val.toNat := by rw [hfirst, toNat_ofNat_ascii hlt]
    rw [if_pos (by rw [UInt8.lt_iff_toNat_lt, hnat]; exact hlt), hnat, hlen]
  · have hle := UInt8.le_iff_toNat_le.1 (henc.not_ascii hge).1
    rw [if_neg (by rw [UInt8.lt_iff_toNat_lt]; exact not_lt.2 hle)]
    simp only [henc.length_eq, henc.decode]
    rw [if_neg (by omega)]

theorem drop_utf8_cons (c : Char) (t : List Char) :
    (utf8 (c :: t)).drop (String.utf8EncodeChar c).length = utf8 t := by
  rw [utf8_cons, drop_left]

theorem toNat_eq_iff (c d : Char) : c.val.toNat = d.val.toNat ↔ c = d :=
  ⟨fun h => Char.ext (UInt32.toNat_inj.1 h), fun h => by rw [h]⟩

/-- A line feed is the first byte. -/
theorem head?_utf8 (t : List Char) : (utf8 t).head? = some 0x0A ↔ t.head? = some '\n' := by
  cases t with
  | nil => simp
  | cons c t =>
    obtain ⟨first, tail, heq, henc⟩ := encodes_utf8EncodeChar c (utf8 t)
    rw [utf8_cons, heq, head?_cons, head?_cons, some.injEq, some.injEq,
      ← toNat_eq_iff, ← UInt8.toNat_inj]
    rcases lt_or_ge c.val.toNat 0x80 with hlt | hge
    · rw [(henc.ascii hlt).1, toNat_ofNat_ascii hlt]
      exact Iff.rfl
    · have hle := UInt8.le_iff_toNat_le.1 (henc.not_ascii hge).1
      have hten : (0x0A : UInt8).toNat = 10 := rfl
      have hfeed : '\n'.val.toNat = 10 := rfl
      have hbound : (0x80 : UInt8).toNat = 128 := rfl
      omega

/-- A line feed is the second byte. -/
def lineFeedNext : List Char → Bool
  | c :: t => c.val.toNat < 0x80 && t.head? = some '\n'
  | [] => false

theorem getElem?_one_utf8 (t : List Char) : (utf8 t)[1]? = some 0x0A ↔ lineFeedNext t = true := by
  cases t with
  | nil => simp [lineFeedNext]
  | cons c t =>
    rw [lineFeedNext, Bool.and_eq_true, decide_eq_true_iff, decide_eq_true_iff, utf8_cons]
    rcases lt_or_ge c.val.toNat 0x80 with hlt | hge
    · rw [utf8EncodeChar_ascii hlt, singleton_append, getElem?_cons_succ,
        ← head?_eq_getElem?, head?_utf8]
      exact (and_iff_right hlt).symm
    · refine iff_of_false (fun h => ?_) fun h => absurd h.1 (not_lt.2 hge)
      rw [String.utf8EncodeChar] at h
      have hcont : ∀ v : ℕ, UInt8.ofNat (v % 64 + 0x80) ≠ 0x0A := fun v heq => by
        have hbits := (continuation_byte v).1
        rw [heq] at hbits
        exact absurd hbits (by decide)
      split_ifs at h with h₁ h₂ h₃
      · omega
      all_goals exact hcont _ (some.inj h)

/-! ## What ends a line -/

/-- A newline, but not the carriage return of a Windows newline. -/
def endsLine (c : Char) (t : List Char) : Bool :=
  isNewline c.val.toNat && !(c = '\r' && t.head? = some '\n')

theorem endsLine_iff (c : Char) (t : List Char) : endsLine c t = true ↔
    isNewline c.val.toNat = true ∧ ¬ (c = '\r' ∧ t.head? = some '\n') := by
  simp only [endsLine, Bool.and_eq_true, Bool.not_eq_true', Bool.and_eq_false_iff,
    decide_eq_false_iff_not]
  tauto

theorem isNewline_of_plain (h : isPlain c = true) : isNewline c.val.toNat = false := by
  rw [isPlain_iff] at h
  simp only [isNewline, Bool.or_eq_false_iff, decide_eq_false_iff_not]
  omega

theorem utf16Width_of_plain (h : isPlain c = true) : utf16Width c.val.toNat = 1 := by
  rw [isPlain_iff] at h
  rw [utf16Width, if_neg (by omega)]

theorem val_toNat_eq_thirteen (c : Char) : ((c.val.toNat : ℤ) = 0x0D) ↔ c = '\r' := by
  rw [← toNat_eq_iff, ← Int.natCast_inj]
  exact Iff.rfl

/-- What comes behind a carriage return is the second byte from there. -/
theorem second_byte_iff (c : Char) (t : List Char) :
    ((c.val.toNat : ℤ) = 0x0D ∧ (utf8 (c :: t))[1]? = some 0x0A) ↔
      c = '\r' ∧ t.head? = some '\n' := by
  rw [val_toNat_eq_thirteen]
  refine and_congr_right fun hc => ?_
  subst hc
  rw [getElem?_one_utf8, lineFeedNext, Bool.and_eq_true, decide_eq_true_iff, decide_eq_true_iff]
  exact and_iff_right (by decide)

/-! ## The line of a place

A place in a text is between `before` and `after`. -/

/-- The line breaks of `before`, with `after` behind it. -/
def lineBreaks : List Char → List Char → ℕ
  | [], _ => 0
  | c :: before, after => (endsLine c (before ++ after)).toNat + lineBreaks before after

/-- The longest end of `before` without a line break. -/
def lineTo : List Char → List Char → List Char
  | [], _ => []
  | c :: before, after =>
    if lineBreaks (c :: before) after = 0 then c :: before else lineTo before after

/-- The UTF-16 code units of a character, which takes two outside the Basic Multilingual Plane. -/
def utf16Units (c : Char) : ℕ := if c.val ≤ 0xFFFF then 1 else 2

/-- The UTF-16 code units of a text. -/
def utf16Length (t : List Char) : ℕ := (t.map utf16Units).sum

variable {before between after : List Char}

theorem utf16Width_eq (c : Char) : utf16Width c.val.toNat = utf16Units c := by
  have hle : c.val ≤ 0xFFFF ↔ c.val.toNat ≤ 0xFFFF := UInt32.le_iff_toNat_le
  rw [utf16Width, utf16Units]
  simp only [hle]
  split_ifs <;> omega

theorem utf16Length_append (s t : List Char) :
    utf16Length (s ++ t) = utf16Length s + utf16Length t := by
  rw [utf16Length, map_append, sum_append]
  rfl

theorem utf16Length_singleton (c : Char) : utf16Length [c] = utf16Units c := by
  rw [utf16Length, map_singleton, sum_singleton]

theorem utf16Length_eq_zero {t : List Char} : utf16Length t = 0 ↔ t = [] := by
  refine ⟨fun h => ?_, fun h => h ▸ rfl⟩
  cases t with
  | nil => rfl
  | cons c t =>
    have hunits : 1 ≤ utf16Units c := by
      unfold utf16Units
      split_ifs <;> decide
    have happend := utf16Length_append [c] t
    rw [singleton_append, utf16Length_singleton] at happend
    omega

theorem lineBreaks_append : ∀ before between after : List Char,
    lineBreaks (before ++ between) after =
      lineBreaks before (between ++ after) + lineBreaks between after
  | [], between, after => (zero_add _).symm
  | c :: before, between, after => by
    rw [cons_append, lineBreaks, lineBreaks, lineBreaks_append before, append_assoc,
      add_assoc]

theorem lineBreaks_singleton (c : Char) (after : List Char) :
    lineBreaks [c] after = (endsLine c after).toNat := by
  rw [lineBreaks, lineBreaks, nil_append, add_zero]

/-- The place is further on in the same line. -/
theorem lineTo_append (h : lineBreaks between after = 0) : ∀ before : List Char,
    lineTo (before ++ between) after = lineTo before (between ++ after) ++ between
  | [] => by
    cases between with
    | nil => rfl
    | cons c between =>
      show lineTo (c :: between) after = c :: between
      rw [lineTo, if_pos h]
  | c :: before => by
    have hbreaks := lineBreaks_append (c :: before) between after
    rw [h, add_zero, cons_append] at hbreaks
    rw [cons_append, lineTo, hbreaks, lineTo]
    split_ifs
    · rfl
    · exact lineTo_append h before

/-- The place is the start of a line. -/
theorem lineTo_of_endsLine (h : endsLine c after = true) : ∀ before : List Char,
    lineTo (before ++ [c]) after = []
  | [] => by
    rw [nil_append, lineTo, lineBreaks_singleton, h]
    rfl
  | d :: before => by
    have hbreaks := lineBreaks_append (d :: before) [c] after
    rw [lineBreaks_singleton, h, Bool.toNat_true, cons_append] at hbreaks
    rw [cons_append, lineTo, if_neg (by omega), lineTo_of_endsLine h before]

/-- Every line has a start. -/
theorem exists_lineStart {i : ℕ} (t : List Char) : ∀ {after : List Char}, i ≤ lineBreaks t after →
    ∃ before rest, before ++ rest = t ∧ lineBreaks before (rest ++ after) = i ∧
      lineTo before (rest ++ after) = [] := by
  induction t using reverseRecOn with
  | nil =>
    intro after h
    exact ⟨[], [], rfl, (Nat.le_zero.1 h).symm, rfl⟩
  | append_singleton t c ih =>
    intro after h
    rw [lineBreaks_append, lineBreaks_singleton] at h
    rcases lt_or_ge (lineBreaks t ([c] ++ after)) i with hlt | hle
    · cases hends : endsLine c after with
      | false =>
        rw [hends, Bool.toNat_false] at h
        omega
      | true =>
        rw [hends, Bool.toNat_true] at h
        refine ⟨t ++ [c], [], append_nil _, ?_, lineTo_of_endsLine hends t⟩
        rw [nil_append, lineBreaks_append, lineBreaks_singleton, hends, Bool.toNat_true]
        omega
    · obtain ⟨before, rest, rfl, hbreaks, hline⟩ := ih hle
      refine ⟨before, rest ++ [c], (append_assoc ..).symm, ?_, ?_⟩
      · rwa [append_assoc]
      · rwa [append_assoc]

end Soup.SourceMap
