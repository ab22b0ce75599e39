import Mathlib.Data.List.DropRight
import Soup.Semver.PartialText

/-!
# Written versions

`Formatter::fmt` writes a version, and `VersionType::parse_exact` reads it back
(`parseExact_format`). A qualifier that is written without its hyphen goes through another arm of
`VersionType::parse`, which takes it for a prerelease up to its first `-` only (`readsAlike_iff`).

Lengths are natural numbers here; the source keeps them in a `u32`.
-/

namespace Soup.Semver

open List Nat Scan

/-! ## Numbers -/

/-- `write!(w, "{}", n)`. -/
def written (n : UInt64) : Bytes := text (toString n.toNat)

theorem text_toString (n : ℕ) : text (toString n) = (toDigits 10 n).map b := by
  rw [text, toString_eq_ofList_toDigits, String.toList_ofList]

theorem digit_spec :
    ∀ d < 10, isAsciiDigit (b d.digitChar) = true ∧ digitValue (b d.digitChar) = d := by
  decide

theorem decimal_concat (digits : Bytes) (c : UInt8) :
    decimal (digits ++ [c]) = decimal digits * 10 + digitValue c := by
  simp [decimal, foldl_append]

theorem text_toString_spec (n : ℕ) :
    (∀ c ∈ text (toString n), isAsciiDigit c = true) ∧ text (toString n) ≠ [] ∧
      decimal (text (toString n)) = n := by
  induction n using Nat.strong_induction_on with
  | _ n ih =>
    rw [text_toString]
    rcases lt_or_ge n 10 with hlt | hge
    · obtain ⟨hdigit, hvalue⟩ := digit_spec n hlt
      simp [toDigits_of_lt_base hlt, hdigit, decimal, hvalue]
    · obtain ⟨hall, hne, hvalue⟩ := ih (n / 10) (by omega)
      obtain ⟨hdigit, hlast⟩ := digit_spec (n % 10) (mod_lt _ (by decide))
      rw [text_toString] at hall hvalue
      rw [toDigits_of_base_le (by decide) hge, map_append, map_singleton]
      refine ⟨fun c hc => ?_, by simp, ?_⟩
      · rcases mem_append.1 hc with hc | hc
        · exact hall c hc
        · rw [mem_singleton.1 hc]
          exact hdigit
      · rw [decimal_concat, hvalue, hlast]
        omega

/-- A number as it is written. -/
def numeral (n : UInt64) : Numeral where
  digits := written n
  ne_nil := (text_toString_spec _).2.1
  isDigit := (text_toString_spec _).1
  fits := (text_toString_spec _).2.2.trans_le (toNat_le_u64Max n)

theorem numeral_number (n : UInt64) : (numeral n).number = n := by
  have hvalue : decimal (written n) = n.toNat := (text_toString_spec _).2.2
  simp [Numeral.number, numeral, hvalue]

/-- The three numbers of a version with a `.` between them. -/
def writtenCore (major minor patch : UInt64) : Bytes :=
  written major ++ b '.' :: (written minor ++ b '.' :: written patch)

/-- `Formatter::fmt`. -/
def Version.format (v : Version) : Bytes :=
  writtenCore v.major v.minor v.patch ++ ((if v.tag.hasPre then b '-' :: v.tag.pre else []) ++
    if v.tag.hasBuild then b '+' :: v.tag.build else [])

/-- `strings::trim` with `strings::WHITESPACE_CHARS`. -/
def trimWhitespace (s : Bytes) : Bytes := (s.dropWhile isWhitespaceChar).rdropWhile isWhitespaceChar

/-- `VersionType::parse_exact`. -/
def Version.parseExact (s : Bytes) : Option Version :=
  let trimmed := trimWhitespace s
  let parsed := Version.parse trimmed
  if parsed.valid ∧ parsed.wildcard = .none ∧ parsed.len = trimmed.length
    then some parsed.version.min else none

/-! ## Reading the numbers -/

namespace Scan

theorem loop_number {fuel : ℕ} {s : Scan} {n : Numeral} {tail : Bytes}
    (hrest : s.rest = n.digits ++ tail)
    (htail : ∀ c, tail.head? = some c → isAsciiDigit c = false) (hpart : s.partI = 2) :
    loop (fuel + 1) s = loop fuel
      { i := s.i + n.digits.length, prev := (n.digits ++ tail)[n.digits.length - 1]?, rest := tail,
        partI := 3
        result := s.result.setPart 2 n.number } := by
  obtain ⟨c, cs, hcons, hc⟩ := n.exists_cons
  have hs : s.rest = c :: (cs ++ tail) := by rw [hrest, hcons]; rfl
  have hlength : n.digits.length ≠ 0 := by simp [hcons]
  rw [loop, hs]
  simp only [step_digit hc, number_eq hrest htail (by omega : s.partI < 3)]
  rw [if_neg (by omega)]
  simp [skip, hrest, hpart, hlength]

end Scan

variable (major minor patch : UInt64)

/-- What is read of a text that starts with three numbers. -/
theorem parse_core {tail : Bytes} (htail : ∀ c, tail.head? = some c → isAsciiDigit c = false) :
    ∃ fuel prev, tail.length ≤ fuel ∧ Version.parse (writtenCore major minor patch ++ tail) =
      (loop fuel
        { i := (writtenCore major minor patch).length, prev, rest := tail, partI := 3
          result := { version := { major, minor, patch } } }).finish := by
  obtain ⟨c, cs, hcons, hc⟩ := (numeral major).exists_cons
  have hlengths : ∀ n : UInt64, 0 < (written n).length :=
    fun n => length_pos_of_ne_nil (numeral n).ne_nil
  have hmajor := hlengths major
  have hminor := hlengths minor
  have hpatch := hlengths patch
  have htext : writtenCore major minor patch ++ tail =
      (numeral major).digits ++ b '.' ::
        ((numeral minor).digits ++ b '.' :: ((numeral patch).digits ++ tail)) := by
    simp [writtenCore, numeral]
  have hcount : (writtenCore major minor patch ++ tail).length =
      (written major).length + (written minor).length + (written patch).length + 2 +
        tail.length := by
    simp only [writtenCore, length_append, length_cons]
    omega
  obtain ⟨fuel, hfuel⟩ :
      ∃ fuel, (writtenCore major minor patch ++ tail).length = fuel + 1 + 1 + 1 :=
    ⟨(writtenCore major minor patch ++ tail).length - 3, by omega⟩
  refine ⟨fuel, ((numeral patch).digits ++ tail)[(numeral patch).digits.length - 1]?, by omega, ?_⟩
  rw [version_parse_eq (by rw [htext, hcons]; rfl) hc, hfuel, htext, loop_major, loop_minor,
    loop_number rfl htail rfl]
  simp only [ParseResult.setPart, numeral_number]
  have hlength : (writtenCore major minor patch).length =
      (numeral major).digits.length + 1 + (numeral minor).digits.length + 1 +
        (numeral patch).digits.length := by
    simp only [writtenCore, length_append, length_cons, numeral]
    omega
  rw [hlength]

/-! ## Reading a tag -/

/-- A byte of a prerelease or of build metadata. -/
def isQualifierChar (c : UInt8) : Bool := isTagCharacter c || c == b '-'

variable {c : UInt8}

theorem isQualifierChar_ne_plus (h : isQualifierChar c = true) : c ≠ b '+' := by
  rintro rfl
  exact absurd h (by decide)

theorem isQualifierChar_ne_space (h : isQualifierChar c = true) : c ≠ b ' ' := by
  rintro rfl
  exact absurd h (by decide)

section Tag

variable {input cs rest : Bytes} {n : ℕ} {s : TagScan}

section

variable (hcs : ∀ c ∈ cs, isQualifierChar c = true)
include hcs

/-- In a prerelease or in build metadata, every byte of a qualifier is passed over. -/
theorem tagLoop_qualifier (hstate : s.state ≠ .none) :
    tagLoop input n (cs ++ rest) s = tagLoop input n rest { s with i := s.i + cs.length } := by
  induction cs generalizing s with
  | nil => rfl
  | cons c cs ih =>
    obtain ⟨hc, hcs⟩ := forall_mem_cons.1 hcs
    have hadd : s.i + (c :: cs).length = s.i + 1 + cs.length := by simp; omega
    rw [cons_append, tagLoop, if_neg (isQualifierChar_ne_plus hc), hadd]
    by_cases hdash : c = b '-'
    · rw [if_pos hdash, TagScan.dash, if_neg hstate]
      exact ih hcs hstate
    · have htag : isTagCharacter c = true := by simpa [isQualifierChar, hdash] using hc
      rw [if_neg hdash, if_pos htag]
      exact ih hcs hstate

omit hcs in
/-- In front of the first `-`, nothing but the position changes. -/
theorem tagLoop_tag (hcs : ∀ c ∈ cs, isTagCharacter c = true) :
    tagLoop input n (cs ++ rest) s = tagLoop input n rest { s with i := s.i + cs.length } := by
  induction cs generalizing s with
  | nil => rfl
  | cons c cs ih =>
    obtain ⟨hc, hcs⟩ := forall_mem_cons.1 hcs
    have hadd : s.i + (c :: cs).length = s.i + 1 + cs.length := by simp; omega
    have hplus : c ≠ b '+' := isQualifierChar_ne_plus (by simp [isQualifierChar, hc])
    have hdash : c ≠ b '-' := by
      rintro rfl
      exact absurd hc (by decide)
    rw [cons_append, tagLoop, if_neg hplus, if_neg hdash, if_pos hc, hadd]
    exact ih hcs

theorem counted_qualifier : (b '-' :: cs).takeWhile (· != b ' ') = b '-' :: cs := by
  refine takeWhile_eq_self_iff.2 fun c hc => ?_
  rcases mem_cons.1 hc with rfl | hc
  · decide
  · simpa using isQualifierChar_ne_space (hcs c hc)

theorem tagLoop_pre : tagLoop input n (b '-' :: (cs ++ rest)) {} =
      tagLoop input n rest { state := .pre, start := 1, i := cs.length + 1 } := by
  have hdash : TagScan.dash {} = { state := .pre, start := 1, i := 1 } := rfl
  rw [tagLoop, if_neg (by decide), if_pos rfl, hdash, tagLoop_qualifier hcs (by simp)]
  simp [add_comm 1]

/-- A prerelease behind its hyphen. -/
theorem parse_pre : Tag.parse (b '-' :: cs) = { tag := { pre := cs }, len := cs.length + 1 } := by
  have hloop := @tagLoop_pre (b '-' :: cs) cs [] 0 hcs
  rw [append_nil] at hloop
  rw [Tag.parse, Tag.parseWithPreCount, counted_qualifier hcs, if_neg (by simp), hloop]
  simp [tagLoop, TagScan.finish]

omit hcs in
theorem takeWhile_build {front build : Bytes} (hfront : front.takeWhile (· != b ' ') = front) :
    ((front ++ b '+' :: build).takeWhile (· != b ' ')).count (b '+') ≠ 0 := by
  rw [takeWhile_append_of_pos (takeWhile_eq_self_iff.1 hfront), takeWhile_cons_of_pos (by decide)]
  simp

/-- A prerelease with build metadata behind it. -/
theorem parse_pre_build {build : Bytes} (hbuild : ∀ c ∈ build, isQualifierChar c = true) :
    Tag.parse (b '-' :: (cs ++ b '+' :: build)) =
      { tag := { pre := cs, build }, len := cs.length + build.length + 2 } := by
  have hcount := @takeWhile_build (b '-' :: cs) build (counted_qualifier hcs)
  have hloop := @tagLoop_pre (b '-' :: (cs ++ b '+' :: build)) cs (b '+' :: build) 0 hcs
  have hplus : TagScan.plus (b '-' :: (cs ++ b '+' :: build)) 0
    { state := .pre, start := 1, i := cs.length + 1 } =
      { tag := { pre := cs }, state := .build, start := cs.length + 2, i := cs.length + 2 } := by
    simp [TagScan.plus]
  have hend := @tagLoop_qualifier (b '-' :: (cs ++ b '+' :: build)) build [] 0
    { tag := { pre := cs }, state := .build, start := cs.length + 2, i := cs.length + 2 } hbuild
      (by simp)
  rw [append_nil] at hend
  rw [Tag.parse, Tag.parseWithPreCount, if_neg fun h => hcount h.1, hloop, tagLoop, if_pos rfl,
    hplus, hend]
  have hsplit : b '-' :: (cs ++ b '+' :: build) = (b '-' :: cs ++ [b '+']) ++ build := by simp
  have htake : (b '-' :: (cs ++ b '+' :: build)).take (cs.length + 2 + build.length) =
      b '-' :: (cs ++ b '+' :: build) := take_of_length_le (by simp; omega)
  have hdrop : (b '-' :: (cs ++ b '+' :: build)).drop (cs.length + 2) = build := by
    rw [hsplit]
    exact drop_left' (by simp)
  simp [tagLoop, TagScan.finish]
  exact ⟨by rw [htake, hdrop], by omega⟩

end

/-- Build metadata alone. -/
theorem parse_build {build : Bytes} (hbuild : ∀ c ∈ build, isQualifierChar c = true) :
    Tag.parse (b '+' :: build) = { tag := { build }, len := build.length + 1 } := by
  have hcount := @takeWhile_build [] build rfl
  have hplus : TagScan.plus (b '+' :: build) 0 {} = { state := .build, start := 1, i := 1 } := by
    simp [TagScan.plus]
  have hend := @tagLoop_qualifier (b '+' :: build) build [] 0
    { state := .build, start := 1, i := 1 } hbuild (by simp)
  rw [append_nil] at hend
  rw [Tag.parse, Tag.parseWithPreCount, if_neg fun h => hcount h.1, tagLoop, if_pos rfl, hplus,
    hend]
  simp [tagLoop, TagScan.finish, add_comm 1]

end Tag

/-! ## The round trip -/

/-- What is read behind three numbers that a tag follows. -/
theorem parse_tagged {cs : Bytes} {tag : Tag}
    (hc : c = b '-' ∨ c = b '+') (htag : Tag.parse (c :: cs) = { tag, len := (c :: cs).length }) :
    Version.parse (writtenCore major minor patch ++ c :: cs) =
      { version := { major, minor, patch, tag },
        len := (writtenCore major minor patch ++ c :: cs).length } := by
  have hdigit : ∀ d, (c :: cs).head? = some d → isAsciiDigit d = false := by
    rintro d hd
    obtain rfl : c = d := by simpa using hd
    rcases hc with rfl | rfl <;> decide
  obtain ⟨fuel, prev, hfuel, hparse⟩ := parse_core major minor patch hdigit
  obtain ⟨fuel, rfl⟩ : ∃ k, fuel = k + 1 := ⟨fuel - 1, by simp at hfuel; omega⟩
  have hstep (s : Scan) : s.step c = (s.tagged c, true) := by
    rcases hc with rfl | rfl <;> rfl
  have hparts : ¬ 3 < (if c = b '+' then 1 else 2) := by split <;> omega
  rw [hparse, loop]
  simp only [hstep]
  rw [tagged, if_neg fun h => hparts h.1]
  simp [htag, skip, finish]

/-- What is read behind three numbers, whichever tag follows. -/
theorem parse_format (v : Version) (hpre : ∀ c ∈ v.tag.pre, isQualifierChar c = true)
    (hbuild : ∀ c ∈ v.tag.build, isQualifierChar c = true) :
    Version.parse v.format = {
      version := { major := v.major, minor := v.minor, patch := v.patch, tag := v.tag }
      len := v.format.length } := by
  obtain ⟨major, minor, patch, pre, build⟩ := v
  simp only [Version.format, Tag.hasPre, Tag.hasBuild]
  cases pre with
  | nil =>
    cases build with
    | nil =>
      obtain ⟨fuel, prev, -, hparse⟩ := @parse_core major minor patch [] (by simp)
      simp only [isEmpty_nil, Bool.not_true, Bool.false_eq_true, if_false, append_nil] at hparse ⊢
      rw [hparse, loop_nil rfl]
      rfl
    | cons c cs =>
      simpa using parse_tagged major minor patch (.inr rfl) (parse_build hbuild)
  | cons c cs =>
    cases build with
    | nil => simpa using parse_tagged major minor patch (.inl rfl) (parse_pre hpre)
    | cons d ds =>
      have htag := parse_pre_build hpre hbuild
      simpa using parse_tagged major minor patch (.inl rfl) (htag.trans (by simp; omega))

theorem trimWhitespace_of_forall {s : Bytes} (h : ∀ c ∈ s, isWhitespaceChar c = false) :
    trimWhitespace s = s := by
  have hhead : s.dropWhile isWhitespaceChar = s := by
    cases s with
    | nil => rfl
    | cons c cs => rw [dropWhile_cons_of_neg (by simp [h c mem_cons_self])]
  rw [trimWhitespace, hhead, rdropWhile_eq_self_iff]
  exact fun hne => by simp [h _ (getLast_mem hne)]

theorem isWhitespaceChar_eq_false (h : isQualifierChar c = true ∨ c = b '+') :
    isWhitespaceChar c = false := by
  rw [← Bool.not_eq_true]
  intro hspace
  simp only [isWhitespaceChar, Bool.or_eq_true, beq_iff_eq] at hspace
  rcases hspace with ((((rfl | rfl) | rfl) | rfl) | rfl) | rfl <;> exact absurd h (by decide)

theorem isQualifierChar_written {n : UInt64} (h : c ∈ written n) : isQualifierChar c = true := by
  have hdigit := (numeral n).isDigit c h
  simp [isQualifierChar, isTagCharacter, hdigit]

/-- The bytes of a written version. -/
theorem mem_format (v : Version) (hpre : ∀ c ∈ v.tag.pre, isQualifierChar c = true)
    (hbuild : ∀ c ∈ v.tag.build, isQualifierChar c = true) :
    ∀ c ∈ v.format, isQualifierChar c = true ∨ c = b '+' := by
  have hdot : isQualifierChar (b '.') = true := by decide
  have hdash : isQualifierChar (b '-') = true := by decide
  intro c hc
  simp only [Version.format, writtenCore, mem_append, mem_cons] at hc
  rcases hc with (hc | rfl | hc | rfl | hc) | hc | hc
  · exact .inl (isQualifierChar_written hc)
  · exact .inl hdot
  · exact .inl (isQualifierChar_written hc)
  · exact .inl hdot
  · exact .inl (isQualifierChar_written hc)
  · split at hc
    · rcases mem_cons.1 hc with rfl | hc
      · exact .inl hdash
      · exact .inl (hpre c hc)
    · exact absurd hc not_mem_nil
  · split at hc
    · rcases mem_cons.1 hc with rfl | hc
      · exact .inr rfl
      · exact .inl (hbuild c hc)
    · exact absurd hc not_mem_nil

/-- What is read of a text that a version is written as. -/
theorem parseExact_of_eq {s : Bytes} {v : Version} (hs : s = v.format)
    (hpre : ∀ c ∈ v.tag.pre, isQualifierChar c = true)
    (hbuild : ∀ c ∈ v.tag.build, isQualifierChar c = true) :
    Version.parseExact s = some v := by
  have htrim : trimWhitespace v.format = v.format :=
    trimWhitespace_of_forall fun c hc => isWhitespaceChar_eq_false (mem_format v hpre hbuild c hc)
  rw [Version.parseExact, hs, htrim, parse_format v hpre hbuild, if_pos ⟨rfl, rfl, rfl⟩]
  rfl

/-- A version whose prerelease and build metadata are of the bytes of qualifiers is read back. -/
theorem parseExact_format (v : Version) (hpre : ∀ c ∈ v.tag.pre, isQualifierChar c = true)
    (hbuild : ∀ c ∈ v.tag.build, isQualifierChar c = true) : Version.parseExact v.format = some v :=
  parseExact_of_eq rfl hpre hbuild

theorem parseExact_format_rc :
    Version.parseExact (text "1.2.3--rc.1-x+5-a") =
      some { major := 1, minor := 2, patch := 3
             tag := { pre := text "-rc.1-x", build := text "5-a" } } :=
  parseExact_format { major := 1, minor := 2, patch := 3
                      tag := { pre := text "-rc.1-x", build := text "5-a" } }
    (all_eq_true.1 (by decide)) (all_eq_true.1 (by decide))

/-! ## A qualifier without its hyphen -/

/-- A qualifier is read alike with its hyphen and without it. -/
def ReadsAlike (major minor patch : UInt64) (q : Bytes) : Prop :=
  let bare := (Version.parse (writtenCore major minor patch ++ q)).version
  let hyphened := (Version.parse (writtenCore major minor patch ++ b '-' :: q)).version
  bare.major = hyphened.major ∧ bare.minor = hyphened.minor ∧ bare.patch = hyphened.patch ∧
    bare.tag.pre = hyphened.tag.pre

/-- A qualifier starts with a letter that is not a wildcard. -/
structure IsQualifier (q : Bytes) : Prop where
  bytes : ∀ c ∈ q, isQualifierChar c = true
  head : ∃ c cs, q = c :: cs ∧ isAsciiAlphabetic c = true ∧ c ≠ b 'x' ∧ c ≠ b 'X'

variable {q : Bytes}

/-- `parse_with_pre_count` from a letter on, where nothing has a `-`. -/
theorem parseWithPreCount_tag (hq : ∀ c ∈ q, isTagCharacter c = true) :
    Tag.parseWithPreCount q 1 = { tag := { pre := q }, len := q.length } := by
  have hloop := @tagLoop_tag q q [] 1 {} hq
  rw [append_nil] at hloop
  rw [Tag.parseWithPreCount, if_neg (by omega), hloop]
  simp [tagLoop, TagScan.finish]

/-- `parse_with_pre_count` from a letter on: the prerelease starts behind the first `-`. -/
theorem parseWithPreCount_dash {front rest : Bytes} (hfront : ∀ c ∈ front, isTagCharacter c = true)
    (hrest : ∀ c ∈ rest, isQualifierChar c = true) :
    (Tag.parseWithPreCount (front ++ b '-' :: rest) 1).tag = { pre := rest } := by
  have hloop := @tagLoop_tag (front ++ b '-' :: rest) front (b '-' :: rest) 1 {} hfront
  have hdash : TagScan.dash { i := 0 + front.length } =
      { state := .pre, start := front.length + 1, i := front.length + 1 } := by simp [TagScan.dash]
  have hend := @tagLoop_qualifier (front ++ b '-' :: rest) rest [] 1
    { state := .pre, start := front.length + 1, i := front.length + 1 } hrest (by simp)
  rw [append_nil] at hend
  have hsplit : front ++ b '-' :: rest = (front ++ [b '-']) ++ rest := by simp
  have htake : (front ++ b '-' :: rest).take (front.length + 1 + rest.length) = front ++ b '-' ::
      rest :=
    take_of_length_le (by simp; omega)
  have hdrop : (front ++ b '-' :: rest).drop (front.length + 1) = rest := by
    rw [hsplit]
    exact drop_left' (by simp)
  rw [Tag.parseWithPreCount, if_neg (by omega), hloop, tagLoop, if_neg (by decide), if_pos rfl,
    hdash, hend]
  simp [tagLoop, TagScan.finish]
  rw [htake, hdrop]

theorem isAsciiDigit_letter (hc : isAsciiAlphabetic c = true) : isAsciiDigit c = false := by
  rw [← Bool.not_eq_true, isAsciiDigit_iff]
  simp only [isAsciiAlphabetic, Bool.or_eq_true, Bool.and_eq_true, decide_eq_true_eq,
    UInt8.le_iff_toNat_le] at hc
  have hbounds : (b 'a').toNat = 97 ∧ (b 'A').toNat = 65 := by decide
  omega

theorem step_letter {s : Scan} (hc : isAsciiAlphabetic c = true) (hx : c ≠ b 'x') (hX : c ≠ b 'X') :
    s.step c = (s.other c, true) := by
  have hne : ∀ d : UInt8, isAsciiAlphabetic d = false → c ≠ d := by
    rintro d hd rfl
    rw [hd] at hc
    cases hc
  have hback : isStepBack c = false := by
    simp only [isStepBack, Bool.or_eq_false_iff, beq_eq_false_iff_ne]
    refine ⟨⟨⟨⟨⟨?_, ?_⟩, ?_⟩, ?_⟩, ?_⟩, ?_⟩ <;> exact hne _ (by decide)
  have hdigit := isAsciiDigit_letter hc
  have hwild : isWildcardChar c = false := by
    have hstar : c ≠ b '*' := hne _ (by decide)
    simp [isWildcardChar, hx, hX, hstar]
  rw [step, if_neg (hne _ (by decide)), if_neg (by simp [hback]), if_neg (by simp [hdigit]),
    if_neg (hne _ (by decide)), if_neg (by simp [hne (b '-') (by decide), hne (b '+') (by decide)]),
    if_neg (by simp [hwild])]

/-- What is read behind three numbers that a letter follows. -/
theorem parse_letter (hq : IsQualifier q) :
    (Version.parse (writtenCore major minor patch ++ q)).version =
      { major, minor, patch, tag := (Tag.parseWithPreCount q 1).tag } := by
  obtain ⟨c, cs, rfl, hc, hx, hX⟩ := hq.head
  have hdigit : ∀ d, (c :: cs).head? = some d → isAsciiDigit d = false := by
    rintro d hd
    obtain rfl : c = d := by simpa using hd
    exact isAsciiDigit_letter hc
  obtain ⟨fuel, prev, hfuel, hparse⟩ := parse_core major minor patch hdigit
  obtain ⟨fuel, rfl⟩ : ∃ k, fuel = k + 1 := ⟨fuel - 1, by simp at hfuel; omega⟩
  rw [hparse, loop]
  simp only [step_letter hc hx hX]
  rw [other, if_pos ⟨rfl, show 2 ≤ 3 by decide, hc⟩]
  rfl

/-- The hyphen may be left out of the qualifiers that have no other one. -/
theorem readsAlike_iff (hq : IsQualifier q) :
    ReadsAlike major minor patch q ↔ q.contains (b '-') = false := by
  have hhyphened := parse_tagged major minor patch (.inl rfl) (parse_pre hq.bytes)
  simp only [ReadsAlike, hhyphened, parse_letter major minor patch hq, true_and]
  have hsplit : q = q.takeWhile (· != b '-') ++ q.dropWhile (· != b '-') :=
    takeWhile_append_dropWhile.symm
  have hfront : ∀ c ∈ q.takeWhile (· != b '-'), isTagCharacter c = true := fun c hc => by
    have hne : c ≠ b '-' := by simpa using mem_takeWhile_imp hc
    have hbyte := hq.bytes c (takeWhile_subset _ hc)
    simpa [isQualifierChar, hne] using hbyte
  cases htail : q.dropWhile (· != b '-') with
  | nil =>
    rw [htail, append_nil] at hsplit
    rw [← hsplit] at hfront
    have hcontains : q.contains (b '-') = false := by
      rw [← Bool.not_eq_true, contains_iff_mem]
      exact fun hmem => absurd (hfront _ hmem) (by decide)
    rw [parseWithPreCount_tag hfront]
    exact iff_of_true rfl hcontains
  | cons c rest =>
    have hc : c = b '-' := by
      have hhead := head?_dropWhile_not (· != b '-') q
      rw [htail] at hhead
      simpa using hhead
    subst hc
    rw [htail] at hsplit
    have hrest : ∀ d ∈ rest, isQualifierChar d = true := fun d hd =>
      hq.bytes d (hsplit ▸ mem_append_right _ (mem_cons_of_mem _ hd))
    have hcontains : q.contains (b '-') = true := by
      rw [contains_iff_mem, hsplit]
      simp
    have hdash := parseWithPreCount_dash hfront hrest
    rw [← hsplit] at hdash
    simp only [hdash, hcontains, Bool.true_eq_false, iff_false]
    intro heq
    have hlength := congrArg List.length (heq.trans hsplit)
    simp at hlength
    omega

theorem readsAlike_iff_rc :
    ReadsAlike 1 0 0 (text "rc.1") ↔ (text "rc.1").contains (b '-') = false :=
  readsAlike_iff 1 0 0 ⟨all_eq_true.1 (by decide), b 'r', text "c.1",
    rfl, by decide, by decide, by decide⟩

/-- `1.0.0rc-1` is read with the prerelease `1`, and `1.0.0-rc-1` with `rc-1`. -/
theorem not_readsAlike : ¬ ∀ (major minor patch : UInt64) (q : Bytes), IsQualifier q →
    ReadsAlike major minor patch q := by
  intro h
  obtain ⟨-, -, -, hpre⟩ :=
    h 1 0 0 (text "rc-1") ⟨all_eq_true.1 (by decide), b 'r', text "c-1",
    rfl, by decide, by decide, by decide⟩
  exact absurd hpre (by decide +kernel)

end Soup.Semver
