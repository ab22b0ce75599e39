import Soup.Semver.SpecPrecedence
import Soup.Semver.Written

/-!
# Increments

`inc.rs`, node-semver's `semver.inc()` on a parsed version. `inc_spec` is what is known of every
text that it returns: it is read back, it is above the version, and for the three plain kinds it is
the next version of its form.
-/

namespace Soup.Semver

open List Scan

namespace Inc

/-! ## The increment -/

/-- The part of a version an increment bumps, in node-semver's vocabulary. -/
inductive Release
  | major
  | minor
  | patch
  | premajor
  | preminor
  | prepatch
  | prerelease
  /-- Drops the prerelease tag: `1.2.3-beta.4` becomes `1.2.3`. -/
  | release
  deriving DecidableEq, Repr

def Release.isPre : Release → Bool
  | .premajor | .preminor | .prepatch | .prerelease => true
  | _ => false

/-- The number a new prerelease identifier starts at. -/
inductive IdentifierBase
  | zero
  | one
  /-- No number at all: `1.2.3-beta`. -/
  | none
  deriving DecidableEq, Repr

/-- One dot-separated part of a prerelease tag. -/
inductive Identifier
  | number (number : UInt64)
  | text (text : Bytes)
  deriving DecidableEq, Repr

def isNumeric (part : Bytes) : Bool := !part.isEmpty && part.all isAsciiDigit

namespace Identifier

def MAX_SAFE_INTEGER : ℕ := 2 ^ 53 - 1

/-- An all-digit part is a number up to `Number.MAX_SAFE_INTEGER`. Above that it stays text and is
never counted up. -/
def parse (part : Bytes) : Identifier :=
  if isNumeric part then
    match parseUnsigned part with
    | some value => if value.toNat ≤ MAX_SAFE_INTEGER then number value else text part
    | none => text part
  else text part

/-- node-semver's `compareIdentifiers(a, b) === 0`: two numeric parts are equal as numbers (`01`
equals `1`), anything else as text. -/
def equals : Identifier → Bytes → Bool
  | number value, other => isNumeric other && parseUnsigned other == some value
  | text own, other => own == other

/-- `write_to` -/
def written : Identifier → Bytes
  | number value => Semver.written value
  | text own => own

end Identifier

/-- A prerelease identifier as semver.org item 9 defines it. -/
def isValidIdentifier (identifier : Bytes) : Bool :=
  !identifier.isEmpty && (splitDots identifier).all fun part =>
    !part.isEmpty && part.all (fun c => isAsciiAlphabetic c || isAsciiDigit c || c == b '-') &&
      !(isNumeric part && (decide (1 < part.length) && part.head? == some (b '0')))

/-- `write_joined` -/
def joined (parts : List Identifier) : Bytes := [b '.'].intercalate (parts.map Identifier.written)

/-- The parts before the last number, the number, and the parts behind it. -/
def lastNumber : List Identifier → Option (List Identifier × UInt64 × List Identifier)
  | [] => none
  | .number number :: rest =>
    match lastNumber rest with
    | some (front, last, back) => some (.number number :: front, last, back)
    | none => some ([], number, rest)
  | .text own :: rest => (lastNumber rest).map fun last => (.text own :: last.1, last.2)

def baseNumber : IdentifierBase → UInt64
  | .one => 1
  | _ => 0

/-- The first half of `bump_prerelease`: count the last numeric part up, or start one. -/
def countUp (pre : List Identifier) (identifier : Option Bytes) (base : IdentifierBase) :
    Option (List Identifier) :=
  if pre = [] then some [.number (baseNumber base)]
  else
    match lastNumber pre with
    | some (front, number, back) =>
      (checkedAddOne number).map fun number => front ++ .number number :: back
    | none =>
      -- `1.2.3-beta` with the identifier `beta` and no number has nowhere to go.
      if base = .none ∧ identifier = some (joined pre) then none
        else some (pre ++ [.number (baseNumber base)])

/-- The second half: keep the tag only if it already belongs to the identifier. -/
def belong (pre : List Identifier) (identifier : Bytes) (base : IdentifierBase) : List Identifier :=
  let sameIdentifier := pre.head?.any fun first => first.equals identifier
  let hasNumber := pre[1]?.any fun
    | Identifier.number _ => true
    | .text own => isNumeric own
  if !sameIdentifier || !hasNumber then
    .text identifier :: if base = .none then [] else [.number (baseNumber base)]
  else pre

def bumpPrerelease (pre : List Identifier) (identifier : Option Bytes) (base : IdentifierBase) :
    Option (List Identifier) := do
  let pre ← countUp pre identifier base
  match identifier with
  | some identifier => return belong pre identifier base
  | none => return pre

/-- The parts of a prerelease. -/
def partsOf (pre : Bytes) : List Identifier :=
  if pre = [] then [] else (splitDots pre).map Identifier.parse

/-- `if p { n = n.checked_add(1)?; }` -/
def addOneIf (p : Prop) [Decidable p] (n : UInt64) : Option UInt64 :=
  if p then checkedAddOne n else some n

/-- The `match` over the kind: the new numbers and the new prerelease. -/
def bump (v : Version) (pre : List Identifier) (identifier : Option Bytes) (base : IdentifierBase) :
    Release → Option (UInt64 × UInt64 × UInt64 × List Identifier)
  -- A prerelease of the next major, minor or patch version is bumped to that version itself, not
  -- past it.
  | .major => do
    let major ← addOneIf (v.minor ≠ 0 ∨ v.patch ≠ 0 ∨ pre = []) v.major
    return (major, 0, 0, [])
  | .minor => do
    let minor ← addOneIf (v.patch ≠ 0 ∨ pre = []) v.minor
    return (v.major, minor, 0, [])
  | .patch => do
    let patch ← addOneIf (pre = []) v.patch
    return (v.major, v.minor, patch, [])
  | .premajor => do
    let major ← checkedAddOne v.major
    return (major, 0, 0, ← bumpPrerelease [] identifier base)
  | .preminor => do
    let minor ← checkedAddOne v.minor
    return (v.major, minor, 0, ← bumpPrerelease [] identifier base)
  | .prepatch => do
    let patch ← checkedAddOne v.patch
    return (v.major, v.minor, patch, ← bumpPrerelease [] identifier base)
  -- On a version that is not a prerelease this is `prepatch`.
  | .prerelease => do
    let patch ← addOneIf (pre = []) v.patch
    return (v.major, v.minor, patch, ← bumpPrerelease pre identifier base)
  | .release => if pre = [] then none else some (v.major, v.minor, v.patch, [])

/-- What is refused before anything is bumped. -/
def isRefused (kind : Release) (identifier : Option Bytes) (base : IdentifierBase) : Bool :=
  kind.isPre && (identifier.any (fun identifier => !isValidIdentifier identifier) ||
    identifier.isNone && base == .none)

end Inc

open Inc

/-- node-semver's `SemVer#inc`: the new version without build metadata. -/
def inc (v : Version) (kind : Release) (identifier : Option Bytes) (base : IdentifierBase) :
    Option Bytes :=
  let identifier := identifier.filter fun identifier => !identifier.isEmpty
  if Inc.isRefused kind identifier base then none
  else do
    let (major, minor, patch, pre) ← bump v (partsOf v.tag.pre) identifier base kind
    return writtenCore major minor patch ++ if pre = [] then [] else b '-' :: joined pre

/-! ## Valid semver texts -/

/-- A number without leading zeros. -/
structure IsNumber (digits : Bytes) : Prop where
  ne_nil : digits ≠ []
  isDigit : ∀ c ∈ digits, isAsciiDigit c = true
  zero : digits.head? = some (b '0') → digits.length = 1

/-- No prerelease, or dot-separated identifiers, of which the numeric ones have no leading zero. -/
def IsPrerelease (pre : Bytes) : Prop :=
  pre = [] ∨ ∀ part ∈ splitDots pre, IsIdentifier part ∧ (isNumeric part = true → IsNumber part)

/-- No build metadata, or dot-separated identifiers. -/
def IsBuild (build : Bytes) : Prop := build = [] ∨ ∀ part ∈ splitDots build, IsIdentifier part

/-- The texts of semver.org. -/
def IsSemver (src : Bytes) : Prop :=
  ∃ major minor patch pre build, IsNumber major ∧ IsNumber minor ∧ IsNumber patch ∧
    IsPrerelease pre ∧ IsBuild build ∧ src = major ++ b '.' :: (minor ++ b '.' :: patch) ++
      ((if pre = [] then [] else b '-' :: pre) ++ if build = [] then [] else b '+' :: build)

/-! ## Versions of valid texts -/

/-- A number is written with the digits it was read from. -/
theorem text_toString_decimal {digits : Bytes} (h : IsNumber digits) :
    text (toString (decimal digits)) = digits := by
  obtain ⟨hne, hdigit, hzero⟩ := h
  have hchar : ∀ c : UInt8, isAsciiDigit c = true → digitValue c < 10 ∧
      b (digitValue c).digitChar = c := by
    intro c hc
    have hbounds := isAsciiDigit_iff.1 hc
    have hall : ∀ d : Fin 10, b (d.val).digitChar = UInt8.ofNat (d.val + 48) := by decide
    refine ⟨by rw [digitValue]; omega, ?_⟩
    have hlt : digitValue c < 10 := by rw [digitValue]; omega
    have hval := hall ⟨digitValue c, hlt⟩
    rw [show (⟨digitValue c, hlt⟩ : Fin 10).val = digitValue c from rfl] at hval
    rw [hval, digitValue, show c.toNat - 48 + 48 = c.toNat by omega, UInt8.ofNat_toNat]
  induction digits using reverseRecOn with
  | nil => exact absurd rfl hne
  | append_singleton digits c ih =>
    obtain ⟨hlt, hc⟩ := hchar c (hdigit c (by simp))
    rw [decimal_concat, text_toString]
    rcases eq_nil_or_concat digits with rfl | ⟨init, d, hconcat⟩
    · have hvalue : decimal [] * 10 + digitValue c = digitValue c := by simp [decimal]
      rw [hvalue, Nat.toDigits_of_lt_base hlt, map_singleton, hc]
      rfl
    · have hhead : digits.head? ≠ some (b '0') := fun hhead => by
        have hlength := hzero (by rw [List.head?_append, hhead]; rfl)
        rw [hconcat] at hlength
        simp at hlength
      have hdigits :=
        ih (by simp [hconcat]) (fun d hd => hdigit d (by simp [hd])) fun h => absurd h hhead
      have hpos : decimal digits ≠ 0 := fun hnil => by
        rw [hnil] at hdigits
        exact hhead (by rw [← hdigits]; rfl)
      have hdiv : (decimal digits * 10 + digitValue c) / 10 = decimal digits := by omega
      have hmod : (decimal digits * 10 + digitValue c) % 10 = digitValue c := by omega
      rw [text_toString] at hdigits
      rw [Nat.toDigits_of_base_le (by decide) (by omega), hdiv, hmod, map_append, map_singleton,
        hdigits, hc]

namespace Scan

theorem finish_valid {s : Scan} (h : s.result.valid = false) : s.finish.valid = false := by
  have hresult : s.finish.valid = s.result.valid := by
    rw [finish]
    split
    · split <;> simp_all
    · rfl
  rw [hresult, h]

/-- A number above `u64::MAX` ends the scan. -/
theorem loop_overflow {fuel : ℕ} {s : Scan} {digits tail : Bytes} (hdigits : IsNumber digits)
    (hbig : u64Max < decimal digits) (hrest : s.rest = digits ++ tail)
    (htail : ∀ c, tail.head? = some c → isAsciiDigit c = false) (hpart : s.partI < 3)
    (hwild : s.result.wildcard = .none) :
    (loop (fuel + 1) s).result.valid = false := by
  obtain ⟨c, cs, hcons⟩ := exists_cons_of_ne_nil hdigits.ne_nil
  have hc : isAsciiDigit c = true := hdigits.isDigit c (by simp [hcons])
  have hs : s.rest = c :: (cs ++ tail) := by rw [hrest, hcons]; rfl
  have htake : s.rest.takeWhile isAsciiDigit = digits := by
    rw [hrest, takeWhile_append_of_pos hdigits.isDigit]
    cases tail with
    | nil => simp
    | cons d ds => simp [htail d rfl]
  have hparse : parseUnsigned digits = none := by
    rw [parseUnsigned, Numeral.accumulate_digits _ _ hdigits.isDigit]
    split
    · rfl
    · exact if_neg (not_le.2 hbig)
  rw [loop, hs]
  simp only [step_digit hc, number, htake, hparse]
  rw [if_pos (by simpa [skip] using hpart), if_pos ⟨rfl, by simpa [skip, invalid] using hwild⟩]
  rfl

end Scan

/-- The numeral of a number that fits. -/
def IsNumber.numeral {digits : Bytes} (h : IsNumber digits) (hfits : decimal digits ≤ u64Max) :
    Numeral :=
  ⟨digits, h.ne_nil, h.isDigit, hfits⟩

variable {c : UInt8}

theorem isAsciiDigit_dot {tail : Bytes} (hc : (b '.' :: tail).head? = some c) :
    isAsciiDigit c = false := by
  obtain rfl : b '.' = c := by simpa using hc
  decide

/-- A text with a number above `u64::MAX` is not a version. -/
theorem parse_overflow {major minor patch tail : Bytes} (hmajor : IsNumber major)
    (hminor : IsNumber minor)
    (hpatch : IsNumber patch) (htail : ∀ c, tail.head? = some c → isAsciiDigit c = false)
    (hbig : u64Max < decimal major ∨ u64Max < decimal minor ∨ u64Max < decimal patch) :
    (Version.parse (major ++ b '.' :: (minor ++ b '.' :: (patch ++ tail)))).valid = false := by
  obtain ⟨c, cs, hcons⟩ := exists_cons_of_ne_nil hmajor.ne_nil
  have hc : isAsciiDigit c = true := hmajor.isDigit c (by simp [hcons])
  obtain ⟨fuel, hfuel⟩ : ∃ fuel, (major ++ b '.' :: (minor ++ b '.' :: (patch ++ tail))).length =
      fuel + 1 + 1 + 1 :=
    ⟨(major ++ b '.' :: (minor ++ b '.' :: (patch ++ tail))).length - 3, by
      have hpos := length_pos_of_ne_nil hmajor.ne_nil
      simp only [length_append, length_cons]
      omega⟩
  rw [version_parse_eq (by rw [hcons]; rfl) hc, hfuel]
  refine finish_valid ?_
  by_cases hone : decimal major ≤ u64Max
  · rw [show major = (hmajor.numeral hone).digits from rfl, loop_major]
    by_cases htwo : decimal minor ≤ u64Max
    · rw [show minor = (hminor.numeral htwo).digits from rfl, loop_minor]
      exact loop_overflow hpatch (by omega) rfl htail (by simp) rfl
    · exact loop_overflow hminor (by omega) rfl (fun c => isAsciiDigit_dot) (by simp) rfl
  · exact loop_overflow hmajor (by omega) rfl (fun c => isAsciiDigit_dot) (by simp) rfl

theorem isQualifierChar_of_isIdentifierChar (h : isIdentifierChar c = true) :
    isQualifierChar c = true := by
  simp only [isIdentifierChar, Bool.or_eq_true] at h
  simp only [isQualifierChar, isTagCharacter, Bool.or_eq_true]
  tauto

variable {src : Bytes}

/-- The bytes of dot-separated identifiers. -/
theorem isQualifierChar_of_parts (h : ∀ part ∈ splitDots src, IsIdentifier part) :
    ∀ c ∈ src, isQualifierChar c = true := by
  intro c hc
  have hsrc : [b '.'].intercalate (splitDots src) = src := intercalate_splitOn _
  rw [← hsrc] at hc
  rcases mem_intercalate hc with rfl | ⟨part, hpart, hc⟩
  · decide
  · exact isQualifierChar_of_isIdentifierChar ((h part hpart).allowed c hc)

theorem IsPrerelease.isQualifierChar {pre : Bytes} (h : IsPrerelease pre) :
    ∀ c ∈ pre, isQualifierChar c = true := by
  rcases h with rfl | h
  · simp
  · exact isQualifierChar_of_parts fun part hpart => (h part hpart).1

theorem IsBuild.isQualifierChar {build : Bytes} (h : IsBuild build) :
    ∀ c ∈ build, isQualifierChar c = true := by
  rcases h with rfl | h
  · simp
  · exact isQualifierChar_of_parts h

theorem IsNumber.written {digits : Bytes} (h : IsNumber digits) (hfits : decimal digits ≤ u64Max) :
    written (UInt64.ofNat (decimal digits)) = digits := by
  have hlt : decimal digits < 2 ^ 64 := by
    unfold u64Max at hfits
    omega
  rw [Semver.written, UInt64.toNat_ofNat_of_lt' hlt, text_toString_decimal h]

theorem isQualifierChar_digit (h : isAsciiDigit c = true) : isQualifierChar c = true := by
  simp [Semver.isQualifierChar, isTagCharacter, h]

variable {v : Version}

/-- What is read of a valid text has its prerelease. -/
theorem parseExact_semver (hsrc : IsSemver src) (hv : Version.parseExact src = some v) :
    IsPrerelease v.tag.pre := by
  obtain ⟨major, minor, patch, pre, build, hmajor, hminor, hpatch, hpre, hbuild, rfl⟩ := hsrc
  by_cases hfits : decimal major ≤ u64Max ∧ decimal minor ≤ u64Max ∧ decimal patch ≤ u64Max
  · obtain ⟨hone, htwo, hthree⟩ := hfits
    let w : Version := {
      major := UInt64.ofNat (decimal major), minor := UInt64.ofNat (decimal minor)
      patch := UInt64.ofNat (decimal patch), tag := { pre, build } }
    have hread := parseExact_of_eq (s := major ++ b '.' :: (minor ++ b '.' :: patch) ++
      ((if pre = [] then [] else b '-' :: pre) ++ if build = [] then [] else b '+' :: build)) (v :=
      w)
      (by
        rw [Version.format, writtenCore, hmajor.written hone, hminor.written htwo,
          hpatch.written hthree]
        simp [w, Tag.hasPre, Tag.hasBuild])
      hpre.isQualifierChar hbuild.isQualifierChar
    rw [hread] at hv
    obtain rfl := Option.some.inj hv
    exact hpre
  · exfalso
    -- The text has no blanks at its ends, so the scan is over all of it.
    generalize htail : ((if pre = [] then [] else b '-' :: pre) ++ if build = [] then []
      else b '+' :: build) = tail at hv
    have htailChars : ∀ c ∈ tail, isQualifierChar c = true ∨ c = b '+' := by
      intro c hc
      rw [← htail, mem_append] at hc
      rcases hc with hc | hc
      · split at hc
        · cases hc
        · rcases mem_cons.1 hc with rfl | hc
          · exact .inl (by decide)
          · exact .inl (hpre.isQualifierChar c hc)
      · split at hc
        · cases hc
        · rcases mem_cons.1 hc with rfl | hc
          · exact .inr rfl
          · exact .inl (hbuild.isQualifierChar c hc)
    have hhead : ∀ c, tail.head? = some c → isAsciiDigit c = false := by
      intro c hc
      rw [← htail] at hc
      have hdash : isAsciiDigit (b '-') = false := by decide
      have hplus : isAsciiDigit (b '+') = false := by decide
      by_cases hp : pre = []
      · by_cases hb : build = []
        · simp [hp, hb] at hc
        · simp only [if_pos hp, if_neg hb, nil_append, head?_cons, Option.some.injEq] at hc
          rw [← hc, hplus]
      · simp only [if_neg hp, cons_append, head?_cons, Option.some.injEq] at hc
        rw [← hc, hdash]
    have htrim : trimWhitespace (major ++ b '.' :: (minor ++ b '.' :: patch) ++ tail) =
        major ++ b '.' :: (minor ++ b '.' :: patch) ++ tail := by
      refine trimWhitespace_of_forall fun c hc => isWhitespaceChar_eq_false ?_
      simp only [mem_append, mem_cons] at hc
      rcases hc with (hc | rfl | hc | rfl | hc) | hc
      · exact .inl (isQualifierChar_digit (hmajor.isDigit c hc))
      · exact .inl (by decide)
      · exact .inl (isQualifierChar_digit (hminor.isDigit c hc))
      · exact .inl (by decide)
      · exact .inl (isQualifierChar_digit (hpatch.isDigit c hc))
      · exact htailChars c hc
    have hsplit : major ++ b '.' :: (minor ++ b '.' :: patch) ++ tail =
        major ++ b '.' :: (minor ++ b '.' :: (patch ++ tail)) := by simp
    have hoverflow := parse_overflow hmajor hminor hpatch hhead (by omega)
    rw [← hsplit] at hoverflow
    rw [Version.parseExact, htrim, if_neg fun h => absurd (hoverflow.symm.trans h.1)
      (by decide)] at hv
    cases hv

/-! ## The prerelease that is written -/

section Parts

open Inc

variable {pre parts : List Inc.Identifier} {identifier : Option Bytes} {base : IdentifierBase}

/-- The place of a part among identifiers. -/
def rankOf (part : Inc.Identifier) : Semver.Identifier := Semver.identifier part.written

theorem parseUnsigned_written (n : UInt64) : parseUnsigned (written n) = some n := by
  have hparse := (numeral n).parseUnsigned_digits
  rwa [numeral_number] at hparse

theorem rankOf_number (n : UInt64) : rankOf (.number n) = toLex (.inl n.toNat) := by
  rw [rankOf, Inc.Identifier.written, Semver.identifier, parseUnsigned_written]

/-- A part keeps its place when it is written again, as a number without leading zeros. -/
theorem rankOf_parse (part : Bytes) :
    rankOf (Inc.Identifier.parse part) = Semver.identifier part := by
  rw [Inc.Identifier.parse]
  split
  · cases hparse : parseUnsigned part with
    | none => rfl
    | some n =>
      show rankOf (if _ then _ else _) = _
      split
      · rw [rankOf_number, Semver.identifier, hparse]
      · rfl
  · rfl

theorem lastNumber_spec {front back : List Inc.Identifier} {n : UInt64}
    (h : lastNumber pre = some (front, n, back)) : pre = front ++ .number n :: back := by
  induction pre generalizing front n back with
  | nil => cases h
  | cons part rest ih =>
    cases part with
    | number m =>
      rw [lastNumber] at h
      cases hrest : lastNumber rest with
      | none =>
        rw [hrest] at h
        cases h
        rfl
      | some found =>
        rw [hrest] at h
        cases h
        rw [ih hrest]
        rfl
    | text own =>
      rw [lastNumber] at h
      obtain ⟨⟨front', last⟩, hrest, hfound⟩ := Option.map_eq_some_iff.1 h
      obtain ⟨rfl, rfl⟩ := Prod.mk.inj hfound
      rw [ih hrest]
      rfl

/-- Counting up gives parts that are above those before. -/
theorem countUp_lt (h : countUp pre identifier base = some parts) (hne : pre ≠ []) :
    pre.map rankOf < parts.map rankOf := by
  rw [countUp, if_neg hne] at h
  cases hlast : lastNumber pre with
  | some found =>
    obtain ⟨front, n, back⟩ := found
    rw [hlast] at h
    obtain ⟨m, hm, rfl⟩ := Option.map_eq_some_iff.1 h
    have hcount := checkedAddOne_eq_some hm
    have hlt : rankOf (.number n) < rankOf (.number m) := by
      rw [rankOf_number, rankOf_number]
      exact Sum.Lex.inl_lt_inl_iff.2 (by omega)
    rw [lastNumber_spec hlast, map_append, map_append, map_cons, map_cons]
    exact append_left_lt (cons_lt_cons_iff.2 (.inl hlt))
  | none =>
    rw [hlast] at h
    simp only at h
    split at h
    · cases h
    · cases h
      rw [map_append, map_singleton]
      calc pre.map rankOf = pre.map rankOf ++ [] := (append_nil _).symm
        _ < pre.map rankOf ++ [rankOf (.number (baseNumber base))] :=
          append_left_lt (nil_lt_cons _ _)

/-- A part that can stand in a prerelease. -/
structure IsPart (part : Inc.Identifier) : Prop where
  ne_nil : part.written ≠ []
  allowed : ∀ c ∈ part.written, isQualifierChar c = true

theorem isPart_number (n : UInt64) : IsPart (.number n) :=
  ⟨(numeral n).ne_nil, fun _ hc => isQualifierChar_written hc⟩

theorem isPart_parse {part : Bytes} (h : IsIdentifier part) :
    IsPart (Inc.Identifier.parse part) := by
  have htext : IsPart (.text part) :=
    ⟨h.ne_nil, fun c hc => isQualifierChar_of_isIdentifierChar (h.allowed c hc)⟩
  rw [Inc.Identifier.parse]
  split
  · split
    · split
      · exact isPart_number _
      · exact htext
    · exact htext
  · exact htext

theorem isPart_identifier {identifier : Bytes} (h : isValidIdentifier identifier = true) :
    IsPart (.text identifier) := by
  simp only [isValidIdentifier, Bool.and_eq_true, Bool.not_eq_true', isEmpty_eq_false_iff,
    all_eq_true] at h
  obtain ⟨hne, hparts⟩ := h
  refine ⟨hne, isQualifierChar_of_parts fun part hpart => ?_⟩
  obtain ⟨⟨hpne, hall⟩, -⟩ := hparts part hpart
  exact ⟨by simpa using hpne, hall⟩

theorem countUp_isPart (hpre : ∀ part ∈ pre, IsPart part)
    (h : countUp pre identifier base = some parts) : parts ≠ [] ∧ ∀ part ∈ parts, IsPart part := by
  rw [countUp] at h
  split at h
  · cases h
    exact ⟨by simp, by simp [isPart_number]⟩
  cases hlast : lastNumber pre with
  | some found =>
    obtain ⟨front, n, back⟩ := found
    rw [hlast] at h
    obtain ⟨m, -, rfl⟩ := Option.map_eq_some_iff.1 h
    rw [lastNumber_spec hlast] at hpre
    refine ⟨by simp, fun part hpart => ?_⟩
    rcases mem_append.1 hpart with hpart | hpart
    · exact hpre part (by simp [hpart])
    · rcases mem_cons.1 hpart with rfl | hpart
      · exact isPart_number m
      · exact hpre part (by simp [hpart])
  | none =>
    rw [hlast] at h
    simp only at h
    split at h
    · cases h
    · cases h
      refine ⟨by simp, fun part hpart => ?_⟩
      rcases mem_append.1 hpart with hpart | hpart
      · exact hpre part hpart
      · rw [mem_singleton.1 hpart]
        exact isPart_number _

theorem bumpPrerelease_isPart (hpre : ∀ part ∈ pre, IsPart part)
    (hidentifier : ∀ own, identifier = some own → isValidIdentifier own = true)
    (h : bumpPrerelease pre identifier base = some parts) :
    parts ≠ [] ∧ ∀ part ∈ parts, IsPart part := by
  obtain ⟨counted, hcount, hparts⟩ := Option.bind_eq_some_iff.1 h
  have hcounted := countUp_isPart hpre hcount
  cases identifier with
  | none =>
    obtain rfl := Option.some.inj hparts
    exact hcounted
  | some own =>
    obtain rfl := Option.some.inj hparts
    have hown := isPart_identifier (hidentifier own rfl)
    simp only [belong]
    split
    · refine ⟨by simp, forall_mem_cons.2 ⟨hown, ?_⟩⟩
      split
      · simp
      · simp [isPart_number]
    · exact hcounted

/-! ## The version that is written -/

theorem partsOf_eq_nil {pre : Bytes} : partsOf pre = [] ↔ pre = [] := by
  rw [partsOf]
  split
  · next h => simp [h]
  · next h => simp [h, splitDots_ne_nil]

theorem partsOf_isPart {pre : Bytes} (h : IsPrerelease pre) :
    ∀ part ∈ partsOf pre, IsPart part := by
  intro part hpart
  rw [partsOf] at hpart
  split at hpart
  · cases hpart
  · next hne =>
    obtain ⟨own, hown, rfl⟩ := mem_map.1 hpart
    exact isPart_parse ((h.resolve_left hne) own hown).1

theorem joined_ne_nil (hne : parts ≠ []) (hparts : ∀ part ∈ parts, IsPart part) :
    joined parts ≠ [] := by
  obtain ⟨part, rest, rfl⟩ := exists_cons_of_ne_nil hne
  have hpart := (hparts part mem_cons_self).ne_nil
  rw [joined, map_cons]
  cases rest with
  | nil => simpa using hpart
  | cons next rest =>
    rw [map_cons, intercalate_cons_cons]
    simp

theorem joined_allowed (hparts : ∀ part ∈ parts, IsPart part) :
    ∀ c ∈ joined parts, isQualifierChar c = true := by
  intro c hc
  rcases mem_intercalate hc with rfl | ⟨own, hown, hc⟩
  · decide
  · obtain ⟨part, hpart, rfl⟩ := mem_map.1 hown
    exact (hparts part hpart).allowed c hc

/-- The version of new numbers and a new prerelease. -/
def bumpedVersion (bumped : UInt64 × UInt64 × UInt64 × List Inc.Identifier) : Version where
  major := bumped.1
  minor := bumped.2.1
  patch := bumped.2.2.1
  tag := { pre := joined bumped.2.2.2 }

theorem inc_eq {kind : Release} {out : Bytes} (h : inc v kind identifier base = some out) :
    ∃ bumped, bump v (partsOf v.tag.pre) (identifier.filter fun own => !own.isEmpty) base kind =
      some bumped ∧ Inc.isRefused kind (identifier.filter fun own => !own.isEmpty) base = false ∧
      out = writtenCore bumped.1 bumped.2.1 bumped.2.2.1 ++
        if bumped.2.2.2 = [] then [] else b '-' :: joined bumped.2.2.2 := by
  rw [inc] at h
  split at h
  · cases h
  · next hrefused =>
    obtain ⟨bumped, hbump, hout⟩ := Option.bind_eq_some_iff.1 h
    exact ⟨bumped, hbump, by simpa using hrefused, (Option.some.inj hout).symm⟩

variable {bumped : UInt64 × UInt64 × UInt64 × List Inc.Identifier}

theorem bump_isPart {kind : Release} (hpre : ∀ part ∈ pre, IsPart part)
    (hidentifier : kind.isPre = true → ∀ own, identifier = some own → isValidIdentifier own = true)
    (h : bump v pre identifier base kind = some bumped) : ∀ part ∈ bumped.2.2.2, IsPart part := by
  have hnil : ∀ part ∈ ([] : List Inc.Identifier), IsPart part := by simp
  cases kind with
  | major | minor | patch =>
    rw [bump] at h
    obtain ⟨number, -, hbumped⟩ := Option.bind_eq_some_iff.1 h
    obtain rfl := Option.some.inj hbumped
    exact hnil
  | release =>
    rw [bump] at h
    split at h
    · cases h
    · obtain rfl := Option.some.inj h
      exact hnil
  | premajor | preminor | prepatch =>
    rw [bump] at h
    obtain ⟨number, -, hbumped⟩ := Option.bind_eq_some_iff.1 h
    obtain ⟨parts, hparts, hbumped⟩ := Option.bind_eq_some_iff.1 hbumped
    obtain rfl := Option.some.inj hbumped
    exact (bumpPrerelease_isPart hnil (hidentifier rfl) hparts).2
  | prerelease =>
    rw [bump] at h
    obtain ⟨number, -, hbumped⟩ := Option.bind_eq_some_iff.1 h
    obtain ⟨parts, hparts, hbumped⟩ := Option.bind_eq_some_iff.1 hbumped
    obtain rfl := Option.some.inj hbumped
    exact (bumpPrerelease_isPart hpre (hidentifier rfl) hparts).2

theorem format_bumpedVersion (hparts : ∀ part ∈ bumped.2.2.2, IsPart part) :
    writtenCore bumped.1 bumped.2.1 bumped.2.2.1 ++
      (if bumped.2.2.2 = [] then [] else b '-' :: joined bumped.2.2.2) =
        (bumpedVersion bumped).format := by
  rw [Version.format, bumpedVersion]
  by_cases hnil : bumped.2.2.2 = []
  · simp [hnil, Tag.hasPre, Tag.hasBuild, joined]
  · simp [hnil, Tag.hasPre, Tag.hasBuild, joined_ne_nil hnil hparts]

/-! ## What is above what -/

variable {u v : Version}

theorem triple_lt : u.triple < v.triple ↔
    u.major.toNat < v.major.toNat ∨ u.major.toNat = v.major.toNat ∧
      (u.minor.toNat < v.minor.toNat ∨ u.minor.toNat = v.minor.toNat ∧
        u.patch.toNat < v.patch.toNat) := by
  rw [Version.triple, Version.triple, Prod.Lex.toLex_lt_toLex, Prod.Lex.toLex_lt_toLex]

theorem triple_eq : u.triple = v.triple ↔
    u.major.toNat = v.major.toNat ∧ u.minor.toNat = v.minor.toNat ∧
      u.patch.toNat = v.patch.toNat := by
  rw [Version.triple, Version.triple, toLex_inj, Prod.mk.injEq, toLex_inj, Prod.mk.injEq]

/-- A version is below a release of its numbers if it has a prerelease. -/
theorem lt_release_iff (hv : v.tag.pre = []) :
    u.orderWithoutBuild v = .lt ↔ u.triple < v.triple ∨ u.triple = v.triple ∧ u.tag.pre ≠ [] := by
  have htop : v.tag.rank = ⊤ := rank_eq_top.2 (by simp [Tag.hasPre, hv])
  rw [orderWithoutBuild_eq_lt, precedence_lt, htop, lt_top_iff_ne_top, ne_eq, rank_eq_top,
    ← hasPre_iff, Bool.not_eq_false]

theorem release_le_release_iff (hu : u.tag.pre = []) (hv : v.tag.pre = []) :
    u.orderWithoutBuild v ≠ .gt ↔ u.triple < v.triple ∨ u.triple = v.triple := by
  have htop : v.tag.rank = ⊤ := rank_eq_top.2 (by simp [Tag.hasPre, hv])
  have htop' : u.tag.rank = ⊤ := rank_eq_top.2 (by simp [Tag.hasPre, hu])
  rw [orderWithoutBuild_ne_gt, precedence_le, htop, htop']
  simp

/-- A prerelease is below one of its numbers with higher identifiers. -/
theorem lt_of_parts {v w : Version} (htriple : v.triple = w.triple) (hne : v.tag.pre ≠ [])
    (hpre : w.tag.pre = joined parts)
    (hparts : ∀ part ∈ parts, IsPart part) (hdots : ∀ part ∈ parts, b '.' ∉ part.written)
    (hnil : parts ≠ [])
    (hlt : (partsOf v.tag.pre).map rankOf < parts.map rankOf) : v.orderWithoutBuild w = .lt := by
  have hsplit : splitDots (joined parts) = parts.map Inc.Identifier.written := by
    refine splitOn_intercalate _ (fun own hown => ?_) (by simpa using hnil)
    obtain ⟨part, hpart, rfl⟩ := mem_map.1 hown
    exact hdots part hpart
  have hv : v.tag.rank =
      (((partsOf v.tag.pre).map rankOf : List Semver.Identifier) : WithTop _) := by
    rw [rank_of_hasPre (hasPre_iff.2 hne), partsOf, if_neg hne, map_map]
    congr 2
    exact funext fun part => (rankOf_parse part).symm
  have hw : w.tag.rank = ((parts.map rankOf : List Semver.Identifier) : WithTop _) := by
    rw [rank_of_hasPre (hasPre_iff.2 (by rw [hpre]; exact joined_ne_nil hnil hparts)), hpre, hsplit,
      map_map]
    rfl
  rw [orderWithoutBuild_eq_lt, precedence_lt, hv, hw, WithTop.coe_lt_coe]
  exact .inr ⟨htriple, hlt⟩

theorem addOneIf_spec {p : Prop} [Decidable p] {n m : UInt64} (h : addOneIf p n = some m) :
    p ∧ m.toNat = n.toNat + 1 ∨ ¬p ∧ m = n := by
  rw [addOneIf] at h
  split at h
  · next hp => exact .inl ⟨hp, checkedAddOne_eq_some h⟩
  · next hp => exact .inr ⟨hp, (Option.some.inj h).symm⟩

end Parts

/-- The versions that a plain kind steps through: `X.0.0`, `v.major.X.0` and `v.major.v.minor.X`. -/
def HasForm (v : Version) : Release → Version → Prop
  | .major, u => u.minor = 0 ∧ u.patch = 0
  | .minor, u => u.major = v.major ∧ u.patch = 0
  | .patch, u => u.major = v.major ∧ u.minor = v.minor
  | _, _ => False

/-- `w` is the least release of the form that is above `v`. -/
structure IsNext (v : Version) (kind : Release) (w : Version) : Prop where
  release : w.tag.pre = []
  form : HasForm v kind w
  above : v.orderWithoutBuild w = .lt
  least : ∀ u, u.tag.pre = [] → HasForm v kind u → v.orderWithoutBuild u = .lt →
    w.orderWithoutBuild u ≠ .gt

section Order

variable {v : Version} {kind : Release} {identifier : Option Bytes} {base : IdentifierBase}
  {bumped : UInt64 × UInt64 × UInt64 × List Inc.Identifier}

/-- The numbers of a version and of a release of its own or of the next numbers. -/
theorem isNext_of_numbers {w : Version} (hw : w.tag.pre = []) (hform : HasForm v kind w)
    (habove : v.triple < w.triple ∨ v.triple = w.triple ∧ v.tag.pre ≠ [])
    (hleast : ∀ u, HasForm v kind u → v.triple < u.triple ∨ v.triple = u.triple ∧ v.tag.pre ≠ [] →
      w.triple < u.triple ∨ w.triple = u.triple) : IsNext v kind w where
  release := hw
  form := hform
  above := (lt_release_iff hw).2 habove
  least u hu huform hlt :=
    (release_le_release_iff hw hu).2 (hleast u huform ((lt_release_iff hu).1 hlt))

theorem bump_isNext (hkind : kind = .major ∨ kind = .minor ∨ kind = .patch)
    (h : bump v (partsOf v.tag.pre) identifier base kind = some bumped) :
    IsNext v kind (bumpedVersion bumped) := by
  have hzero : (0 : UInt64).toNat = 0 := rfl
  rcases hkind with rfl | rfl | rfl
  all_goals
    rw [bump] at h
    obtain ⟨n, hn, hbumped⟩ := Option.bind_eq_some_iff.1 h
    obtain rfl := Option.some.inj hbumped
    have hcount := addOneIf_spec hn
    simp only [partsOf_eq_nil, ne_eq, ← UInt64.toNat_inj, hzero] at hcount
    refine isNext_of_numbers rfl ⟨rfl, rfl⟩ ?_ fun u huform hlt => ?_
    · rw [triple_lt, triple_eq]
      simp only [bumpedVersion, hzero]
      grind
    · obtain ⟨hfirst, hsecond⟩ := huform
      rw [triple_lt, triple_eq, hfirst, hsecond] at hlt
      rw [triple_lt, triple_eq, hfirst, hsecond]
      simp only [bumpedVersion, hzero] at hlt ⊢
      grind

theorem lt_of_triple {w : Version} (h : v.triple < w.triple) : v.orderWithoutBuild w = .lt :=
  orderWithoutBuild_eq_lt.2 (precedence_lt.2 (.inl h))

/-- The parts of a valid prerelease have no dots. -/
theorem dot_notMem_partsOf {pre : Bytes} (h : IsPrerelease pre) :
    ∀ part ∈ partsOf pre, b '.' ∉ part.written := by
  intro part hpart hdot
  rw [partsOf] at hpart
  split at hpart
  · cases hpart
  next hne =>
  obtain ⟨own, hown, rfl⟩ := mem_map.1 hpart
  have hown' : b '.' ∉ own := fun hmem =>
    absurd (((h.resolve_left hne) own hown).1.allowed _ hmem) (by decide)
  rw [Inc.Identifier.parse] at hdot
  split at hdot
  · split at hdot
    · split at hdot
      · exact absurd ((numeral _).isDigit _ hdot) (by decide)
      · exact hown' hdot
    · exact hown' hdot
  · exact hown' hdot

theorem dot_notMem_countUp {pre parts : List Inc.Identifier}
    (hpre : ∀ part ∈ pre, b '.' ∉ part.written)
    (h : countUp pre identifier base = some parts) : ∀ part ∈ parts, b '.' ∉ part.written := by
  have hnumber : ∀ n : UInt64, b '.' ∉ (Inc.Identifier.number n).written := fun n hmem =>
    absurd ((numeral n).isDigit _ hmem) (by decide)
  rw [countUp] at h
  split at h
  · obtain rfl := Option.some.inj h
    simp [hnumber]
  cases hlast : lastNumber pre with
  | some found =>
    obtain ⟨front, n, back⟩ := found
    rw [hlast] at h
    obtain ⟨m, -, rfl⟩ := Option.map_eq_some_iff.1 h
    rw [lastNumber_spec hlast] at hpre
    intro part hpart
    rcases mem_append.1 hpart with hpart | hpart
    · exact hpre part (by simp [hpart])
    · rcases mem_cons.1 hpart with rfl | hpart
      · exact hnumber m
      · exact hpre part (by simp [hpart])
  | none =>
    rw [hlast] at h
    simp only at h
    split at h
    · cases h
    · obtain rfl := Option.some.inj h
      intro part hpart
      rcases mem_append.1 hpart with hpart | hpart
      · exact hpre part hpart
      · rw [mem_singleton.1 hpart]
        exact hnumber _

/-- Every increment but `prerelease` with an identifier goes up. -/
theorem bump_above (hpre : IsPrerelease v.tag.pre) (hkind : kind = .prerelease → identifier = none)
    (h : bump v (partsOf v.tag.pre) identifier base kind = some bumped) :
    v.orderWithoutBuild (bumpedVersion bumped) = .lt := by
  cases kind with
  | major => exact (bump_isNext (.inl rfl) h).above
  | minor => exact (bump_isNext (.inr (.inl rfl)) h).above
  | patch => exact (bump_isNext (.inr (.inr rfl)) h).above
  | release =>
    rw [bump] at h
    split at h
    · cases h
    · next hne =>
      obtain rfl := Option.some.inj h
      exact (lt_release_iff rfl).2 (.inr ⟨rfl, fun hnil => hne (partsOf_eq_nil.2 hnil)⟩)
  | premajor | preminor | prepatch =>
    rw [bump] at h
    obtain ⟨number, hnumber, hbumped⟩ := Option.bind_eq_some_iff.1 h
    obtain ⟨parts, -, hbumped⟩ := Option.bind_eq_some_iff.1 hbumped
    obtain rfl := Option.some.inj hbumped
    have hcount := checkedAddOne_eq_some hnumber
    refine lt_of_triple (triple_lt.2 ?_)
    simp only [bumpedVersion]
    grind
  | prerelease =>
    obtain rfl := hkind rfl
    rw [bump] at h
    obtain ⟨patch, hpatch, hbumped⟩ := Option.bind_eq_some_iff.1 h
    obtain ⟨parts, hparts, hbumped⟩ := Option.bind_eq_some_iff.1 hbumped
    obtain rfl := Option.some.inj hbumped
    obtain ⟨counted, hcounted, hparts⟩ := Option.bind_eq_some_iff.1 hparts
    obtain rfl := Option.some.inj hparts
    rcases addOneIf_spec hpatch with ⟨-, hcount⟩ | ⟨hne, rfl⟩
    · refine lt_of_triple (triple_lt.2 ?_)
      simp only [bumpedVersion]
      grind
    · obtain ⟨hnil, hall⟩ := countUp_isPart (partsOf_isPart hpre) hcounted
      exact lt_of_parts rfl (fun hpre' => hne (partsOf_eq_nil.2 hpre')) rfl hall
        (dot_notMem_countUp (dot_notMem_partsOf hpre) hcounted) hnil (countUp_lt hcounted hne)

end Order

/-- What `inc` gives is read back, has no build metadata, and is above the version, but for
`prerelease` with an identifier. For the plain kinds it is the next version of its form. -/
theorem inc_spec (hsrc : IsSemver src) (hv : Version.parseExact src = some v)
    (kind : Release) (identifier : Option Bytes) (base : IdentifierBase) {out : Bytes}
    (hout : inc v kind identifier base = some out) :
    ∃ w, Version.parseExact out = some w ∧ w.tag.build = [] ∧
      (¬(kind = .prerelease ∧ ∃ own, identifier = some own ∧ own ≠ []) →
        v.orderWithoutBuild w = .lt) ∧
      (kind = .major ∨ kind = .minor ∨ kind = .patch → IsNext v kind w) := by
  have hpre := parseExact_semver hsrc hv
  obtain ⟨bumped, hbump, hrefused, rfl⟩ := inc_eq hout
  have hidentifier : kind.isPre = true → ∀ own, (identifier.filter fun own => !own.isEmpty) =
    some own → isValidIdentifier own = true := by
    intro hkind own hown
    simp only [Inc.isRefused, hkind, hown, Bool.true_and, Option.any_some, Option.isNone_some,
      Bool.false_and, Bool.or_false, Bool.not_eq_false'] at hrefused
    exact hrefused
  have hparts := bump_isPart (partsOf_isPart hpre) hidentifier hbump
  refine ⟨bumpedVersion bumped, parseExact_of_eq (format_bumpedVersion hparts)
    (joined_allowed hparts) (by simp [bumpedVersion]),
    rfl, fun hkind => bump_above hpre (fun hprerelease => ?_) hbump,
    fun hkind => bump_isNext hkind hbump⟩
  rw [Option.filter_eq_none_iff]
  intro own hown hne
  exact hkind ⟨hprerelease, own, hown, by simpa using hne⟩

theorem isNumber_digit (hc : isAsciiDigit c = true) : IsNumber [c] :=
  ⟨by simp, by simpa using hc, fun _ => rfl⟩

/-- `1.2.3-beta.4` becomes `1.2.3-beta.5`. -/
theorem inc_spec_beta : ∃ w, Version.parseExact (text "1.2.3-beta.5") = some w ∧ w.tag.build = [] ∧
    (¬(Release.prerelease = .prerelease ∧ ∃ own, (none : Option Bytes) = some own ∧ own ≠ []) →
      ({ major := 1, minor := 2, patch := 3, tag := { pre := text "beta.4" } } :
      Version).orderWithoutBuild w = .lt) ∧
    (Release.prerelease = .major ∨ Release.prerelease = .minor ∨ Release.prerelease = .patch →
      IsNext { major := 1, minor := 2, patch := 3, tag := { pre := text "beta.4" } } .prerelease
        w) := by
  have hpre : IsPrerelease (text "beta.4") := by
    refine .inr fun part hpart => ?_
    rw [show splitDots (text "beta.4") = [text "beta", text "4"] by decide] at hpart
    rcases mem_pair.1 hpart with rfl | rfl
    · exact ⟨⟨by decide, all_eq_true.1 (by decide)⟩, fun h => absurd h (by decide)⟩
    · exact ⟨⟨by decide, all_eq_true.1 (by decide)⟩, fun _ => isNumber_digit (by decide)⟩
  have hsrc : IsSemver (text "1.2.3-beta.4") :=
    ⟨[b '1'], [b '2'], [b '3'], text "beta.4", [], isNumber_digit (by decide),
      isNumber_digit (by decide), isNumber_digit (by decide), hpre, .inl rfl, by decide⟩
  exact inc_spec hsrc (by decide +kernel) .prerelease none .zero (by decide +kernel)

end Soup.Semver
