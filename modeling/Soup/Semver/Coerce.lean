import Mathlib.Data.List.Induction
import Mathlib.Data.List.TakeWhile
import Soup.Lib.Regex
import Soup.Semver.PartialText

/-!
# Coercion

`VersionType::coerce`: the first thing in a text that looks like a version. node-semver finds it
with a regular expression, and the source with one scan over the runs of digits. `coerce_leftmost`
says that they find the same.
-/

namespace Soup.Semver

open List Option Function

/-! ## The scan -/

namespace Coerce

/-- `MAX_SAFE_COMPONENT_LENGTH` -/
def LONGEST : ℕ := 16

def MAX_SAFE_INTEGER : ℕ := 2 ^ 53 - 1

def digits (text : Bytes) : ℕ := (text.takeWhile isAsciiDigit).length

/-- Matches `(?:\.(\d{1,16}))?` followed by a non-digit. Returns the digits and the text after
them. -/
def part : Bytes → Option (Bytes × Bytes)
  | [] => none
  | c :: rest =>
    if c = b '.' then
      let length := digits rest
      if 1 ≤ length ∧ length ≤ LONGEST then some (rest.splitAt length) else none
    else none

def number (digits : Bytes) : Option UInt64 :=
  if digits.head? = some (b '0') ∧ 2 ≤ digits.length then none
  else (parseUnsigned digits).filter fun it => it.toNat ≤ MAX_SAFE_INTEGER

/-- The number of a part, or 0 without one. -/
def numberOr : Option (Bytes × Bytes) → Option UInt64
  | none => some 0
  | some part => number part.1

/-- The loop of `coerce`. Each round but the last skips a digit. -/
def loop : ℕ → Bytes → Option Version
  | 0, _ => none
  | fuel + 1, rest =>
    let start := (rest.takeWhile fun it => !isAsciiDigit it).length
    let src := rest.drop start
    let major := src.take (digits src)
    let after := src.drop (digits src)
    if major = [] then none
    else if LONGEST < major.length then loop fuel after
    else do
      let minor := part after
      let patch := minor.bind fun it => part it.2
      return {
        major := ← number major
        minor := ← numberOr minor
        patch := ← numberOr patch }

end Coerce

def Version.coerce (text : Bytes) : Option Version := Coerce.loop (text.length + 1) text

/-! ## The expression -/

section Expression

open Lib Lib.Regex

/-- `\.([0-9]{1,16})` -/
def dotted (group : ℕ) : Regex UInt8 :=
  seq (char (· == b '.')) (.group group (rep 1 16 (char isAsciiDigit)))

/-- `(?:$|[^0-9])` -/
def boundary : Regex UInt8 := alt stop (char fun c => !isAsciiDigit c)

/-- `(^|[^0-9])([0-9]{1,16})(?:\.([0-9]{1,16}))?(?:\.([0-9]{1,16}))?(?:$|[^0-9])` -/
def coercible : Regex UInt8 :=
  seq (group 1 (alt start (char fun c => !isAsciiDigit c))) <|
    seq (group 2 (rep 1 16 (char isAsciiDigit))) <|
      seq (opt (dotted 3)) <| seq (opt (dotted 4)) boundary

end Expression

/-- A captured component that is not taken. -/
def isRefused (component : Bytes) : Bool :=
  (component.head? == some (b '0') && 2 ≤ component.length) || 2 ^ 53 - 1 < decimal component

/-- The number of a group. -/
def componentOf (group : Option Bytes) : UInt64 := UInt64.ofNat (group.elim 0 decimal)

/-- The version that the groups of a match give. -/
def capturedVersion (captures : ℕ → Option Bytes) : Version :=
  { major := componentOf (captures 2), minor := componentOf (captures 3),
    patch := componentOf (captures 4) }

/-- One of the groups is a component that is not taken. -/
def isAnyRefused (captures : ℕ → Option Bytes) : Bool :=
  [2, 3, 4].any fun group => (captures group).any isRefused

/-! ## What the expression captures -/

open Lib Lib.Regex Coerce

variable (src : Bytes)

/-- The digits at the start of a text do not go on behind it. -/
theorem drop_digits : (src.drop (digits src)).head?.any isAsciiDigit = false := by
  have hdrop : src.drop (digits src) = src.dropWhile isAsciiDigit := by
    conv_lhs => rw [← takeWhile_append_dropWhile (p := isAsciiDigit) (l := src)]
    exact drop_left' (by rw [Coerce.digits, takeWhile_append_dropWhile])
  rw [hdrop]
  have hhead := head?_dropWhile_not isAsciiDigit src
  cases hrest : (src.dropWhile isAsciiDigit).head? with
  | none => rfl
  | some c => simpa [hrest] using hhead

theorem take_digits : src.take (digits src) = src.takeWhile isAsciiDigit :=
  (prefix_iff_eq_take.1 <| takeWhile_prefix _).symm

/-- The place behind a part, with the digits of the part as a group. -/
def Place.behind (s : Place UInt8) (group : ℕ) (part : Bytes × Bytes) : Place UInt8 where
  position := s.position + (1 + part.1.length)
  rest := part.2
  captures := update s.captures group (some part.1)

/-- What takes no text that begins with a digit. -/
def StopsAtDigits {β : Type} (k : Place UInt8 → Option β) : Prop :=
  ∀ s, s.rest.head?.any isAsciiDigit = true → k s = none

section

variable (s : Place UInt8)

theorem first_component {β : Type} {k : Place UInt8 → Option β} (hk : StopsAtDigits k) (n : ℕ) :
    first (group n (rep 1 16 (char isAsciiDigit))) s k =
      if 1 ≤ digits s.rest ∧ digits s.rest ≤ 16 then
        k { s.advance (digits s.rest) with
          captures := update s.captures n (some (s.rest.take (digits s.rest))) }
      else none := by
  have hlength : digits s.rest ≤ s.rest.length := (takeWhile_sublist _).length_le
  have hrep := first_rep_char (fun t => k (s.capture n t)) (p := isAsciiDigit)
    (fun t ht => hk (s.capture n t) ht) 16 1 s
  rw [first_group, hrep, ← Place.capture_advance _ _ hlength]
  rfl

theorem first_dotted {β : Type} {k : Place UInt8 → Option β} (hk : StopsAtDigits k) (n : ℕ) :
    first (dotted n) s k = (part s.rest).bind fun part => k (Place.behind s n part) := by
  rw [dotted, first_seq, first_char]
  cases hrest : s.rest with
  | nil => rfl
  | cons c rest =>
    by_cases hc : c = b '.'
    · rw [first_component _ hk, if_pos (by simp [hc]), part, if_pos hc]
      have hadvance : (s.advance 1).rest = rest := by simp [hrest]
      simp only [hadvance, LONGEST]
      by_cases hlength : 1 ≤ digits rest ∧ digits rest ≤ 16
      · have hle : digits rest ≤ rest.length := (takeWhile_sublist _).length_le
        simp [hlength, Place.behind, Place.advance, hrest, add_assoc, hle]
      · simp [hlength]
    · rw [if_neg (by simp [hc]), part, if_neg hc]
      rfl

/-- The groups that a version is made of. -/
def groups (s : Place UInt8) : Option Bytes × Option Bytes × Option Bytes :=
  (s.captures 2, s.captures 3, s.captures 4)

/-- The groups of a match whose major begins at a text. -/
def groupsAt (src : Bytes) : Option (Option Bytes × Option Bytes × Option Bytes) :=
  if 1 ≤ digits src ∧ digits src ≤ 16 then
    let minor := part (src.drop (digits src))
    let patch := minor.bind fun it => part it.2
    some (some (src.take (digits src)), minor.map Prod.fst, patch.map Prod.fst)
  else none

theorem first_boundary : first boundary s (fun s => some (groups s)) =
      if s.rest.head?.any isAsciiDigit then none else some (groups s) := by
  rw [boundary, first_alt, first_stop, first_char]
  cases hrest : s.rest with
  | nil => rfl
  | cons c rest => cases hc : isAsciiDigit c <;> simp [hc, groups]

/-- The text behind a part does not begin with a digit, and the part itself begins with a dot. -/
theorem part_spec {src : Bytes} {x : Bytes × Bytes} (h : part src = some x) :
    src.head?.any isAsciiDigit = false ∧ x.2.head?.any isAsciiDigit = false ∧
      (∀ c ∈ x.1, isAsciiDigit c = true) ∧ 1 ≤ x.1.length ∧ x.1.length ≤ 16 := by
  cases src with
  | nil => cases h
  | cons c rest =>
    rw [part] at h
    split at h
    · next hc =>
      have hlongest : LONGEST = 16 := rfl
      by_cases hlength : 1 ≤ digits rest ∧ digits rest ≤ LONGEST
      · have hle : digits rest ≤ rest.length := (takeWhile_sublist _).length_le
        rw [if_pos hlength, splitAt_eq, some.injEq] at h
        obtain rfl := h
        refine ⟨?_, drop_digits rest, ?_, ?_, ?_⟩
        · subst hc
          rfl
        · intro d hd
          rw [take_digits] at hd
          exact mem_takeWhile_imp hd
        · simp only [length_take]
          omega
        · simp only [length_take]
          omega
      · rw [if_neg hlength] at h
        cases h
    · cases h

/-- The patch and what is behind it. -/
theorem first_patch : first (seq (opt (dotted 4)) boundary) s (fun s => some (groups s)) =
      if s.rest.head?.any isAsciiDigit then none
      else some (s.captures 2, s.captures 3, ((part s.rest).map Prod.fst).or (s.captures 4)) := by
  have hstops : StopsAtDigits fun s => first boundary s fun s => some (groups s) := fun s hs =>
    (first_boundary s).trans (if_pos hs)
  rw [first_seq, first_opt, first_dotted _ hstops, first_boundary]
  cases hpart : part s.rest with
  | none => rfl
  | some x =>
    obtain ⟨hhead, hbehind, -⟩ := part_spec hpart
    have hx : (Place.behind s 4 x).rest.head?.any isAsciiDigit = false := hbehind
    rw [bind_some, first_boundary, hx, hhead]
    simp [groups, Place.behind]

/-- The minor, the patch and what is behind them. -/
theorem first_minor :
    first (seq (opt (dotted 3)) (seq (opt (dotted 4)) boundary)) s (fun s => some (groups s)) =
      if s.rest.head?.any isAsciiDigit then none
      else some (s.captures 2, ((part s.rest).map Prod.fst).or (s.captures 3),
        (((part s.rest).bind fun it => part it.2).map Prod.fst).or (s.captures 4)) := by
  have hstops : StopsAtDigits fun s => first (seq (opt (dotted 4)) boundary) s fun s =>
      some (groups s) :=
    fun s hs => (first_patch s).trans (if_pos hs)
  rw [first_seq, first_opt, first_dotted _ hstops, first_patch]
  cases hpart : part s.rest with
  | none => simp
  | some x =>
    obtain ⟨hhead, hbehind, -⟩ := part_spec hpart
    have hx : (Place.behind s 3 x).rest.head?.any isAsciiDigit = false := hbehind
    rw [bind_some, first_patch, hx, hhead]
    simp [Place.behind]

/-- What follows the first group. -/
def numbers : Regex UInt8 :=
  seq (group 2 (rep 1 16 (char isAsciiDigit)))
    (seq (opt (dotted 3)) (seq (opt (dotted 4)) boundary))

/-- A match whose major begins at a place. -/
theorem first_numbers (hthree : s.captures 3 = none) (hfour : s.captures 4 = none) :
    first numbers s (fun s => some (groups s)) = groupsAt s.rest := by
  have hstops : StopsAtDigits fun s =>
      first (seq (opt (dotted 3)) (seq (opt (dotted 4)) boundary)) s fun s => some (groups s) :=
    fun s hs => (first_minor s).trans (if_pos hs)
  rw [numbers, first_seq, first_component _ hstops, groupsAt]
  split
  · rw [first_minor, Place.advance_rest, drop_digits]
    simp [hthree, hfour]
  · rfl

end

/-- The groups of a match that begins at a place. -/
theorem first_coercible (position : ℕ) (src : Bytes) :
    first coercible { position, rest := src, captures := fun _ => none }
      (fun s => some (groups s)) = (if position = 0 then groupsAt src else none).or
        (if src.head?.any fun c => !isAsciiDigit c then groupsAt (src.drop 1) else none) := by
  have hnumbers : ∀ s t : Place UInt8, t.captures = (fun _ => none) →
      first numbers (s.capture 1 t) (fun s => some (groups s)) = groupsAt t.rest := fun s t ht =>
    first_numbers _ (by simp [Place.capture, ht]) (by simp [Place.capture, ht])
  show first (seq (group 1 (alt start (char fun c => !isAsciiDigit c))) numbers) _ _ = _
  rw [first_seq, first_group, first_alt, first_start, first_char, hnumbers _ _ rfl,
    hnumbers _ _ rfl]
  rfl

/-- The groups of the first match that begins behind a character of the text. -/
def groupsBehind : Bytes → Option (Option Bytes × Option Bytes × Option Bytes)
  | [] => none
  | c :: rest => (if isAsciiDigit c then none else groupsAt rest).or (groupsBehind rest)

theorem map_head?_runs (r : Regex UInt8) (s : Place UInt8) :
    (runs r s).head?.map groups = first r s fun s => some (groups s) := by
  rw [first]
  cases runs r s <;> rfl

theorem leftmostFrom_coercible : ∀ position, 0 < position →
    (leftmostFrom coercible position src).map groups = groupsBehind src := by
  induction src with
  | nil =>
    intro position hposition
    rw [leftmostFrom, map_head?_runs, first_coercible, if_neg (by omega)]
    rfl
  | cons c rest ih =>
    intro position hposition
    rw [leftmostFrom, map_or, map_head?_runs, first_coercible, if_neg (by omega),
      ih (position + 1) (by omega), groupsBehind]
    cases hc : isAsciiDigit c <;> simp [hc]

/-- The first match, whose major is at the start or behind a character that is not a digit. -/
theorem leftmost_coercible :
    (leftmost coercible src).map groups = (groupsAt src).or (groupsBehind src) := by
  cases src with
  | nil =>
    rw [leftmost, leftmostFrom, map_head?_runs, first_coercible]
    rfl
  | cons c rest =>
    rw [leftmost, leftmostFrom, map_or, map_head?_runs, first_coercible, if_pos rfl,
      leftmostFrom_coercible rest 1 (by decide), groupsBehind, Option.or_assoc]
    cases hc : isAsciiDigit c <;> simp [hc]

/-! ## The scan finds the first match -/

/-- The version that the scan makes of the digits it has found. -/
def versionOf (groups : Option Bytes × Option Bytes × Option Bytes) : Option Version := do
  let numberOf : Option Bytes → Option UInt64 := fun group => group.elim (some 0) number
  return { major := ← numberOf groups.1, minor := ← numberOf groups.2.1, patch :=
    ← numberOf groups.2.2 }

variable {src : Bytes}

theorem groupsBehind_digits : groupsBehind src = groupsBehind (src.drop (digits src)) := by
  induction src with
  | nil => rfl
  | cons c rest ih =>
    cases hc : isAsciiDigit c
    · simp [Coerce.digits, hc]
    · have hdigits : digits (c :: rest) = digits rest + 1 := by simp [Coerce.digits, hc]
      rw [hdigits, drop_succ_cons, ← ih, groupsBehind]
      simp [hc]

theorem groupsAt_of_head (h : src.head?.any isAsciiDigit = false) : groupsAt src = none := by
  have hdigits : digits src = 0 := by
    cases src with
    | nil => rfl
    | cons c rest => simp [Coerce.digits, show isAsciiDigit c = false by simpa using h]
  rw [groupsAt, if_neg (by omega)]

/-- What is not a digit is passed over. -/
theorem skip_spec :
    (groupsAt src).or (groupsBehind src) =
      (groupsAt (src.dropWhile fun it => !isAsciiDigit it)).or
        (groupsBehind (src.dropWhile fun it => !isAsciiDigit it)) := by
  induction src with
  | nil => rfl
  | cons c rest ih =>
    cases hc : isAsciiDigit c
    · rw [groupsAt_of_head (by simp [hc]), none_or, groupsBehind, dropWhile_cons]
      simpa [hc] using ih
    · rw [dropWhile_cons]
      simp [hc]

theorem drop_skipped :
    src.drop (src.takeWhile fun it => !isAsciiDigit it).length = src.dropWhile fun it =>
      !isAsciiDigit it := by
  conv_lhs => rw [← takeWhile_append_dropWhile (p := fun it => !isAsciiDigit it) (l := src)]
  exact drop_left' (by rw [takeWhile_append_dropWhile])

theorem numberOr_eq (x : Option (Bytes × Bytes)) :
    numberOr x = (x.map Prod.fst).elim (some 0) number := by
  cases x <;> rfl

/-- The scan makes a version of the groups of the first match. -/
theorem loop_eq : ∀ (fuel : ℕ) (src : Bytes), src.length < fuel →
    loop fuel src = ((groupsAt src).or (groupsBehind src)).bind versionOf := by
  intro fuel
  induction fuel with
  | zero =>
    intro src hfuel
    omega
  | succ fuel ih =>
    intro src hfuel
    rw [loop, drop_skipped, skip_spec]
    have hsuffix : (src.dropWhile fun it => !isAsciiDigit it).length ≤ src.length :=
      (dropWhile_suffix _).length_le
    have hhead : (src.dropWhile fun it => !isAsciiDigit it).head?.any (fun c => !isAsciiDigit c) =
        false := by
      have h := head?_dropWhile_not (fun it => !isAsciiDigit it) src
      cases hrest : (src.dropWhile fun it => !isAsciiDigit it).head? with
      | none => rfl
      | some c => simpa [hrest] using h
    generalize (src.dropWhile fun it => !isAsciiDigit it) = from' at hsuffix hhead ⊢
    cases from' with
    | nil => rfl
    | cons c rest =>
      have hc : isAsciiDigit c = true := by simpa using hhead
      have hpos : 1 ≤ digits (c :: rest) := by simp [Coerce.digits, hc]
      have hlength : ((c :: rest).take (digits (c :: rest))).length = digits (c :: rest) :=
        length_take_of_le (takeWhile_sublist _).length_le
      have hne : (c :: rest).take (digits (c :: rest)) ≠ [] := ne_nil_of_length_pos (by omega)
      simp only [if_neg hne, hlength]
      by_cases hlong : LONGEST < digits (c :: rest)
      · have hlongest : LONGEST = 16 := rfl
        have hnone : groupsAt (c :: rest) = none := if_neg (by omega)
        rw [if_pos hlong, ih _ (by simp at hsuffix ⊢; omega), groupsAt_of_head
          (drop_digits _), hnone, none_or, none_or, ← groupsBehind_digits]
      · have hlongest : LONGEST = 16 := rfl
        rw [if_neg hlong, groupsAt, if_pos ⟨hpos, by omega⟩, some_or, bind_some, versionOf]
        simp only [numberOr_eq]
        rfl

/-! ## What is refused -/

theorem decimal_lt (digits : Bytes) (hdigits : ∀ c ∈ digits, isAsciiDigit c = true) :
    decimal digits < 10 ^ digits.length := by
  induction digits using reverseRecOn with
  | nil => decide
  | append_singleton digits c ih =>
    have hinit := ih fun d hd => hdigits d (mem_append_left _ hd)
    have hc : digitValue c < 10 := by
      have hbounds := isAsciiDigit_iff.1 (hdigits c (by simp))
      rw [digitValue]
      omega
    have hvalue : decimal (digits ++ [c]) = decimal digits * 10 + digitValue c := by
      simp [decimal, foldl_append]
    rw [hvalue, length_append, length_singleton, Nat.pow_succ]
    omega

theorem number_eq {component : Bytes} (hdigits : ∀ c ∈ component, isAsciiDigit c = true)
    (hpos : 1 ≤ component.length) (hlong : component.length ≤ 16) :
    number component = if isRefused component then none
      else some (UInt64.ofNat (decimal component)) := by
  have hlt : decimal component < 10 ^ 16 :=
    (decimal_lt component hdigits).trans_le (Nat.pow_le_pow_right (by decide) hlong)
  have hfits : decimal component ≤ u64Max := by
    have hmax : u64Max = 2 ^ 64 - 1 := rfl
    omega
  let numeral : Numeral := ⟨component, ne_nil_of_length_pos hpos, hdigits, hfits⟩
  have hparse : parseUnsigned component = some (UInt64.ofNat (decimal component)) :=
    numeral.parseUnsigned_digits
  have hnat : (UInt64.ofNat (decimal component)).toNat = decimal component :=
    UInt64.toNat_ofNat_of_lt' (show decimal component < 2 ^ 64 by omega)
  rw [number, hparse, filter_some, hnat, isRefused]
  by_cases hzero : component.head? = some (b '0') ∧ 2 ≤ component.length
  · simp [hzero]
  · have hfalse : (component.head? == some (b '0') && decide (2 ≤ component.length)) = false := by
      simpa using hzero
    have hlimit : MAX_SAFE_INTEGER = 2 ^ 53 - 1 := rfl
    rw [if_neg hzero, hfalse, Bool.false_or, hlimit]
    by_cases hsafe : decimal component ≤ 2 ^ 53 - 1
    · simp only [decide_eq_true_eq, if_pos hsafe, if_neg (not_lt.2 hsafe)]
    · simp only [decide_eq_true_eq, if_neg hsafe, if_pos (Nat.lt_of_not_le hsafe)]

/-- The groups of a match are runs of at most 16 digits. -/
def IsRun (component : Bytes) : Prop :=
  (∀ c ∈ component, isAsciiDigit c = true) ∧ 1 ≤ component.length ∧ component.length ≤ 16

variable {found : Option Bytes × Option Bytes × Option Bytes}

theorem groupsAt_spec (h : groupsAt src = some found) :
    (∀ component ∈ found.1, IsRun component) ∧ (∀ component ∈ found.2.1, IsRun component) ∧
      ∀ component ∈ found.2.2, IsRun component := by
  rw [groupsAt] at h
  split at h
  · next hlength =>
    obtain rfl := some.inj h
    refine ⟨?_, ?_, ?_⟩
    · rintro component hcomponent
      obtain rfl := some.inj hcomponent
      have hle : digits src ≤ src.length := (takeWhile_sublist _).length_le
      refine ⟨fun c hc => ?_, ?_, ?_⟩
      · rw [take_digits] at hc
        exact mem_takeWhile_imp hc
      · simp only [length_take]
        omega
      · simp only [length_take]
        omega
    · rintro component hcomponent
      obtain ⟨x, hx, rfl⟩ := map_eq_some_iff.1 hcomponent
      exact (part_spec hx).2.2
    · rintro component hcomponent
      obtain ⟨y, hy, rfl⟩ := map_eq_some_iff.1 hcomponent
      obtain ⟨x, -, hxy⟩ := bind_eq_some_iff.1 hy
      exact (part_spec hxy).2.2
  · cases h

theorem groupsBehind_spec
    (h : groupsBehind src = some found) : ∃ rest, groupsAt rest = some found := by
  induction src with
  | nil => cases h
  | cons c rest ih =>
    rw [groupsBehind, or_eq_some_iff] at h
    rcases h with h | ⟨-, h⟩
    · split at h
      · cases h
      · exact ⟨rest, h⟩
    · exact ih h

theorem elim_number {group : Option Bytes} (hrun : ∀ component ∈ group, IsRun component) :
    group.elim (some 0) number =
      if group.any isRefused then none else some (componentOf group) := by
  cases group with
  | none => rfl
  | some component =>
    obtain ⟨hdigits, hpos, hlong⟩ := hrun component rfl
    exact number_eq hdigits hpos hlong

/-- `coerce` takes its components from the groups of the first match of the expression, and gives
nothing exactly where there is no match or a component is refused. -/
theorem coerce_leftmost :
    Version.coerce src = ((leftmost coercible src).bind fun found =>
      if isAnyRefused found.captures then none else some (capturedVersion found.captures)) ∧
    (Version.coerce src = none ↔
      ∀ found, leftmost coercible src = some found → isAnyRefused found.captures = true) := by
  have hcoerce : Version.coerce src = ((leftmost coercible src).bind fun found =>
      if isAnyRefused found.captures then none else some (capturedVersion found.captures)) := by
    rw [Version.coerce, loop_eq _ _ (by omega), ← leftmost_coercible]
    cases hmatch : leftmost coercible src with
    | none => rfl
    | some found =>
      have hgroups : (groupsAt src).or (groupsBehind src) = some (groups found) := by
        rw [← leftmost_coercible, hmatch]
        rfl
      obtain ⟨rest, hrest⟩ : ∃ rest, groupsAt rest = some (groups found) := by
        rcases or_eq_some_iff.1 hgroups with h | ⟨-, h⟩
        · exact ⟨src, h⟩
        · exact groupsBehind_spec h
      obtain ⟨htwo, hthree, hfour⟩ := groupsAt_spec hrest
      simp only [map_some, bind_some, versionOf, elim_number htwo, elim_number hthree,
        elim_number hfour]
      simp only [groups, isAnyRefused, any_cons, any_nil, Bool.or_false, capturedVersion]
      by_cases hmajor : (found.captures 2).any isRefused = true <;>
        by_cases hminor : (found.captures 3).any isRefused = true <;>
          by_cases hpatch : (found.captures 4).any isRefused =
            true <;> simp [hmajor, hminor, hpatch]
  refine ⟨hcoerce, ?_⟩
  rw [hcoerce]
  cases hmatch : leftmost coercible src with
  | none => simp
  | some found => simp

example : Version.coerce (text "99999999999999999.2.3 4.5") =
    some { major := 2, minor := 3 } := by decide +kernel

end Soup.Semver
