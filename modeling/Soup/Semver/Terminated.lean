import Mathlib
import Soup.Semver.Version

/-!
# Reading a version before a space or a bar

`Version::parse` reads a version from the start of a slice that may go on. What it reads from a
whole slice it also reads from the start of a longer one, when the slice goes on with a space or a
bar : it stops inside the slice, or at its end, or one byte before (`version_append`). Only a loose
tag may be read otherwise, one that is written without its `-` and has a `-` or a `+` inside
(`1.0.0rc-x`) : at the `-` the loop of the tag starts again.
-/

namespace Soup.Semver

open List Option Nat Scan

/-- `tail` starts with a space or a bar. -/
def Terminated (tail : Bytes) : Prop := tail.head? = some (b ' ') ∨ tail.head? = some (b '|')

variable {tail : Bytes}

theorem Terminated.exists_cons (h : Terminated tail) :
    ∃ c cs, tail = c :: cs ∧ (c = b ' ' ∨ c = b '|') := by
  rcases tail with _ | ⟨c, cs⟩
  · rcases h with h | h <;> cases h
  · exact ⟨c, cs, rfl, h.imp some.inj some.inj⟩

variable {p : UInt8 → Bool}

theorem Terminated.head_ne (h : Terminated tail) (hspace : p (b ' ') = false)
    (hbar : p (b '|') = false) : ∀ c, tail.head? = some c → p c = false := by
  obtain ⟨d, ds, rfl, hd⟩ := h.exists_cons
  intro c hc
  obtain rfl : d = c := by simpa using hc
  rcases hd with rfl | rfl
  · exact hspace
  · exact hbar

theorem takeWhile_append_terminated (h : Terminated tail) (hspace : p (b ' ') = false)
    (hbar : p (b '|') = false) :
    ∀ xs : Bytes, (xs ++ tail).takeWhile p = xs.takeWhile p
  | [] => by
    obtain ⟨d, ds, rfl, -⟩ := h.exists_cons
    simp [h.head_ne hspace hbar d rfl]
  | x :: xs => by
    rw [cons_append, takeWhile_cons, takeWhile_cons, takeWhile_append_terminated h hspace hbar xs]

/-! ## Loose tags -/

/-- A byte that does not end a tag. -/
def isTagByte (c : UInt8) : Bool := c == b '+' || c == b '-' || isTagCharacter c

/-- A digit or a `.`, of which the core of a version is made. -/
def isCoreByte (c : UInt8) : Bool := isAsciiDigit c || c == b '.'

/-- A tag that is written without its `-` and has a `-` or a `+` inside. -/
def IsLooseTag (text : Bytes) : Prop :=
  (∃ c ∈ text.head?, isAsciiAlphabetic c = true ∧ isWildcardChar c = false) ∧
    (∃ d ∈ text.tail, d = b '-' ∨ d = b '+') ∧ ∀ d ∈ text.tail, isTagByte d = true

/-- What is left of the digits and `.` of a version after `part` of its three parts. -/
def IsCore (part : ℕ) (core : Bytes) : Prop :=
  part = 3 ∧ (∀ d ∈ core, isAsciiDigit d = true) ∨
    core.count (b '.') + part = 2 ∧ core.getLast?.any isAsciiDigit = true ∧
      ∀ d ∈ core, isCoreByte d = true

/-- A version of three parts whose tag is loose. -/
def LooseVersion (text : Bytes) : Prop :=
  ∃ lead version, text = lead ++ version ∧ (∀ d ∈ lead, isLeading d = true) ∧
    ∃ core tag, version = core ++ tag ∧ IsCore 0 core ∧ IsLooseTag tag

/-- `before` ends with a tag and a byte that is no part of it. -/
def EndsTag (before : Bytes) : Prop :=
  ∃ front tag, before = front ++ tag ∧
    (∃ d ∈ tag.head?, d = b '-' ∨ d = b '+' ∨ isAsciiAlphabetic d = true ∧
      isWildcardChar d = false ∧ front.getLast?.any isCoreByte = true) ∧
    (∀ e ∈ tag.dropLast, isTagByte e = true) ∧ ∃ z ∈ tag.getLast?, isTagByte z = false

/-- `before` ends with white space, a bar or a tag, or it is empty. -/
def EndsToken (before : Bytes) : Prop :=
  (∀ z ∈ before.getLast?, isWhitespaceChar z = true ∨ z = b '|') ∨ EndsTag before

/-- A version may start behind `front`: at a byte that no version goes on after, or at the `-` of
`1.0.0 - 2.0.0`. -/
def StartsVersion (front : Bytes) : Prop :=
  (∀ z ∈ front.getLast?, isTagByte z = false) ∨
    front.getLast? = some (b '-') ∧ EndsToken front.dropLast

/-- The last version of `input` has a loose tag. -/
def EndsInLooseTag (input : Bytes) : Prop :=
  ∃ front version, input = front ++ version ∧ StartsVersion front ∧ LooseVersion version

section

variable {α : Type} {l : List α} {q : List α → List α → Prop}

theorem exists_append_iff :
    (∃ xs ys, l = xs ++ ys ∧ q xs ys) ↔ ∃ n < l.length + 1, q (l.take n) (l.drop n) := by
  constructor
  · rintro ⟨xs, ys, rfl, h⟩
    refine ⟨xs.length, by rw [length_append]; omega, ?_⟩
    rwa [take_left, drop_left]
  · rintro ⟨n, -, h⟩
    exact ⟨_, _, (take_append_drop n l).symm, h⟩

instance decidableExistsAppend [∀ xs ys, Decidable (q xs ys)] :
    Decidable (∃ xs ys, l = xs ++ ys ∧ q xs ys) :=
  decidable_of_iff _ exists_append_iff.symm

instance (text : Bytes) : Decidable (IsLooseTag text) := by
  unfold IsLooseTag
  infer_instance

instance (before : Bytes) : Decidable (EndsTag before) := by
  unfold EndsTag
  infer_instance

instance (part : ℕ) (core : Bytes) : Decidable (IsCore part core) := by
  unfold IsCore
  infer_instance

instance (text : Bytes) : Decidable (LooseVersion text) := by
  unfold LooseVersion
  infer_instance

instance (before : Bytes) : Decidable (EndsToken before) := by
  unfold EndsToken
  infer_instance

instance (front : Bytes) : Decidable (StartsVersion front) := by
  unfold StartsVersion
  infer_instance

instance (input : Bytes) : Decidable (EndsInLooseTag input) := by
  unfold EndsInLooseTag
  infer_instance

end

-- in `1.0.0-1a-b` the tag has its `-`, and of `1.0rc-x` the range takes no tag
example : EndsInLooseTag (text "1.0.0 - 2.0.0rc-x") ∧ ¬EndsInLooseTag (text "1.0.0-1a-b") ∧
    ¬EndsInLooseTag (text "1.0rc-x") := by
  decide +kernel

theorem isCoreByte_of_digit {d : UInt8} (h : isAsciiDigit d = true) : isCoreByte d = true := by
  rw [isCoreByte, h, Bool.true_or]

variable {part : ℕ} {digits core : Bytes}

/-- The digits of a part before the rest of the core. -/
theorem IsCore.append_digits (hne : digits ≠ [])
    (hdigits : ∀ d ∈ digits, isAsciiDigit d = true) (h : ∀ d ∈ core, isAsciiDigit d = true)
    (hpart : part = 2 ∨ part = 3) : IsCore part (digits ++ core) := by
  have hall : ∀ d ∈ digits ++ core, isAsciiDigit d = true := forall_mem_append.2 ⟨hdigits, h⟩
  rcases hpart with rfl | rfl
  · refine .inr ⟨?_, ?_, fun d hd => isCoreByte_of_digit (hall d hd)⟩
    · have hcount : (digits ++ core).count (b '.') = 0 := by
        rw [count_eq_zero]
        intro hdot
        cases hall _ hdot
      rw [hcount]
    · have hne' : digits ++ core ≠ [] := append_ne_nil_of_left_ne_nil hne core
      rw [getLast?_eq_getLast_of_ne_nil hne', any_some]
      exact hall _ (getLast_mem hne')
  · exact .inl ⟨rfl, hall⟩

/-- The digits of a part and a `.` before the rest of the core. -/
theorem IsCore.append_dot
    (hdigits : ∀ d ∈ digits, isAsciiDigit d = true) (h : IsCore (part + 1) core)
    (hpart : part + 1 ≠ 3) : IsCore part (digits ++ b '.' :: core) := by
  obtain ⟨hcount, hlast, hall⟩ := h.resolve_left fun h => hpart h.1
  refine .inr ⟨?_, ?_, forall_mem_append.2
    ⟨fun d hd => isCoreByte_of_digit (hdigits d hd), forall_mem_cons.2 ⟨rfl, hall⟩⟩⟩
  · have hzero : digits.count (b '.') = 0 := by
      rw [count_eq_zero]
      intro hdot
      cases hdigits _ hdot
    rw [count_append, hzero, count_cons_self]
    omega
  · obtain ⟨d, hd, hdigit⟩ := (any_eq_true _ _).1 hlast
    rw [getLast?_append, getLast?_cons, hd, getD_some, some_or, any_some,
      hdigit]

/-! ## Tags -/

theorem isTagByte_of_terminated (h : Terminated tail) :
    ∀ c, tail.head? = some c → isTagByte c = false :=
  h.head_ne (by decide) (by decide)

variable {input cs : Bytes} {n : ℕ} {c : UInt8} {s : TagScan}

theorem tagLoop_of_not_isTagByte (hc : isTagByte c = false) :
    tagLoop input n (c :: cs) s = s.stop input := by
  simp only [isTagByte, Bool.or_eq_false_iff, beq_eq_false_iff_ne] at hc
  rw [tagLoop, if_neg hc.1.1, if_neg hc.1.2, if_neg (by simp [hc.2])]

/-- One step of the loop inside a tag. -/
def TagScan.next (input : Bytes) (n : ℕ) (s : TagScan) (c : UInt8) : TagScan :=
  if c = b '+' then s.plus input n else if c = b '-' then s.dash else { s with i := s.i + 1 }

theorem tagLoop_of_isTagByte (hc : isTagByte c = true) :
    tagLoop input n (c :: cs) s = tagLoop input n cs (s.next input n c) := by
  rw [tagLoop, TagScan.next]
  split_ifs with h₁ h₂ h₃
  · rfl
  · rfl
  · rfl
  · simp [isTagByte, h₁, h₂, h₃] at hc

theorem next_i (input : Bytes) (n : ℕ) (s : TagScan) (c : UInt8) :
    (s.next input n c).i = s.i + 1 := by
  unfold TagScan.next TagScan.plus TagScan.dash
  split_ifs <;> rfl

section

variable (h : s.i ≤ input.length)
include h

theorem next_append (c : UInt8) : s.next (input ++ tail) n c = s.next input n c := by
  unfold TagScan.next TagScan.plus
  rw [take_append_of_le_length h]

theorem stop_append : s.stop (input ++ tail) = s.stop input := by
  unfold TagScan.stop
  rw [take_append_of_le_length h]

theorem finish_append : s.finish (input ++ tail) n = s.finish input n := by
  unfold TagScan.finish
  split_ifs <;> simp only [take_append_of_le_length h]

end

theorem stop_i (input : Bytes) (s : TagScan) : (s.stop input).i = s.i := by
  unfold TagScan.stop
  split <;> rfl

theorem finish_len (input : Bytes) (n : ℕ) (s : TagScan) : (s.finish input n).len = s.i := by
  unfold TagScan.finish
  dsimp only
  split_ifs <;> split <;> rfl

/-- The first `n` bytes of `text` are in a tag, and the byte behind them is not. -/
def TagStops (text : Bytes) (n : ℕ) : Prop :=
  ∃ taken z after, text = taken ++ z :: after ∧ taken.length = n ∧
    (∀ d ∈ taken, isTagByte d = true) ∧ isTagByte z = false

/-- The loop ends at a byte of `rest`, or all of `rest` is in the tag. -/
theorem tagLoop_append {input : Bytes} {n : ℕ} : ∀ (rest : Bytes) (s : TagScan),
    s.i + rest.length = input.length →
    (∃ e : TagScan, s.i ≤ e.i ∧ TagStops rest (e.i - s.i) ∧ tagLoop input n rest s = e ∧
      ∀ tail, Terminated tail → tagLoop (input ++ tail) n (rest ++ tail) s = e) ∨
    (∃ e : TagScan, e.i = input.length ∧ (∀ c ∈ rest, isTagByte c = true) ∧
      (s.state = .none → (∀ c ∈ rest, isTagCharacter c = true) → e.state = .none) ∧
      tagLoop input n rest s = e ∧
      ∀ tail, Terminated tail → tagLoop (input ++ tail) n (rest ++ tail) s = e.stop input)
  | [], s, h => by
    refine .inr ⟨s, by simpa using h, by simp, fun h _ => h, rfl, fun tail htail => ?_⟩
    obtain ⟨c, cs, rfl, hc⟩ := htail.exists_cons
    rw [nil_append, tagLoop_of_not_isTagByte (isTagByte_of_terminated htail c rfl),
      stop_append (by simp at h; omega)]
  | c :: cs, s, h => by
    rw [length_cons] at h
    cases hc : isTagByte c with
    | false =>
      refine .inl ⟨s.stop input, by rw [stop_i], ⟨[], c, cs, rfl, ?_, by simp, hc⟩,
        tagLoop_of_not_isTagByte hc, fun tail _ => ?_⟩
      · rw [stop_i, Nat.sub_self]
        rfl
      · rw [cons_append, tagLoop_of_not_isTagByte hc, stop_append (by omega)]
    | true =>
      have ih := @tagLoop_append input n cs (s.next input n c)
        (by rw [next_i]; omega)
      rcases ih with ⟨e, hi, ⟨taken, z, after, hrest, hlen, hall, hz⟩, he, htail⟩ |
        ⟨e, hi, hall, hstate, he, htail⟩
      · rw [next_i] at hi hlen
        refine .inl ⟨e, by omega, ⟨c :: taken, z, after, by rw [hrest, cons_append], ?_,
          forall_mem_cons.2 ⟨hc, hall⟩, hz⟩, by rw [tagLoop_of_isTagByte hc, he], fun tail ht => ?_⟩
        · rw [length_cons]
          omega
        · rw [cons_append, tagLoop_of_isTagByte hc, next_append (by omega), htail tail ht]
      · refine .inr ⟨e, hi, ?_, ?_, by rw [tagLoop_of_isTagByte hc, he], fun tail ht => ?_⟩
        · exact forall_mem_cons.2 ⟨hc, hall⟩
        · intro hnone hchars
          rw [forall_mem_cons] at hchars
          refine hstate ?_ hchars.2
          have hplus : c ≠ b '+' := by
            rintro rfl
            exact absurd hchars.1 (by decide)
          have hdash : c ≠ b '-' := by
            rintro rfl
            exact absurd hchars.1 (by decide)
          rw [TagScan.next, if_neg hplus, if_neg hdash]
          exact hnone
        · rw [cons_append, tagLoop_of_isTagByte hc, next_append (by omega), htail tail ht]

/-- What a tag at the start of `input` is read as when `input` goes on. Without its `-` it may be
read otherwise, if it has a `-` or a `+` inside. -/
theorem parseWithPreCount_append
    (hcount : n = 1 ∨ n = 0 ∧ ∃ cs, input = b '-' :: cs ∨ input = b '+' :: cs) :
    (TagStops input (Tag.parseWithPreCount input n).len ∧ ∀ tail, Terminated tail →
      Tag.parseWithPreCount (input ++ tail) n = Tag.parseWithPreCount input n) ∨
    ((Tag.parseWithPreCount input n).len = input.length ∧ (∀ c ∈ input, isTagByte c = true) ∧
      ∃ tag, (n = 0 ∨ (∀ c ∈ input, isTagCharacter c = true) →
          tag = (Tag.parseWithPreCount input n).tag) ∧
        ∀ tail, Terminated tail →
          Tag.parseWithPreCount (input ++ tail) n = { tag, len := input.length }) := by
  have hstart : ∀ tail : Bytes, Tag.parseWithPreCount (input ++ tail) n =
      (tagLoop (input ++ tail) n (input ++ tail) {}).finish (input ++ tail) n := by
    intro tail
    refine if_neg ?_
    rcases hcount with rfl | ⟨rfl, cs, rfl | rfl⟩
    · omega
    · simp +decide
    · simp +decide
  have halone := hstart []
  simp only [append_nil] at halone
  rcases @tagLoop_append input n input {} (zero_add _) with
    ⟨e, -, hstops, he, htail⟩ | ⟨e, hi, hall, hstate, he, htail⟩
  · refine .inl ⟨?_, fun tail ht => ?_⟩
    · rw [halone, he, finish_len]
      exact hstops
    · obtain ⟨taken, z, after, rfl, hlen, -⟩ := hstops
      have hle : e.i ≤ (taken ++ z :: after).length := by
        rw [length_append]
        exact (show taken.length = e.i from hlen) ▸ le_add_right _ _
      rw [hstart, htail tail ht, halone, he, finish_append hle]
  · refine .inr ⟨by rw [halone, he, finish_len, hi], hall,
      ((e.stop input).finish input n).tag, ?_, fun tail ht => ?_⟩
    · intro hn
      rw [halone, he]
      rcases hn with rfl | hchars
      · unfold TagScan.finish TagScan.stop
        cases hs : e.state <;> simp [hs]
      · rw [TagScan.stop, hstate rfl hchars]
    · rw [hstart, htail tail ht, finish_append (by rw [stop_i]; exact le_of_eq hi)]
      have hlen := finish_len input n (e.stop input)
      rw [stop_i, hi] at hlen
      rw [← hlen]

/-! ## Rounds of the second pass -/

namespace Scan

/-- The same place in an input that goes on with `tail`. -/
def append (s : Scan) (tail : Bytes) : Scan := { s with rest := s.rest ++ tail }

variable {s : Scan}

theorem skip_append (h : n ≤ s.rest.length) (tail : Bytes) :
    (s.append tail).skip n = (s.skip n).append tail := by
  unfold skip append
  rcases n with _ | n
  · simp
  · simp [drop_append_of_le_length h, getElem?_append_left (by omega : n < s.rest.length)]

theorem head_append_eq_dot {rest : Bytes} (h : Terminated tail) :
    (rest ++ tail).head? = some (b '.') ↔ rest.head? = some (b '.') := by
  cases rest with
  | nil =>
    obtain ⟨c, cs, rfl, hc⟩ := h.exists_cons
    rcases hc with rfl | rfl <;> simp +decide
  | cons c cs => rfl

theorem skip_dot_append (h : Terminated tail) :
    (if (s.append tail).rest.head? = some (b '.') then (s.append tail).skip 1 else s.append tail) =
      (if s.rest.head? = some (b '.') then s.skip 1 else s).append tail := by
  have hiff : (s.append tail).rest.head? = some (b '.') ↔ s.rest.head? = some (b '.') :=
    head_append_eq_dot h
  by_cases hdot : s.rest.head? = some (b '.')
  · rw [if_pos (hiff.2 hdot), if_pos hdot, skip_append]
    cases hrest : s.rest with
    | nil =>
      rw [hrest] at hdot
      cases hdot
    | cons c cs => simp
  · rw [if_neg (fun h' => hdot (hiff.1 h')), if_neg hdot]

theorem skipDot_append {s : Scan} {tail : Bytes} (h : Terminated tail) :
    (s.append tail).skipDot = s.skipDot.append tail := by
  unfold skipDot
  by_cases hpart : s.partI = 3
  · rw [if_neg (fun h' => h'.2 hpart), if_neg (fun h' => h'.2 hpart)]
  · have hdot := skip_dot_append (s := s) h
    have hpart' : (s.append tail).partI ≠ 3 := hpart
    simpa [hpart, hpart'] using hdot

theorem number_append (h : Terminated tail) :
    (s.append tail).number = (s.number.1.append tail, s.number.2) := by
  have hdigits : (s.append tail).rest.takeWhile isAsciiDigit = s.rest.takeWhile isAsciiDigit :=
    takeWhile_append_terminated h (by decide) (by decide) s.rest
  have hlen : (s.rest.takeWhile isAsciiDigit).length ≤ s.rest.length :=
    (takeWhile_sublist _).length_le
  unfold number
  rw [hdigits]
  simp only [skip_append hlen]
  generalize s.skip (s.rest.takeWhile isAsciiDigit).length = t
  have hpart : (t.append tail).partI = t.partI := rfl
  rw [hpart]
  split
  · rcases parseUnsigned (s.rest.takeWhile isAsciiDigit) with _ | n
    · have hresult : (t.append tail).invalid.result = t.invalid.result := rfl
      simp only [isNone_none, if_true, true_and, hresult]
      split
      · rfl
      · exact congrArg (·, false) (@skipDot_append { t.invalid with
            result := t.invalid.result.setPart t.partI none, partI := t.partI + 1 } tail h)
    · simp only [isNone_some, Bool.false_eq_true, if_false, false_and]
      exact congrArg (·, false) (@skipDot_append
        { t with result := t.result.setPart t.partI (some n), partI := t.partI + 1 } tail h)
  · exact congrArg (·, false) (skipDot_append h)

theorem wild_append (h : Terminated tail) : (s.append tail).wild = s.wild.append tail := by
  have htake : (s.append tail).rest.takeWhile isWildcardChar = s.rest.takeWhile isWildcardChar :=
    takeWhile_append_terminated h (by decide) (by decide) s.rest
  have hlen : (s.rest.takeWhile isWildcardChar).length ≤ s.rest.length :=
    (takeWhile_sublist _).length_le
  have hinvalid : (if (s.append tail).prev.any isAsciiDigit then (s.append tail).invalid
      else s.append tail) = (if s.prev.any isAsciiDigit then s.invalid else s).append tail := by
    have hprev : (s.append tail).prev = s.prev := rfl
    rw [hprev]
    split <;> rfl
  unfold wild
  dsimp only
  rw [hinvalid]
  have hrest : (if s.prev.any isAsciiDigit then s.invalid else s).rest = s.rest := by
    split <;> rfl
  have hrest' : ((if s.prev.any isAsciiDigit then s.invalid else s).append tail).rest =
      (s.append tail).rest := by
    split <;> rfl
  rw [hrest', htake, hrest, skip_append (by rw [hrest]; exact hlen), skip_dot_append h]
  generalize (if (skip _ _).rest.head? = some (b '.') then _ else _) = t
  unfold setWildcard
  have hresult : (t.append tail).result = t.result := rfl
  have hpart : (t.append tail).partI = t.partI := rfl
  rw [hresult, hpart]
  split
  · rcases t.partI with _ | _ | _ | k <;> rfl
  · rfl

/-- `t` stands `n` bytes after `s`. -/
structure Skips (n : ℕ) (s t : Scan) : Prop where
  i : t.i = s.i + n
  rest : t.rest = s.rest.drop n
  prev : t.prev = if n = 0 then s.prev else s.rest[n - 1]?
  le : n ≤ s.rest.length

variable {t : Scan}

theorem skips_zero (hi : t.i = s.i) (hrest : t.rest = s.rest) (hprev : t.prev = s.prev) :
    Skips 0 s t :=
  ⟨hi, hrest, by simpa using hprev, zero_le _⟩

theorem skips_skip (h : n ≤ s.rest.length) : Skips n s (s.skip n) :=
  ⟨rfl, rfl, rfl, h⟩

theorem Skips.trans {t u : Scan} {m : ℕ} (h : Skips n s t) (h' : Skips m t u) :
    Skips (n + m) s u := by
  have hle := h'.le
  have hn := h.le
  rw [h.rest, length_drop] at hle
  refine ⟨by rw [h'.i, h.i, add_assoc], by rw [h'.rest, h.rest, drop_drop], ?_, by omega⟩
  rw [h'.prev, h.prev, h.rest]
  rcases m with _ | m
  · simp
  · simp [← add_assoc]

/-- `s` stands at `input[s.i]`. -/
structure At (input : Bytes) (s : Scan) : Prop where
  le : s.i ≤ input.length
  rest : s.rest = input.drop s.i
  prev : s.prev = if s.i = 0 then none else input[s.i - 1]?

theorem Skips.at (h : Skips n s t) (hs : At input s) : At input t := by
  have hle := h.le
  rw [hs.rest, length_drop] at hle
  have := hs.le
  refine ⟨by rw [h.i]; omega, by rw [h.rest, hs.rest, drop_drop, h.i], ?_⟩
  rw [h.prev, h.i]
  split
  next hn =>
    subst hn
    exact hs.prev
  next hn =>
    rw [hs.rest, getElem?_drop, if_neg (by omega)]
    congr 1
    omega

theorem getElem?_takeWhile {p : UInt8 → Bool} : ∀ {xs : Bytes} {k : ℕ},
    k < (xs.takeWhile p).length → ∃ d, xs[k]? = some d ∧ p d = true
  | [], k, h => by simp at h
  | x :: xs, k, h => by
    rw [takeWhile_cons] at h
    split at h
    next hx =>
      rcases k with _ | k
      · exact ⟨x, rfl, hx⟩
      · exact @getElem?_takeWhile p xs k (by simpa using h)
    · simp at h

/-- A `.` that is passed over, where a flag says so. -/
theorem skips_dot (h : t = s ∨ t = s.skip 1 ∧ s.rest.head? = some (b '.')) :
    Skips 0 s t ∧ t = s ∨ Skips 1 s t ∧ t.prev = some (b '.') := by
  rcases h with rfl | ⟨rfl, hdot⟩
  · exact .inl ⟨skips_zero rfl rfl rfl, rfl⟩
  · obtain ⟨cs, hrest⟩ : ∃ cs, s.rest = b '.' :: cs := by
      rcases hs : s.rest with _ | ⟨c, cs⟩
      · rw [hs] at hdot
        cases hdot
      · rw [hs] at hdot
        exact ⟨cs, by rw [some.inj hdot]⟩
    exact .inr ⟨skips_skip (by simp [hrest]), by simp [skip, hrest]⟩

/-- The core of a version so far : what stands before the cursor is a digit, or a `.` where
another part may follow. -/
structure Core (s : Scan) : Prop where
  le : s.partI ≤ 3
  prev : s.result.valid = true → s.result.wildcard = .none → s.partI = 0 ∨
    s.prev.any isAsciiDigit = true ∨ s.prev = some (b '.') ∧ s.partI < 3
  patch : s.partI < 3 → s.result.version.patch = none

/-- From the cursor on there are only digits and `.` and a loose tag. -/
def Loose (s : Scan) : Prop :=
  s.result.valid = true ∧ s.result.wildcard = .none ∧
    ∃ core tag, s.rest = core ++ tag ∧ IsCore s.partI core ∧ IsLooseTag tag

theorem skipDot_cases (s : Scan) :
    s.skipDot = s ∧ (s.rest.head? = some (b '.') → s.partI = 3) ∨
      s.skipDot = s.skip 1 ∧ s.rest.head? = some (b '.') ∧ s.partI ≠ 3 := by
  unfold skipDot
  split
  next h => exact .inr ⟨rfl, h⟩
  next h => exact .inl ⟨rfl, fun hdot => not_not.1 fun hpart => h ⟨hdot, hpart⟩⟩

/-- What an arm takes is more than nothing, and a last byte. -/
theorem taken_spec {p : UInt8 → Bool} (hrest : s.rest = c :: cs) (hc : p c = true) :
    0 < (s.rest.takeWhile p).length ∧ (s.rest.takeWhile p).length ≤ s.rest.length ∧
      ∃ d, s.rest[(s.rest.takeWhile p).length - 1]? = some d ∧ p d = true := by
  have hpos : 0 < (s.rest.takeWhile p).length := by
    simp [hrest, hc]
  exact ⟨hpos, (takeWhile_sublist _).length_le, getElem?_takeWhile (sub_one_lt hpos.ne')⟩

theorem setPart_wildcard (r : ParseResult) (part : ℕ) (number : Option UInt64) :
    (r.setPart part number).wildcard = r.wildcard := by
  unfold ParseResult.setPart
  split <;> rfl

theorem setPart_valid (r : ParseResult) (part : ℕ) (number : Option UInt64) :
    (r.setPart part number).valid = r.valid := by
  unfold ParseResult.setPart
  split <;> rfl

theorem setPart_patch (r : ParseResult) (number : Option UInt64) (h : part < 2) :
    (r.setPart part number).version.patch = r.version.patch := by
  rcases part with _ | _ | part
  · rfl
  · rfl
  · omega

theorem drop_length_takeWhile (p : UInt8 → Bool) (xs : Bytes) :
    xs.drop (xs.takeWhile p).length = xs.dropWhile p := by
  conv_lhs => rw [← takeWhile_append_dropWhile (p := p) (l := xs), drop_left' (by simp)]

/-- A loose tag behind a part is one before it. -/
theorem loose_of_part (hskips : Skips (s.rest.takeWhile isAsciiDigit).length s t)
    (hpos : 0 < (s.rest.takeWhile isAsciiDigit).length)
    (hpart : t.partI = s.partI + 1 ∨ s.partI = 3 ∧ t.partI = 3)
    (hwildcard : t.result.wildcard = s.result.wildcard)
    (hvalid : t.result.valid = true → s.result.valid = true) (h : t.skipDot.Loose) : s.Loose := by
  have hsplit : s.rest = s.rest.takeWhile isAsciiDigit ++ t.rest := by
    rw [hskips.rest, drop_length_takeWhile, takeWhile_append_dropWhile]
  have hdigits : ∀ d ∈ s.rest.takeWhile isAsciiDigit, isAsciiDigit d = true :=
    fun d hd => mem_takeWhile_imp hd
  have hne := length_pos_iff.1 hpos
  rcases skipDot_cases t with ⟨heq, hnodot⟩ | ⟨heq, hdot, hthree⟩
  · rw [heq] at h
    obtain ⟨hval, hnone, core, tag, hrest, hcore, htag⟩ := h
    refine ⟨hvalid hval, hwildcard ▸ hnone, _, tag, by rw [hsplit, hrest, append_assoc], ?_,
      htag⟩
    rcases hcore with ⟨hthree, hall⟩ | ⟨hcount, hlast, hall⟩
    · exact .append_digits hne hdigits hall (by omega)
    · -- a part and a `.` are taken together
      obtain ⟨e, es, rfl⟩ : ∃ e es, core = e :: es := by
        refine exists_cons_of_ne_nil ?_
        rintro rfl
        cases hlast
      have hhead : t.rest.head? = some e := by rw [hrest, cons_append, head?_cons]
      have he := hall e mem_cons_self
      rw [isCoreByte, Bool.or_eq_true, beq_iff_eq] at he
      rcases he with he | rfl
      · rw [hskips.rest, drop_length_takeWhile] at hhead
        have hnot := head?_dropWhile_not isAsciiDigit s.rest
        rw [hhead] at hnot
        simp [he] at hnot
      · have := hnodot hhead
        omega
  · rw [heq] at h
    obtain ⟨hval, hnone, core, tag, hrest, hcore, htag⟩ := h
    obtain ⟨ds, hds⟩ := head?_eq_some_iff.1 hdot
    have hrest' : t.rest.drop 1 = core ++ tag := hrest
    rw [hds, drop_one, tail_cons] at hrest'
    rcases hpart with hpart | ⟨-, hpart⟩
    · refine ⟨hvalid hval, hwildcard ▸ hnone, s.rest.takeWhile isAsciiDigit ++ b '.' :: core, tag,
        ?_, .append_dot hdigits ?_ (by omega), htag⟩
      · conv_lhs => rw [hsplit, hds, hrest']
        rw [append_assoc, cons_append]
      · rw [← hpart]
        exact hcore
    · exact absurd hpart hthree

/-- What the arm of a digit does : it takes the digits, sets the part and may take a `.`. -/
theorem number_spec (hrest : s.rest = c :: cs) (hc : isAsciiDigit c = true) (hcore : s.Core) :
    s.number.2 = true ∧ s.number.1.result.overflow = true ∨
      s.number.2 = false ∧ (∃ n, 0 < n ∧ Skips n s s.number.1) ∧ s.number.1.Core ∧
        (s.number.1.prev.any isAsciiDigit = true ∨ s.number.1.prev = some (b '.')) ∧
        (s.number.1.Loose → s.Loose) := by
  obtain ⟨hpos, hle, d, hd, hdigit⟩ := taken_spec hrest hc
  have hskip := skips_skip hle
  have hprev : (s.skip (s.rest.takeWhile isAsciiDigit).length).prev = some d := by
    rw [hskip.prev, if_neg (by omega), hd]
  -- the scan `t` that is left to `skipDot`
  have hdone : ∀ t : Scan, Skips 0 (s.skip (s.rest.takeWhile isAsciiDigit).length) t →
      (t.partI = s.partI + 1 ∧ s.partI < 3 ∨ s.partI = 3 ∧ t.partI = 3) →
      (t.partI < 3 → t.result.version.patch = none) → t.result.wildcard = s.result.wildcard →
      (t.result.valid = true → s.result.valid = true) →
      (∃ n, 0 < n ∧ Skips n s t.skipDot) ∧ t.skipDot.Core ∧
        (t.skipDot.prev.any isAsciiDigit = true ∨ t.skipDot.prev = some (b '.')) ∧
        (t.skipDot.Loose → s.Loose) := by
    intro t ht hpart hpatch hwildcard hvalid
    have htprev : t.prev = some d := by rw [ht.prev, if_pos rfl, hprev]
    have hloose := loose_of_part (hskip.trans ht) hpos (hpart.imp_left And.left) hwildcard hvalid
    have hle3 : t.partI ≤ 3 := by omega
    rcases skipDot_cases t with ⟨h, -⟩ | ⟨h, hdot, hne⟩
    · rw [h] at hloose ⊢
      refine ⟨⟨_, hpos, hskip.trans ht⟩, ⟨hle3, fun _ _ => .inr (.inl ?_), hpatch⟩, .inl ?_,
        hloose⟩ <;> simp [htprev, hdigit]
    · have h1 : Skips 1 t (t.skip 1) ∧ (t.skip 1).prev = some (b '.') := by
        rcases skips_dot (.inr ⟨rfl, hdot⟩ : t.skip 1 = t ∨ _) with ⟨h0, -⟩ | h1
        · have := h0.i
          simp [skip] at this
        · exact h1
      rw [h] at hloose ⊢
      have hpart' : (t.skip 1).partI = t.partI := rfl
      refine ⟨⟨_, by omega, (hskip.trans ht).trans h1.1⟩, ⟨hle3, fun _ _ => ?_, hpatch⟩,
        .inr h1.2, hloose⟩
      exact .inr (.inr ⟨h1.2, by rw [hpart']; omega⟩)
  have hpartI : (s.skip (s.rest.takeWhile isAsciiDigit).length).partI = s.partI := rfl
  have hle3 := hcore.le
  have hpatch : ∀ number, s.partI + 1 < 3 →
      (s.result.setPart s.partI number).version.patch = none := by
    intro number hlt
    rw [setPart_patch _ _ (by omega)]
    exact hcore.patch (by omega)
  unfold number
  dsimp only
  rw [hpartI]
  split
  next hlt =>
    rcases parseUnsigned (s.rest.takeWhile isAsciiDigit) with _ | n
    · simp only [isNone_none, if_true, true_and]
      split
      · exact .inl ⟨rfl, rfl⟩
      · refine .inr ⟨rfl, hdone _ (skips_zero rfl rfl rfl) (.inl ⟨rfl, hlt⟩) (fun h => ?_)
          (setPart_wildcard _ _ _) fun h => by simp [setPart_valid, invalid] at h⟩
        rw [setPart_patch _ _ (lt_of_succ_lt_succ h)]
        exact hcore.patch hlt
    · simp only [isNone_some, Bool.false_eq_true, if_false, false_and]
      exact .inr ⟨trivial, hdone _ (skips_zero rfl rfl rfl) (.inl ⟨rfl, hlt⟩) (hpatch _)
        (setPart_wildcard _ _ _) fun h => by rwa [setPart_valid] at h⟩
  next hge =>
    have hthree : s.partI = 3 := by omega
    exact .inr ⟨rfl, hdone _ (skips_zero rfl rfl rfl) (.inr ⟨hthree, hthree⟩)
      (fun h => absurd h hge) rfl id⟩

theorem setWildcard_cases (s : Scan) :
    s.setWildcard = s ∧ (s.result.wildcard = .none → 3 ≤ s.partI) ∨
      ∃ w, w ≠ .none ∧ s.partI < 3 ∧
        s.setWildcard = { s with result.wildcard := w, partI := s.partI + 1 } := by
  unfold setWildcard
  split
  · rcases hpart : s.partI with _ | _ | _ | k
    · exact .inr ⟨.major, nofun, by omega, rfl⟩
    · exact .inr ⟨.minor, nofun, by omega, rfl⟩
    · exact .inr ⟨.patch, nofun, by omega, rfl⟩
    · exact .inl ⟨rfl, fun _ => by omega⟩
  next hwildcard => exact .inl ⟨rfl, fun h => absurd h hwildcard⟩

/-- What the arm of an `x` does : it takes the wildcards and may take a `.`. -/
theorem wild_spec (hrest : s.rest = c :: cs) (hc : isWildcardChar c = true) (hcore : s.Core) :
    ∃ n, 0 < n ∧ Skips n s s.wild ∧ s.wild.Core ∧
      (s.wild.prev.any isWildcardChar = true ∨ s.wild.prev = some (b '.')) ∧
      (s.wild.result.valid = true → s.wild.result.wildcard ≠ .none) := by
  obtain ⟨hpos, hle, d, hd, hwild⟩ := taken_spec hrest hc
  have hle3 := hcore.le
  -- the validity of the result, before and after
  obtain ⟨t, ht, htrest, htprev, hpart, hwildcard, hpatch, hvalid⟩ :
      ∃ t : Scan, (if s.prev.any isAsciiDigit then s.invalid else s) = t ∧ t.rest = s.rest ∧
        t.prev = s.prev ∧ t.partI = s.partI ∧ t.result.wildcard = s.result.wildcard ∧
        t.result.version = s.result.version ∧ Skips 0 s t ∧ (t.result.valid = true →
          s.result.valid = true ∧ s.prev.any isAsciiDigit = false) := by
    cases hdigit : s.prev.any isAsciiDigit with
    | true =>
      exact ⟨s.invalid, rfl, rfl, rfl, rfl, rfl, rfl, skips_zero rfl rfl rfl, by simp [invalid]⟩
    | false => exact ⟨s, rfl, rfl, rfl, rfl, rfl, rfl, skips_zero rfl rfl rfl, fun h => ⟨h, rfl⟩⟩
  have hskip : Skips (s.rest.takeWhile isWildcardChar).length s
      (t.skip (s.rest.takeWhile isWildcardChar).length) := by
    have h := hvalid.1.trans (skips_skip (s := t) (n := (s.rest.takeWhile isWildcardChar).length)
      (by rw [htrest]; exact hle))
    rwa [zero_add] at h
  have hprev : (t.skip (s.rest.takeWhile isWildcardChar).length).prev = some d := by
    rw [hskip.prev, if_neg (by omega), hd]
  -- the `.`
  obtain ⟨u, hu, n, hn, hskips, hprevu, hpartu, hresult⟩ :
      ∃ u : Scan, (if (t.skip (s.rest.takeWhile isWildcardChar).length).rest.head? = some (b '.')
          then (t.skip (s.rest.takeWhile isWildcardChar).length).skip 1
          else t.skip (s.rest.takeWhile isWildcardChar).length) = u ∧ ∃ n, 0 < n ∧ Skips n s u ∧
        (u.prev.any isWildcardChar = true ∨ u.prev = some (b '.')) ∧ u.partI = s.partI ∧
        u.result = t.result := by
    by_cases hdot : (t.skip (s.rest.takeWhile isWildcardChar).length).rest.head? = some (b '.')
    · rw [if_pos hdot]
      rcases skips_dot (.inr ⟨rfl, hdot⟩) with ⟨h0, -⟩ | h1
      · have := h0.i
        simp [skip] at this
      · exact ⟨_, rfl, _, by omega, hskip.trans h1.1, .inr h1.2, hpart, rfl⟩
    · rw [if_neg hdot]
      exact ⟨_, rfl, _, hpos, hskip, .inl (by simp [hprev, hwild]), hpart, rfl⟩
  have hwildu : s.wild = u.setWildcard := by
    unfold wild
    dsimp only
    rw [ht, htrest, hu]
  have hpatchu : s.partI < 3 → u.result.version.patch = none := by
    rw [hresult, hpatch]
    exact hcore.patch
  rw [hwildu]
  rcases setWildcard_cases u with ⟨heq, hthree⟩ | ⟨w, hw, hlt, heq⟩ <;> rw [heq]
  · -- after three parts a wildcard follows a digit
    have hfalse : u.result.valid = true → u.result.wildcard ≠ .none := by
      intro hval hnone
      have hpart := hthree hnone
      obtain ⟨hval', hdigit⟩ := hvalid.2 (hresult ▸ hval)
      rcases hcore.prev hval' (by rw [← hwildcard, ← hresult, hnone]) with h | h | ⟨-, h⟩
      · omega
      · exact Bool.false_ne_true (hdigit.symm.trans h)
      · omega
    exact ⟨n, hn, hskips, ⟨hpartu ▸ hle3, fun hval hnone => absurd hnone (hfalse hval),
      fun h => hpatchu (hpartu ▸ h)⟩, hprevu, hfalse⟩
  · exact ⟨n, hn, ⟨hskips.i, hskips.rest, hskips.prev, hskips.le⟩,
      ⟨hlt, fun _ h => absurd h hw, fun h => hpatchu (hpartu ▸ hlt)⟩, hprevu, fun _ => hw⟩

/-- The tag `n` reads from the cursor on, as the arms of `-`, `+` and a letter do. -/
def readTag (s : Scan) (n : ℕ) : Scan :=
  { s with result.version.tag := (Tag.parseWithPreCount s.rest n).tag }.skip
    (Tag.parseWithPreCount s.rest n).len

theorem readTag_append (hcount : n = 1 ∨ n = 0 ∧ ∃ cs, s.rest = b '-' :: cs ∨
    s.rest = b '+' :: cs) : (TagStops s.rest (Tag.parseWithPreCount s.rest n).len ∧
      ∀ tail, Terminated tail → (s.append tail).readTag n = (s.readTag n).append tail) ∨
    ((s.readTag n).rest = [] ∧ Skips s.rest.length s (s.readTag n) ∧
      (∀ c ∈ s.rest, isTagByte c = true) ∧
      ∃ tag, (n = 0 ∨ (∀ c ∈ s.rest, isTagCharacter c = true) →
          tag = (s.readTag n).result.version.tag) ∧
        ∀ tail, Terminated tail → (s.append tail).readTag n =
          { s.readTag n with result.version.tag := tag }.append tail) := by
  rcases parseWithPreCount_append hcount with ⟨hstops, htail⟩ | ⟨hlen, hall, tag, htag, htail⟩
  · refine .inl ⟨hstops, fun tail ht => ?_⟩
    have hle : (Tag.parseWithPreCount s.rest n).len ≤ s.rest.length := by
      obtain ⟨taken, z, after, heq, hlen, -⟩ := hstops
      have hlength := congrArg length heq
      rw [length_append, hlen] at hlength
      omega
    unfold readTag
    have hrest : (s.append tail).rest = s.rest ++ tail := rfl
    rw [hrest, htail tail ht]
    exact skip_append (s := { s with
      result.version.tag := (Tag.parseWithPreCount s.rest n).tag }) hle tail
  · refine .inr ⟨?_, ?_, hall, tag, htag, fun tail ht => ?_⟩
    · unfold readTag
      rw [hlen]
      exact drop_length
    · unfold readTag
      rw [hlen]
      exact ⟨rfl, rfl, rfl, le_rfl⟩
    · unfold readTag
      have hrest : (s.append tail).rest = s.rest ++ tail := rfl
      rw [hrest, htail tail ht, hlen]
      exact skip_append (s := { s with result.version.tag := tag }) le_rfl tail

theorem ne_of_any {p : UInt8 → Bool} {prev : Option UInt8} (hspace : p (b ' ') = false)
    (hdash : p (b '-') = false) (h : prev.any p = true) :
    ∃ d, prev = some d ∧ d ≠ b ' ' ∧ d ≠ b '-' := by
  obtain ⟨d, rfl, hd⟩ := (any_eq_true _ _).1 h
  refine ⟨d, rfl, ?_, ?_⟩ <;> rintro rfl <;> simp_all

/-! ## One round -/

theorem At.getElem? {input : Bytes} (h : At input s) (hrest : s.rest = c :: cs) :
    input[s.i]? = some c := by
  rw [← head?_drop, ← h.rest, hrest, head?_cons]

theorem At.getElem?_pred {input : Bytes} {d : UInt8} (h : At input s) (hprev : s.prev = some d) :
    0 < s.i ∧ input[s.i - 1]? = some d := by
  rw [h.prev] at hprev
  split at hprev
  · cases hprev
  next hi => exact ⟨pos_of_ne_zero hi, hprev⟩

theorem At.lt {input : Bytes} (h : At input s) (hrest : s.rest ≠ []) : s.i < input.length := by
  rw [h.rest, ne_eq, drop_eq_nil_iff] at hrest
  omega

theorem At.getLast?_take {input : Bytes} (h : At input s) : (input.take s.i).getLast? = s.prev := by
  rw [List.getLast?_take, h.prev]
  split
  · rfl
  next hi =>
    have hle := h.le
    rw [List.getElem?_eq_getElem (by omega), some_or]

/-- Where a version ends inside `input` : at a space, before a byte that sends the pass back, or at
the byte that ends a tag. -/
def StopsAt (input : Bytes) (n : ℕ) : Prop :=
  input[n]? = some (b ' ') ∨
    (∃ d e, input[n]? = some d ∧ d ≠ b ' ' ∧ d ≠ b '-' ∧
      input[n + 1]? = some e ∧ isStepBack e = true) ∨
    EndsTag (input.take (n + 1))

/-- Nothing is read so far, or neither a space nor a `-` stands before the cursor. -/
def Read (s : Scan) : Prop :=
  s.partI = 0 ∧ s.result.wildcard = .none ∨ ∃ d, s.prev = some d ∧ d ≠ b ' ' ∧ d ≠ b '-'

/-- From `s` the pass goes on at `t`. -/
structure GoesTo (s t : Scan) : Prop where
  moves : ∃ n, 0 < n ∧ Skips n s t
  loose : t.Loose → s.Loose
  core : t.Core
  prev : ∃ d, t.prev = some d ∧ d ≠ b ' ' ∧ d ≠ b '-'

/-- From `s` the pass stops at `t`, inside the input. -/
structure StopsIn (s t : Scan) : Prop where
  rest : t.rest ≠ []
  lt : ∀ input, At input s → t.i < input.length
  stops : t.finish.valid = true → ∀ input, At input s → StopsAt input t.i

/-- From `s` the pass comes to the end of the input, and there is `tag` when it goes on: the same
one, or a loose one, or one behind two parts, where no range takes it. -/
structure ReachesEnd (s t : Scan) (tag : Tag) : Prop where
  rest : t.rest = []
  at_end : ∀ input, At input s → At input t
  tag : tag = t.result.version.tag ∨ (t.result.valid = true → s.Loose) ∨
    t.partI = 2 ∧ t.result.wildcard = .none ∧ t.result.version.patch = none

/-- What a round does, and that it does the same in an input that goes on. -/
inductive StepEnds (s : Scan) (c : UInt8) : Scan × Bool → Prop
  | goes {t : Scan} (h : GoesTo s t)
      (step : ∀ tail, Terminated tail → (s.append tail).step c = (t.append tail, false)) :
      StepEnds s c (t, false)
  | overflow {t : Scan} (h : t.result.overflow = true) : StepEnds s c (t, true)
  | inside {t : Scan} (h : StopsIn s t)
      (step : ∀ tail, Terminated tail → (s.append tail).step c = (t.append tail, true)) :
      StepEnds s c (t, true)
  | atEnd {t : Scan} (tag : Tag) (h : ReachesEnd s t tag)
      (step : ∀ tail, Terminated tail →
        (s.append tail).step c = ({ t with result.version.tag := tag }.append tail, true)) :
      StepEnds s c (t, true)

theorem valid_of_finish (h : s.finish.valid = true) :
    s.result.valid = true ∧ ¬(s.partI = 0 ∧ s.result.wildcard = .none) := by
  unfold finish at h
  split at h
  next hnone =>
    rcases hp : s.partI with _ | _ | _ | k <;> rw [hp] at h
    · cases h
    all_goals exact ⟨h, fun hand => by omega⟩
  next hnone => exact ⟨h, fun hand => hnone hand.2⟩

/-- A round that stops at the byte it looks at. -/
theorem stopsIn_self (hrest : s.rest = c :: cs) (hi : t.i ≤ s.i) (ht : t.rest = s.rest)
    (hstops : t.finish.valid = true → ∀ input, At input s → StopsAt input t.i) : StopsIn s t where
  rest := by
    rw [ht, hrest]
    exact cons_ne_nil _ _
  lt input hat := lt_of_le_of_lt hi (hat.lt (by rw [hrest]; exact cons_ne_nil _ _))
  stops := hstops

theorem stopsIn_invalid (hrest : s.rest = c :: cs) : StopsIn s s.invalid :=
  stopsIn_self hrest le_rfl rfl fun h => absurd (valid_of_finish h).1 Bool.false_ne_true

/-- A tag that ends inside the input. -/
theorem stopsIn_readTag (hrest : s.rest = c :: cs) (hbyte : isTagByte c = true)
    (hstops : TagStops s.rest (Tag.parseWithPreCount s.rest n).len)
    (hc : c = b '-' ∨ c = b '+' ∨ (s.result.valid = true → isAsciiAlphabetic c = true ∧
      isWildcardChar c = false ∧ s.prev.any isCoreByte = true)) : StopsIn s (s.readTag n) := by
  obtain ⟨taken, z, after, htaken, hlen, hall, hz⟩ := hstops
  rcases taken with _ | ⟨d, taken⟩
  · rw [hrest] at htaken
    rw [(cons.inj htaken).1, hz] at hbyte
    cases hbyte
  obtain ⟨rfl, -⟩ := cons.inj (hrest.symm.trans htaken)
  have hi : (s.readTag n).i = s.i + (c :: taken).length := congrArg (s.i + ·) hlen.symm
  have hdrop : (s.readTag n).rest = z :: after := by
    change s.rest.drop (Tag.parseWithPreCount s.rest n).len = _
    rw [← hlen, htaken, drop_left]
  have hsplit : ∀ input, At input s →
      input = (input.take s.i ++ c :: (taken ++ [z])) ++ after := by
    intro input hat
    have hrest' : c :: (taken ++ [z]) ++ after = s.rest := by
      rw [htaken, cons_append, cons_append, append_assoc, singleton_append]
    rw [append_assoc, hrest', hat.rest, take_append_drop]
  have hlength : ∀ input, At input s →
      (input.take s.i ++ c :: (taken ++ [z])).length = (s.readTag n).i + 1 := by
    intro input hat
    rw [length_append, length_take, min_eq_left hat.le, hi, length_cons, length_cons,
      length_append, length_singleton]
    rfl
  refine ⟨by rw [hdrop]; exact cons_ne_nil _ _, fun input hat => ?_, fun hvalid input hat => ?_⟩
  · have hle := congrArg length (hsplit input hat)
    rw [length_append, hlength input hat] at hle
    omega
  · refine .inr (.inr ⟨input.take s.i, c :: (taken ++ [z]), ?_, ⟨c, rfl, ?_⟩, ?_, z, ?_, hz⟩)
    · conv_lhs => rw [hsplit input hat]
      exact take_left' (hlength input hat)
    · rw [hat.getLast?_take]
      exact hc.imp_right (Or.imp_right fun h => h (valid_of_finish hvalid).1)
    · rwa [← cons_append, dropLast_concat]
    · rw [← cons_append, getLast?_concat, mem_some_iff]

/-- The arm of a space. -/
theorem stepEnds_space (hrest : s.rest = b ' ' :: cs)
    (hstep : ∀ t : Scan, t.step (b ' ') = (t, true)) : StepEnds s (b ' ') (s.step (b ' ')) := by
  rw [hstep]
  exact .inside (stopsIn_self hrest le_rfl rfl fun _ input hat => .inl (hat.getElem? hrest))
    fun tail _ => hstep _

section

variable (hrest : s.rest = c :: cs)
include hrest

/-- The arm of a byte that sends the pass back. -/
theorem stepEnds_back (hread : s.Read) (hc : isStepBack c = true)
    (hstep : ∀ t : Scan, t.step c = ({ t with i := t.i - 1 }, true)) : StepEnds s c (s.step c) := by
  rw [hstep]
  refine .inside (stopsIn_self hrest (sub_le _ _) rfl fun hvalid input hat => ?_)
    fun tail _ => hstep _
  obtain ⟨d, hprev, hspace, hdash⟩ := hread.resolve_left (valid_of_finish hvalid).2
  obtain ⟨hpos, hget⟩ := hat.getElem?_pred hprev
  refine .inr (.inl ⟨d, c, hget, hspace, hdash, ?_, hc⟩)
  rw [Nat.sub_add_cancel hpos]
  exact hat.getElem? hrest

/-- The arm of a digit. -/
theorem stepEnds_number (hcore : s.Core) (hc : isAsciiDigit c = true)
    (hstep : ∀ t : Scan, t.step c = t.number) : StepEnds s c (s.step c) := by
  have hspec := number_spec hrest hc hcore
  have happend : ∀ tail, Terminated tail →
      (s.append tail).step c = (s.number.1.append tail, s.number.2) := by
    intro tail ht
    rw [hstep, number_append ht]
  rw [hstep]
  generalize s.number = next at *
  obtain ⟨t, flag⟩ := next
  obtain ⟨rfl, hover⟩ | ⟨rfl, hskips, hcore', hprev, hloose⟩ := hspec
  · exact .overflow hover
  · refine .goes ⟨hskips, hloose, hcore', ?_⟩ happend
    rcases hprev with h | h
    · exact ne_of_any (by decide) (by decide) h
    · exact ⟨_, h, by decide, by decide⟩

/-- The arm of `-` and `+`. -/
theorem stepEnds_tagged (htag : c = b '-' ∨ c = b '+')
    (hstep : ∀ t : Scan, t.step c = (t.tagged c, true)) : StepEnds s c (s.step c) := by
  rw [hstep]
  by_cases hfew : s.partI < (if c = b '+' then 1 else 2) ∧ s.result.wildcard = .none
  · have htagged : s.tagged c = s.invalid := if_pos hfew
    rw [htagged]
    exact .inside (stopsIn_invalid hrest) fun tail _ =>
      (hstep _).trans (congrArg (·, true) (if_pos hfew))
  · have htagged : s.tagged c = s.readTag 0 := if_neg hfew
    have htagged' : ∀ tail, (s.append tail).step c = ((s.append tail).readTag 0, true) :=
      fun tail => (hstep _).trans (congrArg (·, true) (if_neg hfew))
    rw [htagged]
    have hcount : (0 : ℕ) = 1 ∨ (0 : ℕ) = 0 ∧
        ∃ cs, s.rest = b '-' :: cs ∨ s.rest = b '+' :: cs := by
      refine .inr ⟨rfl, cs, ?_⟩
      rw [hrest]
      exact htag.imp (fun h => by rw [h]) (fun h => by rw [h])
    rcases readTag_append hcount with ⟨hstops, happend⟩ | ⟨hnil, hskips, -, tag, hsame, happend⟩
    · have hbyte : isTagByte c = true := by
        rcases htag with rfl | rfl <;> rfl
      refine .inside (stopsIn_readTag hrest hbyte hstops (htag.imp_right .inl)) fun tail ht => ?_
      rw [htagged', happend tail ht]
    · refine .atEnd tag ⟨hnil, fun input hat => hskips.at hat, .inl (hsame (.inl rfl))⟩
        fun tail ht => ?_
      rw [htagged', happend tail ht]

/-- The arm of an `x`. -/
theorem stepEnds_wild (hcore : s.Core) (hc : isWildcardChar c = true)
    (hstep : ∀ t : Scan, t.step c = (t.wild, false)) : StepEnds s c (s.step c) := by
  obtain ⟨n, hn, hskips, hcore', hprev, hvalid⟩ := wild_spec hrest hc hcore
  rw [hstep]
  refine .goes ⟨⟨n, hn, hskips⟩, fun h => absurd h.2.1 (hvalid h.1), hcore', ?_⟩ fun tail ht => ?_
  · rcases hprev with h | h
    · exact ne_of_any (by decide) (by decide) h
    · exact ⟨_, h, by decide, by decide⟩
  · rw [hstep, wild_append ht]

end

theorem isLooseTag_of (hc : isAsciiAlphabetic c = true) (hwild : isWildcardChar c = false)
    (hall : ∀ d ∈ c :: cs, isTagByte d = true)
    (hchars : ¬∀ d ∈ c :: cs, isTagCharacter d = true) : IsLooseTag (c :: cs) := by
  have hc' : isTagCharacter c = true := by rw [isTagCharacter, hc, Bool.true_or, Bool.true_or]
  rw [forall_mem_cons] at hall hchars
  have hrest := mt (And.intro hc') hchars
  push Not at hrest
  obtain ⟨d, hd, hnot⟩ := hrest
  refine ⟨⟨c, rfl, hc, hwild⟩, ⟨d, hd, ?_⟩, hall.2⟩
  have hbyte := hall.2 d hd
  rw [isTagByte, Bool.eq_false_of_not_eq_true hnot, Bool.or_false, Bool.or_eq_true, beq_iff_eq,
    beq_iff_eq] at hbyte
  exact hbyte.symm

/-- Where a loose tag may start a digit or a `.` stands before the cursor. -/
theorem Core.any_isCoreByte (hcore : s.Core) (hvalid : s.result.valid = true)
    (hnone : s.result.wildcard = .none) (hpart : 2 ≤ s.partI) : s.prev.any isCoreByte = true := by
  rcases hcore.prev hvalid hnone with h | h | ⟨h, -⟩
  · omega
  · obtain ⟨d, hd, hdigit⟩ := (any_eq_true _ _).1 h
    rw [hd, any_some, isCoreByte_of_digit hdigit]
  · rw [h]
    rfl

/-- The last arm, where a tag without its `-` is read. -/
theorem stepEnds_other (hrest : s.rest = c :: cs) (hcore : s.Core)
    (hwild : isWildcardChar c = false) (hstep : ∀ t : Scan, t.step c = (t.other c, true)) :
    StepEnds s c (s.step c) := by
  rw [hstep]
  by_cases hloose : s.result.wildcard = .none ∧ 2 ≤ s.partI ∧ isAsciiAlphabetic c
  · have hother : s.other c = s.readTag 1 := if_pos hloose
    have hother' : ∀ tail, (s.append tail).step c = ((s.append tail).readTag 1, true) :=
      fun tail => (hstep _).trans (congrArg (·, true) (if_pos hloose))
    have hprev : s.result.valid = true → s.prev.any isCoreByte = true :=
      fun hvalid => hcore.any_isCoreByte hvalid hloose.1 hloose.2.1
    have halpha := hloose.2.2
    rw [hother]
    rcases readTag_append (s := s) (.inl rfl) with
      ⟨hstops, happend⟩ | ⟨hnil, hskips, hall, tag, hsame, happend⟩
    · have hbyte : isTagByte c = true := by
        rw [isTagByte, isTagCharacter, halpha, Bool.true_or, Bool.true_or, Bool.or_true]
      refine .inside (stopsIn_readTag hrest hbyte hstops (.inr (.inr fun hvalid =>
        ⟨halpha, hwild, hprev hvalid⟩))) fun tail ht => ?_
      rw [hother', happend tail ht]
    · refine .atEnd tag ⟨hnil, fun input hat => hskips.at hat, ?_⟩ fun tail ht => ?_
      · by_cases hchars : ∀ d ∈ s.rest, isTagCharacter d = true
        · exact .inl (hsame (.inr hchars))
        · rw [hrest] at hall hchars
          by_cases htwo : s.partI = 2
          · exact .inr (.inr ⟨htwo, hloose.1, hcore.patch (by omega)⟩)
          · have hthree : s.partI = 3 := by
              have := hcore.le
              omega
            exact .inr (.inl fun hvalid => ⟨hvalid, hloose.1, [], c :: cs, hrest,
              .inl ⟨hthree, fun d hd => absurd hd not_mem_nil⟩,
              isLooseTag_of halpha hwild hall hchars⟩)
      · rw [hother', happend tail ht]
  · have hother : s.other c = s.invalid := if_neg hloose
    rw [hother]
    exact .inside (stopsIn_invalid hrest) fun tail _ =>
      (hstep _).trans (congrArg (·, true) (if_neg hloose))

theorem step_append (hrest : s.rest = c :: cs) (hcore : s.Core) (hread : s.Read) :
    StepEnds s c (s.step c) := by
  by_cases hspace : c = b ' '
  · subst hspace
    exact stepEnds_space hrest fun t => by rw [step, if_pos rfl]
  by_cases hback : isStepBack c = true
  · exact stepEnds_back hrest hread hback fun t => by rw [step, if_neg hspace, if_pos hback]
  by_cases hdigit : isAsciiDigit c = true
  · exact stepEnds_number hrest hcore hdigit fun t => by
      rw [step, if_neg hspace, if_neg hback, if_pos hdigit]
  by_cases hdot : c = b '.'
  · have hstep : ∀ t : Scan, t.step c = (t.invalid, true) := fun t => by
      rw [step, if_neg hspace, if_neg hback, if_neg hdigit, if_pos hdot]
    rw [hstep]
    exact .inside (stopsIn_invalid hrest) fun tail _ => hstep _
  by_cases htag : c = b '-' ∨ c = b '+'
  · exact stepEnds_tagged hrest htag fun t => by
      rw [step, if_neg hspace, if_neg hback, if_neg hdigit, if_neg hdot, if_pos htag]
  by_cases hwild : isWildcardChar c = true
  · exact stepEnds_wild hrest hcore hwild fun t => by
      rw [step, if_neg hspace, if_neg hback, if_neg hdigit, if_neg hdot, if_neg htag, if_pos hwild]
  · exact stepEnds_other hrest hcore (Bool.eq_false_of_not_eq_true hwild) fun t => by
      rw [step, if_neg hspace, if_neg hback, if_neg hdigit, if_neg hdot, if_neg htag, if_neg hwild]

/-! ## The second pass -/

variable {fuel : ℕ}

theorem loop_cons (h : s.rest = c :: cs) :
    loop (fuel + 1) s = if (s.step c).2 then (s.step c).1 else loop fuel (s.step c).1 := by
  rw [loop, h]
  simp only
  rcases s.step c with ⟨t, _ | _⟩ <;> rfl

/-- A round in an input that goes on, with enough fuel. -/
theorem loop_append_cons {flag : Bool} (hrest : s.rest = c :: cs)
    (hstep : (s.append tail).step c = (t, flag)) (hfuel : s.rest.length + tail.length ≤ fuel) :
    ∃ k, cs.length + tail.length ≤ k ∧
      loop fuel (s.append tail) = if flag then t else loop k t := by
  rw [hrest, length_cons] at hfuel
  obtain ⟨k, rfl⟩ : ∃ k, fuel = k + 1 := ⟨fuel - 1, by omega⟩
  have hcons : (s.append tail).rest = c :: (cs ++ tail) := by rw [append, hrest, cons_append]
  exact ⟨k, by omega, by rw [loop_cons hcons, hstep]⟩

/-- Where the input ends the pass stops, and where it goes on it stops there or one byte
before. -/
theorem loop_terminated (h : s.rest = []) (ht : Terminated tail)
    (hfuel : tail.length ≤ fuel) :
    ∃ back, loop fuel (s.append tail) = { s with i := s.i - back }.append tail ∧
      (back = 0 ∨ back = 1 ∧ tail.head? = some (b '|')) := by
  obtain ⟨c, cs, rfl, hc⟩ := ht.exists_cons
  obtain ⟨k, rfl⟩ : ∃ k, fuel = k + 1 := ⟨fuel - 1, by simp at hfuel; omega⟩
  have hrest : (s.append (c :: cs)).rest = c :: cs := by simp [append, h]
  rw [loop_cons hrest]
  rcases hc with rfl | rfl
  · exact ⟨0, rfl, .inl rfl⟩
  · exact ⟨1, rfl, .inr ⟨rfl, rfl⟩⟩

/-- What the pass leaves when it stops inside the input. -/
def StopsInside (s e : Scan) : Prop :=
  StopsIn s e ∧ ∀ tail, Terminated tail → ∀ fuel, s.rest.length + tail.length ≤ fuel →
    loop fuel (s.append tail) = e.append tail

/-- What the pass leaves when it comes to the end of the input. Only the tag may be another one
when the input goes on. -/
def StopsAtEnd (s e : Scan) : Prop :=
  ∃ tag, ReachesEnd s e tag ∧
    ∀ tail, Terminated tail → ∀ fuel, s.rest.length + tail.length ≤ fuel →
      ∃ back, loop fuel (s.append tail) =
          { e with result.version.tag := tag, i := e.i - back }.append tail ∧
        (back = 0 ∨ back = 1 ∧ tail.head? = some (b '|') ∧
          ∃ d, e.prev = some d ∧ d ≠ b ' ' ∧ d ≠ b '-')

theorem stopsAtEnd_of_nil (h : s.rest = [])
    (hprev : ∃ d, s.prev = some d ∧ d ≠ b ' ' ∧ d ≠ b '-') : s.StopsAtEnd s := by
  refine ⟨_, ⟨h, fun _ hat => hat, .inl rfl⟩, fun tail ht fuel hfuel => ?_⟩
  have hle : tail.length ≤ fuel := by
    rw [h] at hfuel
    simpa using hfuel
  obtain ⟨back, hloop, hback⟩ := loop_terminated h ht hle
  exact ⟨back, hloop, hback.imp id fun hb => ⟨hb.1, hb.2, hprev⟩⟩

section

variable {t : Scan}

theorem GoesTo.at {input : Bytes} (h : GoesTo s t) (hat : At input s) : At input t := by
  obtain ⟨n, -, hskips⟩ := h.moves
  exact hskips.at hat

theorem GoesTo.length_lt (h : GoesTo s t) (hrest : s.rest = c :: cs) :
    t.rest.length ≤ cs.length := by
  obtain ⟨n, hn, hskips⟩ := h.moves
  rw [hskips.rest, hrest, length_drop, length_cons]
  omega

theorem StopsIn.of_goes {e : Scan} (hgoes : GoesTo s t) (h : StopsIn t e) : StopsIn s e where
  rest := h.rest
  lt input hat := h.lt input (hgoes.at hat)
  stops hvalid input hat := h.stops hvalid input (hgoes.at hat)

theorem ReachesEnd.of_goes {e : Scan} {tag : Tag} (hgoes : GoesTo s t) (h : ReachesEnd t e tag) :
    ReachesEnd s e tag where
  rest := h.rest
  at_end input hat := h.at_end input (hgoes.at hat)
  tag := h.tag.imp_right (Or.imp_left fun hloose hvalid => hgoes.loose (hloose hvalid))

end

theorem loop_append : ∀ (fuel : ℕ) (s : Scan), s.rest.length ≤ fuel → s.Core → s.Read →
    (s.rest = [] → ∃ d, s.prev = some d ∧ d ≠ b ' ' ∧ d ≠ b '-') →
    (loop fuel s).result.overflow = true ∨ s.StopsInside (loop fuel s) ∨
      s.StopsAtEnd (loop fuel s)
  | 0, s, hfuel, _, _, hprev => by
    have hnil : s.rest = [] := length_eq_zero_iff.1 (le_zero.1 hfuel)
    exact .inr (.inr (stopsAtEnd_of_nil hnil (hprev hnil)))
  | fuel + 1, s, hfuel, hcore, hread, hprev => by
    rcases hrest : s.rest with _ | ⟨c, cs⟩
    · have hloop : loop (fuel + 1) s = s := by rw [loop, hrest]
      rw [hloop]
      exact .inr (.inr (stopsAtEnd_of_nil hrest (hprev hrest)))
    rw [hrest, length_cons] at hfuel
    have hround := step_append hrest hcore hread
    rw [loop_cons hrest]
    generalize s.step c = next at hround
    cases hround with
    | @goes t hgoes hstep =>
      have hlen := hgoes.length_lt hrest
      -- with the tail the pass goes on at `t` too
      have hsame : ∀ tail, Terminated tail → ∀ k, s.rest.length + tail.length ≤ k →
          ∃ j, t.rest.length + tail.length ≤ j ∧
            loop k (s.append tail) = loop j (t.append tail) := by
        intro tail ht k hk
        obtain ⟨j, hj, hloop⟩ := loop_append_cons hrest (hstep tail ht) hk
        exact ⟨j, by omega, hloop⟩
      rcases loop_append fuel t (by omega) hgoes.core (.inr hgoes.prev) (fun _ => hgoes.prev)
        with h | ⟨hstops, hloop⟩ | ⟨tag, hend, hloop⟩
      · exact .inl h
      · refine .inr (.inl ⟨.of_goes hgoes hstops, fun tail ht k hk => ?_⟩)
        obtain ⟨j, hj, heq⟩ := hsame tail ht k hk
        exact heq.trans (hloop tail ht j hj)
      · refine .inr (.inr ⟨tag, .of_goes hgoes hend, fun tail ht k hk => ?_⟩)
        obtain ⟨j, hj, heq⟩ := hsame tail ht k hk
        rw [heq]
        exact hloop tail ht j hj
    | overflow h => exact .inl h
    | inside hstops hstep =>
      refine .inr (.inl ⟨hstops, fun tail ht k hk => ?_⟩)
      obtain ⟨_, _, hloop⟩ := loop_append_cons hrest (hstep tail ht) hk
      exact hloop
    | atEnd tag hend hstep =>
      refine .inr (.inr ⟨tag, hend, fun tail ht k hk => ⟨0, ?_, .inl rfl⟩⟩)
      obtain ⟨_, _, hloop⟩ := loop_append_cons hrest (hstep tail ht) hk
      exact hloop

/-- The scan at the first byte that is not skipped. -/
def start (input : Bytes) : Scan where
  i := (input.takeWhile isLeading).length
  prev := if (input.takeWhile isLeading).length = 0 then none
    else input[(input.takeWhile isLeading).length - 1]?
  rest := input.drop (input.takeWhile isLeading).length

theorem at_start (input : Bytes) : At input (start input) :=
  ⟨(takeWhile_sublist _).length_le, rfl, rfl⟩

theorem start_append {input : Bytes}
    (h : (input.takeWhile isLeading).length < input.length) (tail : Bytes) :
    start (input ++ tail) = (start input).append tail := by
  have htake : (input ++ tail).takeWhile isLeading = input.takeWhile isLeading := by
    rw [takeWhile_append, if_neg h.ne]
  simp only [start, append, htake, drop_append_of_le_length h.le]
  congr 1
  split
  · rfl
  · exact getElem?_append_left (by omega)

theorem parse_eq {input : Bytes} (h : (input.takeWhile isLeading).length < input.length) :
    Version.parse input = (loop input.length (start input)).finish := by
  have hne : input.isEmpty = false := by
    rw [isEmpty_eq_false_iff]
    rintro rfl
    exact lt_irrefl 0 h
  simp only [Version.parse, hne, Bool.false_eq_true, if_false, if_neg h.ne]
  rfl

theorem lt_of_valid {input : Bytes} (hvalid : (Version.parse input).valid = true) :
    (input.takeWhile isLeading).length < input.length := by
  refine lt_of_le_of_ne (takeWhile_sublist _).length_le fun h => ?_
  unfold Version.parse at hvalid
  rw [if_pos h] at hvalid
  split at hvalid <;> cases hvalid

/-- What `finish` keeps. -/
theorem finish_eq (s : Scan) : s.finish.version = s.result.version ∧ s.finish.len = s.i ∧
    s.finish.overflow = s.result.overflow := by
  unfold finish
  split
  · rcases s.partI with _ | _ | _ | k <;> exact ⟨rfl, rfl, rfl⟩
  · exact ⟨rfl, rfl, rfl⟩

theorem finish_append_tag (e : Scan) (tag : Tag) (i : ℕ) (tail : Bytes) :
    (append { e with result.version.tag := tag, i := i } tail).finish =
      { e.finish with version.tag := tag, len := i } := by
  unfold finish append
  split
  · rcases e.partI with _ | _ | _ | k <;> rfl
  · rfl

end Scan

/-! ## Whole versions -/

/-- A loose tag behind the core that the pass starts with. -/
theorem looseVersion_of_start (h : (start input).Loose) : LooseVersion input := by
  obtain ⟨-, -, hversion⟩ := h
  refine ⟨input.takeWhile isLeading, _, ?_, fun d hd => mem_takeWhile_imp hd, hversion⟩
  rw [start]
  rw [drop_length_takeWhile, takeWhile_append_dropWhile]

/-- What is read from `input` is also read when it goes on with a space or a bar, or nothing is
left of `input` and only the tag may be another one. -/
theorem version_append (hvalid : (Version.parse input).valid = true)
    (hover : (Version.parse input).overflow = false) :
    ((Version.parse input).len < input.length ∧
      Scan.StopsAt input (Version.parse input).len ∧
      ∀ tail, Terminated tail → Version.parse (input ++ tail) = Version.parse input) ∨
    ((Version.parse input).len = input.length ∧
      ∃ tag, (tag = (Version.parse input).version.tag ∨ LooseVersion input ∨
          (Version.parse input).wildcard = .patch ∧ (Version.parse input).version.patch = none) ∧
        ∀ tail, Terminated tail → ∃ back,
          Version.parse (input ++ tail) =
            { Version.parse input with version.tag := tag, len := input.length - back } ∧
          (back = 0 ∨ back = 1 ∧ tail.head? = some (b '|') ∧
            ∃ front d, input = front ++ [d] ∧ d ≠ b ' ' ∧ d ≠ b '-')) := by
  have hlt := lt_of_valid hvalid
  have hat := at_start input
  have htail : ∀ tail : Bytes, Version.parse (input ++ tail) =
      (loop (input ++ tail).length ((start input).append tail)).finish := by
    intro tail
    rw [← start_append hlt]
    refine parse_eq ?_
    rw [takeWhile_append, if_neg hlt.ne, length_append]
    omega
  have hfuel : ∀ tail : Bytes,
      (start input).rest.length + tail.length ≤ (input ++ tail).length := by
    intro tail
    rw [hat.rest, length_drop, length_append]
    omega
  have hne : (start input).rest ≠ [] := by
    intro h
    have := drop_eq_nil_iff.1 h
    omega
  have hends := loop_append input.length (start input)
    (by rw [hat.rest, length_drop]; omega) ⟨zero_le _, fun _ _ => .inl rfl, fun _ => rfl⟩
    (.inl ⟨rfl, rfl⟩) fun h => absurd h hne
  rw [parse_eq hlt] at hvalid hover ⊢
  generalize loop input.length (start input) = e at *
  obtain ⟨hversion, hi, hoverflow⟩ := finish_eq e
  rcases hends with h | ⟨hstops, hloop⟩ | ⟨tag, hend, hloop⟩
  · rw [hoverflow, h] at hover
    cases hover
  · rw [hi]
    refine .inl ⟨hstops.lt input hat, hstops.stops hvalid input hat, fun tail ht => ?_⟩
    rw [htail, hloop tail ht _ (hfuel tail)]
    rfl
  · have hend' := hend.at_end input hat
    have hieq : e.i = input.length := by
      have hnil := hend.rest
      rw [hend'.rest, drop_eq_nil_iff] at hnil
      exact le_antisymm hend'.le hnil
    rw [hi, hversion]
    refine .inr ⟨hieq, tag, ?_, fun tail ht => ?_⟩
    · refine hend.tag.imp_right (Or.imp (fun h => ?_) fun ⟨htwo, hnone, hpatch⟩ => ⟨?_, hpatch⟩)
      · exact looseVersion_of_start (h (valid_of_finish hvalid).1)
      · rw [finish, if_pos hnone, htwo]
        rfl
    · obtain ⟨back, hback, hcases⟩ := hloop tail ht _ (hfuel tail)
      refine ⟨back, ?_, hcases.imp_right fun h => ⟨h.1, h.2.1, ?_⟩⟩
      · rw [htail, hback, finish_append_tag, hieq]
      · obtain ⟨d, hd, hspace, hdash⟩ := h.2.2
        rw [← hend'.getLast?_take, hieq, take_length] at hd
        exact ⟨input.dropLast, d, (dropLast_append_getLast? d hd).symm, hspace, hdash⟩

/-! ## Where versions start -/

/-- The parser may take the round at `rest` after it has read `before`. -/
def Opens (before rest : Bytes) : Prop :=
  EndsToken before ∨ ∃ c ∈ rest.head?, isStepBack c = true

variable {before : Bytes}

theorem EndsTag.append_left (h : EndsTag before) (front : Bytes) :
    EndsTag (front ++ before) := by
  obtain ⟨xs, tag, rfl, ⟨d, hd, hkind⟩, htag⟩ := h
  refine ⟨front ++ xs, tag, by rw [append_assoc], ⟨d, hd, ?_⟩, htag⟩
  refine hkind.imp_right (Or.imp_right fun h => ⟨h.1, h.2.1, ?_⟩)
  obtain ⟨e, he, hcore⟩ := (any_eq_true _ _).1 h.2.2
  rw [getLast?_append, he, some_or, any_some, hcore]

theorem EndsTag.getLast? (h : EndsTag before) :
    ∃ z ∈ before.getLast?, isTagByte z = false := by
  obtain ⟨xs, tag, rfl, -, -, z, hz, hz'⟩ := h
  exact ⟨z, by rw [getLast?_append, mem_def.1 hz, some_or, mem_some_iff], hz'⟩

theorem EndsToken.startsVersion (h : EndsToken before) : StartsVersion before := by
  refine .inl fun z hz => ?_
  rcases h with h | h
  · rcases h z hz with hwhite | rfl
    · simp only [isWhitespaceChar, Bool.or_eq_true, beq_iff_eq] at hwhite
      rcases hwhite with ((((rfl | rfl) | rfl) | rfl) | rfl) | rfl
      all_goals rfl
    · rfl
  · obtain ⟨z', hz', hbyte⟩ := h.getLast?
    rwa [mem_unique hz hz']

theorem take_succ_of_getElem? {xs : Bytes} (h : xs[n]? = some c) :
    xs.take (n + 1) = xs.take n ++ [c] := by
  rw [take_add_one, h, toList_some]

/-- Behind a version and the byte after it the parser may take a round. -/
theorem Scan.StopsAt.opens (h : Scan.StopsAt input n) (front : Bytes) :
    Opens (front ++ input.take (n + 1)) (input.drop (n + 1)) := by
  rcases h with hspace | ⟨d, e, -, -, -, he, hback⟩ | htag
  · refine .inl (.inl fun z hz => .inl ?_)
    rw [take_succ_of_getElem? hspace, ← append_assoc, getLast?_concat,
      mem_some_iff] at hz
    rw [← hz]
    rfl
  · exact .inr ⟨e, by rw [head?_drop, he, mem_some_iff], hback⟩
  · exact .inl (.inr (htag.append_left front))

theorem Scan.StopsAt.ne_dash (h : Scan.StopsAt input n) : input[n]? ≠ some (b '-') := by
  intro hdash
  rcases h with h | ⟨d, e, h, -, hne, -⟩ | h
  · cases h.symm.trans hdash
  · exact hne (some.inj (h.symm.trans hdash))
  · obtain ⟨z, hz, hbyte⟩ := h.getLast?
    rw [take_succ_of_getElem? hdash, getLast?_concat, mem_some_iff] at hz
    rw [← hz] at hbyte
    cases hbyte

/-- A version starts behind `front`, or behind white space, a `v` or a `=` at its end. -/
def Starts (front : Bytes) : Prop :=
  ∃ front' lead, front = front' ++ lead ∧ StartsVersion front' ∧ ∀ d ∈ lead, isLeading d = true

theorem Starts.ends {front version : Bytes} (h : Starts front) (hloose : LooseVersion version) :
    EndsInLooseTag (front ++ version) := by
  obtain ⟨front', lead, rfl, hstarts, hlead⟩ := h
  obtain ⟨lead', version, rfl, hlead', hversion⟩ := hloose
  exact ⟨front', lead ++ (lead' ++ version), append_assoc _ _ _, hstarts, lead ++ lead',
    version, (append_assoc _ _ _).symm, forall_mem_append.2 ⟨hlead, hlead'⟩, hversion⟩

end Soup.Semver
