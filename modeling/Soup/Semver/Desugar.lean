import Soup.Semver.PartialText
import Soup.Semver.Subset

/-!
# What an operator before a partial version means

`1`, `^1.2`, `~1.2.x`, `>1` and the like are desugared into at most two comparators, whose bounds
fall back to others where a number would go past `u64::MAX`. `satisfies_parse_iff` says which
versions without a prerelease satisfy them, in terms of the numbers that are written (`given`) and
the first version that has them (`firstOf`) : no bound wraps.
-/

namespace Soup.Semver

open Soup.Lib List Token Comparator

/-- The operators, and none. -/
inductive Operator where
  | none
  | caret
  | tilda
  | gt
  | gte
  | lt
  | lte
deriving DecidableEq

namespace Operator

def text : Operator → Bytes
  | none => []
  | caret => [b '^']
  | tilda => [b '~']
  | gt => [b '>']
  | gte => [b '>', b '=']
  | lt => [b '<']
  | lte => [b '<', b '=']

def tag : Operator → TokenTag
  | none => .version
  | caret => .caret
  | tilda => .tilda
  | gt => .gt
  | gte => .gte
  | lt => .lt
  | lte => .lte

end Operator

namespace PartialText

/-- The numbers that are written. -/
def given (p : PartialText) : List UInt64 :=
  match p.minor with
  | .absent | .x | .xx => [p.major.number]
  | .number n .absent | .number n .x => [p.major.number, n.number]
  | .number n (.number m) => [p.major.number, n.number, m.number]

end PartialText

/-- The first version that starts with the numbers `ns`. -/
def firstOf (ns : List UInt64) : Version where
  major := ns[0]?.getD 0
  minor := ns[1]?.getD 0
  patch := ns[2]?.getD 0

/-- `w` starts with the numbers `ns`. -/
def Version.Agrees (w : Version) (ns : List UInt64) : Prop := ns <+: [w.major, w.minor, w.patch]

instance (w : Version) (ns : List UInt64) : Decidable (w.Agrees ns) :=
  inferInstanceAs (Decidable (_ <+: _))

/-- The versions without prerelease that an operator before a partial version stands for. -/
def Operator.Covers (op : Operator) (p : PartialText) (w : Version) : Prop :=
  match op with
  | .none => w.Agrees p.given
  -- up to and with the left-most number that is not zero
  | .caret => (firstOf p.given).triple ≤ w.triple ∧
    w.Agrees (p.given.take (p.given.findIdx (· ≠ 0) + 1))
  | .tilda => (firstOf p.given).triple ≤ w.triple ∧ w.Agrees (p.given.take 2)
  | .gt => ∀ u : Version, u.Agrees p.given → u.triple < w.triple
  | .gte => (firstOf p.given).triple ≤ w.triple
  | .lt => w.triple < (firstOf p.given).triple
  | .lte => ∃ u : Version, u.Agrees p.given ∧ w.triple ≤ u.triple

/-! ## The range that is parsed -/

theorem skipByte_of_digit {c : UInt8} (hc : isAsciiDigit c = true) (cs : Bytes) :
    skipByte (b ' ') (c :: cs) = c :: cs := by
  have hne : c ≠ b ' ' := by
    rintro rfl
    exact absurd hc (by decide)
  simp [skipByte, hne]

theorem digit_ne {c d : UInt8} (hc : isAsciiDigit c = true) (hd : isAsciiDigit d = false) :
    c ≠ d := by
  rintro rfl
  rw [hc] at hd
  cases hd

variable (op : Operator)

/-- The match of a round at an operator sets the token and goes on to the version. -/
theorem round_operator {c : UInt8} {cs : Bytes} (hc : isAsciiDigit c = true)
    {d : UInt8} {ds : Bytes} (h : op.text ++ c :: cs = d :: ds) :
    (Parser.round {} d ds) =
      { parser := { token := { tag := op.tag } }, rest := c :: cs
        noOperator := decide (op = .none) } := by
  have hgt := digit_ne hc (d := b '>') rfl
  have heq := digit_ne hc (d := b '=') rfl
  have hequal : skipByte (b ' ') (b '=' :: c :: cs) = b '=' :: c :: cs := rfl
  cases op with
  | none =>
    obtain ⟨rfl, rfl⟩ : c = d ∧ cs = ds := cons.inj h
    have hlt := digit_ne hc (d := b '<') rfl
    have hv := digit_ne hc (d := b 'v') rfl
    have htilde := digit_ne hc (d := b '~') rfl
    have hcaret := digit_ne hc (d := b '^') rfl
    simp [Parser.round, hgt, hlt, heq, hv, htilde, hcaret, hc, Operator.tag]
  | caret =>
    obtain ⟨rfl, rfl⟩ := cons.inj h
    simp +decide [Parser.round, Operator.tag, skipByte_of_digit hc cs]
  | tilda =>
    obtain ⟨rfl, rfl⟩ := cons.inj h
    simp +decide [Parser.round, Operator.tag, skipByte_of_digit hc cs, hgt]
  | gt =>
    obtain ⟨rfl, rfl⟩ := cons.inj h
    simp [Parser.round, Parser.angle, Operator.tag, skipByte_of_digit hc cs, heq]
  | gte =>
    obtain ⟨rfl, rfl⟩ := cons.inj h
    simp [Parser.round, Parser.angle, Operator.tag, skipByte_of_digit hc cs, hequal]
  | lt =>
    obtain ⟨rfl, rfl⟩ := cons.inj h
    simp +decide [Parser.round, Parser.angle, Operator.tag, skipByte_of_digit hc cs, heq]
  | lte =>
    obtain ⟨rfl, rfl⟩ := cons.inj h
    simp +decide [Parser.round, Parser.angle, Operator.tag, skipByte_of_digit hc cs, hequal]

/-- The range that an operator before a partial version is. -/
def PartialText.range (p : PartialText) (op : Operator) : Range :=
  toRange { tag := op.tag, wildcard := p.wildcard } (Version.parse p.text) {}

theorem comparator_operator (p : PartialText) :
    ∃ q : Parser, Parser.comparator
        { parser := { token := { tag := op.tag } }, rest := p.text
          noOperator := decide (op = .none) } {} = some (q, []) ∧
      q.list.alternatives = [{ range := p.range op }] := by
  have hdrop : p.text.drop (Version.parse p.text).len = [] := by
    rw [parse_text]
    exact drop_length
  have hyphen : Parser.hyphenate (p.text.drop (Version.parse p.text).len) = none := by
    rw [hdrop]
    rfl
  have htag : op.tag ≠ .none := by cases op <;> simp [Operator.tag]
  unfold Parser.comparator
  rw [if_neg (by rw [parse_text]; simp)]
  simp only [hyphen]
  rw [if_neg (by simpa [Parser.setFlags] using htag)]
  refine ⟨_, by rw [hdrop]; rfl, ?_⟩
  have hwild : (Version.parse p.text).wildcard = p.wildcard := by rw [parse_text]
  simp only [Parser.append, Parser.setFlags, PartialText.range, hwild]
  split <;> rfl

theorem parse_alternatives (p : PartialText) :
    (parse (op.text ++ p.text)).alternatives = [{ range := p.range op }] := by
  obtain ⟨c, cs, hcons, hc⟩ := p.major.exists_cons
  have htext : p.text = c :: (cs ++ p.minor.text) := by simp [PartialText.text, hcons]
  obtain ⟨d, ds, hinput⟩ : ∃ d ds, op.text ++ p.text = d :: ds := by
    refine exists_cons_of_ne_nil ?_
    simp [htext]
  obtain ⟨q, hq, halt⟩ := comparator_operator op p
  have hstep : Parser.step {} {} d ds = some (q, []) := by
    unfold Parser.step
    rw [round_operator op hc (htext ▸ hinput), ← htext]
    exact hq
  have hscan : Parser.scan {} (op.text ++ p.text).length {} (op.text ++ p.text) = some q.list := by
    rw [hinput, length_cons, Parser.scan, hstep]
    cases ds <;> rfl
  rw [parse, parseWith, hscan]
  exact halt

variable {w : Version}

theorem satisfies_parse (p : PartialText) (hw : w.tag.hasPre = false) :
    (parse (op.text ++ p.text)).satisfies w = (p.range op).satisfies w := by
  unfold Group.satisfies Group.listSatisfies
  rw [hw, parse_alternatives]
  simp [Query.satisfies, Query.ranges]

/-! ## Comparators and versions without prerelease -/

theorem satisfies_gt {w x : Version} (hx : x.tag.hasPre = false) :
    ({ op := .gt, version := x } : Comparator).satisfies w = true ↔ x.triple < w.triple := by
  rw [satisfies_iff]
  simp [Comparator.span, Span.mem_def, Comparator.IsAtLeastZero, precedence_lt_iff_of_release hx]

theorem satisfies_lte {w x : Version} (hx : x.tag.hasPre = false) :
    ({ op := .lte, version := x } : Comparator).satisfies w = true ↔ w.triple ≤ x.triple := by
  rw [satisfies_iff]
  simp [Comparator.span, Span.mem_def, Comparator.IsAtLeastZero, precedence_le_iff_of_release hx]

section Release

variable {w : Version} (hw : w.tag.hasPre = false)
include hw

variable {x : Version}

theorem release_lt_iff : w.precedence < x.precedence ↔ w.triple < x.triple := by
  rw [precedence_lt, rank_eq_top.2 hw]
  simp

theorem le_release_iff : x.precedence ≤ w.precedence ↔ x.triple ≤ w.triple := by
  rw [← not_lt, release_lt_iff hw, not_lt]

theorem satisfies_gte (hx : x.tag.hasPre = false) :
    ({ op := .gte, version := x } : Comparator).satisfies w = true ↔ x.triple ≤ w.triple := by
  rw [satisfies_iff]
  simp only [Comparator.span, Span.mem_def, Comparator.IsAtLeastZero, WithBot.coe_le_coe,
    Cut.below_le_below, le_top, le_release_iff hw, release_lt_iff hw, hx]
  constructor
  · rintro (⟨-, h, -⟩ | ⟨⟨-, hzero, -⟩, hlt⟩)
    · exact h
    · rw [isZero_iff.1 hzero] at hlt
      exact absurd (zero_triple_le w) hlt.not_ge
  · intro h
    exact .inl ⟨by simp, h, trivial⟩

theorem satisfies_lt :
    ({ op := .lt, version := x } : Comparator).satisfies w = true ↔ w.triple < x.triple := by
  rw [satisfies_iff]
  simp [Comparator.span, Span.mem_def, Comparator.IsAtLeastZero, release_lt_iff hw]

theorem satisfies_eql (hx : x.tag.hasPre = false) :
    ({ op := .eql, version := x } : Comparator).satisfies w = true ↔ w.triple = x.triple := by
  rw [satisfies_iff]
  simp [Comparator.span, Span.mem_def, Comparator.IsAtLeastZero, precedence_le_iff_of_release hx,
    le_release_iff hw, le_antisymm_iff, and_comm]

/-! ## The comparators that carry -/

theorem satisfies_ltNextMajor (major : UInt64) :
    (ltNextMajor major).satisfies w = true ↔ w.major.toNat ≤ major.toNat := by
  unfold ltNextMajor
  split
  next next hnext =>
    have h := checkedAddOne_eq_some hnext
    rw [satisfies_lt hw, triple_lt_iff]
    simp
    omega
  next hmax =>
    have h := checkedAddOne_eq_none hmax
    have := toNat_le_u64Max w.major
    rw [satisfies_lte rfl, ← not_lt, triple_lt_iff]
    have := toNat_le_u64Max w.minor
    have := toNat_le_u64Max w.patch
    have hu : (UInt64.ofNat u64Max).toNat = u64Max := rfl
    simp [hu]
    omega

theorem satisfies_ltNextMinor (major minor : UInt64) :
    (ltNextMinor major minor).satisfies w = true ↔
      w.major.toNat < major.toNat ∨
        w.major.toNat = major.toNat ∧ w.minor.toNat ≤ minor.toNat := by
  unfold ltNextMinor
  split
  next next hnext =>
    have h := checkedAddOne_eq_some hnext
    rw [satisfies_lt hw, triple_lt_iff]
    simp
    omega
  next hmax =>
    have h := checkedAddOne_eq_none hmax
    have := toNat_le_u64Max w.minor
    have := toNat_le_u64Max w.patch
    have hu : (UInt64.ofNat u64Max).toNat = u64Max := rfl
    rw [satisfies_lte rfl, ← not_lt, triple_lt_iff]
    simp [hu]
    omega

theorem satisfies_ltNextPatch (major minor patch : UInt64) :
    (ltNextPatch major minor patch).satisfies w = true ↔
      w.triple ≤ ({ major, minor, patch } : Version).triple := by
  unfold ltNextPatch
  split
  next next hnext =>
    have h := checkedAddOne_eq_some hnext
    rw [satisfies_lt hw, ← not_lt, triple_lt_iff, triple_lt_iff]
    simp
    omega
  next hmax =>
    have h := checkedAddOne_eq_none hmax
    have hu : (UInt64.ofNat u64Max).toNat = u64Max := rfl
    rw [satisfies_lte rfl, ← not_lt, ← not_lt, triple_lt_iff, triple_lt_iff]
    simp [hu, h]

theorem satisfies_gteNextMajor (major : UInt64) :
    (gteNextMajor major {}).satisfies w = true ↔ major.toNat < w.major.toNat := by
  unfold gteNextMajor
  split
  next next hnext =>
    have h := checkedAddOne_eq_some hnext
    rw [satisfies_gte hw rfl, ← not_lt, triple_lt_iff]
    simp
    omega
  next hmax =>
    have h := checkedAddOne_eq_none hmax
    have := toNat_le_u64Max w.major
    rw [nullSet, satisfies_lt hw, triple_lt_iff]
    simp
    omega

theorem satisfies_gteNextMinor (major minor : UInt64) :
    (gteNextMinor major minor {}).satisfies w = true ↔
      major.toNat < w.major.toNat ∨
        major.toNat = w.major.toNat ∧ minor.toNat < w.minor.toNat := by
  unfold gteNextMinor
  split
  next next hnext =>
    have h := checkedAddOne_eq_some hnext
    rw [satisfies_gte hw rfl, ← not_lt, triple_lt_iff]
    simp
    omega
  next hmax =>
    have h := checkedAddOne_eq_none hmax
    have := toNat_le_u64Max w.minor
    rw [satisfies_gteNextMajor hw]
    omega

end Release

/-! ## Blocks -/

theorem range_satisfies_left {left : Comparator} (hl : left.op ≠ .unset) (w : Version) :
    ({ left } : Range).satisfies w = left.satisfies w := by
  simp [Range.satisfies, Range.hasLeft, Range.hasRight, hl]

theorem range_satisfies_both {left right : Comparator} (hl : left.op ≠ .unset)
    (hr : right.op ≠ .unset) (w : Version) :
    ({ left, right } : Range).satisfies w = (left.satisfies w && right.satisfies w) := by
  cases h : left.satisfies w <;> cases h' : right.satisfies w <;>
    simp [Range.satisfies, Range.hasLeft, Range.hasRight, hl, hr, h, h']

theorem triple_le_iff {u v : Version} :
    u.triple ≤ v.triple ↔ u.major.toNat < v.major.toNat ∨ u.major.toNat = v.major.toNat ∧
      (u.minor.toNat < v.minor.toNat ∨
        u.minor.toNat = v.minor.toNat ∧ u.patch.toNat ≤ v.patch.toNat) := by
  rw [← not_lt, triple_lt_iff]
  omega

@[simp] theorem agrees_one {a : UInt64} : w.Agrees [a] ↔ a.toNat = w.major.toNat := by
  simp [Version.Agrees, cons_prefix_cons, UInt64.toNat_inj]

@[simp] theorem agrees_two {a c : UInt64} :
    w.Agrees [a, c] ↔ a.toNat = w.major.toNat ∧ c.toNat = w.minor.toNat := by
  simp [Version.Agrees, cons_prefix_cons, UInt64.toNat_inj]

@[simp] theorem agrees_three {a c d : UInt64} :
    w.Agrees [a, c, d] ↔
      a.toNat = w.major.toNat ∧ c.toNat = w.minor.toNat ∧ d.toNat = w.patch.toNat := by
  simp [Version.Agrees, cons_prefix_cons, UInt64.toNat_inj]

/-- The last version that starts with the numbers `ns`. -/
def lastOf (ns : List UInt64) : Version where
  major := ns[0]?.getD (.ofNat u64Max)
  minor := ns[1]?.getD (.ofNat u64Max)
  patch := ns[2]?.getD (.ofNat u64Max)

theorem given_cases (p : PartialText) :
    (∃ a, p.given = [a] ∧ p.wildcard = .minor ∧ p.version = { major := some a }) ∨
    (∃ a c, p.given = [a, c] ∧ p.wildcard = .patch ∧
      p.version = { major := some a, minor := some c }) ∨
    ∃ a c d, p.given = [a, c, d] ∧ p.wildcard = .none ∧
      p.version = { major := some a, minor := some c, patch := some d } := by
  rcases p with ⟨major, _ | _ | _ | ⟨n, _ | _ | m⟩⟩
  · exact .inl ⟨_, rfl, rfl, rfl⟩
  · exact .inl ⟨_, rfl, rfl, rfl⟩
  · exact .inl ⟨_, rfl, rfl, rfl⟩
  · exact .inr (.inl ⟨_, _, rfl, rfl, rfl⟩)
  · exact .inr (.inl ⟨_, _, rfl, rfl, rfl⟩)
  · exact .inr (.inr ⟨_, _, _, rfl, rfl, rfl⟩)

theorem agrees_lastOf (p : PartialText) : (lastOf p.given).Agrees p.given := by
  rcases given_cases p with ⟨a, h, -⟩ | ⟨a, c, h, -⟩ | ⟨a, c, d, h, -⟩ <;> rw [h] <;> simp [lastOf]

variable {p : PartialText}

theorem le_lastOf {u : Version} (hu : u.Agrees p.given) :
    u.triple ≤ (lastOf p.given).triple := by
  have hmax : (UInt64.ofNat u64Max).toNat = u64Max := rfl
  have := toNat_le_u64Max u.minor
  have := toNat_le_u64Max u.patch
  rw [triple_le_iff]
  rcases given_cases p with ⟨a, h, -⟩ | ⟨a, c, h, -⟩ | ⟨a, c, d, h, -⟩ <;> rw [h] at hu ⊢ <;>
    simp [lastOf, hmax] at hu ⊢ <;> omega

theorem covers_gt_iff :
    Operator.gt.Covers p w ↔ (lastOf p.given).triple < w.triple :=
  ⟨fun h => h _ (agrees_lastOf p), fun h _ hu => (le_lastOf hu).trans_lt h⟩

theorem covers_lte_iff :
    Operator.lte.Covers p w ↔ w.triple ≤ (lastOf p.given).triple := by
  constructor
  · rintro ⟨u, hu, hle⟩
    exact hle.trans (le_lastOf hu)
  · exact fun h => ⟨_, agrees_lastOf p, h⟩

/-! ## What is satisfied -/

section Covers

variable {p : PartialText} {w : Version} (hw : w.tag.hasPre = false)
include hw

/-- From a version on to the end of a major. -/
theorem range_ltNextMajor {x : Version} {a : UInt64} (hx : x.tag.hasPre = false) :
    ({ left := { op := .gte, version := x }, right := .ltNextMajor a } : Range).satisfies w = true ↔
      x.triple ≤ w.triple ∧ w.major.toNat ≤ a.toNat := by
  rw [range_satisfies_both (by simp) (ltNextMajor_set _), Bool.and_eq_true, satisfies_gte hw hx,
    satisfies_ltNextMajor hw]

/-- From a version on to the end of a minor. -/
theorem range_ltNextMinor {x : Version} {a c : UInt64} (hx : x.tag.hasPre = false) :
    ({ left := { op := .gte, version := x }, right := .ltNextMinor a c } : Range).satisfies
      w = true ↔ x.triple ≤ w.triple ∧ (w.major.toNat < a.toNat ∨
        w.major.toNat = a.toNat ∧ w.minor.toNat ≤ c.toNat) := by
  rw [range_satisfies_both (by simp) (ltNextMinor_set _ _), Bool.and_eq_true, satisfies_gte hw hx,
    satisfies_ltNextMinor hw]

theorem range_none_iff : (p.range .none).satisfies w = true ↔ Operator.none.Covers p w := by
  unfold PartialText.range
  rw [parse_text, Operator.Covers]
  rcases given_cases p with ⟨a, hgiven, hwild, hversion⟩ | ⟨a, c, hgiven, hwild, hversion⟩ |
    ⟨a, c, d, hgiven, hwild, hversion⟩ <;> rw [hgiven, hwild, hversion]
  · change ({ left := .ltNextMajor a, right := { op := .gte, version := { major := a } } } :
      Range).satisfies w = true ↔ _
    rw [range_satisfies_both (ltNextMajor_set _) (by simp), Bool.and_eq_true,
      satisfies_ltNextMajor hw, satisfies_gte hw rfl, triple_le_iff, agrees_one]
    simp
    omega
  · change ({ left := .ltNextMinor a c, right :=
      { op := .gte, version := { major := a, minor := c } } } : Range).satisfies w = true ↔ _
    rw [range_satisfies_both (ltNextMinor_set _ _) (by simp), Bool.and_eq_true,
      satisfies_ltNextMinor hw, satisfies_gte hw rfl, triple_le_iff, agrees_two]
    simp
    omega
  · change ({ left := { op := .eql, version := { major := a, minor := c, patch := d } } } :
      Range).satisfies w = true ↔ _
    rw [range_satisfies_left (by simp), satisfies_eql hw rfl, le_antisymm_iff, triple_le_iff,
      triple_le_iff, agrees_three]
    simp
    omega

theorem range_tilda_iff : (p.range .tilda).satisfies w = true ↔ Operator.tilda.Covers p w := by
  unfold PartialText.range
  rw [parse_text, Operator.Covers]
  rcases given_cases p with ⟨a, hgiven, hwild, hversion⟩ | ⟨a, c, hgiven, hwild, hversion⟩ |
    ⟨a, c, d, hgiven, hwild, hversion⟩ <;> rw [hgiven, hwild, hversion]
  · refine (range_ltNextMajor hw rfl).trans ?_
    rw [take_of_length_le (by simp), agrees_one, triple_le_iff, triple_le_iff]
    simp [firstOf]
    omega
  · refine (range_ltNextMinor hw rfl).trans ?_
    rw [take_of_length_le (by simp), agrees_two, triple_le_iff, triple_le_iff]
    simp [firstOf]
    omega
  · refine (range_ltNextMinor hw rfl).trans ?_
    simp [firstOf, triple_le_iff]
    omega

theorem range_caret_iff : (p.range .caret).satisfies w = true ↔ Operator.caret.Covers p w := by
  have hne : ∀ {n : UInt64}, n ≠ 0 → n.toNat ≠ 0 := fun h h' => h (UInt64.toNat_inj.1 h')
  unfold PartialText.range
  rw [parse_text, Operator.Covers]
  rcases given_cases p with ⟨a, hgiven, hwild, hversion⟩ | ⟨a, c, hgiven, hwild, hversion⟩ |
    ⟨a, c, d, hgiven, hwild, hversion⟩ <;> rw [hgiven, hwild, hversion]
  · refine (range_ltNextMajor hw rfl).trans ?_
    rw [take_of_length_le, agrees_one, triple_le_iff, triple_le_iff]
    · simp [firstOf]
      omega
    · by_cases ha : a = 0 <;> simp [ha, findIdx_cons]
  · by_cases ha : a = 0
    · subst ha
      refine (range_ltNextMinor hw rfl).trans ?_
      rw [take_of_length_le, agrees_two, triple_le_iff, triple_le_iff]
      · simp [firstOf]
        omega
      · by_cases hc : c = 0 <;> simp [hc, findIdx_cons]
    · have hrange : caretRange
          { wildcard := .patch, version := { major := some a, minor := some c }
            len := p.text.length } {} =
          { left := { op := .gte, version := { major := a, minor := c } }
            right := .ltNextMajor a } := if_neg ha
      change (caretRange _ _).satisfies w = true ↔ _
      rw [hrange, range_ltNextMajor hw rfl, triple_le_iff, triple_le_iff]
      have := hne ha
      simp [firstOf, findIdx_cons, ha]
      omega
  · by_cases ha : a = 0
    · subst ha
      by_cases hc : c = 0
      · subst hc
        change ({ left := { op := .gte, version := { major := 0, minor := 0, patch := d } }
                  right := .ltNextPatch 0 0 d } : Range).satisfies w = true ↔ _
        have hright : (ltNextPatch 0 0 d).op ≠ .unset := by
          unfold ltNextPatch
          split <;> simp
        rw [range_satisfies_both (by simp) hright, Bool.and_eq_true,
          satisfies_ltNextPatch hw, satisfies_gte hw rfl, take_of_length_le, agrees_three,
          triple_le_iff, triple_le_iff, triple_le_iff]
        · simp [firstOf]
          omega
        · by_cases hd : d = 0 <;> simp [hd, findIdx_cons]
      · have hrange : caretRange
            { wildcard := .none, version := { major := some 0, minor := some c, patch := some d }
              len := p.text.length } {} =
            { left := { op := .gte, version := { major := 0, minor := c, patch := d } }
              right := .ltNextMinor 0 c } := by
          simp [caretRange, hc, Tag.hasPre]
        change (caretRange _ _).satisfies w = true ↔ _
        rw [hrange, range_ltNextMinor hw rfl, triple_le_iff, triple_le_iff]
        have := hne hc
        simp [firstOf, findIdx_cons, hc]
        omega
    · have hrange : caretRange
          { wildcard := .none, version := { major := some a, minor := some c, patch := some d }
            len := p.text.length } {} =
          { left := { op := .gte, version := { major := a, minor := c, patch := d } }
            right := .ltNextMajor a } := if_neg ha
      change (caretRange _ _).satisfies w = true ↔ _
      rw [hrange, range_ltNextMajor hw rfl, triple_le_iff, triple_le_iff]
      have := hne ha
      simp [firstOf, findIdx_cons, ha]
      omega

theorem range_gte_iff : (p.range .gte).satisfies w = true ↔ Operator.gte.Covers p w := by
  have hrange : p.range .gte = { left := { op := .gte, version := firstOf p.given } } := by
    unfold PartialText.range
    rw [parse_text]
    rcases given_cases p with ⟨a, hgiven, hwild, hversion⟩ | ⟨a, c, hgiven, hwild, hversion⟩ |
      ⟨a, c, d, hgiven, hwild, hversion⟩ <;> rw [hgiven, hwild, hversion] <;> rfl
  rw [hrange, range_satisfies_left (by simp)]
  exact satisfies_gte hw rfl

theorem range_lt_iff : (p.range .lt).satisfies w = true ↔ Operator.lt.Covers p w := by
  have hrange : ∃ x : Version, p.range .lt = { left := { op := .lt, version := x } } ∧
      x.triple = (firstOf p.given).triple := by
    unfold PartialText.range
    rw [parse_text]
    rcases given_cases p with ⟨a, hgiven, hwild, hversion⟩ | ⟨a, c, hgiven, hwild, hversion⟩ |
      ⟨a, c, d, hgiven, hwild, hversion⟩ <;> rw [hgiven, hwild, hversion] <;> exact ⟨_, rfl, rfl⟩
  obtain ⟨x, hrange, hx⟩ := hrange
  rw [hrange, range_satisfies_left (by simp), satisfies_lt hw, hx]
  rfl

theorem range_gt_iff : (p.range .gt).satisfies w = true ↔ Operator.gt.Covers p w := by
  have hmax : (UInt64.ofNat u64Max).toNat = u64Max := rfl
  have := toNat_le_u64Max w.minor
  have := toNat_le_u64Max w.patch
  rw [covers_gt_iff, triple_lt_iff]
  unfold PartialText.range
  rw [parse_text]
  rcases given_cases p with ⟨a, hgiven, hwild, hversion⟩ | ⟨a, c, hgiven, hwild, hversion⟩ |
    ⟨a, c, d, hgiven, hwild, hversion⟩ <;> rw [hgiven, hwild, hversion]
  · change ({ left := .gteNextMajor a {} } : Range).satisfies w = true ↔ _
    rw [range_satisfies_left (gteNextMajor_set _ _), satisfies_gteNextMajor hw]
    simp [lastOf, hmax]
    omega
  · change ({ left := .gteNextMinor a c {} } : Range).satisfies w = true ↔ _
    rw [range_satisfies_left (gteNextMinor_set _ _ _), satisfies_gteNextMinor hw]
    simp [lastOf, hmax]
    omega
  · change ({ left := { op := .gt, version := { major := a, minor := c, patch := d } } } :
      Range).satisfies w = true ↔ _
    rw [range_satisfies_left (by simp), satisfies_gt rfl, triple_lt_iff]
    simp [lastOf]

theorem range_lte_iff : (p.range .lte).satisfies w = true ↔ Operator.lte.Covers p w := by
  have hmax : (UInt64.ofNat u64Max).toNat = u64Max := rfl
  have := toNat_le_u64Max w.minor
  have := toNat_le_u64Max w.patch
  rw [covers_lte_iff, triple_le_iff]
  unfold PartialText.range
  rw [parse_text]
  rcases given_cases p with ⟨a, hgiven, hwild, hversion⟩ | ⟨a, c, hgiven, hwild, hversion⟩ |
    ⟨a, c, d, hgiven, hwild, hversion⟩ <;> rw [hgiven, hwild, hversion]
  · change ({ left := .ltNextMajor a } : Range).satisfies w = true ↔ _
    rw [range_satisfies_left (ltNextMajor_set _), satisfies_ltNextMajor hw]
    simp [lastOf, hmax]
    omega
  · change ({ left := .ltNextMinor a c } : Range).satisfies w = true ↔ _
    rw [range_satisfies_left (ltNextMinor_set _ _), satisfies_ltNextMinor hw]
    simp [lastOf, hmax]
    omega
  · change ({ left := { op := .lte, version := { major := a, minor := c, patch := d } } } :
      Range).satisfies w = true ↔ _
    rw [range_satisfies_left (by simp), satisfies_lte rfl, triple_le_iff]
    simp [lastOf]

end Covers

/-- What an operator before a partial version stands for. -/
theorem satisfies_parse_iff (p : PartialText) (w : Version) (hw : w.tag.hasPre = false) :
    (parse (op.text ++ p.text)).satisfies w = true ↔ op.Covers p w := by
  rw [satisfies_parse op p hw]
  cases op with
  | none => exact range_none_iff hw
  | caret => exact range_caret_iff hw
  | tilda => exact range_tilda_iff hw
  | gt => exact range_gt_iff hw
  | gte => exact range_gte_iff hw
  | lt => exact range_lt_iff hw
  | lte => exact range_lte_iff hw

/-- `~1.MAX` reaches to the last version of major 1. -/
theorem satisfies_parse_iff_max :
    (parse (Operator.tilda.text ++ PartialText.text
        ⟨⟨text "1", by decide +kernel, by decide +kernel, by decide +kernel⟩,
          .number ⟨text "18446744073709551615", by decide +kernel, by decide +kernel,
            by decide +kernel⟩ .x⟩)).satisfies
      { major := 1, minor := 18446744073709551615, patch := 18446744073709551615 } = true :=
  (satisfies_parse_iff .tilda _ _ rfl).2 (by
    rw [Operator.Covers, triple_le_iff]
    decide +kernel)

end Soup.Semver
