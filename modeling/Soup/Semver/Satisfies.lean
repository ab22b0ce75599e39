import Soup.Semver.Bounds

/-!
# What satisfies a query

`Query::satisfies` and `satisfies_pre` walk a chain range by range. For the queries that `parse`
makes, where no range has a right comparator without a left one (`parse_anchored`), they say that
every comparator lets the version through, and for a prerelease that one of them is a prerelease
of the same `major.minor.patch` (`group_satisfies_iff`).
-/

namespace Soup.Semver

open Soup.Lib List Token Semver.Interval Comparator

/-- A range with a right comparator has a left one. -/
def Range.Anchored (r : Range) : Prop := r.hasRight = true → r.hasLeft = true

def Query.Anchored (q : Query) : Prop := ∀ r ∈ q.ranges, r.Anchored

def Group.Anchored (g : Group) : Prop := ∀ q ∈ g.alternatives, q.Anchored

/-- Does the order let `v` through, or does `>=0.0.0`? -/
def Comparator.Lets (c : Comparator) (v : Version) : Prop :=
  v.precedence ∈ c.span ∨ c.IsAtLeastZero ∧ v.precedence < c.version.precedence

/-- Every comparator lets `v` through, and a prerelease is one of some comparator. -/
structure Query.Accepts (q : Query) (v : Version) : Prop where
  lets : ∀ c ∈ q.comparators, c.Lets v
  named : v.tag.hasPre = true → ∃ c ∈ q.comparators, isPrereleaseOf v c = true

variable {c : Comparator}

theorem lets_of_unset (h : c.op = .unset) (v : Version) : c.Lets v := by
  refine Or.inl ?_
  rw [Comparator.span, h]
  exact Span.mem_univ _

variable {v : Version}

theorem satisfies_iff_lets (h : c.op ≠ .unset) : c.satisfies v = true ↔ c.Lets v := by
  rw [satisfies_iff, Comparator.Lets, and_iff_right h]

variable {r : Range}

theorem unset_of_not_hasLeft (hr : r.Anchored) (h : r.left.op = .unset) : r.right.op = .unset := by
  by_contra hne
  have hleft := hr (by simpa [Range.hasRight] using hne)
  simp [Range.hasLeft, h] at hleft

theorem range_satisfies_iff (hr : r.Anchored) :
    r.satisfies v = true ↔ r.left.Lets v ∧ r.right.Lets v := by
  unfold Range.satisfies
  by_cases hl : r.left.op = .unset
  · simp [Range.hasLeft, hl, lets_of_unset hl, lets_of_unset (unset_of_not_hasLeft hr hl)]
  · rw [← satisfies_iff_lets hl]
    by_cases hright : r.right.op = .unset
    · simp [Range.hasLeft, Range.hasRight, hl, hright, lets_of_unset hright]
    · rw [← satisfies_iff_lets hright]
      cases r.left.satisfies v <;> cases r.right.satisfies v <;>
        simp [Range.hasLeft, Range.hasRight, hl, hright]

theorem satisfiesPre_fst (r : Range) (v : Version) (m : Bool) :
    (r.satisfiesPre v m).1 = r.satisfies v := by
  unfold Range.satisfiesPre Range.satisfies
  split_ifs <;> rfl

/-- `pre_match` of a comparator that is set. -/
theorem isPrereleaseOf_iff :
    isPrereleaseOf v c = true ↔ c.op ≠ .unset ∧ Range.preMatches c v = true := by
  unfold isPrereleaseOf Range.preMatches sameTriple
  simp only [Bool.and_eq_true, bne_iff_ne, beq_iff_eq]
  constructor
  · rintro ⟨⟨hop, hpre⟩, ⟨h₁, h₂⟩, h₃⟩
    exact ⟨hop, ⟨⟨hpre, h₃.symm⟩, h₂.symm⟩, h₁.symm⟩
  · rintro ⟨hop, ⟨⟨hpre, h₃⟩, h₂⟩, h₁⟩
    exact ⟨⟨hop, hpre⟩, ⟨h₁.symm, h₂.symm⟩, h₃.symm⟩

/-- Is a comparator of `r` a prerelease of the triple of `v`? -/
def Range.names (r : Range) (v : Version) : Bool :=
  isPrereleaseOf v r.left || isPrereleaseOf v r.right

theorem satisfiesPre_snd (hr : r.Anchored) (v : Version) (m : Bool) :
    (r.satisfiesPre v m).2 = (m || r.names v) := by
  have hset : ∀ c : Comparator,
      isPrereleaseOf v c = (c.op != .unset && Range.preMatches c v) := fun c => by
    rw [Bool.eq_iff_iff, isPrereleaseOf_iff]
    simp
  unfold Range.satisfiesPre Range.names
  rw [hset, hset]
  by_cases hl : r.left.op = .unset
  · simp [Range.hasLeft, hl, unset_of_not_hasLeft hr hl]
  · have hleft : (r.left.op != .unset) = true := by simpa using hl
    simp only [Range.hasLeft, Range.hasRight, hleft, Bool.true_and, Bool.not_true]
    simp [apply_ite Prod.snd, Bool.or_assoc]

/-- What the loop returns is that every range lets `v` through and one of them names it. -/
theorem satisfiesPreLoop_eq (v : Version) : ∀ (rs : List Range) (m : Bool),
    (∀ r ∈ rs, r.Anchored) →
    ((Query.satisfiesPreLoop v rs m).1 && (Query.satisfiesPreLoop v rs m).2) =
      (rs.all (fun r => r.satisfies v) && (m || rs.any fun r => r.names v))
  | [], m, _ => by simp [Query.satisfiesPreLoop]
  | r :: rs, m, h => by
    rw [forall_mem_cons] at h
    have hfst := satisfiesPre_fst r v m
    have hsnd := satisfiesPre_snd h.1 v m
    rw [Query.satisfiesPreLoop]
    rcases hpre : r.satisfiesPre v m with ⟨satisfied, matched⟩
    rw [hpre] at hfst hsnd
    cases satisfied with
    | false => simp [← hfst]
    | true =>
      have ih := satisfiesPreLoop_eq v rs matched h.2
      obtain rfl : matched = (m || r.names v) := hsnd
      simp [ih, ← hfst, Bool.or_assoc]

variable {q : Query} {P : Comparator → Prop}

theorem forall_mem_comparators :
    (∀ c ∈ q.comparators, P c) ↔ ∀ r ∈ q.ranges, P r.left ∧ P r.right := by
  unfold Query.comparators
  induction q.ranges with
  | nil => simp
  | cons r rs ih => simp [and_assoc, ← ih]

theorem exists_mem_comparators :
    (∃ c ∈ q.comparators, P c) ↔ ∃ r ∈ q.ranges, P r.left ∨ P r.right := by
  unfold Query.comparators
  induction q.ranges with
  | nil => simp
  | cons r rs ih => simp [or_assoc, ← ih]

theorem query_satisfies_iff (hq : q.Anchored) :
    q.satisfies v = true ↔ ∀ c ∈ q.comparators, c.Lets v := by
  rw [forall_mem_comparators, Query.satisfies, all_eq_true]
  exact forall₂_congr fun r hr => range_satisfies_iff (hq r hr)

theorem query_satisfiesPre_iff (hq : q.Anchored) :
    ((q.satisfiesPre v false).1 && (q.satisfiesPre v false).2) = true ↔
      (∀ c ∈ q.comparators, c.Lets v) ∧
        ∃ c ∈ q.comparators, isPrereleaseOf v c = true := by
  rw [Query.satisfiesPre, satisfiesPreLoop_eq _ _ _ hq, Bool.and_eq_true, ← query_satisfies_iff hq,
    exists_mem_comparators]
  refine and_congr Iff.rfl ?_
  simp [Range.names]

theorem accepts_of_not_hasPre (hv : v.tag.hasPre = false) :
    q.Accepts v ↔ ∀ c ∈ q.comparators, c.Lets v :=
  ⟨Query.Accepts.lets, fun h => ⟨h, by simp [hv]⟩⟩

variable {g : Group}

/-- A group is satisfied when an alternative of it accepts the version. -/
theorem group_satisfies_iff (hg : g.Anchored) :
    g.satisfies v = true ↔ ∃ q ∈ g.alternatives, q.Accepts v := by
  unfold Group.satisfies
  cases hv : v.tag.hasPre with
  | true =>
    simp only [if_true, Group.listSatisfiesPre, any_eq_true]
    refine exists_congr fun q => and_congr_right fun hq => ?_
    refine (query_satisfiesPre_iff (hg q hq)).trans ?_
    exact ⟨fun h => ⟨h.1, fun _ => h.2⟩, fun h => ⟨h.lets, h.named hv⟩⟩
  | false =>
    simp only [Bool.false_eq_true, if_false, Group.listSatisfies, any_eq_true]
    refine exists_congr fun q => and_congr_right fun hq => ?_
    rw [query_satisfies_iff (hg q hq), accepts_of_not_hasPre hv]

/-! ## The ranges of a parsed group -/

theorem anchored_of_left (h : r.left.op ≠ .unset) : r.Anchored := fun _ => by
  simpa [Range.hasLeft] using h

theorem anchored_empty : ({} : Range).Anchored := fun h => by
  simp [Range.hasRight] at h

theorem ltNextMajor_set (major : UInt64) : (ltNextMajor major).op ≠ .unset := by
  unfold ltNextMajor
  split <;> simp

theorem ltNextMinor_set (major minor : UInt64) :
    (ltNextMinor major minor).op ≠ .unset := by
  unfold ltNextMinor
  split <;> simp

theorem gteNextMajor_set (major : UInt64) (tag : Tag) :
    (gteNextMajor major tag).op ≠ .unset := by
  unfold gteNextMajor
  split <;> simp [nullSet]

theorem gteNextMinor_set (major minor : UInt64) (tag : Tag) :
    (gteNextMinor major minor tag).op ≠ .unset := by
  unfold gteNextMinor
  split
  · simp
  · exact gteNextMajor_set major tag

theorem initWildcard_anchored (version : Version) (wildcard : Wildcard) (floor : Tag) :
    (Range.initWildcard version wildcard floor).Anchored := by
  refine anchored_of_left ?_
  cases wildcard with
  | none => simp [Range.initWildcard]
  | major => simp [Range.initWildcard]
  | minor => exact ltNextMajor_set _
  | patch => exact ltNextMinor_set _ _

theorem caretRange_anchored (parsed : ParseResult) (floor : Tag) :
    (caretRange parsed floor).Anchored := by
  rcases parsed with ⟨_, valid, _, ⟨_ | major, _ | minor, _ | patch, tag⟩, _⟩
  case none.none.none | none.none.some | none.some.none | none.some.some =>
    unfold caretRange
    split
    · exact initWildcard_anchored _ _ _
    · exact anchored_empty
  case some.none.none | some.none.some => exact anchored_of_left (by simp [caretRange])
  case some.some.none | some.some.some =>
    unfold caretRange
    dsimp only
    split <;> exact anchored_of_left (by simp)

theorem tildaRange_anchored (parsed : ParseResult) (floor : Tag) :
    (tildaRange parsed floor).Anchored := by
  rcases parsed with ⟨_, valid, _, ⟨_ | major, _ | minor, _ | patch, tag⟩, _⟩
  case none.none.none | none.none.some | none.some.none | none.some.some =>
    unfold tildaRange
    split
    · exact initWildcard_anchored _ _ _
    · exact anchored_empty
  all_goals exact anchored_of_left (by simp [tildaRange])

theorem xRange_anchored {op : Op} (hop : op ≠ .unset) (wildcard : Wildcard) (parsed : ParseResult)
    (floor : Tag) : (xRange op wildcard parsed floor).Anchored := by
  unfold xRange
  split
  · exact anchored_of_left hop
  · split_ifs
    · exact anchored_of_left (by simp [nullSet])
    · exact initWildcard_anchored _ _ _
  · exact anchored_of_left (by simp)
  · exact anchored_of_left (by simp)
  · exact anchored_of_left (gteNextMajor_set _ _)
  · exact anchored_of_left (gteNextMinor_set _ _ _)
  · exact anchored_of_left (ltNextMajor_set _)
  · exact anchored_of_left (ltNextMinor_set _ _)

theorem toRange_anchored (token : Token) (parsed : ParseResult) (floor : Tag) :
    (token.toRange parsed floor).Anchored := by
  unfold toRange
  split
  · exact caretRange_anchored _ _
  · exact tildaRange_anchored _ _
  · exact anchored_empty
  · split_ifs
    · exact initWildcard_anchored _ _ _
    · exact anchored_of_left (by simp)
  all_goals exact xRange_anchored (by simp) _ _ _

theorem hyphenRange_anchored (first second : ParseResult) (floor : Tag) :
    (Parser.hyphenRange first second floor).Anchored :=
  anchored_of_left (by simp [Parser.hyphenRange])

theorem query_andRange_anchored (hq : q.Anchored) (hr : r.Anchored) : (q.andRange r).Anchored := by
  intro s hs
  unfold Query.andRange at hs
  split_ifs at hs
  · rcases mem_cons.1 hs with rfl | hs
    · exact hr
    · exact hq s (mem_cons_of_mem _ hs)
  · rcases mem_cons.1 hs with rfl | hs
    · exact hq _ mem_cons_self
    · rcases mem_append.1 hs with hs | hs
      · exact hq s (mem_cons_of_mem _ hs)
      · rw [mem_singleton.1 hs]
        exact hr

namespace Group

theorem anchored_empty : ({} : Group).Anchored := by
  intro q hq
  obtain rfl : q = {} := by simpa [alternatives] using hq
  intro r hr
  obtain rfl : r = {} := by simpa [Query.ranges] using hr
  exact Semver.anchored_empty

theorem andRange_anchored (hg : g.Anchored) (hr : r.Anchored) : (g.andRange r).Anchored := by
  intro q hq
  unfold andRange at hq
  split at hq
  · rcases mem_cons.1 hq with rfl | hq
    · exact query_andRange_anchored (hg _ mem_cons_self) hr
    · exact hg q (mem_cons_of_mem _ hq)
  next last hlast =>
    rcases mem_cons.1 hq with rfl | hq
    · exact hg _ mem_cons_self
    · rcases mem_append.1 hq with hq | hq
      · exact hg q (mem_cons_of_mem _ (dropLast_subset _ hq))
      · rw [mem_singleton.1 hq]
        have hmem : last ∈ g.next := mem_of_getLast? hlast
        exact query_andRange_anchored (hg _ (mem_cons_of_mem _ hmem)) hr

theorem orRange_anchored (hg : g.Anchored) (hr : r.Anchored) : (g.orRange r).Anchored := by
  intro q hq
  unfold orRange at hq
  split_ifs at hq with hempty
  · rcases mem_cons.1 hq with rfl | hq
    · intro s hs
      rcases mem_cons.1 hs with rfl | hs
      · exact hr
      · exact hg _ mem_cons_self s (mem_cons_of_mem _ hs)
    · exact hg q (mem_cons_of_mem _ hq)
  · rcases mem_cons.1 hq with rfl | hq
    · exact hg _ mem_cons_self
    · rcases mem_append.1 hq with hq | hq
      · exact hg q (mem_cons_of_mem _ hq)
      · rw [mem_singleton.1 hq]
        intro s hs
        obtain rfl : s = r := by simpa [Query.ranges] using hs
        exact hr

end Group

namespace Parser

theorem append_anchored {p : Parser} (hp : p.list.Anchored) (hr : r.Anchored)
    (afterComparator : Bool) : (p.append r afterComparator).list.Anchored := by
  unfold append
  split
  · exact Group.orRange_anchored hp hr
  · exact Group.andRange_anchored hp hr

/-- What the match of a round on `c` does to the parser, and whether it skips the round. -/
inductive Moves (c : UInt8) : (Parser → Parser) → Bool → Prop
  | tag (tag : TokenTag) : Moves c (fun p => { p with token.tag := tag }) false
  | bar : c = b '|' → Moves c (fun p => { p with token.tag := .none, isOr := true }) true
  | hyphen : Moves c (fun p => p) false
  | space : c = b ' ' → Moves c (fun p => p) true
  | text : Moves c
      (fun p => ({ p with token.tag := .none, afterComparator := false } : Parser).setSkipped) true

/-- The match of a round does the same to every parser. -/
theorem round_cases (c : UInt8) (cs : Bytes) : ∃ moved rest skipRound noOperator,
    (∀ p : Parser, p.round c cs = ⟨moved p, rest, skipRound, noOperator⟩) ∧
      Moves c moved skipRound := by
  by_cases h₁ : c = b '>' ∨ c = b '<'
  · exact ⟨_, _, _, _, fun p => if_pos h₁, .tag _⟩
  by_cases h₂ : c = b '=' ∨ c = b 'v'
  · exact ⟨_, _, _, _, fun p => by rw [round, if_neg h₁, if_pos h₂], .tag _⟩
  by_cases h₃ : c = b '~'
  · exact ⟨_, _, _, _, fun p => by rw [round, if_neg h₁, if_neg h₂, if_pos h₃], .tag _⟩
  by_cases h₄ : c = b '^'
  · exact ⟨_, _, _, _, fun p => by rw [round, if_neg h₁, if_neg h₂, if_neg h₃, if_pos h₄], .tag _⟩
  simp only [round, if_neg h₁, if_neg h₂, if_neg h₃, if_neg h₄]
  by_cases h₅ : isAsciiDigit c ∨ isWildcardChar c
  · exact ⟨_, _, _, _, fun p => if_pos h₅, .tag _⟩
  by_cases h₆ : c = b '|'
  · exact ⟨_, _, _, _, fun p => by rw [if_neg h₅, if_pos h₆], .bar h₆⟩
  by_cases h₇ : c = b '-'
  · exact ⟨_, _, _, _, fun p => by rw [if_neg h₅, if_neg h₆, if_pos h₇], .hyphen⟩
  by_cases h₈ : c = b ' '
  · exact ⟨_, _, _, _, fun p => by rw [if_neg h₅, if_neg h₆, if_neg h₇, if_pos h₈], .space h₈⟩
  exact ⟨_, _, _, _, fun p => by rw [if_neg h₅, if_neg h₆, if_neg h₇, if_neg h₈], .text⟩

/-- The match of a round only changes flags of the list. -/
theorem round_alternatives (p : Parser) (c : UInt8) (cs : Bytes) :
    (p.round c cs).parser.list.alternatives = p.list.alternatives := by
  obtain ⟨moved, rest, skipRound, noOperator, hround, hmoves⟩ := round_cases c cs
  rw [hround]
  cases hmoves <;> rfl

variable {floor : Tag}

theorem comparator_anchored {r : Round} {p : Parser} {rest : Bytes}
    (h : comparator r floor = some (p, rest)) (hr : r.parser.list.Anchored) : p.list.Anchored := by
  unfold comparator at h
  dsimp only at h
  split at h
  · cases h
  · split at h
    · split at h
      · cases h
      · cases h
        refine append_anchored ?_ (hyphenRange_anchored _ _ _) _
        exact hr
    · split at h
      · cases h
        exact hr
      · cases h
        refine append_anchored ?_ (toRange_anchored _ _ _) _
        exact hr

theorem step_anchored {p p' : Parser} {c : UInt8} {cs rest : Bytes}
    (h : p.step floor c cs = some (p', rest)) (hp : p.list.Anchored) : p'.list.Anchored := by
  have hround : (p.round c cs).parser.list.Anchored := by
    unfold Group.Anchored
    rw [round_alternatives]
    exact hp
  unfold step at h
  dsimp only at h
  split_ifs at h
  · cases h
    exact hround
  · exact comparator_anchored h hround

theorem scan_anchored : ∀ {fuel : ℕ} {p : Parser} {input : Bytes} {g : Group},
    scan floor fuel p input = some g → p.list.Anchored → g.Anchored
  | 0, p, input, g, h, hp => by
    cases h
    exact hp
  | fuel + 1, p, [], g, h, hp => by
    cases h
    exact hp
  | fuel + 1, p, c :: cs, g, h, hp => by
    rw [scan] at h
    split at h
    · cases h
    next hstep => exact scan_anchored h (step_anchored hstep hp)

end Parser

theorem parseWith_anchored (input : Bytes) (floor : Tag) : (parseWith input floor).Anchored := by
  unfold parseWith
  rcases hscan : Parser.scan floor input.length {} input with _ | g
  · intro q hq r hr
    obtain rfl : q = { range := { left := .nullSet } } := by
      simpa [Group.nullSet, Group.fromComparator, Group.alternatives] using hq
    obtain rfl : r = { left := .nullSet } := by simpa [Query.ranges] using hr
    exact anchored_of_left (by simp [nullSet])
  · exact Parser.scan_anchored hscan Group.anchored_empty

theorem parse_anchored (input : Bytes) : (parse input).Anchored := parseWith_anchored input {}

end Soup.Semver
