import Soup.Semver.Satisfies

/-!
# Intersection of groups

`Group::intersects` should return true when some version satisfies both groups. It compares the
bounds of two ranges by the order alone, where `satisfies` lets the prereleases of `0.0.0` through
`>=0.0.0` : `>=0.0.0 <0.0.0-beta` does not intersect itself, although `0.0.0-alpha` satisfies it.

`intersects_iff` says when the function returns true. It misses nothing but versions of ranges
that have `>=0.0.0` beside a bound which ends below `0.0.0` (`Query.CapsZero`).
-/

namespace Soup.Semver

open Soup.Lib List Semver.Interval

/-! ## Versions of one precedence -/

variable {v : Version}

theorem isZero_iff : v.isZero = true ↔ v.triple = ({} : Version).triple := by
  unfold Version.isZero Version.triple
  simp only [Bool.and_eq_true, beq_iff_eq, ← UInt64.toNat_inj, EmbeddingLike.apply_eq_iff_eq,
    Prod.mk.injEq]
  tauto

theorem precedence_eq_zero {c : Comparator} (hc : c.IsAtLeastZero) :
    c.version.precedence = ({} : Version).precedence := by
  obtain ⟨-, hzero, hpre⟩ := hc
  unfold Version.precedence
  rw [isZero_iff.1 hzero, rank_eq_top.2 hpre]
  rfl

variable {u : Version}

theorem sameTriple_iff : sameTriple u v = true ↔ u.triple = v.triple := by
  unfold sameTriple Version.triple
  simp only [Bool.and_eq_true, beq_iff_eq, ← UInt64.toNat_inj, EmbeddingLike.apply_eq_iff_eq,
    Prod.mk.injEq, and_assoc]

theorem isPrereleaseOf_congr (h : u.precedence = v.precedence) (c : Comparator) :
    isPrereleaseOf u c = isPrereleaseOf v c := by
  unfold isPrereleaseOf
  congr 1
  rw [Bool.eq_iff_iff, sameTriple_iff, sameTriple_iff, triple_eq_of_precedence_eq h]

variable {q : Query}

theorem accepts_congr (h : u.precedence = v.precedence) (hq : q.Accepts u) :
    q.Accepts v := by
  refine ⟨fun c hc => ?_, fun hv => ?_⟩
  · have hlets := hq.lets c hc
    unfold Comparator.Lets at hlets ⊢
    rwa [← h]
  · obtain ⟨c, hc, hname⟩ := hq.named (by rw [hasPre_eq_of_precedence_eq h, hv])
    exact ⟨c, hc, by rw [← isPrereleaseOf_congr h, hname]⟩

/-! ## Exact alternatives -/

/-- The version of an exact alternative is accepted by it, and nothing of another precedence. -/
theorem exactVersion_spec {x : Version} (h : q.exactVersion = some x) :
    q.Accepts x ∧ ∀ v, q.Accepts v → v.precedence = x.precedence := by
  unfold Query.exactVersion at h
  split_ifs at h with hexact
  cases h
  simp only [Bool.and_eq_true, List.isEmpty_iff, beq_iff_eq, Bool.not_eq_true',
    Range.hasRight, bne_eq_false_iff_eq] at hexact
  obtain ⟨⟨hnext, heql⟩, hright⟩ := hexact
  have hcs : q.comparators = [q.range.left, q.range.right] := by
    simp [Query.comparators, Query.ranges, hnext]
  have hspan : ∀ v : Version, v.precedence ∈ q.range.left.span ↔
      v.precedence = q.range.left.version.precedence := fun v => by
    simp [Comparator.span, heql, Span.mem_def, le_antisymm_iff, and_comm]
  refine ⟨⟨fun c hc => ?_, fun hpre => ⟨q.range.left, by simp [hcs], ?_⟩⟩, fun v hv => ?_⟩
  · simp only [hcs, mem_cons, not_mem_nil, or_false] at hc
    rcases hc with rfl | rfl
    · exact .inl ((hspan _).2 rfl)
    · exact lets_of_unset hright _
  · simp [isPrereleaseOf, heql, hpre, sameTriple_iff]
  · rcases hv.lets q.range.left (by simp [hcs]) with hlets | ⟨hzero, -⟩
    · exact (hspan v).1 hlets
    · simp [Comparator.IsAtLeastZero, heql] at hzero

/-! ## When the function returns true -/

/-- `q` and `q'` are not exact and the tighter of their lower bounds is below the tighter of their
upper bounds. -/
def Query.BoundsMeet (q q' : Query) : Prop :=
  q.exactVersion = none ∧ q'.exactVersion = none ∧
    (q.interval.span.inter q'.interval.span).Open lowest

variable {q' : Query}

theorem Query.BoundsMeet.symm (h : q.BoundsMeet q') : q'.BoundsMeet q :=
  ⟨h.2.1, h.1, by rw [Span.inter_comm]; exact h.2.2⟩

theorem admitsAnExactVersionOf_iff {g h : Group} :
    g.admitsAnExactVersionOf h = true ↔
      ∃ q ∈ h.alternatives, ∃ x, q.exactVersion = some x ∧ g.admits x = true := by
  simp only [Group.admitsAnExactVersionOf, any_eq_true, mem_filterMap]
  constructor
  · rintro ⟨x, ⟨q, hq, hx⟩, hadmits⟩
    exact ⟨q, hq, x, hx, hadmits⟩
  · rintro ⟨q, hq, x, hx, hadmits⟩
    exact ⟨x, ⟨q, hq, hx⟩, hadmits⟩

theorem intersects_iff {g h : Group} :
    g.intersects h = true ↔
      g.admitsAnExactVersionOf h = true ∨ h.admitsAnExactVersionOf g = true ∨
        ∃ q ∈ g.alternatives, ∃ q' ∈ h.alternatives, q.BoundsMeet q' := by
  simp only [Group.intersects, Bool.or_eq_true, any_eq_true, mem_filter,
    Bool.and_eq_true, Option.isNone_iff_eq_none, or_assoc]
  refine or_congr_right (or_congr_right ⟨?_, ?_⟩)
  · rintro ⟨q, ⟨hq, hexact⟩, -, q', ⟨hq', hexact'⟩, hopen⟩
    refine ⟨q, hq, q', hq', hexact, hexact', ?_⟩
    rw [← span_andQuery]
    exact isNonEmpty_iff.1 hopen
  · rintro ⟨q, hq, q', hq', hexact, hexact', hopen⟩
    refine ⟨q, ⟨hq, hexact⟩, ?_, q', ⟨hq', hexact'⟩, ?_⟩
    · exact isNonEmpty_iff.2 (hopen.of_within (Span.inter_within_left _ _))
    · rw [← span_andQuery] at hopen
      exact isNonEmpty_iff.2 hopen

theorem intersects_comm (g h : Group) : g.intersects h = h.intersects g := by
  rw [Bool.eq_iff_iff, intersects_iff, intersects_iff]
  constructor
  · rintro (hg | hh | ⟨q, hq, q', hq', hmeet⟩)
    · exact .inr (.inl hg)
    · exact .inl hh
    · exact .inr (.inr ⟨q', hq', q, hq, hmeet.symm⟩)
  · rintro (hg | hh | ⟨q, hq, q', hq', hmeet⟩)
    · exact .inr (.inl hg)
    · exact .inl hh
    · exact .inr (.inr ⟨q', hq', q, hq, hmeet.symm⟩)

/-! ## What it misses -/

/-- `<0.0.0`, or a bound from above at a prerelease of `0.0.0`. -/
def Comparator.EndsBelowZero (d : Comparator) : Prop :=
  d.version.isZero = true ∧
    (d.op = .lt ∨ (d.op = .lte ∨ d.op = .eql) ∧ d.version.tag.hasPre = true)

/-- Two ranges have `>=0.0.0` beside a bound that ends below `0.0.0`. -/
def Query.CapsZero (q q' : Query) : Prop :=
  q.exactVersion = none ∧ q'.exactVersion = none ∧
    (∃ c ∈ q.comparators ++ q'.comparators, c.IsAtLeastZero) ∧
    ∃ d ∈ q.comparators ++ q'.comparators, d.EndsBelowZero

/-- Two alternatives that accept `v` do not have `>=0.0.0` beside a bound that ends below it. -/
def Group.SharesUncapped (g h : Group) (v : Version) : Prop :=
  ∃ q ∈ g.alternatives, ∃ q' ∈ h.alternatives, q.Accepts v ∧ q'.Accepts v ∧ ¬q.CapsZero q'

theorem boundsMeet_of_mem (hq : q.exactVersion = none) (hq' : q'.exactVersion = none)
    (h : v.precedence ∈ q.interval.span) (h' : v.precedence ∈ q'.interval.span) : q.BoundsMeet q' :=
  ⟨hq, hq', Span.open_of_mem (Span.mem_inter.2 ⟨h, h'⟩) (lowest_le v)⟩

theorem inter_within {c : Comparator} (hc : c ∈ q.comparators ++ q'.comparators) :
    (q.interval.span.inter q'.interval.span).Within c.span := by
  rcases mem_append.1 hc with hc | hc
  · exact (Span.inter_within_left _ _).trans (interval_within hc)
  · exact (Span.inter_within_right _ _).trans (interval_within hc)

theorem rank_zero : ({} : Version).tag.rank = ⊤ := rank_eq_top.2 rfl

theorem precedence_le_zero : v.precedence ≤ ({} : Version).precedence ↔ v.isZero = true := by
  rw [isZero_iff, Version.precedence, Version.precedence, Prod.Lex.toLex_le_toLex]
  refine ⟨?_, fun h => .inr ⟨h, ?_⟩⟩
  · rintro (hlt | ⟨heq, -⟩)
    · exact absurd hlt (zero_triple_le v).not_gt
    · exact heq
  · exact le_top.trans_eq rank_zero.symm

theorem precedence_lt_zero :
    v.precedence < ({} : Version).precedence ↔ v.isZero = true ∧ v.tag.hasPre = true := by
  rw [lt_iff_le_and_ne, precedence_le_zero]
  refine and_congr_right fun hzero => ?_
  rw [ne_eq, Version.precedence, Version.precedence, isZero_iff.1 hzero,
    EmbeddingLike.apply_eq_iff_eq, Prod.mk.injEq, and_iff_right rfl, rank_zero, rank_eq_top,
    Bool.not_eq_false]

theorem endsBelowZero_iff {d : Comparator} :
    d.EndsBelowZero ↔ d.span.upper ≤ (Cut.below ({} : Version).precedence : Cut Precedence) := by
  unfold Comparator.EndsBelowZero Comparator.span
  cases hop : d.op <;>
    simp [Span.univ, precedence_le_zero, precedence_lt_zero]

/-- Nothing lies between `>=0.0.0` and a bound that ends below it. -/
theorem Query.CapsZero.not_boundsMeet (h : q.CapsZero q') : ¬q.BoundsMeet q' := by
  obtain ⟨-, -, ⟨c, hc, hzero⟩, d, hd, hends⟩ := h
  rintro ⟨-, -, hopen⟩
  have hlower : ((Cut.below ({} : Version).precedence : Cut Precedence) : WithBot
    (Cut Precedence)) ≤ (q.interval.span.inter q'.interval.span).lower := by
    have h := (inter_within hc).1
    rwa [Comparator.span, hzero.1, precedence_eq_zero hzero] at h
  obtain ⟨u, hu, hle⟩ :=
    WithTop.le_coe_iff.1 ((inter_within hd).2.trans (endsBelowZero_iff.1 hends))
  exact absurd (hlower.trans le_sup_left)
    (not_le.2 ((hopen u hu).trans_le (WithBot.coe_le_coe.2 hle)))

/-- Ranges that accept a version meet where they don't cap `>=0.0.0`. -/
theorem boundsMeet_of_accepts (hx : q.exactVersion = none) (hx' : q'.exactVersion = none)
    (hq : q.Accepts v) (hq' : q'.Accepts v) (h : ¬q.CapsZero q') : q.BoundsMeet q' := by
  have hlets : ∀ c ∈ q.comparators ++ q'.comparators, c.Lets v := fun c hc => by
    rcases mem_append.1 hc with hc | hc
    · exact hq.lets c hc
    · exact hq'.lets c hc
  have hmeet : ∀ u : Version, (∀ c ∈ q.comparators ++ q'.comparators, u.precedence ∈ c.span) →
      q.BoundsMeet q' := fun u hu =>
    boundsMeet_of_mem hx hx' (mem_interval.2 fun c hc => hu c (mem_append_left _ hc))
      (mem_interval.2 fun c hc => hu c (mem_append_right _ hc))
  by_cases hall : ∀ c ∈ q.comparators ++ q'.comparators, v.precedence ∈ c.span
  · exact hmeet v hall
  -- some `>=0.0.0` takes `v` in, and as no bound ends below `0.0.0`, all let `0.0.0` through
  push Not at hall
  obtain ⟨d, hd, hnot⟩ := hall
  obtain ⟨hzero, hv⟩ := (hlets d hd).resolve_left hnot
  rw [precedence_eq_zero hzero] at hv
  refine hmeet {} fun c hc => ?_
  have hends : ¬c.EndsBelowZero := fun hends => h ⟨hx, hx', ⟨d, hd, hzero⟩, c, hc, hends⟩
  rw [endsBelowZero_iff, not_le] at hends
  rcases hlets c hc with hmem | ⟨hc', -⟩
  · exact Span.mem_of_le hmem hv.le fun u hu => WithTop.coe_lt_coe.1 (hends.trans_eq hu)
  · rw [Comparator.span, hc'.1, Span.mem_def, precedence_eq_zero hc']
    simp

section Parsed

variable {g h : Group} (hg : g.Anchored) (hh : h.Anchored)
include hg

theorem admits_of_accepts {x : Version} (hq : q ∈ g.alternatives)
    (hq' : q' ∈ h.alternatives) (hv : q.Accepts v) (hv' : q'.Accepts v)
    (hx : q'.exactVersion = some x) : g.admitsAnExactVersionOf h = true := by
  refine admitsAnExactVersionOf_iff.2 ⟨q', hq', x, hx, ?_⟩
  have hsat : g.satisfies x = true :=
    (group_satisfies_iff hg).2 ⟨q, hq, accepts_congr ((exactVersion_spec hx).2 v hv') hv⟩
  rw [Group.admits, hsat, Bool.true_or]

include hh

theorem intersects_of_sharesUncapped (hshares : g.SharesUncapped h v) : g.intersects h = true := by
  obtain ⟨q, hq, q', hq', hv, hv', hcaps⟩ := hshares
  rw [intersects_iff]
  rcases hx : q.exactVersion with _ | x
  · rcases hx' : q'.exactVersion with _ | x'
    · exact .inr (.inr ⟨q, hq, q', hq', boundsMeet_of_accepts hx hx' hv hv' hcaps⟩)
    · exact .inl (admits_of_accepts hg hq hq' hv hv' hx')
  · exact .inr (.inl (admits_of_accepts hh hq' hq hv' hv hx))

/-- Of one alternative each, `intersects` is true for nothing else. -/
theorem sharesUncapped_of_intersects (hnext : g.next = []) (hnext' : h.next = [])
    (hv : g.satisfies v = true) (hv' : h.satisfies v = true) (hmeet : g.intersects h = true) :
    g.SharesUncapped h v := by
  have hone : ∀ q ∈ g.alternatives, q = g.head := fun q hq => by
    rw [Group.alternatives, hnext] at hq
    exact mem_singleton.1 hq
  have hone' : ∀ q ∈ h.alternatives, q = h.head := fun q hq => by
    rw [Group.alternatives, hnext'] at hq
    exact mem_singleton.1 hq
  obtain ⟨q, hq, haccepts⟩ := (group_satisfies_iff hg).1 hv
  obtain ⟨q', hq', haccepts'⟩ := (group_satisfies_iff hh).1 hv'
  refine ⟨q, hq, q', hq', haccepts, haccepts', fun hcaps => ?_⟩
  rcases intersects_iff.1 hmeet with hadmits | hadmits | ⟨p, hp, p', hp', hbounds⟩
  · obtain ⟨p, hp, x, hx, -⟩ := admitsAnExactVersionOf_iff.1 hadmits
    rw [hone' p hp, ← hone' q' hq', hcaps.2.1] at hx
    cases hx
  · obtain ⟨p, hp, x, hx, -⟩ := admitsAnExactVersionOf_iff.1 hadmits
    rw [hone p hp, ← hone q hq, hcaps.1] at hx
    cases hx
  · rw [hone p hp, hone' p' hp', ← hone q hq, ← hone' q' hq'] at hbounds
    exact hcaps.not_boundsMeet hbounds

end Parsed

end Soup.Semver
