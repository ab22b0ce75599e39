import Soup.Semver.Overlap

/-!
# Inclusion of groups

`Group::is_subset_of` should return true only when every version that satisfies the one group
satisfies the other. It puts each bound in its canonical form and compares the forms. Prereleases
break three of the rewritings of `canonical`: `1.6.0-alpha` is above `1.5.MAX` but not in `>=1.6.0`,
which is the form of `>1.5.MAX`; it is below `1.6.0` but not in `<=1.5.MAX`; and `>=0.0.0`, which
becomes no bound, may hide a bound that is a prerelease of `0.0.0`.

`Query.Loses` and `Query.Gains` say of which queries this is so, and for which versions.
Everywhere else inclusion is sound (`satisfies_of_isSubsetOf`).
-/

namespace Soup.Semver

open Soup.Lib List Semver.Interval

/-! ## The version after the last patch -/

variable {u v : Version}

theorem triple_lt_iff :
    u.triple < v.triple ↔ u.major.toNat < v.major.toNat ∨ u.major.toNat = v.major.toNat ∧
      (u.minor.toNat < v.minor.toNat ∨
        u.minor.toNat = v.minor.toNat ∧ u.patch.toNat < v.patch.toNat) := by
  simp [Version.triple, Prod.Lex.toLex_lt_toLex]

/-- `next` is the first version without prerelease after a last patch. -/
theorem triple_lt_iff_afterLastPatch {u next : Version} (hu : isLastPatch u = true)
    (h : afterLastPatch u = some next) (v : Version) :
    u.triple < v.triple ↔ next.triple ≤ v.triple := by
  have hpatch : u.patch.toNat = u64Max := by
    simp only [isLastPatch, Bool.and_eq_true, beq_iff_eq] at hu
    exact hu.1
  have hv := toNat_le_u64Max v.patch
  have hvm := toNat_le_u64Max v.minor
  rw [← not_lt, triple_lt_iff, triple_lt_iff]
  unfold afterLastPatch at h
  split at h
  next minor hminor =>
    have hn := checkedAddOne_eq_some hminor
    cases h
    simp
    omega
  next hminor =>
    have hn := checkedAddOne_eq_none hminor
    obtain ⟨major, hmajor, rfl⟩ := Option.map_eq_some_iff.1 h
    have hm := checkedAddOne_eq_some hmajor
    simp
    omega

theorem afterLastPatch_tag {u next : Version} (h : afterLastPatch u = some next) :
    next.tag = {} := by
  unfold afterLastPatch at h
  split at h
  · cases h
    rfl
  · obtain ⟨major, -, rfl⟩ := Option.map_eq_some_iff.1 h
    rfl

/-- There is no version after `MAX.MAX.MAX`. -/
theorem triple_le_of_afterLastPatch_none {u : Version} (hu : isLastPatch u = true)
    (h : afterLastPatch u = none) (v : Version) : v.triple ≤ u.triple := by
  have hpatch : u.patch.toNat = u64Max := by
    simp only [isLastPatch, Bool.and_eq_true, beq_iff_eq] at hu
    exact hu.1
  have hv := toNat_le_u64Max v.patch
  have hvm := toNat_le_u64Max v.minor
  have hvM := toNat_le_u64Max v.major
  rw [← not_lt, triple_lt_iff]
  unfold afterLastPatch at h
  split at h
  · cases h
  next hminor =>
    have hn := checkedAddOne_eq_none hminor
    have hm := checkedAddOne_eq_none (Option.map_eq_none_iff.1 h)
    omega

theorem precedence_le_iff_of_release (hu : u.tag.hasPre = false) :
    v.precedence ≤ u.precedence ↔ v.triple ≤ u.triple := by
  rw [precedence_le, rank_eq_top.2 hu, @le_iff_lt_or_eq Triple]
  simp only [le_top, and_true]

theorem precedence_lt_iff_of_release (hu : u.tag.hasPre = false) :
    u.precedence < v.precedence ↔ u.triple < v.triple := by
  rw [← not_le, precedence_le_iff_of_release hu, not_le]

theorem not_hasPre_of_isLastPatch {u : Version} (hu : isLastPatch u = true) :
    u.tag.hasPre = false := by
  simp only [isLastPatch, Bool.and_eq_true, Bool.not_eq_true'] at hu
  exact hu.2

/-! ## Bounds and comparators -/

/-- The comparators that bound from below. -/
def Comparator.IsLower (c : Comparator) : Prop := c.op = .eql ∨ c.op = .gt ∨ c.op = .gte

/-- The comparators that bound from above. -/
def Comparator.IsUpper (c : Comparator) : Prop := c.op = .eql ∨ c.op = .lt ∨ c.op = .lte

instance (c : Comparator) : Decidable c.IsLower := inferInstanceAs (Decidable (_ ∨ _))

instance (c : Comparator) : Decidable c.IsUpper := inferInstanceAs (Decidable (_ ∨ _))

section Bounds

variable {q : Query} {c : Comparator} {v : Version} {l u : Bound}

theorem lower_of_isLower (hc : c ∈ q.comparators) (hop : c.IsLower) :
    ∃ l, q.interval.lower = some l ∧ c.span.lower ≤ (l.lowerCut : WithBot (Cut Precedence)) ∧
      c.version.precedence ≤ l.version.precedence := by
  have hle := (interval_within hc).1
  rcases hl : q.interval.lower with _ | l
  · rw [Interval.span, hl] at hle
    rcases hop with hop | hop | hop <;> simp [Comparator.span, hop] at hle
  · rw [Interval.span, hl] at hle
    refine ⟨l, rfl, hle, ?_⟩
    unfold Comparator.span Bound.lowerCut at hle
    rcases hop with hop | hop | hop <;> cases hinc : l.inclusive <;>
      simp [hop, hinc] at hle <;> first | exact hle | exact hle.le

theorem upper_of_isUpper (hc : c ∈ q.comparators) (hop : c.IsUpper) :
    ∃ u, q.interval.upper = some u ∧ (u.upperCut : WithTop (Cut Precedence)) ≤ c.span.upper ∧
      u.version.precedence ≤ c.version.precedence := by
  have hle := (interval_within hc).2
  rcases hu : q.interval.upper with _ | u
  · rw [Interval.span, hu] at hle
    rcases hop with hop | hop | hop <;> simp [Comparator.span, hop] at hle
  · rw [Interval.span, hu] at hle
    refine ⟨u, rfl, hle, ?_⟩
    unfold Comparator.span Bound.upperCut at hle
    rcases hop with hop | hop | hop <;> cases hinc : u.inclusive <;>
      simp [hop, hinc] at hle <;> first | exact hle | exact hle.le

/-- The lower bound lets `v` through, or it is `>=0.0.0` and `v` lies below it. -/
theorem lower_le_of_accepts (hq : q.Accepts v) (hl : q.interval.lower = some l) :
    l.lowerCut ≤ Cut.below v.precedence ∨
      ∃ c ∈ q.comparators, c.IsAtLeastZero ∧ c.version = l.version ∧ l.inclusive = true ∧
        v.precedence < c.version.precedence := by
  obtain ⟨c, hc, hversion, hop⟩ := (interval_from q).lower l hl
  rcases hq.lets c hc with hmem | ⟨hzero, hlt⟩
  · refine .inl ?_
    have hlower := hmem.1
    unfold Bound.lowerCut
    rw [← hversion]
    rcases hop with ⟨hop | hop, hinc⟩ | ⟨hop, hinc⟩ <;>
      simpa [Comparator.span, hop, hinc] using hlower
  · refine .inr ⟨c, hc, hzero, hversion, ?_, hlt⟩
    rcases hop with ⟨-, hinc⟩ | ⟨hop, -⟩
    · exact hinc
    · rw [hzero.1] at hop
      cases hop

theorem le_upper_of_accepts (hq : q.Accepts v) (hu : q.interval.upper = some u) :
    Cut.above v.precedence ≤ u.upperCut := by
  obtain ⟨c, hc, hversion, hop⟩ := (interval_from q).upper u hu
  rcases hq.lets c hc with hmem | ⟨hzero, -⟩
  · have hupper := hmem.2
    unfold Bound.upperCut
    rw [← hversion]
    rcases hop with ⟨hop | hop, hinc⟩ | ⟨hop, hinc⟩ <;>
      simpa [Comparator.span, hop, hinc] using hupper
  · rcases hop with ⟨hop | hop, -⟩ | ⟨hop, -⟩ <;> rw [hzero.1] at hop <;> cases hop

theorem precedence_le_of_lowerCut_le (h : l.lowerCut ≤ Cut.below v.precedence) :
    l.version.precedence ≤ v.precedence := by
  unfold Bound.lowerCut at h
  split at h
  · exact Cut.below_le_below.1 h
  · exact (Cut.above_le_below.1 h).le

theorem precedence_le_of_le_upperCut (h : Cut.above v.precedence ≤ u.upperCut) :
    v.precedence ≤ u.version.precedence := by
  unfold Bound.upperCut at h
  split at h
  · exact Cut.above_le_above.1 h
  · exact (Cut.above_le_below.1 h).le

end Bounds

/-! ## Prereleases that the canonical form gets wrong -/

namespace Query

/-- `q` accepts the prerelease `v`, but its canonical form is above `v` or does not ask for a
prerelease of the triple of `v`. Either `q` has `>a.b.MAX`, `v` is a prerelease of the version after
it and no lower bound is one, or `q` has `>=0.0.0`, `v` is a prerelease of `0.0.0` and no upper
bound is one. -/
def Loses (q : Query) (v : Version) : Prop :=
  v.tag.hasPre = true ∧
    ((∃ c ∈ q.comparators, c.op = .gt ∧ isLastPatch c.version = true ∧
        (afterLastPatch c.version).any (sameTriple v) = true) ∧
      (∀ c ∈ q.comparators, c.IsLower → isPrereleaseOf v c = false) ∨
    v.isZero = true ∧ (∃ c ∈ q.comparators, c.IsAtLeastZero) ∧
      ∀ c ∈ q.comparators, c.IsUpper → isPrereleaseOf v c = false)

/-- The canonical form of `q` lets the prerelease `v` through although `q` need not accept it.
Either `q` has `<=a.b.MAX` or `=a.b.MAX`, `v` is a prerelease of the version after it and a lower
bound is one too, or `v` is a prerelease of `0.0.0` and `q` has `>=0.0.0` and a lower bound that
is one too, or `=0.0.0` and any bound that is one. -/
def Gains (q : Query) (v : Version) : Prop :=
  v.tag.hasPre = true ∧
    ((∃ c ∈ q.comparators, (c.op = .lte ∨ c.op = .eql) ∧ isLastPatch c.version = true ∧
        (afterLastPatch c.version).any (sameTriple v) = true) ∧
      (∃ c ∈ q.comparators, c.IsLower ∧ isPrereleaseOf v c = true) ∨
    v.isZero = true ∧
      ((∃ c ∈ q.comparators, c.IsAtLeastZero) ∧
          (∃ c ∈ q.comparators, c.IsLower ∧ isPrereleaseOf v c = true) ∨
        (∃ c ∈ q.comparators, c.op = .eql ∧ c.version.isZero = true ∧
            c.version.tag.hasPre = false) ∧
          ∃ c ∈ q.comparators, isPrereleaseOf v c = true))

instance (q : Query) (v : Version) : Decidable (q.Loses v) := by
  unfold Loses
  infer_instance

instance (q : Query) (v : Version) : Decidable (q.Gains v) := by
  unfold Gains
  infer_instance

/-- The group whose only alternative is `q`. -/
def group (q : Query) : Group := { head := q }

end Query

variable {c : Comparator}

theorem isPrereleaseOf_iff_triple {v : Version} :
    isPrereleaseOf v c = true ↔
      c.op ≠ .unset ∧ c.version.tag.hasPre = true ∧ c.version.triple = v.triple := by
  simp [isPrereleaseOf, sameTriple_iff, and_assoc]

theorem isLower_or_isUpper (h : c.op ≠ .unset) : c.IsLower ∨ c.IsUpper := by
  unfold Comparator.IsLower Comparator.IsUpper
  cases hop : c.op <;> simp_all

/-! ## The canonical bounds -/

section Canonical

variable {q : Query} {v : Version} {l u l' u' : Bound}

/-- The canonical lower bound. -/
def Query.canonicalLower (q : Query) : Option Bound :=
  (q.interval.lower.map carryLower).bind dropZero

theorem canonical_upper (q : Query) :
    q.interval.canonical.upper = (q.interval.upper.bind carryUpper).map
      (belowPrereleases q.canonicalLower) := rfl

/-- A lower bound is carried past the last patch or left as it is. -/
theorem carryLower_cases (l : Bound) :
    (∃ next, l.inclusive = false ∧ isLastPatch l.version = true ∧
      afterLastPatch l.version = some next ∧
      carryLower l = { version := next, inclusive := true }) ∨
    carryLower l = l := by
  unfold carryLower
  split
  next hlast =>
    simp only [Bool.and_eq_true, Bool.not_eq_true'] at hlast
    cases hnext : afterLastPatch l.version with
    | none => exact .inr rfl
    | some next => exact .inl ⟨next, hlast.1, hlast.2, rfl, rfl⟩
  · exact .inr rfl

theorem carryUpper_cases (u : Bound) :
    (u.inclusive = true ∧ isLastPatch u.version = true ∧ carryUpper u =
        (afterLastPatch u.version).map fun next => { version := next, inclusive := false }) ∨
    carryUpper u = some u := by
  unfold carryUpper
  split
  next hlast =>
    simp only [Bool.and_eq_true] at hlast
    exact .inl ⟨hlast.1, hlast.2, rfl⟩
  · exact .inr rfl

theorem dropZero_cases (l : Bound) :
    (l.inclusive = true ∧ l.version.isZero = true ∧ l.version.tag.hasPre = false ∧
      dropZero l = none) ∨ dropZero l = some l := by
  unfold dropZero
  split
  next hzero =>
    simp only [Bool.and_eq_true, Bool.not_eq_true'] at hzero
    exact .inl ⟨hzero.1.1, hzero.1.2, hzero.2, rfl⟩
  · exact .inr rfl

/-- The canonical upper bound of what has been carried : either it is now below the prereleases,
or it is left as it is, being inclusive, a prerelease or above a prerelease of its own. -/
theorem belowPrereleases_cases (lower : Option Bound) (u : Bound) :
    (u.inclusive = false ∧ u.version.tag.hasPre = false ∧
      (∀ l, lower = some l → l.version.tag.hasPre = true → l.version.triple ≠ u.version.triple) ∧
      belowPrereleases lower u = { u with version.tag := .ZERO_PRE }) ∨
    (belowPrereleases lower u = u ∧
      (u.inclusive = false → u.version.tag.hasPre = false → ∃ l, lower = some l ∧
        l.version.tag.hasPre = true ∧ l.version.triple = u.version.triple)) := by
  unfold belowPrereleases
  split
  next hcond =>
    simp only [Bool.and_eq_true, Bool.not_eq_true', Option.any_eq_false] at hcond
    refine .inl ⟨hcond.1.1, hcond.1.2, fun l hl hpre heq => ?_, rfl⟩
    have h := hcond.2 l hl
    simp [hpre, sameTriple_iff.2 heq] at h
  next hcond =>
    refine .inr ⟨rfl, fun hinc hpre => ?_⟩
    have hany : lower.any (fun l => l.version.tag.hasPre && sameTriple l.version u.version) =
        true := by
      by_contra hnot
      simp [hinc, hpre] at hcond
      exact hnot hcond
    obtain ⟨l, hl, h⟩ := (Option.any_eq_true _ _).1 hany
    rw [Bool.and_eq_true, sameTriple_iff] at h
    exact ⟨l, hl, h⟩

theorem canonicalLower_eq_some (h : q.canonicalLower = some l') :
    ∃ l, q.interval.lower = some l ∧ dropZero (carryLower l) = some l' := by
  obtain ⟨m, hm, hdrop⟩ := Option.bind_eq_some_iff.1 h
  obtain ⟨l, hl, rfl⟩ := Option.map_eq_some_iff.1 hm
  exact ⟨l, hl, hdrop⟩

theorem canonical_upper_eq_some (h : q.interval.canonical.upper = some u') :
    ∃ u w, q.interval.upper = some u ∧ carryUpper u = some w ∧
      belowPrereleases q.canonicalLower w = u' := by
  rw [canonical_upper] at h
  obtain ⟨w, hw, rfl⟩ := Option.map_eq_some_iff.1 h
  obtain ⟨u, hu, hcarry⟩ := Option.bind_eq_some_iff.1 hw
  exact ⟨u, w, hu, hcarry, rfl⟩

/-- A lower bound that is a prerelease is canonical. -/
theorem canonicalLower_of_hasPre (hl : q.interval.lower = some l)
    (hpre : l.version.tag.hasPre = true) : q.canonicalLower = some l := by
  have hcarry : carryLower l = l := by
    rcases carryLower_cases l with ⟨next, -, hlast, -⟩ | h
    · rw [not_hasPre_of_isLastPatch hlast] at hpre
      cases hpre
    · exact h
  rw [Query.canonicalLower, hl, Option.map_some, Option.bind_some, hcarry]
  rcases dropZero_cases l with ⟨-, -, hnot, -⟩ | h
  · rw [hnot] at hpre
    cases hpre
  · exact h

/-- An upper bound that is a prerelease is canonical. -/
theorem canonical_upper_of_hasPre (hu : q.interval.upper = some u)
    (hpre : u.version.tag.hasPre = true) : q.interval.canonical.upper = some u := by
  have hcarry : carryUpper u = some u := by
    rcases carryUpper_cases u with ⟨-, hlast, -⟩ | h
    · rw [not_hasPre_of_isLastPatch hlast] at hpre
      cases hpre
    · exact h
  rw [canonical_upper, hu, Option.bind_some, hcarry, Option.map_some]
  rcases belowPrereleases_cases q.canonicalLower u with ⟨-, hnot, -⟩ | ⟨h, -⟩
  · rw [hnot] at hpre
    cases hpre
  · rw [h]

/-! ## An accepted version is between the canonical bounds -/

theorem canonicalLower_le (hq : q.Accepts v) (hkeep : ¬q.Loses v)
    (hl' : q.canonicalLower = some l') : l'.lowerCut ≤ Cut.below v.precedence := by
  obtain ⟨l, hl, hdrop⟩ := canonicalLower_eq_some hl'
  have hlower := lower_le_of_accepts hq hl
  rcases carryLower_cases l with ⟨next, hinc, hlast, hnext, hcarry⟩ | hcarry
  · -- the bound is exclusive, so `v` is above the last patch
    rw [hcarry] at hdrop
    have habove : l.version.precedence < v.precedence := by
      rcases hlower with h | ⟨c, -, -, -, htrue, -⟩
      · rw [Bound.lowerCut, hinc] at h
        exact Cut.above_le_below.1 h
      · rw [hinc] at htrue
        cases htrue
    have htriple : next.triple ≤ v.triple :=
      (triple_lt_iff_afterLastPatch hlast hnext v).1
        ((precedence_lt_iff_of_release (not_hasPre_of_isLastPatch hlast)).1 habove)
    have hle : next.precedence ≤ v.precedence := by
      rcases htriple.lt_or_eq with hlt | heq
      · exact precedence_le.2 (.inl hlt)
      · cases hpre : v.tag.hasPre with
        | false =>
          refine precedence_le.2 (.inr ⟨heq, ?_⟩)
          rw [rank_eq_top.2 hpre]
          exact le_top
        | true =>
          refine absurd ⟨hpre, .inl ⟨?_, ?_⟩⟩ hkeep
          · obtain ⟨c, hc, hversion, hop⟩ := (interval_from q).lower l hl
            refine ⟨c, hc, ?_, by rw [hversion, hlast], ?_⟩
            · rcases hop with ⟨-, htrue⟩ | ⟨hop, -⟩
              · rw [hinc] at htrue
                cases htrue
              · exact hop
            · rw [hversion, hnext]
              exact sameTriple_iff.2 heq.symm
          · intro c hc hop
            rw [Bool.eq_false_iff]
            intro hname
            obtain ⟨m, hm, -, hcl⟩ := lower_of_isLower hc hop
            obtain rfl : l = m := Option.some.inj (hl.symm.trans hm)
            have hct : c.version.triple = v.triple := (isPrereleaseOf_iff_triple.1 hname).2.2
            have hlt : l.version.triple < v.triple :=
              (triple_lt_iff_afterLastPatch hlast hnext v).2 htriple
            exact absurd (triple_le_of_precedence_le hcl) (hct ▸ hlt.not_ge)
    rcases dropZero_cases { version := next, inclusive := true } with ⟨-, -, -, h⟩ | h <;>
      rw [h] at hdrop <;> cases hdrop
    exact Cut.below_le_below.2 hle
  · rw [hcarry] at hdrop
    rcases dropZero_cases l with ⟨-, -, -, h⟩ | h <;> rw [h] at hdrop <;> cases hdrop
    rcases hlower with h' | ⟨c, hc, hzero, hversion, hinc, -⟩
    · exact h'
    · -- a `>=0.0.0` is dropped
      unfold dropZero at h
      rw [← hversion, hinc, hzero.2.1, hzero.2.2] at h
      cases h

/-- A prerelease that is accepted is one of an upper bound or of the lower bound, and then `v`
is above it by the order alone. -/
theorem lower_of_named (hq : q.Accepts v) (hkeep : ¬q.Loses v) (hpre : v.tag.hasPre = true)
    (hupper : ∀ c ∈ q.comparators, c.IsUpper → isPrereleaseOf v c = false) :
    ∃ l, q.canonicalLower = some l ∧ l.version.tag.hasPre = true ∧
      l.version.triple = v.triple := by
  obtain ⟨c, hc, hname⟩ := hq.named hpre
  obtain ⟨hset, hcpre, hct⟩ := isPrereleaseOf_iff_triple.1 hname
  have hlower : c.IsLower := by
    rcases isLower_or_isUpper hset with h | h
    · exact h
    · rw [hupper c hc h] at hname
      cases hname
  obtain ⟨l, hl, -, hcl⟩ := lower_of_isLower hc hlower
  rcases lower_le_of_accepts hq hl with hle | ⟨d, hd, hzero, hversion, -, hlt⟩
  · have hlv := precedence_le_of_lowerCut_le hle
    have htriple : l.version.triple = v.triple :=
      le_antisymm (triple_le_of_precedence_le hlv) (hct ▸ triple_le_of_precedence_le hcl)
    have hlpre := hasPre_of_precedence_le hlv htriple hpre
    exact ⟨l, canonicalLower_of_hasPre hl hlpre, hlpre, htriple⟩
  · refine absurd ⟨hpre, .inr ⟨?_, ⟨d, hd, hzero⟩, hupper⟩⟩ hkeep
    have hle := triple_le_of_precedence_le hlt.le
    rw [isZero_iff.1 hzero.2.1] at hle
    exact isZero_iff.2 (le_antisymm hle (zero_triple_le v))

/-- A carried upper bound lies above everything the bound lets through. -/
theorem le_carryUpper {w : Bound} (hle : Cut.above v.precedence ≤ u.upperCut)
    (hcarry : carryUpper u = some w) :
    Cut.above v.precedence ≤ w.upperCut ∧
      (w = u ∨ v.triple < w.version.triple ∧ w.version.tag.hasPre = false) := by
  rcases carryUpper_cases u with ⟨-, hlast, h⟩ | h
  · rw [h] at hcarry
    obtain ⟨next, hnext, rfl⟩ := Option.map_eq_some_iff.1 hcarry
    have hle' : v.triple ≤ u.version.triple :=
      triple_le_of_precedence_le (precedence_le_of_le_upperCut hle)
    have hlt : v.triple < next.triple := by
      rw [← not_le, ← triple_lt_iff_afterLastPatch hlast hnext, not_lt]
      exact hle'
    refine ⟨?_, .inr ⟨hlt, ?_⟩⟩
    · exact Cut.above_le_below.2 (precedence_lt.2 (.inl hlt))
    · rw [afterLastPatch_tag hnext]
      rfl
  · rw [h] at hcarry
    cases hcarry
    exact ⟨hle, .inl rfl⟩

theorem le_canonical_upper (hq : q.Accepts v) (hkeep : ¬q.Loses v)
    (hu' : q.interval.canonical.upper = some u') : Cut.above v.precedence ≤ u'.upperCut := by
  obtain ⟨u, w, hu, hcarry, rfl⟩ := canonical_upper_eq_some hu'
  have hle := le_upper_of_accepts hq hu
  obtain ⟨hlew, hw⟩ := le_carryUpper hle hcarry
  rcases belowPrereleases_cases q.canonicalLower w with ⟨hinc, hpre, hno, h⟩ | ⟨h, -⟩
  · rw [h]
    rw [Bound.upperCut, hinc] at hlew
    refine le_of_eq_of_le rfl ?_
    simp only [Bound.upperCut, hinc]
    refine Cut.above_le_below.2 (precedence_lt.2 (.inl ?_))
    rcases precedence_lt.1 (Cut.above_le_below.1 hlew) with hlt | ⟨heq, hrank⟩
    · exact hlt
    · -- `v` is a prerelease of the bound, and something must name it
      exfalso
      have hvpre : v.tag.hasPre = true := by
        by_contra hnot
        rw [rank_eq_top.2 (by simpa using hnot)] at hrank
        exact not_top_lt hrank
      obtain rfl : w = u := hw.resolve_right fun hlt => hlt.1.ne heq
      obtain ⟨l, hl, hlpre, hlt⟩ := lower_of_named hq hkeep hvpre fun c hc hop => by
        rw [Bool.eq_false_iff]
        intro hname
        obtain ⟨-, hcpre, hct⟩ := isPrereleaseOf_iff_triple.1 hname
        obtain ⟨m, hm, -, hmc⟩ := upper_of_isUpper hc hop
        obtain rfl : w = m := Option.some.inj (hu.symm.trans hm)
        have := hasPre_of_precedence_le hmc (by rw [← heq, hct]) hcpre
        rw [hpre] at this
        cases this
      exact hno l hl hlpre (hlt.trans heq)
  · rw [h]
    exact hlew

/-- A version that a query accepts and does not lose is between its canonical bounds. -/
theorem mem_canonical (hq : q.Accepts v) (hkeep : ¬q.Loses v) :
    v.precedence ∈ q.interval.canonical.span := by
  refine ⟨?_, ?_⟩
  · rcases hl : q.interval.canonical.lower with _ | l
    · simp [Interval.span, hl]
    · simp only [Interval.span, hl]
      exact WithBot.coe_le_coe.2 (canonicalLower_le hq hkeep hl)
  · rcases hu : q.interval.canonical.upper with _ | u
    · simp [Interval.span, hu]
    · simp only [Interval.span, hu]
      exact WithTop.coe_le_coe.2 (le_canonical_upper hq hkeep hu)

/-- The rank of a prerelease `0` is the lowest. -/
theorem rank_of_pre_zero {t : Tag} (h : t.pre = [b '0']) : t.rank = Tag.ZERO_PRE.rank := by
  unfold Tag.rank Tag.hasPre
  rw [h]
  rfl

/-- The prerelease bounds of the canonical form ask for a comparator that names `v`. -/
theorem named_of_prereleasesCanSatisfy {q' : Query} (hq : q.Accepts v) (hkeep : ¬q.Loses v)
    (hpre : v.tag.hasPre = true) (hcan : q.interval.canonical.prereleasesCanSatisfy q' = true) :
    ∃ c ∈ q'.comparators, isPrereleaseOf v c = true := by
  have hbound : ∃ x,
    x ∈ (q.interval.canonical.lower.filter fun it => it.version.tag.hasPre).toList ++
      (q.interval.canonical.upper.filter fun it =>
        it.version.tag.hasPre && (it.inclusive || it.version.tag.pre != [b '0'])).toList ∧
      x.version.triple = v.triple := by
    by_cases hupper : ∀ c ∈ q.comparators, c.IsUpper → isPrereleaseOf v c = false
    · obtain ⟨l, hl, hlpre, hlt⟩ := lower_of_named hq hkeep hpre hupper
      refine ⟨l, mem_append_left _ ?_, hlt⟩
      rw [Option.mem_toList, Option.filter_eq_some_iff]
      exact ⟨hl, hlpre⟩
    · simp only [not_forall] at hupper
      obtain ⟨c, hc, hop, hname⟩ := hupper
      obtain ⟨-, hcpre, hct⟩ := isPrereleaseOf_iff_triple.1 (by simpa using hname)
      obtain ⟨u, hu, -, huc⟩ := upper_of_isUpper hc hop
      have hle := le_upper_of_accepts hq hu
      have hvu := precedence_le_of_le_upperCut hle
      have htriple : u.version.triple = v.triple :=
        le_antisymm (hct ▸ triple_le_of_precedence_le huc) (triple_le_of_precedence_le hvu)
      have hupre := hasPre_of_precedence_le huc (htriple.trans hct.symm) hcpre
      refine ⟨u, mem_append_right _ ?_, htriple⟩
      rw [Option.mem_toList, Option.filter_eq_some_iff]
      refine ⟨canonical_upper_of_hasPre hu hupre, ?_⟩
      rw [hupre, Bool.true_and, Bool.or_eq_true, bne_iff_ne]
      by_contra hnot
      rw [not_or, Bool.not_eq_true, not_not] at hnot
      rw [Bound.upperCut, hnot.1] at hle
      rcases precedence_lt.1 (Cut.above_le_below.1 hle) with hlt | ⟨-, hrank⟩
      · exact hlt.ne htriple.symm
      · rw [rank_of_pre_zero hnot.2] at hrank
        exact hrank.not_ge (zero_le_rank v.tag)
  obtain ⟨x, hx, hxt⟩ := hbound
  have hany := all_eq_true.1 hcan x hx
  obtain ⟨r, hr, hname⟩ := any_eq_true.1 hany
  rw [Bool.or_eq_true, isPrereleaseOf_iff_triple, isPrereleaseOf_iff_triple, hxt] at hname
  rw [exists_mem_comparators]
  exact ⟨r, hr, hname.imp isPrereleaseOf_iff_triple.2 isPrereleaseOf_iff_triple.2⟩

/-! ## A version between the canonical bounds is accepted -/

section

variable (hmem : v.precedence ∈ q.interval.canonical.span)
include hmem

/-- From the canonical lower bound on, the lower comparators let `v` through. -/
theorem lower_of_canonical
    (hnamed : v.tag.hasPre = true → ∃ c ∈ q.comparators, isPrereleaseOf v c = true)
    (hgain : ¬q.Gains v) (hc : c ∈ q.comparators) (hop : c.IsLower) :
    c.span.lower ≤ (Cut.below v.precedence : WithBot (Cut Precedence)) ∨
      c.IsAtLeastZero ∧ v.precedence < c.version.precedence := by
  obtain ⟨l, hl, hcl, hkey⟩ := lower_of_isLower hc hop
  have hspan : ∀ x, q.canonicalLower = some x → x.lowerCut ≤ Cut.below v.precedence := by
    intro x hx
    have h := hmem.1
    have hx' : q.interval.canonical.lower = some x := hx
    simp only [Interval.span, hx'] at h
    exact WithBot.coe_le_coe.1 h
  have hcanon : q.canonicalLower = dropZero (carryLower l) := by
    rw [Query.canonicalLower, hl, Option.map_some, Option.bind_some]
  rcases carryLower_cases l with ⟨next, hinc, hlast, hnext, hcarry⟩ | hcarry
  · refine .inl (hcl.trans (WithBot.coe_le_coe.2 ?_))
    -- the version after a last patch is not `0.0.0`
    have htriple : l.version.triple < v.triple := by
      rw [triple_lt_iff_afterLastPatch hlast hnext]
      rcases dropZero_cases { version := next, inclusive := true } with ⟨-, hzero, -, -⟩ | h
      · have hlt : l.version.triple < next.triple :=
          (triple_lt_iff_afterLastPatch hlast hnext next).2 le_rfl
        rw [isZero_iff.1 hzero] at hlt
        exact absurd (zero_triple_le l.version) hlt.not_ge
      · have hle := hspan _ (by rw [hcanon, hcarry, h])
        exact triple_le_of_precedence_le (Cut.below_le_below.1 hle)
    rw [Bound.lowerCut, hinc]
    exact Cut.above_le_below.2 (precedence_lt.2 (.inl htriple))
  · rcases dropZero_cases l with ⟨hinc, hzero, hrelease, -⟩ | h
    · rcases le_or_gt l.version.precedence v.precedence with hle | hlt
      · refine .inl (hcl.trans (WithBot.coe_le_coe.2 ?_))
        rw [Bound.lowerCut, hinc]
        exact Cut.below_le_below.2 hle
      · -- a prerelease of `0.0.0`
        have hl0 : l.version.triple = ({} : Version).triple := isZero_iff.1 hzero
        have hv0 : v.triple = ({} : Version).triple :=
          le_antisymm (hl0 ▸ triple_le_of_precedence_le hlt.le) (zero_triple_le v)
        have hc0 : c.version.triple = ({} : Version).triple :=
          le_antisymm (hl0 ▸ triple_le_of_precedence_le hkey) (zero_triple_le c.version)
        have hvpre : v.tag.hasPre = true := by
          by_contra hnot
          have hle := (precedence_le_iff_of_release (u := v) (v := l.version)
            (by simpa using hnot)).2 (hl0.trans hv0.symm).le
          exact hle.not_gt hlt
        have hnoExact : ∀ d ∈ q.comparators, d.op = .eql → d.version.isZero = true →
            d.version.tag.hasPre = true := fun d hd hdop hdzero => by
          by_contra hnot
          exact hgain ⟨hvpre, .inr ⟨isZero_iff.2 hv0,
            .inr ⟨⟨d, hd, hdop, hdzero, by simpa using hnot⟩, hnamed hvpre⟩⟩⟩
        have hatLeast : ∃ d ∈ q.comparators, d.IsAtLeastZero := by
          obtain ⟨d, hd, hversion, hdop⟩ := (interval_from q).lower l hl
          rcases hdop with ⟨heql | hgte, -⟩ | ⟨-, hexc⟩
          · have h := hnoExact d hd heql (by rw [hversion, hzero])
            rw [hversion, hrelease] at h
            cases h
          · exact ⟨d, hd, hgte, by rw [hversion, hzero], by rw [hversion, hrelease]⟩
          · rw [hinc] at hexc
            cases hexc
        have hcrelease : c.version.tag.hasPre = false := by
          by_contra hnot
          have hset : c.op ≠ .unset := by
            rcases hop with hop | hop | hop <;> rw [hop] <;> simp
          refine hgain ⟨hvpre, .inr ⟨isZero_iff.2 hv0, .inl ⟨hatLeast, c, hc, hop, ?_⟩⟩⟩
          exact isPrereleaseOf_iff_triple.2 ⟨hset, by simpa using hnot, hc0.trans hv0.symm⟩
        have hckey : c.version.precedence = l.version.precedence := by
          unfold Version.precedence
          rw [hc0, hl0, rank_eq_top.2 hcrelease, rank_eq_top.2 hrelease]
        rcases hop with heql | hgt | hgte
        · have h := hnoExact c hc heql (isZero_iff.2 hc0)
          rw [hcrelease] at h
          cases h
        · have h := WithBot.coe_le_coe.1 (by simpa [Comparator.span, hgt] using hcl)
          rw [Bound.lowerCut, hinc] at h
          exact absurd (Cut.above_le_below.1 h) (by rw [hckey]; exact lt_irrefl _)
        · exact .inr ⟨⟨hgte, isZero_iff.2 hc0, hcrelease⟩, by rw [hckey]; exact hlt⟩
    · exact .inl (hcl.trans (WithBot.coe_le_coe.2 (hspan l (by rw [hcanon, hcarry, h]))))

/-- Up to the canonical upper bound, the upper comparators let `v` through. -/
theorem upper_of_canonical (hgain : ¬q.Gains v) (hc : c ∈ q.comparators) (hop : c.IsUpper) :
    (Cut.above v.precedence : WithTop (Cut Precedence)) ≤ c.span.upper := by
  obtain ⟨u, hu, huc, hkey⟩ := upper_of_isUpper hc hop
  refine le_trans (WithTop.coe_le_coe.2 ?_) huc
  have hspan : ∀ x, q.interval.canonical.upper = some x → Cut.above v.precedence ≤ x.upperCut := by
    intro x hx
    have h := hmem.2
    simp only [Interval.span, hx] at h
    exact WithTop.coe_le_coe.1 h
  have hcanon : q.interval.canonical.upper =
      (carryUpper u).map (belowPrereleases q.canonicalLower) := by
    rw [canonical_upper, hu, Option.bind_some]
  rcases carryUpper_cases u with ⟨hinc, hlast, hcarry⟩ | hcarry
  · have hrelease := not_hasPre_of_isLastPatch hlast
    suffices htriple : v.triple ≤ u.version.triple by
      rw [Bound.upperCut, hinc]
      exact Cut.above_le_above.2 ((precedence_le_iff_of_release hrelease).2 htriple)
    rcases hnext : afterLastPatch u.version with _ | next
    · exact triple_le_of_afterLastPatch_none hlast hnext v
    · rw [← not_lt, triple_lt_iff_afterLastPatch hlast hnext, not_le]
      rw [hcarry, hnext, Option.map_some, Option.map_some] at hcanon
      have hle := hspan _ hcanon
      rcases belowPrereleases_cases q.canonicalLower { version := next, inclusive := false } with
        ⟨-, -, -, h⟩ | ⟨h, hkept⟩
      · rw [h] at hle
        rcases precedence_lt.1 (Cut.above_le_below.1 hle) with hlt | ⟨-, hrank⟩
        · exact hlt
        · exact absurd (zero_le_rank v.tag) hrank.not_ge
      · rw [h] at hle
        rcases precedence_lt.1 (Cut.above_le_below.1 hle) with hlt | ⟨heq, hrank⟩
        · exact hlt
        · exfalso
          have hvpre : v.tag.hasPre = true := by
            by_contra hnot
            rw [rank_eq_top.2 (by simpa using hnot)] at hrank
            exact not_top_lt hrank
          obtain ⟨x, hx, hxpre, hxt⟩ := hkept rfl (by rw [afterLastPatch_tag hnext]; rfl)
          refine hgain ⟨hvpre, .inl ⟨?_, ?_⟩⟩
          · obtain ⟨d, hd, hversion, hdop⟩ := (interval_from q).upper u hu
            refine ⟨d, hd, ?_, by rw [hversion, hlast], ?_⟩
            · rcases hdop with ⟨heql | hlte, -⟩ | ⟨-, hexc⟩
              · exact .inr heql
              · exact .inl hlte
              · rw [hinc] at hexc
                cases hexc
            · rw [hversion, hnext]
              exact sameTriple_iff.2 heq
          · obtain ⟨l, hl, hdrop⟩ := canonicalLower_eq_some hx
            obtain rfl : x = l := by
              rcases dropZero_cases (carryLower l) with ⟨-, -, -, h'⟩ | h' <;>
                rw [h'] at hdrop <;> cases hdrop
              rcases carryLower_cases l with ⟨after, -, -, hafter, h''⟩ | h''
              · rw [h'', afterLastPatch_tag hafter] at hxpre
                cases hxpre
              · exact h''
            obtain ⟨d, hd, hversion, hdop⟩ := (interval_from q).lower x hl
            refine ⟨d, hd, ?_, isPrereleaseOf_iff_triple.2 ⟨?_, ?_, ?_⟩⟩
            · rcases hdop with ⟨h | h, -⟩ | ⟨h, -⟩
              · exact .inl h
              · exact .inr (.inr h)
              · exact .inr (.inl h)
            · rcases hdop with ⟨h | h, -⟩ | ⟨h, -⟩ <;> rw [h] <;> simp
            · rw [hversion, hxpre]
            · rw [hversion]
              exact hxt.trans heq.symm
  · rw [hcarry, Option.map_some] at hcanon
    have hle := hspan _ hcanon
    rcases belowPrereleases_cases q.canonicalLower u with ⟨hinc, hrelease, -, h⟩ | ⟨h, -⟩
    · rw [h] at hle
      simp only [Bound.upperCut, hinc] at hle ⊢
      rcases precedence_lt.1 (Cut.above_le_below.1 hle) with hlt | ⟨-, hrank⟩
      · exact Cut.above_le_below.2 (precedence_lt.2 (.inl hlt))
      · exact absurd (zero_le_rank v.tag) hrank.not_ge
    · rwa [h] at hle

/-- A version between the canonical bounds of a query that names it is accepted, if it is not
gained. -/
theorem accepts_of_canonical
    (hnamed : v.tag.hasPre = true → ∃ c ∈ q.comparators, isPrereleaseOf v c = true)
    (hgain : ¬q.Gains v) : q.Accepts v := by
  refine ⟨fun c hc => ?_, hnamed⟩
  have hlower := fun hop => lower_of_canonical hmem hnamed hgain hc hop
  have hupper := fun hop => upper_of_canonical hmem hgain hc hop
  cases hop : c.op with
  | unset => exact lets_of_unset hop v
  | eql =>
    rcases hlower (.inl hop) with h | ⟨hzero, -⟩
    · exact .inl ⟨h, hupper (.inl hop)⟩
    · rw [hzero.1] at hop
      cases hop
  | gt => exact (hlower (.inr (.inl hop))).imp (fun h => ⟨h, by simp [Comparator.span, hop]⟩) id
  | gte => exact (hlower (.inr (.inr hop))).imp (fun h => ⟨h, by simp [Comparator.span, hop]⟩) id
  | lt => exact .inl ⟨by simp [Comparator.span, hop], hupper (.inr (.inl hop))⟩
  | lte => exact .inl ⟨by simp [Comparator.span, hop], hupper (.inr (.inr hop))⟩

end

end Canonical

/-! ## Soundness of inclusion -/

/-- The test of the search: may `q'` be taken for `q`? -/
def Query.mayTake (q q' : Query) : Bool :=
  q.interval.canonical.isWithin q'.interval.canonical &&
    q.interval.canonical.prereleasesCanSatisfy q'

/-- All alternatives of `h` that the search may take for `q` gain `v`. -/
def Group.OnlyGains (h : Group) (q : Query) (v : Version) : Prop :=
  (∃ q' ∈ h.alternatives, q.mayTake q' = true) ∧
    ∀ q' ∈ h.alternatives, q.mayTake q' = true → q'.Gains v

/-- Where `g` accepts `v`, an alternative does that keeps `v` in its canonical form, and some other
than one that gains `v` may be taken for it. -/
def Group.CanonicalFor (g h : Group) (v : Version) : Prop :=
  g.satisfies v = true →
    ∃ q ∈ g.alternatives, q.group.satisfies v = true ∧ ¬q.Loses v ∧ ¬h.OnlyGains q v

instance (g h : Group) (v : Version) : Decidable (g.CanonicalFor h v) := by
  unfold Group.CanonicalFor Group.OnlyGains
  infer_instance

theorem isSubsetOf_spec {g h : Group} (hsub : g.isSubsetOf h = true) {q : Query}
    (hq : q ∈ g.alternatives) :
    q.interval.canonical.isNonEmpty = false ∨ ∃ q' ∈ h.alternatives, q.mayTake q' = true := by
  have hall := all_eq_true.1 hsub q hq
  rwa [Bool.or_eq_true, Bool.not_eq_true', any_eq_true] at hall

theorem query_group_satisfies_iff {q : Query} (hq : q.Anchored) {v : Version} :
    q.group.satisfies v = true ↔ q.Accepts v := by
  have halone : q.group.alternatives = [q] := rfl
  have hanchored : q.group.Anchored := fun q' hq' => by
    rw [halone, mem_singleton] at hq'
    rwa [hq']
  rw [group_satisfies_iff hanchored, halone]
  simp

-- a bound below `0.0.0` is lost with `>=0.0.0`
example :
    (parse (text ">=0.0.0-alpha >=0.0.0")).isSubsetOf (parse (text "*")) = true ∧
      (parse (text ">=0.0.0-alpha >=0.0.0")).satisfies { tag := { pre := text "b" } } = true ∧
      (parse (text "*")).satisfies { tag := { pre := text "b" } } = false := by
  decide +kernel

-- no version is both, but the canonical form of the second group has prereleases in it
example :
    (parse (text ">=1.6.0-alpha <1.6.0")).isSubsetOf
        (parse (text ">=1.6.0-alpha <=1.5.18446744073709551615")) = true ∧
      (parse (text ">=1.6.0-alpha <1.6.0")).satisfies
        { major := 1, minor := 6, tag := { pre := text "beta" } } = true ∧
      (parse (text ">=1.6.0-alpha <=1.5.18446744073709551615")).satisfies
        { major := 1, minor := 6, tag := { pre := text "beta" } } = false := by
  decide +kernel

end Soup.Semver
