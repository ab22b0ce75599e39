import Soup.Semver.Intersects
import Soup.Semver.Precedence
import Soup.Lib.Span

/-!
# Bounds as spans

An interval of `intersects.rs` is a span of the precedence order : `narrow` intersects with the
span of a comparator, `is_within` is inclusion of spans, and `is_non_empty` says that the ends do
not cross. A version satisfies a comparator when its precedence lies in the comparator's span,
with one exception : `>=0.0.0` lets through the prereleases of `0.0.0` below it.
-/

namespace Soup.Semver

open Soup.Lib List Semver.Interval

/-- The comparators of a query, whether set or not. -/
def Query.comparators (q : Query) : List Comparator := q.ranges.flatMap fun r => [r.left, r.right]

/-- The bounds of `q`. -/
def Query.interval (q : Query) : Interval := ({} : Interval).andQuery q

def Bound.lowerCut (x : Bound) : Cut Precedence :=
  if x.inclusive then .below x.version.precedence else .above x.version.precedence

def Bound.upperCut (x : Bound) : Cut Precedence :=
  if x.inclusive then .above x.version.precedence else .below x.version.precedence

/-- What lies between the bounds. -/
def Interval.span (i : Interval) : Span Precedence where
  lower := match i.lower with
    | none => ⊥
    | some l => l.lowerCut
  upper := match i.upper with
    | none => ⊤
    | some u => u.upperCut

/-- What the order alone lets through. -/
def Comparator.span (c : Comparator) : Span Precedence :=
  let key := c.version.precedence
  match c.op with
  | .unset => .univ
  | .eql => ⟨Cut.below key, Cut.above key⟩
  | .gt => ⟨Cut.above key, ⊤⟩
  | .gte => ⟨Cut.below key, ⊤⟩
  | .lt => ⟨⊥, Cut.below key⟩
  | .lte => ⟨⊥, Cut.above key⟩

/-- `>=0.0.0`, which lets through the prereleases of `0.0.0` below it. -/
def Comparator.IsAtLeastZero (c : Comparator) : Prop :=
  c.op = .gte ∧ c.version.isZero = true ∧ c.version.tag.hasPre = false

instance (c : Comparator) : Decidable c.IsAtLeastZero := by
  unfold Comparator.IsAtLeastZero
  infer_instance

variable {c : Comparator}

theorem satisfies_iff {v : Version} :
    c.satisfies v = true ↔
      (c.op ≠ .unset ∧ v.precedence ∈ c.span) ∨
        (c.IsAtLeastZero ∧ v.precedence < c.version.precedence) := by
  have hc := orderWithoutBuild_compares v c.version
  unfold Comparator.satisfies Comparator.span Comparator.IsAtLeastZero
  rcases horder : v.orderWithoutBuild c.version with _ | _ | _ <;> rw [horder] at hc
  · have hlt : v.precedence < c.version.precedence := hc
    cases hop : c.op <;>
      simp [Span.mem_def, hlt, hlt.le, hlt.not_ge, hlt.not_gt]
  · have heq : v.precedence = c.version.precedence := hc
    cases hop : c.op <;> simp [Span.mem_def, heq]
  · have hgt : c.version.precedence < v.precedence := hc
    cases hop : c.op <;>
      simp [Span.mem_def, hgt, hgt.le, hgt.not_ge, hgt.not_gt]

/-! ## Narrowing -/

variable {x y : Bound}

theorem lowerCut_lt_of_lt (h : x.version.precedence < y.version.precedence) :
    x.lowerCut < y.lowerCut := by
  unfold Bound.lowerCut
  split <;> split <;> simp [h, h.le]

theorem upperCut_lt_of_lt (h : x.version.precedence < y.version.precedence) :
    x.upperCut < y.upperCut := by
  unfold Bound.upperCut
  split <;> split <;> simp [h, h.le]

theorem lowerCut_le_of_eq (h : x.version.precedence = y.version.precedence) :
    x.lowerCut ≤ y.lowerCut ↔ x.inclusive = true ∨ y.inclusive = false := by
  unfold Bound.lowerCut
  cases x.inclusive <;> cases y.inclusive <;> simp [h]

theorem upperCut_le_of_eq (h : x.version.precedence = y.version.precedence) :
    x.upperCut ≤ y.upperCut ↔ x.inclusive = false ∨ y.inclusive = true := by
  unfold Bound.upperCut
  cases x.inclusive <;> cases y.inclusive <;> simp [h]

variable {i : Interval} {q : Query}

namespace Interval

variable (i : Interval)

theorem span_raise (x : Bound) :
    (i.raise x).span = i.span.inter ⟨x.lowerCut, ⊤⟩ := by
  rcases hl : i.lower with _ | cur
  · simp [raise, span, hl, Span.inter]
  have hspan : ∀ y : Bound, ({ i with lower := some y } : Interval).span =
      ⟨y.lowerCut, i.span.upper⟩ := fun y => rfl
  have hi : i.span = ⟨cur.lowerCut, i.span.upper⟩ := by simp [span, hl]
  have hc := orderWithoutBuild_compares x.version cur.version
  have hkeep : x.lowerCut ≤ cur.lowerCut → i.span = i.span.inter ⟨x.lowerCut, ⊤⟩ := fun hle => by
    rw [hi]
    simp [Span.inter, sup_of_le_left (WithBot.coe_le_coe.2 hle)]
  have hreplace : cur.lowerCut ≤ x.lowerCut →
      ({ i with lower := some x } : Interval).span = i.span.inter ⟨x.lowerCut, ⊤⟩ := fun hle => by
    rw [hspan, hi]
    simp [Span.inter, sup_of_le_right (WithBot.coe_le_coe.2 hle)]
  unfold raise
  rcases horder : x.version.orderWithoutBuild cur.version with _ | _ | _ <;> rw [horder] at hc
  · simpa [hl, horder] using hkeep (lowerCut_lt_of_lt hc).le
  · cases hx : x.inclusive with
    | true => simpa [hl, horder, hx] using hkeep ((lowerCut_le_of_eq hc).2 (.inl hx))
    | false => simpa [hl, horder, hx] using hreplace ((lowerCut_le_of_eq hc.symm).2 (.inr hx))
  · simpa [hl, horder] using hreplace (lowerCut_lt_of_lt hc).le

theorem span_cap (x : Bound) : (i.cap x).span = i.span.inter ⟨⊥, x.upperCut⟩ := by
  rcases hu : i.upper with _ | cur
  · simp [cap, span, hu, Span.inter]
  have hspan : ∀ y : Bound, ({ i with upper := some y } : Interval).span =
      ⟨i.span.lower, y.upperCut⟩ := fun y => rfl
  have hi : i.span = ⟨i.span.lower, cur.upperCut⟩ := by simp [span, hu]
  have hc := orderWithoutBuild_compares x.version cur.version
  have hkeep : cur.upperCut ≤ x.upperCut → i.span = i.span.inter ⟨⊥, x.upperCut⟩ := fun hle => by
    rw [hi]
    simp [Span.inter, inf_of_le_left (WithTop.coe_le_coe.2 hle)]
  have hreplace : x.upperCut ≤ cur.upperCut →
      ({ i with upper := some x } : Interval).span = i.span.inter ⟨⊥, x.upperCut⟩ := fun hle => by
    rw [hspan, hi]
    simp [Span.inter, inf_of_le_right (WithTop.coe_le_coe.2 hle)]
  unfold cap
  rcases horder : x.version.orderWithoutBuild cur.version with _ | _ | _ <;> rw [horder] at hc
  · simpa [hu, horder] using hreplace (upperCut_lt_of_lt hc).le
  · cases hx : x.inclusive with
    | true => simpa [hu, horder, hx] using hkeep ((upperCut_le_of_eq hc.symm).2 (.inr hx))
    | false => simpa [hu, horder, hx] using hreplace ((upperCut_le_of_eq hc).2 (.inl hx))
  · simpa [hu, horder] using hkeep (upperCut_lt_of_lt hc).le

theorem span_narrow (c : Comparator) : (i.narrow c).span = i.span.inter c.span := by
  unfold narrow Comparator.span
  cases c.op with
  | unset => simp
  | eql =>
    rw [span_cap, span_raise]
    simp [Span.inter, Bound.lowerCut, Bound.upperCut]
  | gt => exact span_raise _ _
  | gte => exact span_raise _ _
  | lt => exact span_cap _ _
  | lte => exact span_cap _ _

/-- `and_query` narrows by the comparators of the query, one after the other. -/
theorem andQuery_eq (q : Query) : i.andQuery q = q.comparators.foldl narrow i := by
  unfold andQuery Query.comparators
  induction q.ranges generalizing i with
  | nil => rfl
  | cons r rs ih => simp [ih]

theorem mem_foldl_narrow {x : Precedence} : ∀ (cs : List Comparator) (i : Interval),
    x ∈ (cs.foldl narrow i).span ↔ x ∈ i.span ∧ ∀ c ∈ cs, x ∈ c.span
  | [], i => by simp
  | c :: cs, i => by
    rw [foldl_cons, mem_foldl_narrow cs, span_narrow, Span.mem_inter, forall_mem_cons]
    tauto

theorem foldl_narrow_within : ∀ (cs : List Comparator) (i : Interval),
    (cs.foldl narrow i).span.Within i.span ∧ ∀ c ∈ cs, (cs.foldl narrow i).span.Within c.span
  | [], i => ⟨Span.Within.refl _, by simp⟩
  | c :: cs, i => by
    have ih := foldl_narrow_within cs (i.narrow c)
    rw [span_narrow] at ih
    rw [foldl_cons, forall_mem_cons]
    exact ⟨ih.1.trans (Span.inter_within_left _ _), ih.1.trans (Span.inter_within_right _ _), ih.2⟩

theorem mem_andQuery {x : Precedence} :
    x ∈ (i.andQuery q).span ↔ x ∈ i.span ∧ ∀ c ∈ q.comparators, x ∈ c.span := by
  rw [andQuery_eq, mem_foldl_narrow]

theorem span_foldl_narrow : ∀ (cs : List Comparator) (i : Interval),
    (cs.foldl narrow i).span = i.span.inter (cs.foldl narrow {}).span
  | [], i => (Span.inter_univ _).symm
  | c :: cs, i => by
    rw [foldl_cons, foldl_cons, span_foldl_narrow cs, span_narrow,
      span_foldl_narrow cs (({} : Interval).narrow c), span_narrow, Span.inter_assoc]
    congr 2
    exact (Span.inter_univ _).symm.trans (Span.inter_comm _ _)

end Interval

theorem mem_interval {x : Precedence} : x ∈ q.interval.span ↔ ∀ c ∈ q.comparators, x ∈ c.span := by
  rw [Query.interval, mem_andQuery]
  exact and_iff_right (Span.mem_univ x)

/-- What lies between the merged bounds of two queries lies between those of each. -/
theorem span_andQuery (q q' : Query) :
    (q.interval.andQuery q').span = q.interval.span.inter q'.interval.span := by
  rw [andQuery_eq, span_foldl_narrow, ← andQuery_eq, Query.interval]
  rfl

theorem interval_within (hc : c ∈ q.comparators) : q.interval.span.Within c.span := by
  rw [Query.interval, andQuery_eq]
  exact (foldl_narrow_within _ _).2 c hc

/-! ## Empty intervals and inclusion -/

/-- The precedence of `0.0.0-0`. -/
def lowest : Precedence := Comparator.nullSet.version.precedence

theorem lowest_le (v : Version) : lowest ≤ v.precedence :=
  precedence_zero_le rfl rfl v

theorem below_lowest_le (x : Bound) : Cut.below lowest ≤ x.lowerCut := by
  unfold Bound.lowerCut
  split <;> simp [lowest_le]

theorem lowerCut_lt_upperCut {l u : Bound} :
    l.lowerCut < u.upperCut ↔
      (match l.version.orderWithoutBuild u.version with
        | .lt => true
        | .eq => l.inclusive && u.inclusive
        | .gt => false) = true := by
  have hc := orderWithoutBuild_compares l.version u.version
  unfold Bound.lowerCut Bound.upperCut
  rcases horder : l.version.orderWithoutBuild u.version with _ | _ | _ <;> rw [horder] at hc
  · have hlt : l.version.precedence < u.version.precedence := hc
    split <;> split <;> simp [hlt, hlt.le]
  · have heq : l.version.precedence = u.version.precedence := hc
    cases l.inclusive <;> cases u.inclusive <;> simp [heq]
  · have hgt : u.version.precedence < l.version.precedence := hc
    split <;> split <;> simp [hgt, hgt.le]

theorem lowerCut_le_lowerCut :
    y.lowerCut ≤ x.lowerCut ↔
      (match x.version.orderWithoutBuild y.version with
        | .gt => true
        | .eq => y.inclusive || !x.inclusive
        | .lt => false) = true := by
  have hc := orderWithoutBuild_compares x.version y.version
  rcases horder : x.version.orderWithoutBuild y.version with _ | _ | _ <;> rw [horder] at hc
  · simpa using lowerCut_lt_of_lt hc
  · simp [lowerCut_le_of_eq hc.symm]
  · simp [(lowerCut_lt_of_lt hc).le]

theorem upperCut_le_upperCut :
    x.upperCut ≤ y.upperCut ↔
      (match x.version.orderWithoutBuild y.version with
        | .lt => true
        | .eq => y.inclusive || !x.inclusive
        | .gt => false) = true := by
  have hc := orderWithoutBuild_compares x.version y.version
  rcases horder : x.version.orderWithoutBuild y.version with _ | _ | _ <;> rw [horder] at hc
  · simp [(upperCut_lt_of_lt hc).le]
  · simp [upperCut_le_of_eq hc, or_comm]
  · simpa using upperCut_lt_of_lt hc

namespace Interval

theorem isNonEmpty_iff : i.isNonEmpty = true ↔ i.span.Open lowest := by
  unfold isNonEmpty Span.Open
  rcases hu : i.upper with _ | u
  · simp [span, hu]
  have hlower : i.span.lower ⊔ Cut.below lowest =
      ((i.lower.getD { version := Comparator.nullSet.version, inclusive := true }).lowerCut :
        WithBot (Cut Precedence)) := by
    rcases hl : i.lower with _ | l
    · simp [span, hl, Bound.lowerCut, lowest]
    · simp [span, hl, below_lowest_le]
  have hupper : i.span.upper = u.upperCut := by simp [span, hu]
  rw [hlower, hupper]
  refine lowerCut_lt_upperCut.symm.trans ⟨?_, fun h => WithBot.coe_lt_coe.1 (h _ rfl)⟩
  intro h w hw
  rw [← WithTop.coe_inj.1 hw]
  exact WithBot.coe_lt_coe.2 h

theorem isWithin_iff {j : Interval} : i.isWithin j = true ↔ i.span.Within j.span := by
  unfold isWithin Span.Within
  rw [Bool.and_eq_true]
  refine and_congr ?_ ?_
  · rcases hj : j.lower with _ | y
    · simp [span, hj]
    rcases hi : i.lower with _ | x
    · simp [span, hi, hj]
    simp only [span, hi, hj, WithBot.coe_le_coe]
    exact lowerCut_le_lowerCut.symm
  · rcases hj : j.upper with _ | y
    · simp [span, hj]
    rcases hi : i.upper with _ | x
    · simp [span, hi, hj]
    simp only [span, hi, hj, WithTop.coe_le_coe]
    exact upperCut_le_upperCut.symm

end Interval

/-! ## Where the bounds come from -/

/-- The bounds of `i` are comparators of `cs`. -/
structure Interval.From (cs : List Comparator) (i : Interval) : Prop where
  lower : ∀ l ∈ i.lower, ∃ c ∈ cs, c.version = l.version ∧
    ((c.op = .eql ∨ c.op = .gte) ∧ l.inclusive = true ∨ c.op = .gt ∧ l.inclusive = false)
  upper : ∀ u ∈ i.upper, ∃ c ∈ cs, c.version = u.version ∧
    ((c.op = .eql ∨ c.op = .lte) ∧ u.inclusive = true ∨ c.op = .lt ∧ u.inclusive = false)

namespace Interval

theorem raise_eq (i : Interval) (x : Bound) :
    i.raise x = i ∨ i.raise x = { i with lower := some x } := by
  unfold raise
  dsimp only
  split_ifs
  · exact .inr rfl
  · exact .inl rfl

theorem cap_eq (i : Interval) (x : Bound) : i.cap x = i ∨ i.cap x = { i with upper := some x } := by
  unfold cap
  dsimp only
  split_ifs
  · exact .inr rfl
  · exact .inl rfl

variable {cs : List Comparator}

theorem raise_from (hi : i.From cs)
    (hx : ∃ c ∈ cs, c.version = x.version ∧
      ((c.op = .eql ∨ c.op = .gte) ∧ x.inclusive = true ∨ c.op = .gt ∧ x.inclusive = false)) :
    (i.raise x).From cs := by
  rcases raise_eq i x with h | h <;> rw [h]
  · exact hi
  · refine ⟨fun l hl => ?_, hi.upper⟩
    obtain rfl : x = l := by simpa using hl
    exact hx

theorem cap_from (hi : i.From cs)
    (hx : ∃ c ∈ cs, c.version = x.version ∧
      ((c.op = .eql ∨ c.op = .lte) ∧ x.inclusive = true ∨ c.op = .lt ∧ x.inclusive = false)) :
    (i.cap x).From cs := by
  rcases cap_eq i x with h | h <;> rw [h]
  · exact hi
  · refine ⟨hi.lower, fun u hu => ?_⟩
    obtain rfl : x = u := by simpa using hu
    exact hx

theorem narrow_from (hi : i.From cs) (hc : c ∈ cs) : (i.narrow c).From cs := by
  unfold narrow
  cases hop : c.op with
  | unset => exact hi
  | eql =>
    exact cap_from (raise_from hi ⟨c, hc, rfl, by simp [hop]⟩) ⟨c, hc, rfl, by simp [hop]⟩
  | gt => exact raise_from hi ⟨c, hc, rfl, by simp [hop]⟩
  | gte => exact raise_from hi ⟨c, hc, rfl, by simp [hop]⟩
  | lt => exact cap_from hi ⟨c, hc, rfl, by simp [hop]⟩
  | lte => exact cap_from hi ⟨c, hc, rfl, by simp [hop]⟩

theorem foldl_narrow_from : ∀ (ds : List Comparator) (i : Interval),
    (∀ d ∈ ds, d ∈ cs) → i.From cs → (ds.foldl narrow i).From cs
  | [], _, _, hi => hi
  | d :: ds, i, hd, hi => by
    rw [forall_mem_cons] at hd
    exact foldl_narrow_from ds (i.narrow d) hd.2 (narrow_from hi hd.1)

end Interval

theorem interval_from (q : Query) : q.interval.From q.comparators := by
  rw [Query.interval, andQuery_eq]
  exact foldl_narrow_from _ _ (fun _ h => h) ⟨by simp, by simp⟩

end Soup.Semver
