import Mathlib.Algebra.Order.BigOperators.Group.Finset
import Soup.Lib.Run

/-!
# Dominators by repeated intersection

The nodes of a graph are numbers, and every node but the root 0 has a predecessor with a smaller
number. A candidate for the tree of dominators is a function `parent` that goes down. One step
replaces the parent of a node by the meet of its predecessors (`IsMeet`), and everything below the
node moves with it.

The first round meets the predecessors with smaller numbers (`First`). Every later step keeps
`Later`, by which nothing that dominates is lost and parents only go down. A round that changes
something lowers the sum of the parents (`Progress`), and one that changes nothing has the tree of
dominators (`Later.dominates_iff`).
-/

namespace Soup.Dominance

open Lib List Function

/-- The nodes of a walk from the root, from its end. -/
inductive Walk (preds : ℕ → List ℕ) : ℕ → List ℕ → Prop
  | root : Walk preds 0 [0]
  | step {p v : ℕ} {l : List ℕ} (hp : p ∈ preds v) (walk : Walk preds p l) : Walk preds v (v :: l)

/-- Every walk to `v` goes through `d`. -/
def Dominates (preds : ℕ → List ℕ) (d v : ℕ) : Prop := ∀ l, Walk preds v l → d ∈ l

/-- Every node but the root has a predecessor before it. -/
structure Numbered (n : ℕ) (preds : ℕ → List ℕ) : Prop where
  le : ∀ v, ∀ p ∈ preds v, p ≤ n
  before : ∀ v, 0 < v → v ≤ n → ∃ p ∈ preds v, p < v

/-! ## Trees -/

def Falls (parent : ℕ → ℕ) : Prop := ∀ v, 0 < v → parent v < v

/-- `a` is `v` or above it. -/
inductive Above (parent : ℕ → ℕ) (a : ℕ) : ℕ → Prop
  | refl : Above parent a a
  | up {v : ℕ} (pos : 0 < v) (above : Above parent a (parent v)) : Above parent a v

/-- What is above all of `nodes` is above `c`. -/
def IsMeet (parent : ℕ → ℕ) (nodes : List ℕ) (c : ℕ) : Prop :=
  ∀ y, Above parent y c ↔ ∀ p ∈ nodes, Above parent y p

section Above

variable {parent : ℕ → ℕ} {a b c v y m : ℕ}

theorem Above.trans (hab : Above parent a b) (hbc : Above parent b c) : Above parent a c := by
  induction hbc with
  | refl => exact hab
  | up hpos _ ih => exact .up hpos ih

theorem Above.of_ne (h : Above parent a v) (hne : a ≠ v) : 0 < v ∧ Above parent a (parent v) := by
  cases h with
  | refl => exact absurd rfl hne
  | up hpos h => exact ⟨hpos, h⟩

theorem above_zero_iff : Above parent a 0 ↔ a = 0 := by
  refine ⟨fun h => ?_, fun h => h ▸ .refl⟩
  by_contra hne
  exact absurd (h.of_ne hne).1 (Nat.lt_irrefl 0)

variable (hfalls : Falls parent)
include hfalls

theorem Above.le (h : Above parent a v) : a ≤ v := by
  induction h with
  | refl => exact le_rfl
  | up hpos _ ih => exact le_trans ih (le_of_lt (hfalls _ hpos))

theorem above_root (v : ℕ) : Above parent 0 v := by
  induction v using Nat.strong_induction_on with
  | _ v ih =>
    rcases Nat.eq_zero_or_pos v with rfl | hpos
    · exact .refl
    · exact .up hpos (ih _ (hfalls v hpos))

/-- What is above one node is in a line. -/
theorem Above.of_le (ha : Above parent a v) (hb : Above parent b v) (hle : a ≤ b) :
    Above parent a b := by
  induction hb with
  | refl => exact ha
  | up hpos hb ih =>
    refine ih (ha.of_ne ?_).2
    rintro rfl
    exact absurd (lt_of_le_of_lt (hb.le hfalls) (hfalls _ hpos)) (not_lt.2 hle)

/-- A walk up from the lower of two nodes. -/
theorem above_and_iff (hlt : c < a) :
    Above parent y a ∧ Above parent y c ↔ Above parent y (parent a) ∧ Above parent y c := by
  rw [and_congr_left_iff]
  intro hyc
  have hya : y ≠ a := ne_of_lt (lt_of_le_of_lt (hyc.le hfalls) hlt)
  exact ⟨fun hy => (hy.of_ne hya).2, .up (lt_of_le_of_lt (Nat.zero_le c) hlt)⟩

/-! ## One new parent -/

omit hfalls in
theorem above_iff : Above parent y v ↔ y = v ∨ 0 < v ∧ Above parent y (parent v) := by
  refine ⟨fun h => or_iff_not_imp_left.2 h.of_ne, ?_⟩
  rintro (rfl | ⟨hpos, h⟩)
  · exact .refl
  · exact .up hpos h

open scoped Classical in
/-- A new parent for `m`: below `m`, what is before `m` is now what is above the new parent. -/
theorem above_update (hc : c < m) (v y : ℕ) : Above (update parent m c) y v ↔
    if Above parent m v ∧ y < m then Above parent y c else Above parent y v := by
  induction v using Nat.strong_induction_on with
  | _ v ih =>
    rcases Nat.eq_zero_or_pos v with rfl | hpos
    · rw [above_zero_iff, above_zero_iff, above_zero_iff, if_neg (by omega)]
    rw [above_iff]
    by_cases hvm : v = m
    · have hnot : ¬Above parent m c := fun h => absurd (h.le hfalls) (not_le.2 hc)
      subst hvm
      rw [update_self, ih c hc, if_neg (fun h => hnot h.1)]
      by_cases hy : y < v
      · rw [if_pos ⟨.refl, hy⟩]
        exact ⟨fun h => (h.resolve_left (ne_of_lt hy)).2, fun h => .inr ⟨hpos, h⟩⟩
      · rw [if_neg (fun h => hy h.2)]
        constructor
        · rintro (rfl | ⟨-, h⟩)
          · exact .refl
          · exact absurd (h.le hfalls) (by omega)
        · intro h
          exact .inl (le_antisymm (h.le hfalls) (not_lt.1 hy))
    · rw [update_of_ne hvm, ih _ (hfalls v hpos)]
      have hm : Above parent m v ↔ Above parent m (parent v) :=
        ⟨fun h => (h.of_ne (Ne.symm hvm)).2, .up hpos⟩
      rw [hm]
      split
      next hcond =>
        refine ⟨fun h => (h.resolve_left ?_).2, fun h => .inr ⟨hpos, h⟩⟩
        have hle := (hm.2 hcond.1).le hfalls
        exact ne_of_lt (lt_of_lt_of_le hcond.2 hle)
      · exact above_iff.symm

/-- A node moves up, so that nothing new is above a node. -/
theorem Above.of_update (hc : c < m) (hcm : Above parent c m)
    (h : Above (update parent m c) y v) : Above parent y v := by
  rw [above_update hfalls hc] at h
  split at h
  next hcond =>
    exact (h.trans hcm).trans hcond.1
  · exact h

omit hfalls in
theorem Falls.update (hfalls : Falls parent) (hc : c < m) : Falls (update parent m c) := by
  intro v hpos
  by_cases hv : v = m
  · rw [hv, update_self]
    exact hc
  · rw [update_of_ne hv]
    exact hfalls v hpos

end Above

/-! ## The first round -/

variable {n : ℕ} {preds : ℕ → List ℕ} {parent : ℕ → ℕ} {m c : ℕ}

/-- The nodes before `m` have the meet of their predecessors with smaller numbers. -/
structure First (preds : ℕ → List ℕ) (parent : ℕ → ℕ) (m : ℕ) : Prop where
  falls : Falls parent
  meet : ∀ v, 0 < v → v < m → IsMeet parent ((preds v).filter (· < v)) (parent v)

theorem First.step (h : First preds parent m) (hm : 0 < m)
    (hc : IsMeet parent ((preds m).filter (· < m)) c) (hlt : c < m) :
    First preds (update parent m c) (m + 1) := by
  have hsame : ∀ v, v < m → ∀ y, Above (update parent m c) y v ↔ Above parent y v := by
    intro v hv y
    rw [above_update h.falls hlt, if_neg]
    rintro ⟨habove, -⟩
    exact absurd (habove.le h.falls) (not_le.2 hv)
  refine ⟨h.falls.update hlt, fun v hpos hv y => ?_⟩
  rcases Nat.lt_succ_iff_lt_or_eq.1 hv with hv | rfl
  · rw [update_of_ne (ne_of_lt hv), hsame _ (lt_trans (h.falls v hpos) hv),
      h.meet v hpos hv]
    refine forall₂_congr fun p hp => ?_
    have hlt := of_decide_eq_true (mem_filter.1 hp).2
    rw [hsame p (lt_trans hlt hv)]
  · rw [update_self, hsame c hlt, hc]
    refine forall₂_congr fun p hp => ?_
    rw [hsame p (of_decide_eq_true (mem_filter.1 hp).2)]

/-! ## Later rounds -/

/-- The nodes before `m` are done in this round. -/
structure Later (n : ℕ) (preds : ℕ → List ℕ) (parent : ℕ → ℕ) (m : ℕ) : Prop where
  falls : Falls parent
  /-- What dominates a node is above it. -/
  sound : ∀ v, v ≤ n → ∀ y, Dominates preds y v → Above parent y v
  /-- What is above all predecessors is above the node. -/
  settled : ∀ v, 0 < v → v ≤ n → ∀ y, (∀ p ∈ preds v, Above parent y p) → Above parent y v
  /-- What is above a node, and not moved in this round, is above its predecessors before it. -/
  forward : ∀ v, 0 < v → v ≤ n → ∀ p ∈ preds v, p < v → ∀ y, y ≠ v → v < m ∨ m ≤ y →
    Above parent y v → Above parent y p

theorem Dominates.of_preds {d v p : ℕ} (h : Dominates preds d v) (hne : d ≠ v) (hp : p ∈ preds v) :
    Dominates preds d p := fun _ hwalk =>
  (mem_cons.1 (h _ (.step hp hwalk))).resolve_left hne

theorem First.later (h : First preds parent (n + 1)) : Later n preds parent 1 := by
  have hmeet : ∀ v, 0 < v → v ≤ n → ∀ y, Above parent y (parent v) ↔
      ∀ p ∈ preds v, p < v → Above parent y p := by
    intro v hpos hv y
    rw [h.meet v hpos (Nat.lt_succ_of_le hv) y]
    simp
  refine ⟨h.falls, ?_, ?_, ?_⟩
  · intro v
    induction v using Nat.strong_induction_on with
    | _ v ih =>
      intro hv y hdom
      rcases Nat.eq_zero_or_pos v with rfl | hpos
      · rw [mem_singleton.1 (hdom _ .root)]
        exact .refl
      by_cases hne : y = v
      · exact hne ▸ .refl
      · refine .up hpos ((hmeet v hpos hv y).2 fun p hp hlt => ?_)
        exact ih p hlt (le_trans (le_of_lt hlt) hv) y (hdom.of_preds hne hp)
  · intro v hpos hv y hall
    exact .up hpos ((hmeet v hpos hv y).2 fun p hp _ => hall p hp)
  · intro v hpos hv p hp hlt y hne _ habove
    exact (hmeet v hpos hv y).1 (habove.of_ne hne).2 p hp hlt

section Step

variable (hnum : Numbered n preds) (h : Later n preds parent m) (hm : 0 < m) (hmn : m ≤ n)
  (hc : IsMeet parent (preds m) c)
include hnum h hm hmn hc

/-- The meet of the predecessors is above the node, and not the node. -/
theorem Later.above_meet : Above parent c m ∧ c < m := by
  obtain ⟨p, hp, hlt⟩ := hnum.before m hm hmn
  have hall := (hc c).1 .refl
  exact ⟨h.settled m hm hmn c hall, lt_of_le_of_lt ((hall p hp).le h.falls) hlt⟩

/-- Parents only go down. -/
theorem Later.meet_le : c ≤ parent m := by
  obtain ⟨habove, hlt⟩ := h.above_meet hnum hm hmn hc
  exact (habove.of_ne (ne_of_lt hlt)).2.le h.falls

omit hmn hc in
/-- Below `m` there is a predecessor below `m`. -/
theorem Later.exists_pred {v : ℕ} (hmv : m < v) (hv : v ≤ n) (habove : Above parent m v) :
    ∃ p ∈ preds v, p < v ∧ Above parent m p := by
  have hpos := lt_trans hm hmv
  obtain ⟨p, hp, hlt⟩ := hnum.before v hpos hv
  exact ⟨p, hp, hlt, h.forward v hpos hv p hp hlt m (ne_of_lt hmv) (.inr (Nat.le_refl m)) habove⟩

theorem Later.step : Later n preds (update parent m c) (m + 1) := by
  obtain ⟨hcm, hlt⟩ := h.above_meet hnum hm hmn hc
  have hupdate := above_update h.falls hlt
  refine ⟨h.falls.update hlt, ?_, ?_, ?_⟩
  · intro v
    induction v using Nat.strong_induction_on with
    | _ v ih =>
      intro hv y hdom
      have habove := h.sound v hv y hdom
      rw [hupdate]
      split
      next hcond =>
        rcases lt_or_ge m v with hmv | hge
        · -- `m` is above a predecessor too, where `y` stays
          obtain ⟨p, hp, hpv, hmp⟩ := h.exists_pred hnum hm hmv hv hcond.1
          have hkeep := ih p hpv (hnum.le v p hp) y
            (hdom.of_preds (ne_of_lt (lt_trans hcond.2 hmv)) hp)
          rwa [hupdate, if_pos ⟨hmp, hcond.2⟩] at hkeep
        · obtain rfl := le_antisymm (hcond.1.le h.falls) hge
          refine (hc y).2 fun p hp => h.sound p (hnum.le _ p hp) y ?_
          exact hdom.of_preds (ne_of_lt hcond.2) hp
      · exact habove
  · intro v hpos hv y hall
    have habove := h.settled v hpos hv y fun p hp => .of_update h.falls hlt hcm (hall p hp)
    rw [hupdate]
    split
    next hcond =>
      rcases lt_or_ge m v with hmv | hge
      · obtain ⟨p, hp, -, hmp⟩ := h.exists_pred hnum hm hmv hv hcond.1
        have hkeep := hall p hp
        rwa [hupdate, if_pos ⟨hmp, hcond.2⟩] at hkeep
      · obtain rfl := le_antisymm (hcond.1.le h.falls) hge
        exact (hc y).2 fun p hp => .of_update h.falls hlt hcm (hall p hp)
    · exact habove
  · intro v hpos hv p hp hpv y hne hcase habove
    have hbelow : ∀ u, u < m → ¬(Above parent m u ∧ y < m) := by
      rintro u hu ⟨hmu, -⟩
      exact absurd (hmu.le h.falls) (not_le.2 hu)
    rcases lt_trichotomy v m with hvm | rfl | hmv
    · rw [hupdate, if_neg (hbelow v hvm)] at habove
      rw [hupdate, if_neg (hbelow p (lt_trans hpv hvm))]
      exact h.forward v hpos hv p hp hpv y hne (.inl hvm) habove
    · have hyv : y < v := lt_of_le_of_ne (habove.le (h.falls.update hlt)) hne
      rw [hupdate, if_pos ⟨.refl, hyv⟩] at habove
      rw [hupdate, if_neg (hbelow p hpv)]
      exact (hc y).1 habove p hp
    · have hym : ¬y < m := by omega
      rw [hupdate, if_neg (fun hcond => hym hcond.2)] at habove ⊢
      exact h.forward v hpos hv p hp hpv y hne (.inr (by omega)) habove

end Step

/-! ## The end -/

theorem sum_update_le (n : ℕ) (h : c ≤ parent m) :
    (Finset.range n).sum (update parent m c) ≤ (Finset.range n).sum parent := by
  refine Finset.sum_le_sum fun v _ => ?_
  by_cases hv : v = m
  · rw [hv, update_self]
    exact h
  · rw [update_of_ne hv]

theorem sum_update_lt (hm : m < n) (h : c < parent m) :
    (Finset.range n).sum (update parent m c) < (Finset.range n).sum parent := by
  refine Finset.sum_lt_sum (fun v _ => ?_) ⟨m, Finset.mem_range.2 hm, ?_⟩
  · by_cases hv : v = m
    · rw [hv, update_self]
      exact le_of_lt h
    · rw [update_of_ne hv]
  · rw [update_self]
    exact h

/-- What a round did to the nodes before `m`: nothing, and they have the meets, or the sum is lower.
-/
def Progress (n : ℕ) (preds : ℕ → List ℕ) (old parent : ℕ → ℕ) (m : ℕ) (changed : Bool) : Prop :=
  changed = false ∧ parent = old ∧ (∀ v, 0 < v → v < m → IsMeet old (preds v) (old v)) ∨
    changed = true ∧ (Finset.range (n + 1)).sum parent < (Finset.range (n + 1)).sum old

theorem Progress.start (parent : ℕ → ℕ) : Progress n preds parent parent 1 false :=
  .inl ⟨rfl, rfl, fun _ hpos hlt => absurd (Nat.lt_one_iff.1 hlt) (ne_of_gt hpos)⟩

theorem Progress.step {old : ℕ → ℕ} {changed : Bool} (h : Progress n preds old parent m changed)
    (hnum : Numbered n preds) (hlater : Later n preds parent m) (hm : 0 < m) (hmn : m ≤ n)
    (hc : IsMeet parent (preds m) c) :
    Progress n preds old (update parent m c) (m + 1)
      (changed || decide (parent m ≠ c)) := by
  have hle := hlater.meet_le hnum hm hmn hc
  rcases h with ⟨rfl, rfl, hmeets⟩ | ⟨rfl, hsum⟩
  · by_cases heq : parent m = c
    · refine .inl ⟨by simp [heq], by rw [← heq, update_eq_self], fun v hpos hv => ?_⟩
      rcases Nat.lt_succ_iff_lt_or_eq.1 hv with hv | rfl
      · exact hmeets v hpos hv
      · exact heq ▸ hc
    · refine .inr ⟨by simp [heq], sum_update_lt (Nat.lt_succ_of_le hmn) ?_⟩
      exact lt_of_le_of_ne hle (Ne.symm heq)
  · exact .inr ⟨rfl, lt_of_le_of_lt (sum_update_le _ hle) hsum⟩

/-- The next round. -/
theorem Later.round (h : Later n preds parent (n + 1)) : Later n preds parent 1 :=
  ⟨h.falls, h.sound, h.settled, fun v hpos hv p hp hlt y hne _ habove =>
    h.forward v hpos hv p hp hlt y hne (.inl (Nat.lt_succ_of_le hv)) habove⟩

/-- Where every parent is the meet of the predecessors, what is above a node dominates it. -/
theorem Later.dominates_iff (h : Later n preds parent m) (hnum : Numbered n preds)
    (hfix : ∀ v, 0 < v → v ≤ n → IsMeet parent (preds v) (parent v)) {v : ℕ} (hv : v ≤ n) (y : ℕ) :
    Dominates preds y v ↔ Above parent y v := by
  refine ⟨h.sound v hv y, fun habove l hwalk => ?_⟩
  induction hwalk with
  | root =>
    rw [above_zero_iff.1 habove]
    exact mem_singleton_self 0
  | @step p v l hp _ ih =>
    by_cases hne : y = v
    · exact hne ▸ mem_cons_self
    · obtain ⟨hpos, hup⟩ := habove.of_ne hne
      exact mem_cons_of_mem _ (ih (hnum.le v p hp) ((hfix v hpos hv y).1 hup p hp))

/-! ## Rounds -/

section Rounds

variable {ε T : Type} {round : ℕ → T → Except ε (T × Bool)} {loop : ℕ → T → Except ε T}
  {Known : T → (ℕ → ℕ) → Prop} {table : T} {parent : ℕ → ℕ} (hnum : Numbered n preds)
  (hsucc : ∀ fuel table, loop (fuel + 1) table =
    round fuel table >>= fun next => if next.2 then loop fuel next.1 else .ok next.1)
  (hround : ∀ table parent, Known table parent → Later n preds parent 1 →
    ∃ table' changed parent', (∀ᶠ fuel in Filter.atTop, round fuel table = .ok (table', changed)) ∧
      Known table' parent' ∧ Later n preds parent' (n + 1) ∧
      Progress n preds parent parent' (n + 1) changed)
include hnum hsucc hround

/-- The rounds end, and what is above a node is what dominates it. -/
theorem exists_loop (hknown : Known table parent) (hlater : Later n preds parent 1) :
    ∃ table' parent', (∀ᶠ fuel in Filter.atTop, loop fuel table = .ok table') ∧
      Known table' parent' ∧ Falls parent' ∧
      ∀ v ≤ n, ∀ y, Dominates preds y v ↔ Above parent' y v := by
  induction hsum : (Finset.range (n + 1)).sum parent using Nat.strong_induction_on
    generalizing table parent with
  | _ s ih =>
    obtain ⟨table', changed, parent', hstep, hknown', hlater', hprogress⟩ :=
      hround table parent hknown hlater
    rcases hprogress with ⟨rfl, rfl, hmeets⟩ | ⟨rfl, hless⟩
    · refine ⟨table', parent', eventually_succ ?_, hknown', hlater'.falls, fun v hv y =>
        hlater'.dominates_iff hnum (fun v hpos hv => hmeets v hpos (Nat.lt_succ_of_le hv)) hv y⟩
      filter_upwards [hstep] with fuel hstep
      rw [hsucc, hstep, ok_bind]
      rfl
    · obtain ⟨table'', parent'', hloop, hend⟩ := ih _ (hsum ▸ hless) hknown' hlater'.round rfl
      refine ⟨table'', parent'', eventually_succ ?_, hend⟩
      filter_upwards [hstep, hloop] with fuel hstep hloop
      rw [hsucc, hstep, ok_bind]
      exact hloop

/-- The same from the first round on. -/
theorem exists_loop_of_first {table' : T} {changed : Bool}
    (hstep : ∀ᶠ fuel in Filter.atTop, round fuel table = .ok (table', changed))
    (hknown : Known table' parent) (hfirst : First preds parent (n + 1))
    (hchanged : 0 < n → changed = true) :
    ∃ table' parent', (∀ᶠ fuel in Filter.atTop, loop fuel table = .ok table') ∧
      Known table' parent' ∧ Falls parent' ∧
      ∀ v ≤ n, ∀ y, Dominates preds y v ↔ Above parent' y v := by
  have hlater := hfirst.later
  cases changed with
  | false =>
    have hn : n = 0 := by
      by_contra hne
      exact absurd (hchanged (pos_of_ne_zero hne)) Bool.false_ne_true
    refine ⟨table', parent, eventually_succ ?_, hknown, hlater.falls, fun v hv y =>
      hlater.dominates_iff hnum (fun v hpos hv => by omega) hv y⟩
    filter_upwards [hstep] with fuel hstep
    rw [hsucc, hstep, ok_bind]
    rfl
  | true =>
    obtain ⟨table'', parent', hloop, hend⟩ := exists_loop hnum hsucc hround hknown hlater
    refine ⟨table'', parent', eventually_succ ?_, hend⟩
    filter_upwards [hstep, hloop] with fuel hstep hloop
    rw [hsucc, hstep, ok_bind]
    exact hloop

end Rounds

end Soup.Dominance
