import Soup.Bundler.Visit
import Soup.Lib.Dominance

/-!
# Immediate dominators

The table has the parents of the repeated intersection of `Soup.Dominance`, by the nodes that have
the numbers (`Known`). In the end a node is above another one when it dominates it
(`exists_immediateDominators`).
-/

namespace Soup.Bundler

open Lib Dominance List Option Function Nat

/-- The table has the parents of the nodes with numbers before `b`, and nothing else. -/
structure Known (node : ℕ → ℕ) (idom : Nodes) (parent : ℕ → ℕ) (b : ℕ) : Prop where
  known : ∀ v < b, idom (node v) = some (node (parent v))
  unknown : ∀ x, (∀ v < b, node v ≠ x) → idom x = none

section Known

variable {successors : ℕ → List ℕ} {root bound last b m c : ℕ} {visit : Visit} {node parent : ℕ → ℕ}
  {idom : Nodes}

/-- The two walks up meet. -/
theorem Known.climb (h : Known node idom parent b)
    (hnode : Numbers successors root bound visit last node)
    (hb : b ≤ last + 1) (hfalls : Falls parent) : ∀ (fuel a c : ℕ), a < b → c < b → a + c < fuel →
      ∃ d < b, climb visit.postorder idom fuel (node a) (node c) = .ok (node d) ∧
        ∀ y, Above parent y d ↔ Above parent y a ∧ Above parent y c
  | 0, _, _, _, _, hfuel => absurd hfuel (not_lt_zero _)
  | fuel + 1, a, c, ha, hc, hfuel => by
    rw [Bundler.climb]
    by_cases heq : a = c
    · subst heq
      exact ⟨a, ha, if_pos rfl, fun y => (and_self_iff).symm⟩
    rw [if_neg (fun hsame => heq (hnode.inj a c (by omega) (by omega) hsame)),
      hnode.postorder a (by omega), hnode.postorder c (by omega)]
    simp only [getD_some]
    by_cases hgt : c < a
    · have hpos : 0 < a := lt_of_le_of_lt (zero_le c) hgt
      have hlt := hfalls a hpos
      obtain ⟨d, hdb, hd, hmeet⟩ :=
        h.climb hnode hb hfalls fuel (parent a) c (by omega) hc (by omega)
      refine ⟨d, hdb, ?_, fun y => ?_⟩
      · rw [if_pos (by omega), h.known a ha, Hir.unwrap, ok_bind, hd]
      · rw [hmeet, above_and_iff hfalls hgt]
    · have hlt' : a < c := by omega
      have hpos : 0 < c := by omega
      have hlt := hfalls c hpos
      obtain ⟨d, hdb, hd, hmeet⟩ :=
        h.climb hnode hb hfalls fuel a (parent c) ha (by omega) (by omega)
      refine ⟨d, hdb, ?_, fun y => ?_⟩
      · rw [if_neg (by omega), if_pos (by omega), h.known c hc, Hir.unwrap, ok_bind, hd]
      · rw [hmeet, and_comm, ← above_and_iff hfalls hlt', and_comm]

/-- What the loop over the predecessors has: the meet of those in the table. -/
def Meets (node parent : ℕ → ℕ) (b : ℕ) (done : List ℕ) : Option ℕ → Prop
  | none => ∀ p < b, node p ∉ done
  | some x => ∃ c < b, node c = x ∧
      ∀ y, Above parent y c ↔ ∀ p < b, node p ∈ done → Above parent y p

theorem Known.meetPred (h : Known node idom parent b)
    (hnode : Numbers successors root bound visit last node) (hb : b ≤ last + 1)
    (hfalls : Falls parent)
    {done : List ℕ} {newIdom : Option ℕ} (hdone : Meets node parent b done newIdom) (pred : ℕ) :
    ∃ newIdom', (∀ᶠ fuel in Filter.atTop,
        meetPred visit.postorder idom fuel newIdom pred = .ok newIdom') ∧
      Meets node parent b (done ++ [pred]) newIdom' := by
  have hmem : ∀ p, node p ∈ done ++ [pred] ↔ node p ∈ done ∨ node p = pred := by
    intro p
    rw [mem_append, mem_singleton]
  by_cases hpred : ∃ p < b, node p = pred
  · obtain ⟨p, hp, rfl⟩ := hpred
    have honly : ∀ q < b, node q = node p → q = p := fun q hq heq =>
      hnode.inj q p (by omega) (by omega) heq
    cases newIdom with
    | none =>
      refine ⟨some (node p), .of_forall fun fuel => ?_, p, hp, rfl, fun y => ?_⟩
      · rw [Bundler.meetPred.eq_def, h.known p hp]
      · refine ⟨fun hy q hq hin => ?_, fun hall => hall p hp ((hmem p).2 (.inr rfl))⟩
        rw [honly q hq (((hmem q).1 hin).resolve_left (hdone q hq))]
        exact hy
    | some x =>
      obtain ⟨c, hc, rfl, hmeet⟩ := hdone
      obtain ⟨d, hdb, -, habove⟩ := h.climb hnode hb hfalls (p + c + 1) p c hp hc
        (lt_add_one _)
      refine ⟨some (node d), ?_, d, hdb, rfl, fun y => ?_⟩
      · filter_upwards [Filter.eventually_ge_atTop (p + c + 1)] with fuel hfuel
        obtain ⟨d', hdb', hd', habove'⟩ := h.climb hnode hb hfalls fuel p c hp hc (by omega)
        have hsame : d' = d := by
          refine le_antisymm (Above.le hfalls ?_) (Above.le hfalls ?_)
          · exact (habove d').2 ((habove' d').1 .refl)
          · exact (habove' d).2 ((habove d).1 .refl)
        rw [Bundler.meetPred.eq_def, h.known p hp]
        dsimp only
        rw [hd', ok_bind, hsame]
      · rw [habove, hmeet y]
        constructor
        · rintro ⟨hyp, hall⟩ q hq hin
          rcases (hmem q).1 hin with hin | heq
          · exact hall q hq hin
          · rw [honly q hq heq]
            exact hyp
        · exact fun hall => ⟨hall p hp ((hmem p).2 (.inr rfl)), fun q hq hin =>
            hall q hq ((hmem q).2 (.inl hin))⟩
  · have hnot : ∀ p < b, node p ≠ pred := fun p hp heq => hpred ⟨p, hp, heq⟩
    refine ⟨newIdom, .of_forall fun fuel => ?_, ?_⟩
    · rw [Bundler.meetPred.eq_def, h.unknown pred hnot]
    · have hsame : ∀ p < b, node p ∈ done ++ [pred] ↔ node p ∈ done := fun p hp =>
        (hmem p).trans (or_iff_left (hnot p hp))
      cases newIdom with
      | none => exact fun p hp hin => hdone p hp ((hsame p hp).1 hin)
      | some x =>
        obtain ⟨c, hc, hx, hmeet⟩ := hdone
        refine ⟨c, hc, hx, fun y => (hmeet y).trans ?_⟩
        exact forall₂_congr fun p hp => by rw [hsame p hp]

theorem Known.newIdom (h : Known node idom parent b)
    (hnode : Numbers successors root bound visit last node) (hb : b ≤ last + 1)
    (hfalls : Falls parent) {preds : List ℕ} (hsome : ∃ p < b, node p ∈ preds) :
    ∃ c < b, (∀ᶠ fuel in Filter.atTop,
        preds.foldlM (Bundler.meetPred visit.postorder idom fuel) none = .ok (some (node c))) ∧
      ∀ y, Above parent y c ↔ ∀ p < b, node p ∈ preds → Above parent y p := by
  obtain ⟨newIdom, hloop, hmeets⟩ := eventually_foldlM preds (P := Meets node parent b)
    (f := Bundler.meetPred visit.postorder idom) (s := none) (fun p _ => not_mem_nil)
    (fun done pred rest _ newIdom hdone => h.meetPred hnode hb hfalls hdone pred)
  obtain ⟨p, hp, hin⟩ := hsome
  cases newIdom with
  | none => exact absurd hin (hmeets p hp)
  | some x =>
    obtain ⟨c, hc, rfl, hmeet⟩ := hmeets
    exact ⟨c, hc, hloop, hmeet⟩

/-- A node gets its parent. -/
theorem Known.update {b' : ℕ} (h : Known node idom parent b)
    (hnode : Numbers successors root bound visit last node) (hm : m < b') (hb' : b' ≤ last + 1)
    (hle : b ≤ b') (hbetween : ∀ v < b', v = m ∨ v < b) :
    Known node (update idom (node m) (some (node c))) (update parent m c) b' := by
  refine ⟨fun v hv => ?_, fun x hx => ?_⟩
  · by_cases hvm : v = m
    · rw [hvm, update_self, update_self]
    · rw [update_of_ne hvm, update_of_ne fun heq =>
        hvm (hnode.inj v m (by omega) (by omega) heq)]
      exact h.known v ((hbetween v hv).resolve_left hvm)
  · rw [update_of_ne (hx m hm).symm]
    exact h.unknown x fun v hv => hx v (hv.trans_le hle)

end Known

/-! ## Rounds -/

/-- The numbers of the predecessors. -/
def predNumbers (last : ℕ) (node : ℕ → ℕ) (predecessors : ℕ → List ℕ) (v : ℕ) : List ℕ :=
  (List.range (last + 1)).filter fun p => decide (node p ∈ predecessors (node v))

theorem mem_predNumbers {last p v : ℕ} {node : ℕ → ℕ} {predecessors : ℕ → List ℕ} :
    p ∈ predNumbers last node predecessors v ↔ p ≤ last ∧ node p ∈ predecessors (node v) := by
  rw [predNumbers, mem_filter, mem_range, decide_eq_true_eq, Nat.lt_succ_iff]

section Rounds

variable {successors predecessors : ℕ → List ℕ} {root bound last : ℕ} {visit : Visit} {node : ℕ → ℕ}

section

variable (hnode : Numbers successors root bound visit last node)
include hnode

theorem Numbers.numbered (hback : ∀ u < bound, ∀ v ∈ successors u, u ∈ predecessors v) :
    Numbered last (predNumbers last node predecessors) := by
  refine ⟨fun v p hp => (mem_predNumbers.1 hp).1, fun v hpos hv => ?_⟩
  obtain ⟨u, hu, hedge⟩ := hnode.before v hpos hv
  exact ⟨u, mem_predNumbers.2 ⟨by omega, hback _ (hnode.lt u (by omega)) _ hedge⟩, hu⟩

/-- The nodes behind those that are done. -/
theorem Numbers.next {done rest : List ℕ} {x : ℕ}
    (h : visit.order.reverse.tail = done ++ x :: rest) :
    x = node (done.length + 1) ∧ done.length + 1 ≤ last := by
  rw [hnode.order, ← map_tail, tail_range] at h
  have hget := congrArg (fun nodes => nodes[done.length]?) h
  rw [getElem?_append_right le_rfl, Nat.sub_self, getElem?_cons_zero,
    getElem?_map, map_eq_some_iff] at hget
  obtain ⟨v, hv, rfl⟩ := hget
  obtain ⟨hlt, rfl⟩ := List.getElem?_eq_some_iff.1 hv
  rw [length_range'] at hlt
  rw [getElem_range']
  exact ⟨by rw [one_mul, add_comm], by omega⟩

theorem Numbers.length_tail : visit.order.reverse.tail.length = last := by
  rw [hnode.order, List.length_tail, length_map, length_range]
  rfl

end

variable (hnode : Numbers successors root bound visit last node)
  (hback : ∀ u < bound, ∀ v ∈ successors u, u ∈ predecessors v)
include hnode hback

theorem exists_first_round : ∃ idom changed parent, (∀ᶠ fuel in Filter.atTop,
      visit.order.reverse.tail.foldlM (updateNode visit.postorder predecessors fuel)
        (update (fun _ => none) root (some root), false) = .ok (idom, changed)) ∧
      Known node idom parent (last + 1) ∧
      First (predNumbers last node predecessors) parent (last + 1) ∧
      (0 < last → changed = true) := by
  obtain ⟨⟨idom, changed⟩, hloop, parent, hknown, hfirst, hchanged⟩ := eventually_foldlM
    visit.order.reverse.tail (f := fun fuel => updateNode visit.postorder predecessors fuel)
    (s := (update (fun _ => none) root (some root), false))
    (P := fun done state => ∃ parent, Known node state.1 parent (done.length + 1) ∧
      First (predNumbers last node predecessors) parent (done.length + 1) ∧
      (0 < done.length → state.2 = true))
    (by
      refine ⟨fun _ => 0, ⟨?_, ?_⟩, ⟨fun v hv => hv, fun v hpos hv => ?_⟩, fun h => ?_⟩
      · intro v hv
        obtain rfl := lt_one_iff.1 hv
        dsimp only
        rw [hnode.root, update_self]
      · intro x hx
        dsimp only
        rw [update_of_ne]
        exact fun heq => hx 0 zero_lt_one (hnode.root.trans heq.symm)
      · rw [length_nil] at hv
        omega
      · exact absurd h (lt_irrefl 0))
    (by
      rintro done x rest hxs ⟨idom, changed⟩ ⟨parent, hknown, hfirst, -⟩
      obtain ⟨rfl, hmn⟩ := hnode.next hxs
      obtain ⟨p, hp, hpm⟩ := (hnode.numbered hback).before _ (succ_pos _) hmn
      obtain ⟨c, hcm, hc, hmeet⟩ := hknown.newIdom hnode (by omega) hfirst.falls
        ⟨p, hpm, (mem_predNumbers.1 hp).2⟩
      have hnone : idom (node (done.length + 1)) = none := hknown.unknown _ fun v hv heq => by
        have := hnode.inj v _ (by omega) hmn heq
        omega
      refine ⟨(update idom (node (done.length + 1)) (some (node c)), true), ?_,
        update parent (done.length + 1) c, ?_, ?_, fun _ => rfl⟩
      · filter_upwards [hc] with fuel hc
        rw [updateNode, hc, ok_bind, if_pos (by rw [hnone]; simp)]
      · rw [length_append]
        exact hknown.update hnode (lt_add_one _) (succ_le_succ hmn) (le_succ _)
          (fun v hv => by rw [length_singleton] at hv; omega)
      · rw [length_append]
        refine hfirst.step (succ_pos _) (fun y => (hmeet y).trans ?_) hcm
        simp only [mem_filter, mem_predNumbers, decide_eq_true_eq]
        exact ⟨fun hall p hp => hall p hp.2 hp.1.2,
          fun hall p hp hin => hall p ⟨⟨by omega, hin⟩, hp⟩⟩)
  rw [hnode.length_tail] at hknown hfirst hchanged
  exact ⟨idom, changed, parent, hloop, hknown, hfirst, hchanged⟩

/-- A later round changes nothing and has the meets, or lowers the sum of the parents. -/
theorem exists_later_round {idom : Nodes} {parent : ℕ → ℕ}
    (hknown : Known node idom parent (last + 1))
    (hlater : Later last (predNumbers last node predecessors) parent 1) :
    ∃ idom' changed parent', (∀ᶠ fuel in Filter.atTop,
        visit.order.reverse.tail.foldlM (updateNode visit.postorder predecessors fuel)
          (idom, false) = .ok (idom', changed)) ∧
      Known node idom' parent' (last + 1) ∧
      Later last (predNumbers last node predecessors) parent' (last + 1) ∧
      Progress last (predNumbers last node predecessors) parent parent' (last + 1) changed := by
  obtain ⟨⟨idom', changed⟩, hloop, parent', hknown', hlater', hprogress⟩ := eventually_foldlM
    visit.order.reverse.tail (f := fun fuel => updateNode visit.postorder predecessors fuel)
    (s := (idom, false))
    (P := fun done state => ∃ parent', Known node state.1 parent' (last + 1) ∧
      Later last (predNumbers last node predecessors) parent' (done.length + 1) ∧
      Progress last (predNumbers last node predecessors) parent parent' (done.length + 1) state.2)
    ⟨parent, hknown, hlater, .start parent⟩
    (by
      rintro done x rest hxs ⟨idom, changed⟩ ⟨parent', hknown, hlater, hprogress⟩
      obtain ⟨rfl, hmn⟩ := hnode.next hxs
      have hnum := hnode.numbered hback
      obtain ⟨p, hp, hpm⟩ := hnum.before _ (succ_pos _) hmn
      obtain ⟨c, hcm, hc, hmeet⟩ := hknown.newIdom hnode le_rfl hlater.falls
        ⟨p, by omega, (mem_predNumbers.1 hp).2⟩
      dsimp only at hknown hc hprogress
      have hismeet : IsMeet parent' (predNumbers last node predecessors (done.length + 1)) c := by
        intro y
        rw [hmeet y]
        simp only [mem_predNumbers]
        exact ⟨fun hall p hp => hall p (lt_succ_of_le hp.1) hp.2,
          fun hall p hp hin => hall p ⟨Nat.lt_succ_iff.1 hp, hin⟩⟩
      have hold := hknown.known _ (lt_succ_of_le hmn)
      have hparent : parent' (done.length + 1) ≤ last :=
        ((hlater.falls _ (succ_pos _)).le).trans hmn
      refine ⟨(if idom (node (done.length + 1)) ≠ some (node c) then
        (update idom (node (done.length + 1)) (some (node c)), true) else (idom, changed)),
        ?_, update parent' (done.length + 1) c, ?_, ?_, ?_⟩
      · filter_upwards [hc] with fuel hc
        rw [updateNode, hc, ok_bind]
      · split
        · exact hknown.update hnode (lt_succ_of_le hmn) le_rfl le_rfl
            fun v hv => .inr hv
        next hsame =>
          rw [not_not, hold, some.injEq] at hsame
          rw [← hnode.inj _ c hparent (by omega) hsame, update_eq_self]
          exact hknown
      · rw [length_append]
        exact hlater.step hnum (succ_pos _) hmn hismeet
      · rw [length_append]
        have hflag : (if idom (node (done.length + 1)) ≠ some (node c) then
            (update idom (node (done.length + 1)) (some (node c)), true)
            else (idom, changed)).2 = (changed || decide (parent' (done.length + 1) ≠ c)) := by
          rw [hold]
          by_cases heq : parent' (done.length + 1) = c
          · simp [heq]
          · have hne : node (parent' (done.length + 1)) ≠ node c := fun h =>
              heq (hnode.inj _ c hparent (by omega) h)
            simp [heq, hne]
        rw [hflag]
        exact hprogress.step hnum hlater (succ_pos _) hmn hismeet)
  rw [hnode.length_tail] at hlater' hprogress
  exact ⟨idom', changed, parent', hloop, hknown', hlater', hprogress⟩

/-- The rounds end, and what is above a node is what dominates it. -/
theorem exists_dominators : ∃ idom parent,
    (∀ᶠ fuel in Filter.atTop, changeLoop visit predecessors fuel
      (update (fun _ => none) root (some root)) = .ok idom) ∧
      Known node idom parent (last + 1) ∧ Falls parent ∧
      ∀ v ≤ last, ∀ y, Dominates (predNumbers last node predecessors) y v ↔ Above parent y v := by
  obtain ⟨idom, changed, parent, hstep, hknown, hfirst, hchanged⟩ :=
    exists_first_round hnode hback
  exact exists_loop_of_first (hnode.numbered hback) (fun _ _ => rfl)
    (fun _ _ => exists_later_round hnode hback) hstep hknown hfirst hchanged

end Rounds

/-! ## The tree -/

/-- The table is the tree of dominators of the nodes that the root leads to. -/
structure DominatorTree (successors predecessors : ℕ → List ℕ) (root bound last : ℕ) (node : ℕ → ℕ)
    (parent : ℕ → ℕ) (idom : Nodes) : Prop where
  root : node 0 = root
  lt : ∀ v ≤ last, node v < bound
  inj : ∀ u v, u ≤ last → v ≤ last → node u = node v → u = v
  closed : ∀ u ≤ last, ∀ x ∈ successors (node u), ∃ v ≤ last, node v = x
  known : Known node idom parent (last + 1)
  falls : Falls parent
  dominates_iff : ∀ v ≤ last, ∀ y,
    Dominates (predNumbers last node predecessors) y v ↔ Above parent y v

theorem exists_immediateDominators {successors predecessors : ℕ → List ℕ} {root bound : ℕ}
    (hroot : root < bound) (hbound : ∀ u < bound, ∀ v ∈ successors u, v < bound)
    (hback : ∀ u < bound, ∀ v ∈ successors u, u ∈ predecessors v) : ∃ last node parent idom,
    (∀ᶠ fuel in Filter.atTop, immediateDominators fuel successors root predecessors = .ok idom) ∧
      DominatorTree successors predecessors root bound last node parent idom := by
  obtain ⟨visit, last, node, hvisit, hnode⟩ := exists_visit hroot hbound
  obtain ⟨idom, parent, hloop, hknown, hfalls, hdominates⟩ := exists_dominators hnode hback
  refine ⟨last, node, parent, idom, ?_, hnode.root, hnode.lt, hnode.inj, hnode.closed, hknown,
    hfalls, hdominates⟩
  filter_upwards [hvisit, hloop] with fuel hvisit hloop
  rw [immediateDominators, hvisit, ok_bind, hloop]

end Soup.Bundler
