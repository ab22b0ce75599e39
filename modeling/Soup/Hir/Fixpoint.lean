import Soup.Hir.Dominator
import Soup.Lib.Dominance

/-!
# The fixpoint

`computeImmediateDominators` is the repeated intersection of `Soup.Dominance`. In the first round
the processed predecessors are those with smaller numbers, so that every node has one, and later
every predecessor is processed. A round that changes something lowers the sum of the parents, so
that the loop ends (`exists_dominators`).
-/

namespace Soup.Hir

open Lib Dominance List Function Nat

/-- The table has the parents of the nodes before `b`. -/
structure Known (n : ℕ) (doms : List (Option ℕ)) (parent : ℕ → ℕ) (b : ℕ) : Prop where
  length : doms.length = n + 1
  known : ∀ v < b, doms[v]? = some (some (parent v))
  unknown : ∀ v, b ≤ v → v ≤ n → doms[v]? = some none

section Known

variable {n b m : ℕ} {doms : List (Option ℕ)} {parent : ℕ → ℕ}

/-- The two walks up meet. -/
theorem Known.intersect (h : Known n doms parent b) (hfalls : Falls parent) :
    ∀ (fuel a c : ℕ), a < b → c < b → a + c < fuel →
      ∃ d, intersect doms fuel a c = .ok d ∧
        ∀ y, Above parent y d ↔ Above parent y a ∧ Above parent y c
  | 0, _, _, _, _, hfuel => absurd hfuel (not_lt_zero _)
  | fuel + 1, a, c, ha, hc, hfuel => by
    rw [Hir.intersect]
    by_cases heq : a = c
    · subst heq
      exact ⟨a, if_pos rfl, fun y => (and_self_iff).symm⟩
    rw [if_neg heq]
    by_cases hgt : a > c
    · have hpos : 0 < a := lt_of_le_of_lt (zero_le c) hgt
      have hlt := hfalls a hpos
      obtain ⟨d, hd, hmeet⟩ := h.intersect hfalls fuel (parent a) c (by omega) hc (by omega)
      refine ⟨d, ?_, fun y => ?_⟩
      · rw [if_pos hgt, read_eq (h.known a ha), ok_bind, unwrap, ok_bind, hd]
      · rw [hmeet, above_and_iff hfalls hgt]
    · have hlt' : a < c := by omega
      have hpos : 0 < c := by omega
      have hlt := hfalls c hpos
      obtain ⟨d, hd, hmeet⟩ := h.intersect hfalls fuel a (parent c) ha (by omega) (by omega)
      refine ⟨d, ?_, fun y => ?_⟩
      · rw [if_neg hgt, read_eq (h.known c hc), ok_bind, unwrap, ok_bind, hd]
      · rw [hmeet, and_comm, ← above_and_iff hfalls hlt', and_comm]

/-- What the loop over the predecessors has: the meet of the processed ones. -/
def Meets (parent : ℕ → ℕ) (b : ℕ) (done : List ℕ) : Option ℕ → Prop
  | none => ∀ p ∈ done, ¬p < b
  | some c => c < b ∧ IsMeet parent (done.filter (· < b)) c

theorem Known.meetPred (h : Known n doms parent b) (hfalls : Falls parent) {done : List ℕ}
    {idom : Option ℕ} (hdone : Meets parent b done idom) {p : ℕ} (hp : p ≤ n) :
    ∃ idom', meetPred doms idom p = .ok idom' ∧ Meets parent b (done ++ [p]) idom' := by
  rw [Hir.meetPred]
  by_cases hpb : p < b
  · rw [read_eq (h.known p hpb), ok_bind]
    cases idom with
    | none =>
      refine ⟨some p, rfl, hpb, fun y => ?_⟩
      have hnil : done.filter (· < b) = [] := by
        rw [filter_eq_nil_iff]
        exact fun q hq => by simpa using hdone q hq
      rw [filter_append, hnil]
      simp [hpb]
    | some c =>
      obtain ⟨hcb, hmeet⟩ := hdone
      obtain ⟨d, hd, habove⟩ := h.intersect hfalls (p + c + 1) p c hpb hcb (lt_add_one _)
      refine ⟨some d, ?_, ?_, fun y => ?_⟩
      · dsimp only
        rw [hd, ok_bind]
      · have := (((habove d).1 .refl).1).le hfalls
        omega
      · rw [habove, hmeet y, filter_append]
        simp only [mem_append, mem_filter, mem_singleton, decide_eq_true_eq]
        constructor
        · rintro ⟨hyp, hall⟩ q (hq | ⟨rfl, -⟩)
          · exact hall q hq
          · exact hyp
        · exact fun hall => ⟨hall p (.inr ⟨rfl, hpb⟩), fun q hq => hall q (.inl hq)⟩
  · rw [read_eq (h.unknown p (not_lt.1 hpb) hp), ok_bind]
    refine ⟨idom, rfl, ?_⟩
    have hfilter : (done ++ [p]).filter (· < b) = done.filter (· < b) := by
      rw [filter_append]
      simp [hpb]
    cases idom with
    | none =>
      intro q hq
      rcases mem_append.1 hq with hq | hq
      · exact hdone q hq
      · rw [mem_singleton.1 hq]
        exact hpb
    | some c => exact ⟨hdone.1, hfilter ▸ hdone.2⟩

theorem Known.newIdom (h : Known n doms parent b) (hfalls : Falls parent) {preds : List ℕ}
    (hpreds : ∀ p ∈ preds, p ≤ n) (hsome : ∃ p ∈ preds, p < b) :
    ∃ c, preds.foldlM (Hir.meetPred doms) none = .ok (some c) ∧
      IsMeet parent (preds.filter (· < b)) c := by
  obtain ⟨idom, hloop, hmeets⟩ := exists_foldlM preds (P := Meets parent b)
    (f := Hir.meetPred doms) (s := none) (fun p hp => absurd hp not_mem_nil)
    (fun done p rest hxs idom hdone => h.meetPred hfalls hdone (hpreds p (by rw [hxs]; simp)))
  obtain ⟨p, hp, hpb⟩ := hsome
  cases idom with
  | none => exact absurd hpb (hmeets p hp)
  | some c => exact ⟨c, hloop, hmeets.2⟩

/-! ## One node -/

variable {graph : Graph} {preds : List ℕ} {c : ℕ} {id : BlockId} {changed : Bool}

variable (id changed) in
/-- A node that was not processed. -/
theorem Known.first_update (h : Known n doms parent m) (hm : 0 < m) (hmn : m ≤ n)
    (hpreds : graph.predsOf m = .ok preds)
    (hc : preds.foldlM (Hir.meetPred doms) none = .ok (some c)) :
    updateNode graph (doms, changed) (id, m - 1) = .ok (doms.set m (some c), true) ∧
      Known n (doms.set m (some c)) (update parent m c) (m + 1) := by
  have hnode : m - 1 + 1 = m := Nat.sub_add_cancel hm
  refine ⟨?_, by rw [length_set, h.length], ?_, ?_⟩
  · rw [updateNode, hnode, hpreds, ok_bind, hc, ok_bind]
    simp only
    rw [read_eq (h.unknown m (le_refl m) hmn), ok_bind, if_pos (by simp),
      write_eq (by rw [h.length]; omega), ok_bind]
  · intro v hv
    by_cases hvm : v = m
    · rw [hvm, getElem?_set_self (by rw [h.length]; omega), update_self]
    · rw [getElem?_set_ne (Ne.symm hvm), update_of_ne hvm, h.known v (by omega)]
  · intro v hmv hv
    rw [getElem?_set_ne (by omega), h.unknown v (by omega) hv]

variable (id changed) in
/-- A node that was processed in an earlier round. -/
theorem Known.later_update (h : Known n doms parent (n + 1)) (hm : 0 < m) (hmn : m ≤ n)
    (hpreds : graph.predsOf m = .ok preds)
    (hc : preds.foldlM (Hir.meetPred doms) none = .ok (some c)) :
    ∃ doms', updateNode graph (doms, changed) (id, m - 1) =
        .ok (doms', changed || decide (parent m ≠ c)) ∧
      Known n doms' (update parent m c) (n + 1) := by
  have hnode : m - 1 + 1 = m := Nat.sub_add_cancel hm
  rw [updateNode, hnode, hpreds, ok_bind, hc, ok_bind]
  simp only
  rw [read_eq (h.known m (lt_succ_of_le hmn)), ok_bind]
  by_cases heq : parent m = c
  · refine ⟨doms, ?_, ?_⟩
    · rw [if_neg (by simp [heq]), decide_eq_false (not_not.2 heq), Bool.or_false]
    · rw [← heq, update_eq_self]
      exact h
  · refine ⟨doms.set m (some c), ?_, by rw [length_set, h.length], ?_, ?_⟩
    · rw [if_pos (by simpa using heq), write_eq (by rw [h.length]; omega), ok_bind,
        decide_eq_true heq, Bool.or_true]
    · intro v hv
      by_cases hvm : v = m
      · rw [hvm, getElem?_set_self (by rw [h.length]; omega), update_self]
      · rw [getElem?_set_ne (Ne.symm hvm), update_of_ne hvm, h.known v hv]
    · intro v hv hvn
      omega

end Known

/-! ## Rounds -/

section Rounds

variable {graph : Graph} {preds : ℕ → List ℕ}

/-- The entry behind those that are done. -/
theorem index_eq {ids : List BlockId} {done rest : List (BlockId × ℕ)} {id : BlockId} {index : ℕ}
    (h : ids.zipIdx = done ++ (id, index) :: rest) : index = done.length ∧ index < ids.length := by
  have hget : ids.zipIdx[done.length]? = some (id, index) := by
    rw [h, getElem?_append_right le_rfl, Nat.sub_self]
    rfl
  rw [getElem?_zipIdx, Option.map_eq_some_iff] at hget
  obtain ⟨x, hx, heq⟩ := hget
  have hlt := (List.getElem?_eq_some_iff.1 hx).1
  have hindex := congrArg Prod.snd heq
  omega

variable (hnum : Numbered graph.ids.length preds)
  (hpreds : ∀ v, 0 < v → v ≤ graph.ids.length → graph.predsOf v = .ok (preds v))
include hnum hpreds

theorem exists_first_round : ∃ doms changed parent,
    graph.ids.zipIdx.foldlM (updateNode graph)
        (some 0 :: replicate graph.ids.length none, false) = .ok (doms, changed) ∧
      Known graph.ids.length doms parent (graph.ids.length + 1) ∧
      First preds parent (graph.ids.length + 1) ∧ (graph.ids ≠ [] → changed = true) := by
  obtain ⟨⟨doms, changed⟩, hloop, parent, hknown, hfirst, hchanged⟩ := exists_foldlM
    graph.ids.zipIdx (f := updateNode graph)
    (s := (some 0 :: replicate graph.ids.length none, false))
    (P := fun done state => ∃ parent, Known graph.ids.length state.1 parent (done.length + 1) ∧
      First preds parent (done.length + 1) ∧ (done ≠ [] → state.2 = true))
    (by
      refine ⟨fun _ => 0, ⟨by simp, ?_, ?_⟩, ⟨fun v hv => hv, fun v hpos hv => ?_⟩, fun h => ?_⟩
      · intro v hv
        obtain rfl := lt_one_iff.1 hv
        rfl
      · intro v hv hvn
        obtain ⟨u, rfl⟩ := exists_eq_succ_of_ne_zero (ne_of_gt hv)
        rw [getElem?_cons_succ, getElem?_replicate, if_pos (by omega)]
      · rw [length_nil] at hv
        omega
      · exact absurd rfl h)
    (by
      rintro done ⟨id, index⟩ rest hxs ⟨doms, changed⟩ ⟨parent, hknown, hfirst, -⟩
      obtain ⟨rfl, hlt⟩ := index_eq hxs
      have hmn : done.length + 1 ≤ graph.ids.length := hlt
      obtain ⟨p, hp, hpm⟩ := hnum.before _ (succ_pos _) hmn
      obtain ⟨c, hc, hmeet⟩ := hknown.newIdom hfirst.falls (hnum.le _) ⟨p, hp, hpm⟩
      have hcm : c < done.length + 1 := by
        have hcp := (hmeet c).1 .refl p (mem_filter.2 ⟨hp, decide_eq_true hpm⟩)
        exact lt_of_le_of_lt (hcp.le hfirst.falls) hpm
      obtain ⟨hstep, hnext⟩ := hknown.first_update id changed
        (succ_pos _) hmn (hpreds _ (succ_pos _) hmn) hc
      refine ⟨_, hstep, update parent (done.length + 1) c, ?_, ?_, fun _ => rfl⟩
      · rw [length_append]
        exact hnext
      · rw [length_append]
        exact hfirst.step (succ_pos _) hmeet hcm)
  rw [length_zipIdx] at hknown hfirst
  refine ⟨doms, changed, parent, hloop, hknown, hfirst, fun h => hchanged ?_⟩
  simpa using h

/-- A later round changes nothing and has the meets, or lowers the sum of the parents. -/
theorem exists_later_round {doms : List (Option ℕ)} {parent : ℕ → ℕ}
    (hknown : Known graph.ids.length doms parent (graph.ids.length + 1))
    (hlater : Later graph.ids.length preds parent 1) : ∃ doms' changed parent',
    graph.ids.zipIdx.foldlM (updateNode graph) (doms, false) = .ok (doms', changed) ∧
      Known graph.ids.length doms' parent' (graph.ids.length + 1) ∧
      Later graph.ids.length preds parent' (graph.ids.length + 1) ∧
      Progress graph.ids.length preds parent parent' (graph.ids.length + 1) changed := by
  obtain ⟨⟨doms', changed⟩, hloop, parent', hknown', hlater', hprogress⟩ := exists_foldlM
    graph.ids.zipIdx (f := updateNode graph) (s := (doms, false))
    (P := fun done state => ∃ parent',
      Known graph.ids.length state.1 parent' (graph.ids.length + 1) ∧
      Later graph.ids.length preds parent' (done.length + 1) ∧
      Progress graph.ids.length preds parent parent' (done.length + 1) state.2)
    ⟨parent, hknown, hlater, .start parent⟩
    (by
      rintro done ⟨id, index⟩ rest hxs ⟨doms, changed⟩ ⟨parent', hknown, hlater, hprogress⟩
      obtain ⟨rfl, hlt⟩ := index_eq hxs
      have hmn : done.length + 1 ≤ graph.ids.length := hlt
      obtain ⟨p, hp, hpm⟩ := hnum.before _ (succ_pos _) hmn
      obtain ⟨c, hc, hmeet⟩ := hknown.newIdom hlater.falls (hnum.le _) ⟨p, hp, by omega⟩
      have hall : (preds (done.length + 1)).filter (· < graph.ids.length + 1) =
          preds (done.length + 1) := by
        rw [filter_eq_self]
        exact fun q hq => decide_eq_true (lt_succ_of_le (hnum.le _ q hq))
      rw [hall] at hmeet
      obtain ⟨doms', hstep, hnext⟩ := hknown.later_update id changed
        (succ_pos _) hmn (hpreds _ (succ_pos _) hmn) hc
      refine ⟨_, hstep, update parent' (done.length + 1) c, hnext, ?_, ?_⟩
      · rw [length_append]
        exact hlater.step hnum (succ_pos _) hmn hmeet
      · rw [length_append]
        exact hprogress.step hnum hlater (succ_pos _) hmn hmeet)
  rw [length_zipIdx] at hlater' hprogress
  exact ⟨doms', changed, parent', hloop, hknown', hlater', hprogress⟩

/-- The rounds end, and what is above a node is what dominates it. -/
theorem exists_dominators : ∃ doms parent,
    (∀ᶠ fuel in Filter.atTop, computeImmediateDominators fuel graph = .ok doms) ∧
      Known graph.ids.length doms parent (graph.ids.length + 1) ∧ Falls parent ∧
      ∀ v ≤ graph.ids.length, ∀ y, Dominates preds y v ↔ Above parent y v := by
  obtain ⟨doms, changed, parent, hstep, hknown, hfirst, hchanged⟩ :=
    exists_first_round hnum hpreds
  refine exists_loop_of_first hnum (fun _ _ => rfl) (fun doms parent hknown hlater => ?_)
    (.of_forall fun _ => hstep) hknown hfirst fun hpos => hchanged (ne_nil_of_length_pos hpos)
  obtain ⟨doms', changed, parent', hround, hend⟩ := exists_later_round hnum hpreds hknown hlater
  exact ⟨doms', changed, parent', .of_forall fun _ => hround, hend⟩

end Rounds

end Soup.Hir
