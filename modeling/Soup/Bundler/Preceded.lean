import Soup.Bundler.Idom

/-!
# What is preceded

An entry of the key is redundant when nothing that loads without the key has an `import()` of it
(`Redundant`). The walk back finds this out (`exists_walkBack`), and an entry of the key above the
node in the tree of dominators is enough for it (`Tree.redundant_of_above`).
-/

namespace Soup.Bundler

open Lib Dominance List Option Nat

namespace EntryGraph

variable (graph : EntryGraph) (key : ℕ → Bool)

/-- There is a path of `import()`s from an entry that is not guaranteed, without an entry of the
key. -/
inductive Loads : ℕ → Prop
  | root {e : ℕ} (lt : e < graph.len) (root : graph.guaranteed e = false) (free : key e = false) :
      Loads e
  | step {importer e : ℕ} (loads : Loads importer) (lt : e < graph.len)
      (imports : graph.imports importer e = true) (free : key e = false) : Loads e

/-- Nothing that loads without the key has an `import()` of the entry. -/
def Redundant (e : ℕ) : Prop :=
  graph.guaranteed e = true ∧ ¬∃ importer, graph.Loads key importer ∧
    graph.imports importer e = true

variable {graph key} {e importer x y : ℕ}

theorem Loads.lt (h : graph.Loads key x) : x < graph.len := by
  cases h with
  | root hlt => exact hlt
  | step _ hlt => exact hlt

theorem Loads.free (h : graph.Loads key x) : key x = false := by
  cases h with
  | root _ _ hfree => exact hfree
  | step _ _ _ hfree => exact hfree

theorem mem_predecessors (hguaranteed : graph.guaranteed e = true) :
    importer ∈ graph.predecessors e ↔
      importer < graph.len ∧ graph.imports importer e = true ∧ importer ≠ e := by
  rw [predecessors, if_pos hguaranteed, mem_ids, importerBits, Bool.and_eq_true, decide_eq_true_eq]

theorem predecessors_root (hroot : graph.guaranteed e = false) :
    graph.predecessors e = [graph.vroot] := by
  rw [predecessors, if_neg (by simp [hroot])]

/-! ## The tree -/

variable (graph) in
abbrev Tree (last : ℕ) (node parent : ℕ → ℕ) (idom : Nodes) : Prop :=
  DominatorTree graph.successors graph.predecessors graph.vroot
    (graph.len + 1) last node parent idom

variable (graph) in
theorem exists_tree : ∃ last node parent idom,
    (∀ᶠ fuel in Filter.atTop, graph.idom fuel = .ok idom) ∧ graph.Tree last node parent idom :=
  exists_immediateDominators (lt_add_one _)
    (fun _ hu _ hv => lt_succ_of_lt ((mem_successors hu).1 hv).1)
    (fun _ hu _ hv => ((mem_successors hu).1 hv).2)

namespace Tree

variable {last : ℕ} {node parent : ℕ → ℕ} {idom : Nodes}

section

variable (h : graph.Tree last node parent idom)
include h

theorem exists_number (hx : idom x ≠ none) : ∃ v ≤ last, node v = x := by
  by_contra hnot
  exact hx (h.known.unknown x fun v hv heq => hnot ⟨v, Nat.lt_succ_iff.1 hv, heq⟩)

theorem idom_ne_none {v : ℕ} (hv : v ≤ last) : idom (node v) ≠ none := by
  rw [h.known.known v (lt_succ_of_le hv)]
  exact some_ne_none _

/-- The number of an entry whose predecessor has one. -/
theorem next {u : ℕ} (hu : u ≤ last) (hx : x < graph.len)
    (hpred : node u ∈ graph.predecessors x) : ∃ v ≤ last, node v = x ∧
      u ∈ predNumbers last node graph.predecessors v := by
  obtain ⟨v, hv, rfl⟩ := h.closed u hu x ((mem_successors (h.lt u hu)).2 ⟨hx, hpred⟩)
  exact ⟨v, hv, rfl, mem_predNumbers.2 ⟨hu, hpred⟩⟩

/-- What loads is the end of a walk that has no entry of the key. -/
theorem exists_walk (hx : graph.Loads key x) :
    ∃ v ≤ last, node v = x ∧ ∃ l, Walk (predNumbers last node graph.predecessors) v l ∧
      ∀ y ∈ l, y = 0 ∨ key (node y) = false := by
  have hstart : ∀ e, e < graph.len → graph.guaranteed e = false → key e = false →
      ∃ v ≤ last, node v = e ∧ ∃ l, Walk (predNumbers last node graph.predecessors) v l ∧
        ∀ y ∈ l, y = 0 ∨ key (node y) = false := by
    intro e he hroot hfree
    obtain ⟨v, hv, rfl, hpred⟩ := h.next (zero_le _) he (by
      rw [h.root, predecessors_root hroot]
      exact mem_singleton_self _)
    refine ⟨v, hv, rfl, _, .step hpred .root, fun y hy => ?_⟩
    rcases mem_cons.1 hy with rfl | hy
    · exact .inr hfree
    · exact .inl (mem_singleton.1 hy)
  induction hx with
  | root hlt hroot hfree => exact hstart _ hlt hroot hfree
  | @step importer e hloads hlt himports hfree ih =>
    cases hguaranteed : graph.guaranteed e with
    | false => exact hstart e hlt hguaranteed hfree
    | true =>
      by_cases hself : importer = e
      · exact hself ▸ ih
      obtain ⟨u, hu, rfl, l, hwalk, hall⟩ := ih
      obtain ⟨v, hv, rfl, hpred⟩ := h.next hu hlt
        ((mem_predecessors hguaranteed).2 ⟨hloads.lt, himports, hself⟩)
      refine ⟨v, hv, rfl, _, .step hpred hwalk, fun y hy => ?_⟩
      rcases mem_cons.1 hy with rfl | hy
      · exact .inr hfree
      · exact hall y hy

/-- What loads was reached. -/
theorem idom_of_loads (hx : graph.Loads key x) : idom x ≠ none := by
  obtain ⟨v, hv, rfl, -⟩ := h.exists_walk hx
  exact h.idom_ne_none hv

/-- An entry of the key is imported by what loads, so that it has a walk of its own. -/
theorem exists_walk_entry (he : e < graph.len)
    (hkey : key e = true) (hguaranteed : graph.guaranteed e = true)
    (hloads : graph.Loads key importer)
    (himports : graph.imports importer e = true) : ∃ v ≤ last, node v = e ∧
      ∃ l, Walk (predNumbers last node graph.predecessors) v (v :: l) ∧
        ∀ y ∈ l, y = 0 ∨ key (node y) = false := by
  obtain ⟨u, hu, rfl, l, hwalk, hall⟩ := h.exists_walk hloads
  have hself : node u ≠ e := by
    rintro rfl
    rw [hloads.free] at hkey
    exact Bool.false_ne_true hkey
  obtain ⟨v, hv, rfl, hpred⟩ := h.next hu he
    ((mem_predecessors hguaranteed).2 ⟨hloads.lt, himports, hself⟩)
  exact ⟨v, hv, rfl, l, .step hpred hwalk, hall⟩

/-- An entry that was not reached is redundant. -/
theorem redundant_of_none (he : e < graph.len)
    (hkey : key e = true) (hguaranteed : graph.guaranteed e = true) (hnone : idom e = none) :
    graph.Redundant key e := by
  refine ⟨hguaranteed, fun ⟨importer, hloads, himports⟩ => ?_⟩
  obtain ⟨v, hv, rfl, -⟩ := h.exists_walk_entry he hkey hguaranteed hloads himports
  exact h.idom_ne_none hv hnone

/-- An entry below one of the key is redundant. -/
theorem redundant_of_above {v d : ℕ} (hv : v ≤ last)
    (he : node v < graph.len) (hkey : key (node v) = true)
    (hguaranteed : graph.guaranteed (node v) = true) (hd : 0 < d) (hne : d ≠ v)
    (habove : Above parent d v) (hin : key (node d) = true) : graph.Redundant key (node v) := by
  refine ⟨hguaranteed, fun ⟨importer, hloads, himports⟩ => ?_⟩
  obtain ⟨w, hw, heq, l, hwalk, hall⟩ := h.exists_walk_entry he hkey hguaranteed hloads himports
  obtain rfl := h.inj w v hw hv heq
  have hmem := (h.dominates_iff w hw d).2 habove _ hwalk
  rcases hall d ((mem_cons.1 hmem).resolve_left hne) with hzero | hfree
  · exact ne_of_gt hd hzero
  · rw [hin] at hfree
    exact Bool.true_eq_false.mp hfree

/-- The fast path goes up to the root. -/
theorem exists_dominatedByKey (key : ℕ → Bool) (v : ℕ) :
    v ≤ last → ∃ fast, (∀ fuel > v, graph.dominatedByKey idom key fuel (some (node v)) = .ok fast) ∧
      (fast = true → ∃ d, 0 < d ∧ Above parent d v ∧ key (node d) = true) := by
  induction v using Nat.strong_induction_on with
  | _ v ih =>
    intro hv
    by_cases hroot : node v = graph.vroot
    · refine ⟨false, fun fuel hfuel => ?_, fun hfast => absurd hfast Bool.false_ne_true⟩
      obtain ⟨fuel, rfl⟩ := exists_eq_succ_of_ne_zero (ne_of_gt hfuel.pos)
      rw [dominatedByKey, if_pos hroot]
    have hpos : 0 < v := by
      refine pos_of_ne_zero fun hzero => hroot ?_
      rw [hzero, h.root]
    by_cases hin : key (node v) = true
    · refine ⟨true, fun fuel hfuel => ?_, fun _ => ⟨v, hpos, .refl, hin⟩⟩
      obtain ⟨fuel, rfl⟩ := exists_eq_succ_of_ne_zero (ne_of_gt hfuel.pos)
      rw [dominatedByKey, if_neg hroot, if_pos hin]
    · have hlt := h.falls v hpos
      obtain ⟨fast, hup, hspec⟩ := ih _ hlt (by omega)
      refine ⟨fast, fun fuel hfuel => ?_, fun hfast => ?_⟩
      · obtain ⟨fuel, rfl⟩ := exists_eq_succ_of_ne_zero (ne_of_gt hfuel.pos)
        rw [dominatedByKey, if_neg hroot, if_neg hin, h.known.known v (lt_succ_of_le hv)]
        exact hup fuel (by omega)
      · obtain ⟨d, hd, habove, hkey⟩ := hspec hfast
        exact ⟨d, hd, .up hpos habove, hkey⟩

/-- What the fast path says is true. -/
theorem exists_fast (he : e < graph.len)
    (hkey : key e = true) (hguaranteed : graph.guaranteed e = true) :
    ∃ fast, (∀ᶠ fuel in Filter.atTop, graph.dominatedByKey idom key fuel (idom e) = .ok fast) ∧
      (fast = true → graph.Redundant key e) := by
  cases hidom : idom e with
  | none =>
    exact ⟨true, eventually_succ (.of_forall fun _ => rfl),
      fun _ => h.redundant_of_none he hkey hguaranteed hidom⟩
  | some up =>
    obtain ⟨v, hv, rfl⟩ := h.exists_number (hidom ▸ some_ne_none up)
    have hpos : 0 < v := by
      refine pos_of_ne_zero fun hzero => ?_
      rw [hzero, h.root] at he
      exact lt_irrefl _ he
    have hlt := h.falls v hpos
    rw [h.known.known v (lt_succ_of_le hv), some.injEq] at hidom
    obtain ⟨fast, hrun, hspec⟩ := h.exists_dominatedByKey key (parent v) (by omega)
    refine ⟨fast, ?_, fun hfast => ?_⟩
    · filter_upwards [Filter.eventually_gt_atTop (parent v)] with fuel hfuel
      rw [← hidom]
      exact hrun fuel hfuel
    · obtain ⟨d, hd, habove, hin⟩ := hspec hfast
      have hle := habove.le h.falls
      exact h.redundant_of_above hv he hkey hguaranteed hd (by omega) (.up hpos habove) hin

end

end Tree

end EntryGraph

end Soup.Bundler
