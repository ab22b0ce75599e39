import Mathlib.Data.Finset.Card
import Mathlib.Data.Prod.Lex
import Soup.Sema.Tarjan

/-!
# The traversal comes to its end

A state between two passes of the loop is `Ready`: its last node in progress was visited, or is
about to be. A pass goes through, and makes what is left less: the nodes that are neither visited
nor in progress, or else the edges to follow (`step_ready`). So the traversal ends (`loop_ready`),
with every node done, and what it found is the partition into components
(`stronglyConnectedComponents_spec`).
-/

namespace Soup.Sema

open Lib Relation List Option

namespace Traversal

variable {edges : List (List ℕ)} {s : Traversal} {path rest : List (ℕ × ℕ)} {v w node next k : ℕ}

/-- A state between two passes of the loop. -/
inductive Ready (edges : List (List ℕ)) (s : Traversal) : Prop
  | going : Inv edges s s.inProgress → (∀ e ∈ s.inProgress, e.2 ≠ 0) → Ready edges s
  | fresh {node : ℕ} {path : List (ℕ × ℕ)} : s.inProgress = (node, 0) :: path → ¬s.Visited node →
    Inv edges (s.visit node) ((node, 0) :: path) → (∀ e ∈ path, e.2 ≠ 0) → Ready edges s

/-- The nodes that are neither visited nor in progress. -/
def unseen (edges : List (List ℕ)) (s : Traversal) : Finset ℕ :=
  (Finset.range edges.length).filter fun v =>
    (s.nodes v).index = none ∧ v ∉ s.inProgress.map Prod.fst

/-- The edges that are left of what is in progress, and the ends of its nodes. -/
def remaining (edges : List (List ℕ)) (inProgress : List (ℕ × ℕ)) : ℕ :=
  (inProgress.map fun e => (edges.getD e.1 []).length - e.2 + 1).sum

/-- Less is left. -/
def Less (edges : List (List ℕ)) (t s : Traversal) : Prop :=
  Prod.Lex (· < ·) (· < ·) ((unseen edges t).card, remaining edges t.inProgress)
    ((unseen edges s).card, remaining edges s.inProgress)

theorem less_of_remaining {t : Traversal} (hsub : unseen edges t ⊆ unseen edges s)
    (hlt : remaining edges t.inProgress < remaining edges s.inProgress) : Less edges t s := by
  rw [Less, Prod.lex_def]
  exact (Finset.card_le_card hsub).lt_or_eq.imp_right fun heq => ⟨heq, hlt⟩

theorem mem_unseen : v ∈ unseen edges s ↔
    v < edges.length ∧ ¬s.Visited v ∧ v ∉ s.inProgress.map Prod.fst := by
  rw [unseen, Finset.mem_filter, Finset.mem_range, Visited, not_not]

/-- What a pass makes of a state. -/
structure Passes (edges : List (List ℕ)) (s t : Traversal) : Prop where
  ready : Ready edges t
  visited : ∀ v, s.Visited v ∨ v ∈ s.inProgress.map Prod.fst →
    t.Visited v ∨ v ∈ t.inProgress.map Prod.fst
  less : Less edges t s

theorem follow_passes (hclosed : Closed edges) (hprogress : s.inProgress = (node, k) :: rest)
    (h : Inv edges s ((node, k) :: rest)) (hrest : ∀ e ∈ rest, e.2 ≠ 0)
    (hnext : (edges.getD node [])[k]? = some next) :
    ∃ t, s.follow edges node k next rest = .ok t ∧ Passes edges s t := by
  have hnode : node ∈ s.stack := h.path_stack node mem_cons_self
  have hedge : Edge edges node next := mem_of_getElem? hnext
  have hlt := hclosed.lt hedge
  have hrow : k < (edges.getD node []).length := (List.getElem?_eq_some_iff.1 hnext).1
  have hrest' : ∀ e ∈ (node, k + 1) :: rest, e.2 ≠ 0 := fun e he =>
    (mem_cons.1 he).elim (fun heq => heq ▸ Nat.succ_ne_zero k) (hrest e)
  have hless : remaining edges ((node, k + 1) :: rest) < remaining edges s.inProgress := by
    rw [hprogress, remaining, remaining, map_cons, map_cons, sum_cons, sum_cons]
    dsimp only
    omega
  have hmap : ((node, k + 1) :: rest).map Prod.fst = s.inProgress.map Prod.fst := by
    rw [hprogress, map_cons, map_cons]
  rw [follow]
  rw [if_neg (not_le.2 hlt)]
  cases hindex : (s.nodes next).index with
  | none =>
    have hnew : ¬s.Visited next := not_not.2 hindex
    have hvisit := h.visit hnew hlt fun e he => (some.inj he) ▸ hedge
    have hself : (s.visit next).Visited next := visited_visit.2 (.inl rfl)
    have hadvance : Inv edges (s.visit next) ([(next, 0)] ++ (node, k + 1) :: rest) := by
      refine Inv.advance [(next, 0)] hvisit hnext hself fun _ => ?_
      have hne : node ≠ next := fun heq => hnew (heq ▸ h.visited node hnode)
      rw [low_visit_of_ne hne, rank_visit_self]
      exact (h.le node hnode).trans (h.rank_lt node (h.visited node hnode)).le
    refine ⟨_, rfl, ⟨.fresh rfl hnew (hadvance.withProgress _) hrest', fun v hv => ?_, ?_⟩⟩
    · refine hv.imp_right fun hv => ?_
      rw [map_cons, hmap]
      exact mem_cons_of_mem _ hv
    · refine Prod.Lex.left _ _ (Finset.card_lt_card ⟨fun v hv => ?_, fun hsub => ?_⟩)
      · obtain ⟨hv, hunvisited, hout⟩ := mem_unseen.1 hv
        refine mem_unseen.2 ⟨hv, hunvisited, fun hmem => hout ?_⟩
        rw [map_cons, hmap]
        exact mem_cons_of_mem _ hmem
      · refine (mem_unseen.1 (hsub (mem_unseen.2 ⟨hlt, hnew, fun hmem => ?_⟩))).2.2 mem_cons_self
        exact hnew (h.visited next (h.path_stack next (hprogress ▸ hmem)))
  | some index =>
    have hvisited : s.Visited next := fun hnone => by
      rw [hindex] at hnone
      cases hnone
    have hrank : s.rank next = index := by
      rw [rank, hindex]
      rfl
    dsimp only
    split
    next hon =>
      have hstack := (h.on_stack next).1 hon
      have hlower := h.lower mem_cons_self hstack (.single hedge)
      rw [hrank] at hlower
      have hadvance := Inv.advance [] hlower hnext ((visited_lower _ _).2 hvisited) fun _ => by
        rw [low_lower_self, rank_lower, hrank]
        exact min_le_right _ _
      refine ⟨_, rfl,
        ⟨.going (hadvance.withProgress _) hrest', fun v hv => ?_, less_of_remaining ?_ hless⟩⟩
      · exact hv.imp (fun hv => (visited_lower _ _).2 hv) fun hv => by rw [← hmap] at hv; exact hv
      · intro v hv
        obtain ⟨hv, hunvisited, hout⟩ := mem_unseen.1 hv
        refine mem_unseen.2 ⟨hv, fun hv => hunvisited ((visited_lower _ _).2 hv),
          fun hmem => hout ?_⟩
        rw [← hmap] at hmem
        exact hmem
    next hoff =>
      have hadvance := Inv.advance [] h hnext hvisited fun hstack =>
        absurd ((h.on_stack next).2 hstack) hoff
      refine ⟨_, rfl,
        ⟨.going (hadvance.withProgress _) hrest', fun v hv => ?_, less_of_remaining ?_ hless⟩⟩
      · exact hv.imp_right fun hv => by rw [← hmap] at hv; exact hv
      · intro v hv
        obtain ⟨hv, hunvisited, hout⟩ := mem_unseen.1 hv
        refine mem_unseen.2 ⟨hv, hunvisited, fun hmem => hout ?_⟩
        rw [← hmap] at hmem
        exact hmem

/-- The low link of a node goes to its parent. -/
theorem finish_eq (h : Inv edges s ((node, k) :: rest)) : ∃ t,
    s.finish node rest =
      (if (t.nodes node).index = some (t.nodes node).lowlink then t.popComponent node else .ok t) ∧
    Inv edges t ((node, k) :: rest) ∧ t.inProgress = rest ∧ (∀ v, t.Visited v ↔ s.Visited v) ∧
    ∀ e ∈ rest.head?, t.low e.1 ≤ t.low node := by
  cases rest with
  | nil => exact ⟨_, rfl, h.withProgress [], rfl, fun v => Iff.rfl, fun e he => by cases he⟩
  | cons e rest =>
    obtain ⟨parent, j⟩ := e
    have hnode : node ∈ s.stack := h.path_stack node mem_cons_self
    have hlt : s.rank parent < s.rank node :=
      (pairwise_cons.1 h.path_sorted).1 (parent, j) mem_cons_self
    have hne : node ≠ parent := fun heq => absurd (heq ▸ hlt) (lt_irrefl _)
    have hparent : parent ∈ ((node, k) :: (parent, j) :: rest).map Prod.fst :=
      mem_cons_of_mem _ mem_cons_self
    obtain ⟨w, hw, heq, hreach⟩ := h.reach node hnode
    have hlower := h.lower hparent hw ((h.leads parent hparent node hnode hlt.le).trans hreach)
    rw [heq] at hlower
    refine ⟨_, rfl, hlower.withProgress _, rfl, fun v => visited_lower _ v, fun e he => ?_⟩
    obtain rfl := some.inj he
    rw [low_lower_self, low_lower_of_ne hne]
    exact min_le_right _ _

theorem finish_passes (hprogress : s.inProgress = (node, k) :: rest)
    (h : Inv edges s ((node, k) :: rest)) (hrest : ∀ e ∈ rest, e.2 ≠ 0)
    (hall : (edges.getD node []).length ≤ k) :
    ∃ t, s.finish node rest = .ok t ∧ Passes edges s t := by
  have hnode : node ∈ s.stack := h.path_stack node mem_cons_self
  have hvisited := h.visited node hnode
  have hless : remaining edges rest < remaining edges s.inProgress := by
    rw [hprogress, remaining, remaining, map_cons, sum_cons]
    omega
  have hpasses {t : Traversal} (ht : Inv edges t rest) (hrest' : t.inProgress = rest)
      (hsame : ∀ v, t.Visited v ↔ s.Visited v) : Passes edges s t := by
    refine ⟨.going (hrest' ▸ ht) (hrest' ▸ hrest), fun v hv => ?_,
      less_of_remaining (fun v hv => ?_) (hrest' ▸ hless)⟩
    · rw [hsame, hrest']
      rw [hprogress, map_cons, mem_cons] at hv
      rcases hv with hv | rfl | hv
      · exact .inl hv
      · exact .inl hvisited
      · exact .inr hv
    · obtain ⟨hv, hunvisited, hout⟩ := mem_unseen.1 hv
      rw [hsame] at hunvisited
      rw [hrest'] at hout
      refine mem_unseen.2 ⟨hv, hunvisited, fun hmem => ?_⟩
      rw [hprogress, map_cons, mem_cons] at hmem
      rcases hmem with rfl | hmem
      · exact hunvisited hvisited
      · exact hout hmem
  obtain ⟨t, heq, ht, hrest', hsame, hparent⟩ := finish_eq h
  have hindex : (t.nodes node).index = some (t.rank node) := by
    obtain ⟨index, hindex⟩ := ne_none_iff_exists'.1 ((hsame node).2 hvisited)
    rw [rank, hindex]
    rfl
  rw [heq]
  split
  next hroot =>
    have hroot : t.low node = t.rank node := (some.inj (hindex.symm.trans hroot)).symm
    obtain ⟨t', hpop, ht', hprogress', hsame'⟩ := ht.pop hall hroot
    exact ⟨t', hpop, hpasses ht' (hprogress'.trans hrest') fun v => (hsame' v).trans (hsame v)⟩
  next hroot =>
    have hne : t.low node ≠ t.rank node := fun heq => hroot (hindex.trans (congrArg some heq.symm))
    have hlt := lt_of_le_of_ne (ht.le node (ht.path_stack node mem_cons_self)) hne
    exact ⟨t, rfl, hpasses (ht.leave hall hlt hparent) hrest' hsame⟩

/-- A visit is no pass of its own. -/
theorem Passes.of_visit {t : Traversal} (h : Passes edges (s.visit node) t) : Passes edges s t where
  ready := h.ready
  visited := fun v hv => h.visited v (hv.imp_left fun hv => visited_visit.2 (.inr hv))
  less := by
    have hsub : unseen edges (s.visit node) ⊆ unseen edges s := fun v hv => by
      obtain ⟨hlt, hunvisited, hout⟩ := mem_unseen.1 hv
      exact mem_unseen.2 ⟨hlt, fun hv => hunvisited (visited_visit.2 (.inr hv)), hout⟩
    rcases Prod.lex_def.1 h.less with hlt | ⟨heq, hlt⟩
    · exact Prod.Lex.left _ _ (lt_of_lt_of_le hlt (Finset.card_le_card hsub))
    · rw [Less, Prod.lex_def]
      exact (heq.trans_le (Finset.card_le_card hsub)).lt_or_eq.imp_right fun heq => ⟨heq, hlt⟩

/-- A pass for a node that was visited, in the state `s'`. -/
theorem row_passes {s' : Traversal} (hvisit : (if k = 0 then s.visit node else s) = s')
    (hclosed : Closed edges) (hprogress : s'.inProgress = (node, k) :: rest)
    (h : Inv edges s' ((node, k) :: rest)) (hrest : ∀ e ∈ rest, e.2 ≠ 0) :
    ∃ t, s.step edges node k rest = .ok t ∧ Passes edges s' t := by
  have hlt := h.bounded node (h.visited node (h.path_stack node mem_cons_self))
  have hrow : edges.getD node [] = edges[node] := by
    rw [getD_eq_getElem?_getD, getElem?_eq_getElem hlt, getD_some]
  rw [step, hvisit, getElem?_eq_getElem hlt]
  dsimp only
  cases hnext : edges[node][k]? with
  | some next => exact follow_passes hclosed hprogress h hrest (hrow ▸ hnext)
  | none => exact finish_passes hprogress h hrest (hrow ▸ getElem?_eq_none_iff.1 hnext)

theorem step_passes (hclosed : Closed edges) (hprogress : s.inProgress = (node, k) :: rest)
    (h : Ready edges s) : ∃ t, s.step edges node k rest = .ok t ∧ Passes edges s t := by
  cases h with
  | going h hpath =>
    rw [hprogress] at h hpath
    have hk : k ≠ 0 := hpath (node, k) mem_cons_self
    exact row_passes (if_neg hk) hclosed hprogress h fun e he => hpath e (mem_cons_of_mem _ he)
  | fresh hfresh hnew h hpath =>
    obtain ⟨heq, rfl⟩ := cons.inj (hprogress.symm.trans hfresh)
    obtain ⟨rfl, rfl⟩ := Prod.mk.inj heq
    obtain ⟨t, ht, hpasses⟩ := row_passes (if_pos rfl) hclosed hprogress h hpath
    exact ⟨t, ht, hpasses.of_visit⟩

theorem less_wf (edges : List (List ℕ)) : WellFounded (Less edges) :=
  InvImage.wf (fun s => ((unseen edges s).card, remaining edges s.inProgress))
    (WellFounded.prod_lex wellFounded_lt wellFounded_lt)

/-- The loop takes every node in progress to its end. -/
theorem loop_ready (hclosed : Closed edges) (h : Ready edges s) : ∃ t,
    (∀ᶠ fuel in Filter.atTop, loop edges fuel s = .ok t) ∧ Inv edges t [] ∧ t.inProgress = [] ∧
    ∀ v, s.Visited v ∨ v ∈ s.inProgress.map Prod.fst → t.Visited v := by
  induction s using (less_wf edges).induction with
  | _ s ih =>
    cases hprogress : s.inProgress with
    | nil =>
      cases h with
      | fresh hfresh => exact absurd (hprogress.symm.trans hfresh) (cons_ne_nil _ _).symm
      | going h =>
        refine ⟨s, eventually_succ (.of_forall fun fuel => ?_), hprogress ▸ h, hprogress,
          fun v hv => hv.resolve_right not_mem_nil⟩
        rw [loop, hprogress]
    | cons e rest =>
      obtain ⟨node, k⟩ := e
      obtain ⟨s', hstep, hpasses⟩ := step_passes hclosed hprogress h
      obtain ⟨t, hloop, ht, hend, hvisited⟩ := ih s' hpasses.less hpasses.ready
      refine ⟨t, eventually_succ (hloop.mono fun fuel hloop => ?_), ht, hend, fun v hv =>
        hvisited v (hpasses.visited v (hprogress ▸ hv))⟩
      rw [loop, hprogress]
      dsimp only
      rw [hstep, ok_bind, hloop]

theorem fromRoot_spec (hclosed : Closed edges) {root : ℕ} (hlt : root < edges.length)
    (h : Inv edges s []) (hprogress : s.inProgress = []) : ∃ t,
    (∀ᶠ fuel in Filter.atTop, fromRoot edges fuel s root = .ok t) ∧ Inv edges t [] ∧
    t.inProgress = [] ∧ ∀ v, s.Visited v ∨ v = root → t.Visited v := by
  by_cases hroot : s.Visited root
  · refine ⟨s, .of_forall fun fuel => if_pos hroot, h, hprogress, fun v hv => ?_⟩
    rcases hv with hv | rfl
    · exact hv
    · exact hroot
  · have hready : Ready edges { s with inProgress := (root, 0) :: s.inProgress } := by
      refine .fresh rfl hroot ?_ fun e he => ?_
      · rw [hprogress]
        exact (h.visit hroot hlt fun e he => by cases he).withProgress _
      · rw [hprogress] at he
        cases he
    obtain ⟨t, hloop, ht, hend, hvisited⟩ := loop_ready hclosed hready
    refine ⟨t, hloop.mono fun fuel hloop => (if_neg hroot).trans hloop, ht, hend, fun v hv =>
      hvisited v (hv.imp_right fun heq => ?_)⟩
    rw [heq]
    exact mem_cons_self

end Traversal

/-! ## The components -/

/-- A directed graph: the nodes each node has an edge to. -/
structure Graph where
  edges : List (List ℕ)
  closed : Closed edges

/-- The partition of the nodes into strongly connected components, numbered so that no edge leads to
a higher number. -/
structure Partition (edges : List (List ℕ)) (numberOf : List ℕ) (components : List (List ℕ)) :
    Prop where
  length : numberOf.length = edges.length
  mem : ∀ number v : ℕ,
    (∃ nodes, components[number]? = some nodes ∧ v ∈ nodes) ↔ numberOf[v]? = some number
  ascending : ∀ nodes ∈ components, nodes ≠ [] ∧ nodes.Pairwise (· < ·)
  classes : ∀ v < edges.length, ∀ w < edges.length,
    numberOf[v]? = numberOf[w]? ↔ Mutual (Edge edges) v w
  edge_le : ∀ v w, Edge edges v w → ∀ a ∈ numberOf[v]?, ∀ b ∈ numberOf[w]?, b ≤ a

theorem stronglyConnectedComponents_spec (g : Graph) : ∃ numberOf components,
    (∀ᶠ fuel in Filter.atTop, stronglyConnectedComponents fuel g.edges =
      .ok (numberOf, components)) ∧
    Partition g.edges numberOf components := by
  obtain ⟨edges, hclosed⟩ := g
  obtain ⟨t, hrun, ⟨ht, -, hall⟩⟩ := eventually_foldlM
    (f := fun fuel => Traversal.fromRoot edges fuel)
    (P := fun done s => Traversal.Inv edges s [] ∧ s.inProgress = [] ∧ ∀ root ∈ done,
      s.Visited root)
    (range edges.length) (s := {})
    ⟨Traversal.inv_start edges, rfl, fun root hroot => absurd hroot not_mem_nil⟩
    fun done root rest heq s hs => by
      obtain ⟨h, hprogress, hdone⟩ := hs
      have hlt : root < edges.length :=
        mem_range.1 (heq ▸ mem_append_right _ mem_cons_self)
      obtain ⟨t, hrun, ht, hend, hvisited⟩ := Traversal.fromRoot_spec hclosed hlt h hprogress
      refine ⟨t, hrun, ht, hend, fun v hv => hvisited v ?_⟩
      rcases mem_append.1 hv with hv | hv
      · exact .inl (hdone v hv)
      · exact .inr (mem_singleton.1 hv)
  have hdone (v : ℕ) : t.Done v ↔ v < edges.length := by
    refine ⟨fun hv => ht.bounded v hv.1, fun hv => ⟨hall v (mem_range.2 hv), fun hmem => ?_⟩⟩
    obtain ⟨q, hq, -⟩ := ht.owned v hmem
    exact absurd hq not_mem_nil
  have hnumber (v number : ℕ) : ((range edges.length).map t.componentOf)[v]? = some number ↔
      v < edges.length ∧ t.componentOf v = number := by
    rw [getElem?_map, map_eq_some_iff]
    constructor
    · rintro ⟨w, hw, rfl⟩
      obtain ⟨hlt, rfl⟩ := List.getElem?_eq_some_iff.1 hw
      rw [length_range] at hlt
      rw [getElem_range]
      exact ⟨hlt, rfl⟩
    · rintro ⟨hlt, rfl⟩
      exact ⟨v, getElem?_range hlt, rfl⟩
  refine ⟨(range edges.length).map t.componentOf, t.components, hrun.mono fun fuel hrun => ?_,
    ?_, fun number v => ?_, ht.ascending,
    fun v hv w hw => ?_, fun v w hvw a ha b hb => ?_⟩
  · rw [stronglyConnectedComponents, hrun]
    rfl
  · rw [length_map, length_range]
  · rw [hnumber, ht.mem, hdone]
  · rw [(hnumber v _).2 ⟨hv, rfl⟩, (hnumber w _).2 ⟨hw, rfl⟩, some_inj]
    exact ht.classes v w ((hdone v).2 hv) ((hdone w).2 hw)
  · obtain ⟨hv, rfl⟩ := (hnumber v a).1 ha
    obtain ⟨hw, rfl⟩ := (hnumber w b).1 hb
    exact ht.edge_le v w ((hdone v).2 hv) hvw

end Soup.Sema
