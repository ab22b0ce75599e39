import Soup.Lib.Mutual
import Soup.Sema.Components

/-!
# The invariant of the traversal

A node is done when it has left the stack. `path` is what is in progress, the last entry first, with
how many edges of each node were followed; an edge is followed when it is among these or its node is
no longer in progress.

`Visits` says where the nodes are, `Lows` what the low links know, and `Numbers` that the components
that were found are classes of `Mutual`. They hold together as `Inv`.
-/

namespace Soup.Sema

open Lib Relation List Function

/-- `edges` has an edge from `v` to `w`. -/
def Edge (edges : List (List ℕ)) (v w : ℕ) : Prop := w ∈ edges.getD v []

/-- Every edge leads to a node. -/
def Closed (edges : List (List ℕ)) : Prop := ∀ targets ∈ edges, ∀ w ∈ targets, w < edges.length

theorem Closed.lt {edges : List (List ℕ)} (h : Closed edges) {v w : ℕ} (hedge : Edge edges v w) :
    w < edges.length := by
  rw [Edge, getD_eq_getElem?_getD] at hedge
  cases hrow : edges[v]? with
  | none => rw [hrow] at hedge; cases hedge
  | some targets =>
    rw [hrow] at hedge
    exact h targets (mem_of_getElem? hrow) w hedge

namespace Traversal

variable {edges : List (List ℕ)} {s : Traversal} {path rest : List (ℕ × ℕ)} {v w node next k : ℕ}

def Visited (s : Traversal) (v : ℕ) : Prop := (s.nodes v).index ≠ none

/-- When a node was visited. -/
def rank (s : Traversal) (v : ℕ) : ℕ := (s.nodes v).index.getD 0

def low (s : Traversal) (v : ℕ) : ℕ := (s.nodes v).lowlink

def Done (s : Traversal) (v : ℕ) : Prop := s.Visited v ∧ v ∉ s.stack

/-- The edge from `v` to `w` was followed. -/
def Followed (edges : List (List ℕ)) (path : List (ℕ × ℕ)) (v w : ℕ) : Prop :=
  Edge edges v w ∧ ∀ k, (v, k) ∈ path → w ∈ (edges.getD v []).take k

/-- The last node in progress that was visited no later than `x`. -/
def Owner (s : Traversal) (path : List (ℕ × ℕ)) (q x : ℕ) : Prop :=
  q ∈ path.map Prod.fst ∧ s.rank q ≤ s.rank x ∧
    ∀ q' ∈ path.map Prod.fst, s.rank q' ≤ s.rank x → s.rank q' ≤ s.rank q

/-- Where the nodes are. -/
structure Visits (edges : List (List ℕ)) (s : Traversal) (path : List (ℕ × ℕ)) : Prop where
  rank_lt : ∀ v, s.Visited v → s.rank v < s.visited
  rank_inj : ∀ v w, s.Visited v → s.Visited w → s.rank v = s.rank w → v = w
  bounded : ∀ v, s.Visited v → v < edges.length
  sorted : s.stack.Pairwise fun v w => s.rank w < s.rank v
  on_stack : ∀ v, (s.nodes v).isOnStack = true ↔ v ∈ s.stack
  visited : ∀ v ∈ s.stack, s.Visited v
  path_sorted : path.Pairwise fun e f => s.rank f.1 < s.rank e.1
  path_stack : ∀ v ∈ path.map Prod.fst, v ∈ s.stack
  followed : ∀ v w, s.Visited v → Followed edges path v w → s.Visited w
  owned : ∀ x ∈ s.stack, ∃ q ∈ path.map Prod.fst, s.rank q ≤ s.rank x
  leads : ∀ q ∈ path.map Prod.fst, ∀ x ∈ s.stack, s.rank q ≤ s.rank x →
    ReflTransGen (Edge edges) q x

/-- What the low links know. -/
structure Lows (edges : List (List ℕ)) (s : Traversal) (path : List (ℕ × ℕ)) : Prop where
  le : ∀ v ∈ s.stack, s.low v ≤ s.rank v
  reach : ∀ v ∈ s.stack, ∃ w ∈ s.stack, s.rank w = s.low v ∧ ReflTransGen (Edge edges) v w
  /-- A node that is no longer in progress has left its component to one before it. -/
  lt : ∀ v ∈ s.stack, v ∉ path.map Prod.fst → s.low v < s.rank v
  owner : ∀ x ∈ s.stack, ∀ w ∈ s.stack, Followed edges path x w →
    ∃ q, s.Owner path q x ∧ s.low q ≤ s.rank w

/-- What the components are. -/
structure Numbers (edges : List (List ℕ)) (s : Traversal) : Prop where
  closed : ∀ v w, s.Done v → Edge edges v w → s.Done w
  mem : ∀ number v, (∃ nodes, s.components[number]? = some nodes ∧ v ∈ nodes) ↔
    s.Done v ∧ s.componentOf v = number
  ascending : ∀ nodes ∈ s.components, nodes ≠ [] ∧ nodes.Pairwise (· < ·)
  classes : ∀ v w, s.Done v → s.Done w →
    (s.componentOf v = s.componentOf w ↔ Mutual (Edge edges) v w)
  edge_le : ∀ v w, s.Done v → Edge edges v w → s.componentOf w ≤ s.componentOf v

structure Inv (edges : List (List ℕ)) (s : Traversal) (path : List (ℕ × ℕ)) : Prop extends
  Visits edges s path, Lows edges s path, Numbers edges s

theorem inv_start (edges : List (List ℕ)) : Inv edges {} [] where
  rank_lt := fun v hv => absurd rfl hv
  rank_inj := fun v _ hv => absurd rfl hv
  bounded := fun v hv => absurd rfl hv
  sorted := .nil
  on_stack := fun v => ⟨fun h => Bool.noConfusion h, fun h => absurd h not_mem_nil⟩
  visited := fun v hv => absurd hv not_mem_nil
  path_sorted := .nil
  path_stack := fun v hv => absurd hv not_mem_nil
  followed := fun v _ hv => absurd rfl hv
  owned := fun v hv => absurd hv not_mem_nil
  leads := fun v hv => absurd hv not_mem_nil
  le := fun v hv => absurd hv not_mem_nil
  reach := fun v hv => absurd hv not_mem_nil
  lt := fun v hv => absurd hv not_mem_nil
  owner := fun v hv => absurd hv not_mem_nil
  closed := fun v _ hv => absurd rfl hv.1
  mem := fun number v => by
    refine ⟨?_, fun h => absurd rfl h.1.1⟩
    rintro ⟨nodes, h, -⟩
    cases h
  ascending := fun nodes h => absurd h not_mem_nil
  classes := fun v _ hv => absurd rfl hv.1
  edge_le := fun v _ hv => absurd rfl hv.1

/-! ## A new node -/

theorem visit_nodes_self : (s.visit node).nodes node = ⟨some s.visited, s.visited, true⟩ :=
  update_self ..

theorem visit_nodes_of_ne (h : v ≠ node) : (s.visit node).nodes v = s.nodes v :=
  update_of_ne h ..

theorem visited_visit : (s.visit node).Visited v ↔ v = node ∨ s.Visited v := by
  by_cases h : v = node
  · subst h
    rw [Visited, visit_nodes_self]
    exact ⟨fun _ => .inl rfl, fun _ h => by cases h⟩
  · rw [Visited, visit_nodes_of_ne h]
    exact ⟨.inr, fun hv => hv.resolve_left h⟩

theorem rank_visit_self : (s.visit node).rank node = s.visited := by
  rw [rank, visit_nodes_self]
  rfl

theorem rank_visit_of_ne (h : v ≠ node) : (s.visit node).rank v = s.rank v := by
  rw [rank, visit_nodes_of_ne h, rank]

theorem low_visit_of_ne (h : v ≠ node) : (s.visit node).low v = s.low v := by
  rw [low, visit_nodes_of_ne h, low]

theorem done_visit (hnew : ¬s.Visited node) : (s.visit node).Done v ↔ s.Done v := by
  rw [Done, Done, visited_visit]
  constructor
  · rintro ⟨rfl | hv, hstack⟩
    · exact absurd mem_cons_self hstack
    · exact ⟨hv, fun h => hstack (mem_cons_of_mem _ h)⟩
  · rintro ⟨hv, hstack⟩
    refine ⟨.inr hv, fun h => ?_⟩
    rcases mem_cons.1 h with rfl | h
    · exact hnew hv
    · exact hstack h

/-- No edge of a new node was followed. -/
theorem followed_cons_zero (h : Followed edges ((node, 0) :: path) v w) :
    v ≠ node ∧ Followed edges path v w := by
  refine ⟨?_, h.1, fun k hk => h.2 k (mem_cons_of_mem _ hk)⟩
  rintro rfl
  have hnone := h.2 0 mem_cons_self
  rw [take_zero] at hnone
  cases hnone

/-- The last node in progress was visited last. -/
theorem rank_le_head {e : ℕ × ℕ} (h : (e :: rest).Pairwise fun e f => s.rank f.1 < s.rank e.1)
    {q : ℕ} (hq : q ∈ (e :: rest).map Prod.fst) : s.rank q ≤ s.rank e.1 := by
  rcases mem_cons.1 hq with rfl | hq
  · exact le_rfl
  · obtain ⟨f, hf, rfl⟩ := mem_map.1 hq
    exact ((pairwise_cons.1 h).1 f hf).le

theorem Visits.visit (h : Visits edges s path) (hnew : ¬s.Visited node) (hlt : node < edges.length)
    (hfrom : ∀ e ∈ path.head?, Edge edges e.1 node) :
    Visits edges (s.visit node) ((node, 0) :: path) := by
  have hne {v : ℕ} (hv : s.Visited v) : v ≠ node := fun heq => hnew (heq ▸ hv)
  have hrank {v : ℕ} (hv : s.Visited v) : (s.visit node).rank v = s.rank v :=
    rank_visit_of_ne (hne hv)
  have hpath {q : ℕ} (hq : q ∈ path.map Prod.fst) : s.Visited q := h.visited q (h.path_stack q hq)
  refine ⟨?_, ?_, ?_, ?_, ?_, ?_, ?_, ?_, ?_, ?_, ?_⟩
  · intro v hv
    rcases visited_visit.1 hv with rfl | hv
    · rw [rank_visit_self]
      exact Nat.lt_succ_self _
    · rw [hrank hv]
      exact (h.rank_lt v hv).trans (Nat.lt_succ_self _)
  · intro v w hv hw heq
    rcases visited_visit.1 hv with rfl | hv' <;> rcases visited_visit.1 hw with rfl | hw'
    · rfl
    · rw [rank_visit_self, hrank hw'] at heq
      exact absurd heq (h.rank_lt w hw').ne'
    · rw [rank_visit_self, hrank hv'] at heq
      exact absurd heq (h.rank_lt v hv').ne
    · rw [hrank hv', hrank hw'] at heq
      exact h.rank_inj v w hv' hw' heq
  · intro v hv
    rcases visited_visit.1 hv with rfl | hv
    · exact hlt
    · exact h.bounded v hv
  · refine pairwise_cons.2 ⟨fun w hw => ?_, h.sorted.imp_of_mem fun {v w} hv hw hlt => ?_⟩
    · rw [rank_visit_self, hrank (h.visited w hw)]
      exact h.rank_lt w (h.visited w hw)
    · rw [hrank (h.visited v hv), hrank (h.visited w hw)]
      exact hlt
  · intro v
    change ((s.visit node).nodes v).isOnStack = true ↔ v ∈ node :: s.stack
    rw [mem_cons]
    by_cases hv : v = node
    · subst hv
      rw [visit_nodes_self]
      exact ⟨fun _ => .inl rfl, fun _ => rfl⟩
    · rw [visit_nodes_of_ne hv, h.on_stack]
      exact ⟨.inr, fun hmem => hmem.resolve_left hv⟩
  · intro v hv
    rcases mem_cons.1 hv with rfl | hv
    · exact visited_visit.2 (.inl rfl)
    · exact visited_visit.2 (.inr (h.visited v hv))
  · refine pairwise_cons.2 ⟨fun e he => ?_, h.path_sorted.imp_of_mem fun {e f} he hf hlt => ?_⟩
    · have hv := hpath (mem_map_of_mem he)
      rw [rank_visit_self, hrank hv]
      exact h.rank_lt _ hv
    · rw [hrank (hpath (mem_map_of_mem he)), hrank (hpath (mem_map_of_mem hf))]
      exact hlt
  · intro v hv
    rcases mem_cons.1 hv with rfl | hv
    · exact mem_cons_self
    · exact mem_cons_of_mem _ (h.path_stack v hv)
  · intro v w hv hw
    obtain ⟨hvne, hw⟩ := followed_cons_zero hw
    exact visited_visit.2 (.inr (h.followed v w ((visited_visit.1 hv).resolve_left hvne) hw))
  · intro x hx
    rcases mem_cons.1 hx with rfl | hx
    · exact ⟨x, mem_cons_self, le_rfl⟩
    · obtain ⟨q, hq, hle⟩ := h.owned x hx
      refine ⟨q, mem_cons_of_mem _ hq, ?_⟩
      rw [hrank (hpath hq), hrank (h.visited x hx)]
      exact hle
  · intro q hq x hx hle
    rcases mem_cons.1 hq with rfl | hq'
    · rcases mem_cons.1 hx with rfl | hx'
      · exact .refl
      · rw [rank_visit_self, hrank (h.visited x hx')] at hle
        exact absurd hle (h.rank_lt x (h.visited x hx')).not_ge
    · rcases mem_cons.1 hx with rfl | hx'
      · cases path with
        | nil => exact absurd hq' not_mem_nil
        | cons e path =>
          have he := h.path_stack e.1 mem_cons_self
          exact (h.leads q hq' e.1 he (rank_le_head h.path_sorted hq')).tail (hfrom e rfl)
      · rw [hrank (hpath hq'), hrank (h.visited x hx')] at hle
        exact h.leads q hq' x hx' hle

theorem Inv.visit (h : Inv edges s path) (hnew : ¬s.Visited node) (hlt : node < edges.length)
    (hfrom : ∀ e ∈ path.head?, Edge edges e.1 node) :
    Inv edges (s.visit node) ((node, 0) :: path) := by
  have hne {v : ℕ} (hv : s.Visited v) : v ≠ node := fun heq => hnew (heq ▸ hv)
  have hrank {v : ℕ} (hv : s.Visited v) : (s.visit node).rank v = s.rank v :=
    rank_visit_of_ne (hne hv)
  have hlow {v : ℕ} (hv : s.Visited v) : (s.visit node).low v = s.low v := low_visit_of_ne (hne hv)
  have hself : (s.visit node).low node = (s.visit node).rank node := by
    rw [low, rank, visit_nodes_self]
    rfl
  refine ⟨h.toVisits.visit hnew hlt hfrom, ⟨?_, ?_, ?_, ?_⟩, ⟨?_, ?_, h.ascending, ?_, ?_⟩⟩
  · intro v hv
    rcases mem_cons.1 hv with rfl | hv
    · exact hself.le
    · rw [hlow (h.visited v hv), hrank (h.visited v hv)]
      exact h.le v hv
  · intro v hv
    rcases mem_cons.1 hv with rfl | hv
    · exact ⟨v, mem_cons_self, hself.symm, .refl⟩
    · obtain ⟨w, hw, heq, hreach⟩ := h.reach v hv
      refine ⟨w, mem_cons_of_mem _ hw, ?_, hreach⟩
      rw [hlow (h.visited v hv), hrank (h.visited w hw)]
      exact heq
  · intro v hv hout
    rcases mem_cons.1 hv with rfl | hv
    · exact absurd mem_cons_self hout
    · rw [hlow (h.visited v hv), hrank (h.visited v hv)]
      exact h.lt v hv fun hmem => hout (mem_cons_of_mem _ hmem)
  · intro x hx w hw hfollowed
    obtain ⟨hxne, hfollowed⟩ := followed_cons_zero hfollowed
    have hx' : x ∈ s.stack := (mem_cons.1 hx).resolve_left hxne
    have hwv := h.followed x w (h.visited x hx') hfollowed
    have hw' : w ∈ s.stack := (mem_cons.1 hw).resolve_left (hne hwv)
    obtain ⟨q, ⟨hq, hle, hmax⟩, hlow'⟩ := h.owner x hx' w hw' hfollowed
    have hqv := h.visited q (h.path_stack q hq)
    refine ⟨q, ⟨mem_cons_of_mem _ hq, ?_, fun q' hq' hle' => ?_⟩, ?_⟩
    · rw [hrank hqv, hrank (h.visited x hx')]
      exact hle
    · rcases mem_cons.1 hq' with rfl | hq'
      · rw [rank_visit_self, hrank (h.visited x hx')] at hle'
        exact absurd hle' (h.rank_lt x (h.visited x hx')).not_ge
      · have hqv' := h.visited q' (h.path_stack q' hq')
        rw [hrank hqv', hrank (h.visited x hx')] at hle'
        rw [hrank hqv', hrank hqv]
        exact hmax q' hq' hle'
    · rw [hlow hqv, hrank hwv]
      exact hlow'
  · intro v w hv hedge
    exact (done_visit hnew).2 (h.closed v w ((done_visit hnew).1 hv) hedge)
  · intro number v
    rw [done_visit hnew]
    exact h.mem number v
  · intro v w hv hw
    exact h.classes v w ((done_visit hnew).1 hv) ((done_visit hnew).1 hw)
  · intro v w hv hedge
    exact h.edge_le v w ((done_visit hnew).1 hv) hedge

/-! ## Edges -/

theorem Inv.withProgress (h : Inv edges s path) (inProgress : List (ℕ × ℕ)) :
    Inv edges { s with inProgress } path :=
  ⟨⟨h.rank_lt, h.rank_inj, h.bounded, h.sorted, h.on_stack, h.visited, h.path_sorted, h.path_stack,
    h.followed, h.owned, h.leads⟩, ⟨h.le, h.reach, h.lt, h.owner⟩,
    ⟨h.closed, h.mem, h.ascending, h.classes, h.edge_le⟩⟩

theorem lower_nodes_self {l : ℕ} : (s.lower node l).nodes node =
    { s.nodes node with lowlink := min (s.nodes node).lowlink l } :=
  update_self ..

theorem lower_nodes_of_ne {l : ℕ} (h : v ≠ node) : (s.lower node l).nodes v = s.nodes v :=
  update_of_ne h ..

theorem index_lower (l v : ℕ) : ((s.lower node l).nodes v).index = (s.nodes v).index := by
  by_cases h : v = node
  · subst h
    rw [lower_nodes_self]
  · rw [lower_nodes_of_ne h]

theorem stack_lower (l : ℕ) : (s.lower node l).stack = s.stack := rfl

theorem count_lower (l : ℕ) : (s.lower node l).visited = s.visited := rfl

theorem componentOf_lower (l : ℕ) : (s.lower node l).componentOf = s.componentOf := rfl

theorem visited_lower (l v : ℕ) : (s.lower node l).Visited v ↔ s.Visited v := by
  rw [Visited, index_lower, Visited]

theorem rank_lower (l v : ℕ) : (s.lower node l).rank v = s.rank v := by
  rw [rank, index_lower, rank]

theorem done_lower (l v : ℕ) : (s.lower node l).Done v ↔ s.Done v :=
  and_congr_left' (visited_lower l v)

theorem isOnStack_lower (l v : ℕ) :
    ((s.lower node l).nodes v).isOnStack = (s.nodes v).isOnStack := by
  by_cases h : v = node
  · subst h
    rw [lower_nodes_self]
  · rw [lower_nodes_of_ne h]

theorem low_lower_self (l : ℕ) : (s.lower node l).low node = min (s.low node) l := by
  rw [low, lower_nodes_self, low]

theorem low_lower_of_ne {l : ℕ} (h : v ≠ node) : (s.lower node l).low v = s.low v := by
  rw [low, lower_nodes_of_ne h, low]

theorem low_lower_le (l v : ℕ) : (s.lower node l).low v ≤ s.low v := by
  by_cases h : v = node
  · subst h
    rw [low_lower_self]
    exact min_le_left _ _
  · exact (low_lower_of_ne h).le

theorem Inv.lower (h : Inv edges s path) (hnode : node ∈ path.map Prod.fst) (hw : w ∈ s.stack)
    (hreach : ReflTransGen (Edge edges) node w) : Inv edges (s.lower node (s.rank w)) path := by
  refine ⟨⟨?_, ?_, ?_, ?_, ?_, ?_, ?_, h.path_stack, ?_, ?_, ?_⟩, ⟨?_, ?_, ?_, ?_⟩,
    ⟨?_, ?_, h.ascending, ?_, ?_⟩⟩
  · simpa only [visited_lower, rank_lower, count_lower] using h.rank_lt
  · simpa only [visited_lower, rank_lower] using h.rank_inj
  · simpa only [visited_lower] using h.bounded
  · simpa only [rank_lower, stack_lower] using h.sorted
  · simpa only [isOnStack_lower, stack_lower] using h.on_stack
  · simpa only [visited_lower, stack_lower] using h.visited
  · simpa only [rank_lower] using h.path_sorted
  · simpa only [visited_lower] using h.followed
  · simpa only [rank_lower, stack_lower] using h.owned
  · simpa only [rank_lower, stack_lower] using h.leads
  · intro v hv
    rw [rank_lower]
    exact (low_lower_le _ v).trans (h.le v hv)
  · intro v hv
    by_cases hself : v = node
    · subst hself
      rw [low_lower_self]
      rcases min_choice (s.low v) (s.rank w) with hmin | hmin
      · obtain ⟨w', hw', heq, hreach'⟩ := h.reach v hv
        exact ⟨w', hw', (rank_lower _ w').trans (heq.trans hmin.symm), hreach'⟩
      · exact ⟨w, hw, (rank_lower _ w).trans hmin.symm, hreach⟩
    · obtain ⟨w', hw', heq, hreach'⟩ := h.reach v hv
      exact ⟨w', hw', (rank_lower _ w').trans (heq.trans (low_lower_of_ne hself).symm), hreach'⟩
  · intro v hv hout
    rw [rank_lower]
    exact (low_lower_le _ v).trans_lt (h.lt v hv hout)
  · intro x hx w' hw' hfollowed
    obtain ⟨q, ⟨hq, hle, hmax⟩, hlow⟩ := h.owner x hx w' hw' hfollowed
    refine ⟨q, ⟨hq, ?_, ?_⟩, ?_⟩
    · rw [rank_lower, rank_lower]
      exact hle
    · simpa only [rank_lower] using hmax
    · rw [rank_lower]
      exact (low_lower_le _ q).trans hlow
  · simpa only [done_lower] using h.closed
  · intro number v
    rw [done_lower]
    exact h.mem number v
  · simpa only [done_lower, componentOf_lower] using h.classes
  · simpa only [done_lower, componentOf_lower] using h.edge_le

/-- A node is in progress once. -/
theorem Visits.path_unique {before after : List (ℕ × ℕ)} {j : ℕ}
    (h : Visits edges s (before ++ (v, k) :: after)) (hj : (v, j) ∈ before ++ (v, k) :: after) :
    j = k := by
  obtain ⟨-, hafter, hbefore⟩ := pairwise_append.1 h.path_sorted
  rcases mem_append.1 hj with hj | hj
  · exact absurd (hbefore _ hj _ mem_cons_self) (lt_irrefl _)
  · rcases mem_cons.1 hj with heq | hj
    · exact (Prod.mk.inj heq).2
    · exact absurd ((pairwise_cons.1 hafter).1 _ hj) (lt_irrefl _)

/-- One more edge of a node in progress is followed. -/
theorem Inv.advance (before : List (ℕ × ℕ)) {after : List (ℕ × ℕ)}
    (h : Inv edges s (before ++ (node, k) :: after))
    (hnext : (edges.getD node [])[k]? = some next) (hvisited : s.Visited next)
    (hlow : next ∈ s.stack → s.low node ≤ s.rank next) :
    Inv edges s (before ++ (node, k + 1) :: after) := by
  have hmap : (before ++ (node, k + 1) :: after).map Prod.fst =
      (before ++ (node, k) :: after).map Prod.fst := by
    rw [map_append, map_append, map_cons, map_cons]
  have hfollowed {v w : ℕ} (hw : Followed edges (before ++ (node, k + 1) :: after) v w) :
      Followed edges (before ++ (node, k) :: after) v w ∨ v = node ∧ w = next := by
    by_cases hv : v = node
    · subst hv
      have htake := hw.2 (k + 1) (mem_append_right _ mem_cons_self)
      rw [take_add_one, hnext, Option.toList_some, mem_append, mem_singleton] at htake
      refine htake.imp (fun htake => ⟨hw.1, fun j hj => ?_⟩) fun heq => ⟨rfl, heq⟩
      rw [h.path_unique hj]
      exact htake
    · refine .inl ⟨hw.1, fun j hj => hw.2 j ?_⟩
      rcases mem_append.1 hj with hj | hj
      · exact mem_append_left _ hj
      · rcases mem_cons.1 hj with heq | hj
        · exact absurd (Prod.mk.inj heq).1 hv
        · exact mem_append_right _ (mem_cons_of_mem _ hj)
  have hmem : node ∈ (before ++ (node, k) :: after).map Prod.fst :=
    mem_map_of_mem (f := Prod.fst) (mem_append_right _ mem_cons_self)
  refine ⟨⟨h.rank_lt, h.rank_inj, h.bounded, h.sorted, h.on_stack, h.visited, ?_, ?_, ?_, ?_, ?_⟩,
    ⟨h.le, h.reach, ?_, ?_⟩, h.toNumbers⟩
  · have hsorted := h.path_sorted
    rw [← pairwise_map (f := Prod.fst) (R := fun v w => s.rank w < s.rank v)] at hsorted ⊢
    rw [hmap]
    exact hsorted
  · rw [hmap]
    exact h.path_stack
  · intro v w hv hw
    rcases hfollowed hw with hw | ⟨-, rfl⟩
    · exact h.followed v w hv hw
    · exact hvisited
  · rw [hmap]
    exact h.owned
  · rw [hmap]
    exact h.leads
  · rw [hmap]
    exact h.lt
  · intro x hx w hw hxw
    simp only [Owner, hmap]
    rcases hfollowed hxw with hxw | ⟨rfl, rfl⟩
    · exact h.owner x hx w hw hxw
    · exact ⟨x, ⟨hmem, le_rfl, fun q' _ hle => hle⟩, hlow hw⟩

/-! ## The end of a node -/

/-- At the end of a node all its edges were followed. -/
theorem Followed.of_rest (hall : (edges.getD node []).length ≤ k) (h : Followed edges rest v w) :
    Followed edges ((node, k) :: rest) v w := by
  refine ⟨h.1, fun j hj => ?_⟩
  rcases mem_cons.1 hj with heq | hj
  · obtain ⟨rfl, rfl⟩ := Prod.mk.inj heq
    rw [take_of_length_le hall]
    exact h.1
  · exact h.2 j hj

/-- A node whose component goes on before it. -/
theorem Inv.leave (h : Inv edges s ((node, k) :: rest)) (hall : (edges.getD node []).length ≤ k)
    (hlow : s.low node < s.rank node) (hparent : ∀ e ∈ rest.head?, s.low e.1 ≤ s.low node) :
    Inv edges s rest := by
  have hnode : node ∈ s.stack := h.path_stack node mem_cons_self
  have hrest {q : ℕ} (hq : q ∈ ((node, k) :: rest).map Prod.fst) (hlt : s.rank q < s.rank node) :
      q ∈ rest.map Prod.fst :=
    (mem_cons.1 hq).resolve_left fun heq => absurd (heq ▸ hlt) (lt_irrefl _)
  have howned : ∃ q ∈ rest.map Prod.fst, s.rank q ≤ s.low node := by
    obtain ⟨w, hw, heq, -⟩ := h.reach node hnode
    obtain ⟨q, hq, hle⟩ := h.owned w hw
    exact ⟨q, hrest hq (hle.trans_lt (heq ▸ hlow)), heq ▸ hle⟩
  refine ⟨⟨h.rank_lt, h.rank_inj, h.bounded, h.sorted, h.on_stack, h.visited,
    (pairwise_cons.1 h.path_sorted).2, fun v hv => h.path_stack v (mem_cons_of_mem _ hv),
    fun v w hv hw => h.followed v w hv (hw.of_rest hall), ?_,
    fun q hq => h.leads q (mem_cons_of_mem _ hq)⟩, ⟨h.le, h.reach, ?_, ?_⟩, h.toNumbers⟩
  · intro x hx
    obtain ⟨q, hq, hle⟩ := h.owned x hx
    rcases mem_cons.1 hq with rfl | hq
    · obtain ⟨q', hq', hle'⟩ := howned
      exact ⟨q', hq', hle'.trans (hlow.le.trans hle)⟩
    · exact ⟨q, hq, hle⟩
  · intro v hv hout
    by_cases hself : v = node
    · exact hself ▸ hlow
    · exact h.lt v hv fun hmem => hout ((mem_cons.1 hmem).resolve_left hself)
  · intro x hx w hw hfollowed
    obtain ⟨q, ⟨hq, hle, hmax⟩, hlow'⟩ := h.owner x hx w hw (hfollowed.of_rest hall)
    have hmax' : ∀ q' ∈ rest.map Prod.fst, s.rank q' ≤ s.rank x → s.rank q' ≤ s.rank q :=
      fun q' hq' => hmax q' (mem_cons_of_mem _ hq')
    rcases mem_cons.1 hq with rfl | hq
    · cases rest with
      | nil =>
        obtain ⟨q', hq', -⟩ := howned
        exact absurd hq' not_mem_nil
      | cons e rest =>
        -- What the node owned goes to its parent.
        obtain ⟨habove, hsorted⟩ := pairwise_cons.1 h.path_sorted
        exact ⟨e.1, ⟨mem_cons_self, (habove e mem_cons_self).le.trans hle,
          fun q' hq' _ => rank_le_head hsorted hq'⟩, (hparent e rfl).trans hlow'⟩
    · exact ⟨q, ⟨hq, hle, hmax'⟩, hlow'⟩

variable {front back : List ℕ}

theorem idxOf?_split (h : node ∉ front) :
    (front ++ node :: back).idxOf? node = some front.length := by
  induction front with
  | nil => simp [idxOf?, findIdx?_cons]
  | cons v front ih =>
    rw [mem_cons, not_or] at h
    have hne : (v == node) = false := beq_eq_false_iff_ne.2 (Ne.symm h.1)
    rw [idxOf?, cons_append, findIdx?_cons, hne]
    exact congrArg (Option.map (· + 1)) (ih h.2)

/-- The stack above a node and below it. -/
theorem Visits.split (h : Visits edges s path) (hnode : node ∈ s.stack) :
    ∃ front back, s.stack = front ++ node :: back ∧ node ∉ front ∧
      (∀ v, v ∈ front ++ [node] ↔ v ∈ s.stack ∧ s.rank node ≤ s.rank v) ∧
      ∀ v, v ∈ back ↔ v ∈ s.stack ∧ s.rank v < s.rank node := by
  obtain ⟨front, back, hstack⟩ := append_of_mem hnode
  have hsorted := h.sorted
  rw [hstack] at hsorted
  obtain ⟨-, hback, hfront⟩ := pairwise_append.1 hsorted
  have hback := (pairwise_cons.1 hback).1
  have habove : ∀ v ∈ front, s.rank node < s.rank v := fun v hv => hfront v hv node mem_cons_self
  refine ⟨front, back, hstack, fun hmem => absurd (habove node hmem) (lt_irrefl _), fun v => ?_,
    fun v => ?_⟩
  · rw [hstack, mem_append, mem_append, mem_singleton, mem_cons]
    constructor
    · rintro (hv | rfl)
      · exact ⟨.inl hv, (habove v hv).le⟩
      · exact ⟨.inr (.inl rfl), le_rfl⟩
    · rintro ⟨hv | rfl | hv, hle⟩
      · exact .inl hv
      · exact .inr rfl
      · exact absurd hle (hback v hv).not_ge
  · rw [hstack, mem_append, mem_cons]
    constructor
    · intro hv
      exact ⟨.inr (.inr hv), hback v hv⟩
    · rintro ⟨hv | rfl | hv, hlt⟩
      · exact absurd hlt (habove v hv).not_gt
      · exact absurd hlt (lt_irrefl _)
      · exact hv

section Root

variable (h : Inv edges s ((node, k) :: rest)) (hall : (edges.getD node []).length ≤ k)
  (hroot : s.low node = s.rank node)

/-- The part of the stack from a node on. -/
def Above (s : Traversal) (node v : ℕ) : Prop := v ∈ s.stack ∧ s.rank node ≤ s.rank v

include h hall hroot in
/-- An edge from above the root of a component stays there, or leads to a node that is done. -/
theorem above_edge (hv : s.Above node v) (hedge : Edge edges v w) : s.Above node w ∨ s.Done w := by
  have hnode : node ∈ s.stack := h.path_stack node mem_cons_self
  have hfollowed : Followed edges ((node, k) :: rest) v w := by
    refine ⟨hedge, fun j hj => ?_⟩
    rcases mem_cons.1 hj with heq | hj
    · obtain ⟨rfl, rfl⟩ := Prod.mk.inj heq
      rw [take_of_length_le hall]
      exact hedge
    · exact absurd hv.2 ((pairwise_cons.1 h.path_sorted).1 _ hj).not_ge
  have hvisited := h.followed v w (h.visited v hv.1) hfollowed
  by_cases hw : w ∈ s.stack
  · obtain ⟨q, ⟨hq, hle, hmax⟩, hlow⟩ := h.owner v hv.1 w hw hfollowed
    have hrank := (rank_le_head h.path_sorted hq).antisymm (hmax node mem_cons_self hv.2)
    have hself := h.rank_inj q node (h.visited q (h.path_stack q hq)) (h.visited node hnode) hrank
    exact .inl ⟨hw, hroot ▸ hself ▸ hlow⟩
  · exact .inr ⟨hvisited, hw⟩

include h hall hroot in
/-- What lies above the root of a component is the component. -/
theorem mutual_iff_above (hv : s.Above node v) : Mutual (Edge edges) v w ↔ s.Above node w := by
  have hnode : node ∈ s.stack := h.path_stack node mem_cons_self
  refine mutual_iff_of_part h.closed
    (fun _ _ ha hedge => above_edge h hall hroot ha hedge) (fun a ha hdone => hdone.2 ha.1)
    (fun a ha => h.leads node mem_cons_self a ha.1 ha.2) (fun a ha => ?_) hv
  refine reach_top s.rank (fun a ha hne => ?_) ha
  have hout : a ∉ ((node, k) :: rest).map Prod.fst := fun hmem =>
    hne (h.rank_inj a node (h.visited a ha.1) (h.visited node hnode)
      ((rank_le_head h.path_sorted hmem).antisymm ha.2))
  obtain ⟨w, hw, heq, hreach⟩ := h.reach a ha.1
  refine ⟨w, ?_, heq ▸ h.lt a ha.1 hout, hreach⟩
  exact (part_reach h.closed
    (fun _ _ ha hedge => above_edge h hall hroot ha hedge) hreach ha).resolve_right fun hdone =>
      hdone.2 hw

end Root

/-- The state without the component that leaves the stack. -/
def remove (s : Traversal) (component back : List ℕ) : Traversal :=
  { s with
    stack := back
    nodes := fun n => if n ∈ component then { s.nodes n with isOnStack := false } else s.nodes n
    componentOf := fun n => if n ∈ component then s.components.length else s.componentOf n
    components := s.components ++ [component.mergeSort (· ≤ ·)] }

theorem popComponent_eq (hstack : s.stack = front ++ node :: back)
    (hfront : node ∉ front) : s.popComponent node = .ok (s.remove (front ++ [node]) back) := by
  have htake : s.stack.take (front.length + 1) = front ++ [node] := by
    rw [hstack, take_append, take_of_length_le (Nat.le_succ _), Nat.add_sub_cancel_left]
    rfl
  have hdrop : s.stack.drop (front.length + 1) = back := by
    rw [hstack, ← drop_drop, drop_left]
    rfl
  have hplace : s.stack.idxOf? node = some front.length := by rw [hstack, idxOf?_split hfront]
  rw [popComponent, hplace]
  dsimp only
  rw [htake, hdrop, remove]

section Remove

variable {component back : List ℕ}

theorem index_remove (v : ℕ) : ((s.remove component back).nodes v).index = (s.nodes v).index := by
  rw [remove]
  dsimp only
  split <;> rfl

theorem low_remove (v : ℕ) : (s.remove component back).low v = s.low v := by
  rw [low, remove]
  dsimp only
  split <;> rfl

theorem visited_remove (v : ℕ) : (s.remove component back).Visited v ↔ s.Visited v := by
  rw [Visited, index_remove, Visited]

theorem rank_remove (v : ℕ) : (s.remove component back).rank v = s.rank v := by
  rw [rank, index_remove, rank]

theorem componentOf_remove_of_mem (hv : v ∈ component) :
    (s.remove component back).componentOf v = s.components.length := if_pos hv

theorem componentOf_remove_of_notMem (hv : v ∉ component) :
    (s.remove component back).componentOf v = s.componentOf v := if_neg hv

end Remove

/-- A node that is done has its number. -/
theorem Numbers.lt (h : Numbers edges s) (hv : s.Done v) :
    s.componentOf v < s.components.length := by
  obtain ⟨nodes, hnodes, -⟩ := (h.mem _ v).2 ⟨hv, rfl⟩
  exact (List.getElem?_eq_some_iff.1 hnodes).1

/-- A component leaves the stack: what is done and its number. -/
theorem Numbers.remove {component back : List ℕ} (h : Numbers edges s) (hne : component ≠ [])
    (hnodup : component.Nodup)
    (hdone : ∀ v, (s.remove component back).Done v ↔ s.Done v ∨ v ∈ component)
    (hnot : ∀ v ∈ component, ¬s.Done v)
    (hedge : ∀ v ∈ component, ∀ w, Edge edges v w → w ∈ component ∨ s.Done w)
    (hclass : ∀ v ∈ component, ∀ w, Mutual (Edge edges) v w ↔ w ∈ component) :
    Numbers edges (s.remove component back) := by
  have hout {v : ℕ} (hv : s.Done v) : v ∉ component := fun hmem => hnot v hmem hv
  refine ⟨?_, ?_, ?_, ?_, ?_⟩
  · intro v w hv hvw
    rw [hdone] at hv ⊢
    rcases hv with hv | hv
    · exact .inl (h.closed v w hv hvw)
    · exact (hedge v hv w hvw).symm
  · intro number v
    rw [hdone]
    change (∃ nodes, (s.components ++ [component.mergeSort (· ≤ ·)])[number]? = some nodes ∧
      v ∈ nodes) ↔ _
    rcases lt_trichotomy number s.components.length with hlt | rfl | hgt
    · rw [getElem?_append_left hlt, h.mem number v]
      constructor
      · rintro ⟨hv, heq⟩
        exact ⟨.inl hv, (componentOf_remove_of_notMem (hout hv)).trans heq⟩
      · rintro ⟨hv | hv, heq⟩
        · exact ⟨hv, (componentOf_remove_of_notMem (hout hv)).symm.trans heq⟩
        · rw [componentOf_remove_of_mem hv] at heq
          exact absurd hlt (heq ▸ lt_irrefl _)
    · rw [getElem?_concat_length]
      constructor
      · rintro ⟨nodes, hnodes, hv⟩
        cases hnodes
        have hv := mem_mergeSort.1 hv
        exact ⟨.inr hv, componentOf_remove_of_mem hv⟩
      · rintro ⟨hv | hv, heq⟩
        · rw [componentOf_remove_of_notMem (hout hv)] at heq
          exact absurd (h.lt hv) (heq ▸ lt_irrefl _)
        · exact ⟨_, rfl, mem_mergeSort.2 hv⟩
    · rw [getElem?_eq_none (by rw [length_append, length_singleton]; exact hgt)]
      constructor
      · rintro ⟨nodes, hnodes, -⟩
        cases hnodes
      · rintro ⟨hv | hv, heq⟩
        · rw [componentOf_remove_of_notMem (hout hv)] at heq
          exact absurd (heq ▸ h.lt hv) hgt.not_gt
        · rw [componentOf_remove_of_mem hv] at heq
          exact absurd heq hgt.ne
  · intro nodes hnodes
    rcases mem_append.1 hnodes with hnodes | hnodes
    · exact h.ascending nodes hnodes
    · obtain rfl := mem_singleton.1 hnodes
      refine ⟨fun hnil => hne ?_, pairwise_lt_mergeSort hnodup⟩
      refine eq_nil_iff_forall_not_mem.2 fun v hv => ?_
      exact not_mem_nil (hnil ▸ mem_mergeSort.2 hv)
  · intro v w hv hw
    rw [hdone] at hv hw
    rcases hv with hv | hv <;> rcases hw with hw | hw
    · rw [componentOf_remove_of_notMem (hout hv), componentOf_remove_of_notMem (hout hw)]
      exact h.classes v w hv hw
    · rw [componentOf_remove_of_notMem (hout hv), componentOf_remove_of_mem hw]
      refine iff_of_false (h.lt hv).ne fun hvw => hout hv ?_
      exact (hclass w hw v).1 hvw.symm
    · rw [componentOf_remove_of_notMem (hout hw), componentOf_remove_of_mem hv]
      exact iff_of_false (h.lt hw).ne' fun hvw => hout hw ((hclass v hv w).1 hvw)
    · rw [componentOf_remove_of_mem hv, componentOf_remove_of_mem hw]
      exact iff_of_true rfl ((hclass v hv w).2 hw)
  · intro v w hv hvw
    rw [hdone] at hv
    rcases hv with hv | hv
    · have hw := h.closed v w hv hvw
      rw [componentOf_remove_of_notMem (hout hv), componentOf_remove_of_notMem (hout hw)]
      exact h.edge_le v w hv hvw
    · rw [componentOf_remove_of_mem hv]
      rcases hedge v hv w hvw with hw | hw
      · rw [componentOf_remove_of_mem hw]
      · rw [componentOf_remove_of_notMem (hout hw)]
        exact (h.lt hw).le

/-- The component of a root leaves the stack. -/
theorem Inv.pop (h : Inv edges s ((node, k) :: rest)) (hall : (edges.getD node []).length ≤ k)
    (hroot : s.low node = s.rank node) : ∃ s', s.popComponent node = .ok s' ∧ Inv edges s' rest ∧
      s'.inProgress = s.inProgress ∧ ∀ v, s'.Visited v ↔ s.Visited v := by
  have hnode : node ∈ s.stack := h.path_stack node mem_cons_self
  obtain ⟨front, back, hstack, hfront, hpart, hback⟩ := h.split hnode
  refine ⟨s.remove (front ++ [node]) back, popComponent_eq hstack hfront, ?_, rfl, visited_remove⟩
  have hnodup : (front ++ node :: back).Nodup := hstack ▸ h.sorted.imp fun hlt heq =>
    absurd (heq ▸ hlt) (lt_irrefl _)
  have hbelow {v : ℕ} (hv : v ∈ back) : v ∈ s.stack ∧ v ∉ front ++ [node] := by
    obtain ⟨hmem, hlt⟩ := (hback v).1 hv
    exact ⟨hmem, fun hv => ((hpart v).1 hv).2.not_gt hlt⟩
  have hpath {q : ℕ} (hq : q ∈ rest.map Prod.fst) : q ∈ back := by
    obtain ⟨e, he, rfl⟩ := mem_map.1 hq
    exact (hback _).2 ⟨h.path_stack _ (mem_cons_of_mem _ hq),
      (pairwise_cons.1 h.path_sorted).1 e he⟩
  have hlower {q x : ℕ} (hq : q ∈ ((node, k) :: rest).map Prod.fst) (hx : x ∈ back)
      (hle : s.rank q ≤ s.rank x) : q ∈ rest.map Prod.fst := by
    refine (mem_cons.1 hq).resolve_left fun heq => ?_
    exact (heq ▸ hle).not_gt ((hback x).1 hx).2
  have hfollowed {v w : ℕ} (hw : Followed edges rest v w) :
      Followed edges ((node, k) :: rest) v w :=
    hw.of_rest hall
  have hdone (v : ℕ) : (s.remove (front ++ [node]) back).Done v ↔ s.Done v ∨
      v ∈ front ++ [node] := by
    rw [Done, visited_remove]
    constructor
    · rintro ⟨hv, hout⟩
      by_cases hmem : v ∈ s.stack
      · exact .inr ((hpart v).2 ⟨hmem, not_lt.1 fun hlt => hout ((hback v).2 ⟨hmem, hlt⟩)⟩)
      · exact .inl ⟨hv, hmem⟩
    · rintro (hv | hv)
      · exact ⟨hv.1, fun hmem => hv.2 (hbelow hmem).1⟩
      · exact ⟨h.visited v ((hpart v).1 hv).1, fun hmem => (hbelow hmem).2 hv⟩
  refine ⟨⟨?_, ?_, ?_, ?_, ?_, ?_, ?_, fun q hq => hpath hq, ?_, ?_, ?_⟩, ⟨?_, ?_, ?_, ?_⟩, ?_⟩
  · simp only [visited_remove, rank_remove]
    exact h.rank_lt
  · simp only [visited_remove, rank_remove]
    exact h.rank_inj
  · simp only [visited_remove]
    exact h.bounded
  · simp only [rank_remove]
    have hsorted := h.sorted
    rw [hstack] at hsorted
    exact (pairwise_cons.1 (pairwise_append.1 hsorted).2.1).2
  · intro v
    change (if v ∈ front ++ [node] then { s.nodes v with isOnStack := false }
      else s.nodes v).isOnStack = true ↔ v ∈ back
    split
    next hv => exact iff_of_false Bool.false_ne_true fun hmem => (hbelow hmem).2 hv
    next hv =>
      rw [h.on_stack]
      refine ⟨fun hmem => (hback v).2 ⟨hmem, ?_⟩, fun hmem => (hbelow hmem).1⟩
      exact not_le.1 fun hle => hv ((hpart v).2 ⟨hmem, hle⟩)
  · simp only [visited_remove]
    exact fun v hv => h.visited v (hbelow hv).1
  · simp only [rank_remove]
    exact (pairwise_cons.1 h.path_sorted).2
  · simp only [visited_remove]
    exact fun v w hv hw => h.followed v w hv (hfollowed hw)
  · simp only [rank_remove]
    intro x hx
    obtain ⟨q, hq, hle⟩ := h.owned x (hbelow hx).1
    exact ⟨q, hlower hq hx hle, hle⟩
  · simp only [rank_remove]
    exact fun q hq x hx hle => h.leads q (mem_cons_of_mem _ hq) x (hbelow hx).1 hle
  · simp only [rank_remove, low_remove]
    exact fun v hv => h.le v (hbelow hv).1
  · simp only [rank_remove, low_remove]
    intro v hv
    obtain ⟨w, hw, heq, hreach⟩ := h.reach v (hbelow hv).1
    have hlt := (h.le v (hbelow hv).1).trans_lt ((hback v).1 hv).2
    exact ⟨w, (hback w).2 ⟨hw, heq ▸ hlt⟩, heq, hreach⟩
  · simp only [rank_remove, low_remove]
    intro v hv hout
    refine h.lt v (hbelow hv).1 fun hmem => hout (hlower hmem hv le_rfl)
  · simp only [Owner, rank_remove, low_remove]
    intro x hx w hw hxw
    obtain ⟨q, ⟨hq, hle, hmax⟩, hlow⟩ := h.owner x (hbelow hx).1 w (hbelow hw).1 (hfollowed hxw)
    exact ⟨q, ⟨hlower hq hx hle, hle, fun q' hq' => hmax q' (mem_cons_of_mem _ hq')⟩, hlow⟩
  · refine h.toNumbers.remove (fun hnil => append_ne_nil_of_right_ne_nil _ (cons_ne_nil _ _) hnil)
      ?_ hdone (fun v hv hdone => hdone.2 ((hpart v).1 hv).1) (fun v hv w hvw => ?_) fun v hv w =>
        ?_
    · rw [← singleton_append, ← append_assoc] at hnodup
      exact (nodup_append.1 hnodup).1
    · rw [hpart]
      exact above_edge h hall hroot ((hpart v).1 hv) hvw
    · rw [hpart]
      exact mutual_iff_above h hall hroot ((hpart v).1 hv)

end Traversal

end Soup.Sema
