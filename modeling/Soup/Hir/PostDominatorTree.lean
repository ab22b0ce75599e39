import Soup.Hir.Fixpoint
import Soup.Hir.ReverseGraph

/-!
# The post-dominator tree

A path to the exit is a walk of the reverse graph back from the exit, so that what dominates a node
of that graph are the blocks that post-dominate its block (`postDominates_iff`). The tree has the
parents of the nodes (`exists_tree`), and they are the immediate post-dominators
(`TreeOf.get_immediate`).
-/

namespace Soup.Hir

open Lib Dominance List

/-- The node of a block that is in the order. -/
def node (ids : List BlockId) (id : BlockId) : ℕ := ids.idxOf id + 1

def blockAt (func : HirFunction) (id : BlockId) : BasicBlock :=
  ((func.blocks.find? (·.1 = id)).map Prod.snd).getD ⟨.unreachable, []⟩

/-- The predecessors of the nodes of the reverse graph. -/
def nodeGraph (func : HirFunction) (includeThrows : Bool) (ids : List BlockId) : ℕ → List ℕ
  | 0 => []
  | k + 1 =>
    match ids[k]? with
    | some id => nodePreds includeThrows ids (blockAt func id)
    | none => []

section Graph

variable {func : HirFunction} {includeThrows : Bool} {ids : List BlockId} {id target : BlockId}
  {block : BasicBlock}

theorem blockAt_eq (h : (id, block) ∈ func.blocks) : blockAt func id = block := by
  rw [blockAt]
  cases hfind : func.blocks.find? (·.1 = id) with
  | none =>
    have hnot := find?_eq_none.1 hfind (id, block) h
    simp at hnot
  | some entry =>
    have hid : entry.1 = id := by simpa using find?_some hfind
    obtain ⟨id', block'⟩ := entry
    obtain rfl : id' = id := hid
    exact HirFunction.block_unique (mem_of_find?_eq_some hfind) h

section

variable (h : id ∈ ids)
include h

theorem getElem?_idxOf : ids[ids.idxOf id]? = some id := by
  rw [getElem?_eq_getElem (idxOf_lt_length_iff.2 h), getElem_idxOf]

theorem node_le : node ids id ≤ ids.length :=
  idxOf_lt_length_iff.2 h

theorem node_inj (h' : target ∈ ids) (heq : node ids id = node ids target) : id = target := by
  have hget := getElem?_idxOf h
  rw [Nat.succ.inj heq, getElem?_idxOf h'] at hget
  exact (Option.some.inj hget).symm

theorem nodeOf_of_mem : nodeOf ids id = some (node ids id) := if_pos h

end

variable (horder : ReverseOrder func includeThrows ids)
include horder

theorem ReverseOrder.mem_blocks (h : id ∈ ids) : (id, blockAt func id) ∈ func.blocks := by
  obtain ⟨path, hpath⟩ := (horder.mem_iff id).1 h
  obtain ⟨⟨_, block⟩, hblock, rfl⟩ := mem_map.1 hpath.mem_ids
  rwa [blockAt_eq hblock]

omit horder in
theorem nodeGraph_node (h : id ∈ ids) : nodeGraph func includeThrows ids (node ids id) =
    nodePreds includeThrows ids (blockAt func id) := by
  rw [node, nodeGraph, getElem?_idxOf h]

/-- The predecessors of a node are the exit and the nodes of the successors. -/
theorem ReverseOrder.mem_nodeGraph (h : id ∈ ids) (p : ℕ) :
    p ∈ nodeGraph func includeThrows ids (node ids id) ↔
      (p = 0 ∧ flowsIntoExit includeThrows (blockAt func id) = true) ∨
        ∃ next ∈ ids, node ids next = p ∧ func.Edge id next := by
  have hblock := horder.mem_blocks h
  rw [nodeGraph_node h, nodePreds, mem_append, mem_filterMap]
  refine or_congr ?_ ⟨?_, ?_⟩
  · split <;> simp_all
  · rintro ⟨next, hnext, hnode⟩
    rw [nodeOf] at hnode
    split at hnode
    next hmem =>
      obtain ⟨path, hpath⟩ := (horder.mem_iff next).1 hmem
      exact ⟨next, hmem, Option.some.inj hnode, _, hblock, hnext, hpath.mem_ids⟩
    · cases hnode
  · rintro ⟨next, hmem, rfl, block, hblock', hnext, -⟩
    obtain rfl := HirFunction.block_unique hblock hblock'
    exact ⟨next, hnext, nodeOf_of_mem hmem⟩

theorem ReverseOrder.numbered : Numbered ids.length (nodeGraph func includeThrows ids) := by
  constructor
  · intro v p hp
    cases v with
    | zero => exact absurd hp not_mem_nil
    | succ k =>
      cases hk : ids[k]? with
      | none =>
        rw [nodeGraph, hk] at hp
        exact absurd hp not_mem_nil
      | some id =>
        have hmem := mem_of_getElem? hk
        have hnode : node ids id = k + 1 := Option.some.inj
          ((nodeOf_of_mem hmem).symm.trans (nodeOf_eq horder.nodup hk))
        rw [← hnode, horder.mem_nodeGraph hmem] at hp
        rcases hp with ⟨rfl, -⟩ | ⟨next, hnext, rfl, -⟩
        · exact Nat.zero_le _
        · exact node_le hnext
  · intro v hpos hv
    obtain ⟨k, rfl⟩ := Nat.exists_eq_succ_of_ne_zero (ne_of_gt hpos)
    have hk := getElem?_eq_getElem (show k < ids.length from hv)
    generalize ids[k] = id at hk
    have hmem := mem_of_getElem? hk
    have hnode : node ids id = k + 1 := Option.some.inj
      ((nodeOf_of_mem hmem).symm.trans (nodeOf_eq horder.nodup hk))
    rcases horder.led k id hk with ⟨block, hblock, hflows⟩ | ⟨j, hj, other, hother, hedge⟩
    · refine ⟨0, ?_, Nat.succ_pos k⟩
      show 0 ∈ nodeGraph func includeThrows ids (k + 1)
      rw [← hnode, horder.mem_nodeGraph hmem, blockAt_eq hblock]
      exact .inl ⟨rfl, hflows⟩
    · have hother' := mem_of_getElem? hother
      have hnode' : node ids other = j + 1 := Option.some.inj
        ((nodeOf_of_mem hother').symm.trans (nodeOf_eq horder.nodup hother))
      refine ⟨j + 1, ?_, Nat.succ_lt_succ hj⟩
      show j + 1 ∈ nodeGraph func includeThrows ids (k + 1)
      rw [← hnode, horder.mem_nodeGraph hmem]
      exact .inr ⟨other, hother', hnode', hedge⟩

/-! ## Paths are walks -/

variable {path : List BlockId}

theorem ReverseOrder.walk (h : ExitPath func includeThrows id path) :
    Walk (nodeGraph func includeThrows ids) (node ids id) (path.map (node ids) ++ [0]) := by
  have hmem : ∀ {id path}, ExitPath func includeThrows id path → id ∈ ids := fun h =>
    (horder.mem_iff _).2 ⟨_, h⟩
  induction h with
  | exit hblock hflows =>
    refine .step ?_ .root
    rw [horder.mem_nodeGraph (hmem (.exit hblock hflows)), blockAt_eq hblock]
    exact .inl ⟨rfl, hflows⟩
  | step edge rest ih =>
    refine .step ?_ ih
    rw [horder.mem_nodeGraph (hmem (.step edge rest))]
    exact .inr ⟨_, hmem rest, rfl, edge⟩

theorem ReverseOrder.exists_path {v : ℕ} {l : List ℕ}
    (h : Walk (nodeGraph func includeThrows ids) v l) : ∀ id ∈ ids, node ids id = v →
      ∃ path, ExitPath func includeThrows id path ∧ l = path.map (node ids) ++ [0] := by
  induction h with
  | root => exact fun id _ hnode => absurd hnode (Nat.succ_ne_zero _)
  | @step p v l hp walk ih =>
    rintro id hid rfl
    rcases (horder.mem_nodeGraph hid p).1 hp with ⟨rfl, hflows⟩ | ⟨next, hnext, rfl, hedge⟩
    · have hl : l = [0] := by
        cases walk with
        | root => rfl
        | step hp' _ => exact absurd hp' not_mem_nil
      subst hl
      exact ⟨[id], .exit (horder.mem_blocks hid) hflows, rfl⟩
    · obtain ⟨path, hpath, rfl⟩ := ih next hnext rfl
      exact ⟨id :: path, .step hedge hpath, rfl⟩

omit horder in
theorem ExitPath.reachesExit_of_mem
    (h : ExitPath func includeThrows id path) :
    ∀ target ∈ path, ReachesExit func includeThrows target := by
  induction h with
  | exit hblock hflows =>
    intro target hmem
    rw [mem_singleton.1 hmem]
    exact ⟨_, .exit hblock hflows⟩
  | step edge rest ih =>
    intro target hmem
    rcases mem_cons.1 hmem with rfl | hmem
    · exact ⟨_, .step edge rest⟩
    · exact ih target hmem

theorem ReverseOrder.postDominates_iff (hid : id ∈ ids) (target : BlockId) :
    PostDominates func includeThrows target id ↔
      target ∈ ids ∧ Dominates (nodeGraph func includeThrows ids) (node ids target)
        (node ids id) := by
  constructor
  · rintro ⟨⟨path, hpath⟩, hall⟩
    have htarget := (horder.mem_iff target).2 (hpath.reachesExit_of_mem target (hall path hpath))
    refine ⟨htarget, fun l hwalk => ?_⟩
    obtain ⟨path, hpath, rfl⟩ := horder.exists_path hwalk id hid rfl
    exact mem_append_left _ (mem_map_of_mem (hall path hpath))
  · rintro ⟨htarget, hdom⟩
    refine ⟨(horder.mem_iff id).1 hid, fun path hpath => ?_⟩
    rcases mem_append.1 (hdom _ (horder.walk hpath)) with hmem | hmem
    · obtain ⟨other, hother, heq⟩ := mem_map.1 hmem
      have hids := (horder.mem_iff other).2 (hpath.reachesExit_of_mem other hother)
      exact node_inj hids htarget heq ▸ hother
    · exact absurd (mem_singleton.1 hmem) (Nat.succ_ne_zero _)

end Graph

/-! ## The tree -/

/-- The block of a node. -/
def blockOf (exit : BlockId) (ids : List BlockId) : ℕ → BlockId
  | 0 => exit
  | k + 1 => ids.getD k exit

/-- What the tree of a function is. -/
structure TreeOf (func : HirFunction) (includeThrows : Bool) (ids : List BlockId) (parent : ℕ → ℕ)
    (post : PostDominator) : Prop where
  order : ReverseOrder func includeThrows ids
  falls : Falls parent
  le : ∀ v, 0 < v → v ≤ ids.length → parent v ≤ ids.length
  dominates : ∀ id ∈ ids, ∀ target, PostDominates func includeThrows target id ↔
    target ∈ ids ∧ Above parent (node ids target) (node ids id)
  range : post.range = .of func.ids
  fresh : ∀ id ∈ func.ids, id < post.exit
  get : ∀ id ∈ ids, post.get id = .ok (some (blockOf post.exit ids (parent (node ids id))))
  other : ∀ id ∈ func.ids, id ∉ ids → post.get id =
    if includeThrows then .error (.invariant "Unknown node in post-dominator tree") else .ok none

section Tree

variable {func : HirFunction} {includeThrows : Bool} {ids : List BlockId} {range : BlockRange}

theorem blockOf_node {id : BlockId} (h : id ∈ ids) (exit : BlockId) :
    blockOf exit ids (node ids id) = id := by
  rw [node, blockOf, getD_eq_getElem?_getD, getElem?_idxOf h, Option.getD_some]

theorem exists_node {v : ℕ} (hnodup : ids.Nodup) (hpos : 0 < v) (hv : v ≤ ids.length) :
    ∃ id ∈ ids, node ids id = v := by
  obtain ⟨k, rfl⟩ := Nat.exists_eq_succ_of_ne_zero (ne_of_gt hpos)
  have hk := getElem?_eq_getElem (show k < ids.length from hv)
  generalize ids[k] = id at hk
  have hmem := mem_of_getElem? hk
  exact ⟨id, hmem, Option.some.inj ((nodeOf_of_mem hmem).symm.trans (nodeOf_eq hnodup hk))⟩

/-- The table starts with the blocks themselves, or empty. -/
theorem exists_selves (hrange : ∀ id ∈ func.ids, range.InRange id) (includeThrows : Bool) :
    ∃ nodes, (if includeThrows then [] else func.ids).foldlM (setSelf range)
        (replicate range.len none) = .ok nodes ∧ nodes.length = range.len ∧
      ∀ id ∈ func.ids, nodes[id - range.first]? =
        some (if includeThrows then none else some id) := by
  cases includeThrows with
  | true =>
    refine ⟨_, rfl, length_replicate, fun id hid => ?_⟩
    rw [getElem?_replicate, if_pos (hrange id hid).2]
    rfl
  | false =>
    obtain ⟨nodes, hloop, hlength, hset, -⟩ := exists_foldlM_write func.ids
      (replicate range.len (none : Option BlockId)) (· - range.first) (fun id => id)
      (f := setSelf range) (fun id hid table => by rw [setSelf, (hrange id hid).offset, ok_bind])
      (fun id hid => by
        rw [length_replicate]
        exact (hrange id hid).2)
      (List.Nodup.map_on (fun id hid id' hid' => (hrange id hid).inj (hrange id' hid')) func.nodup)
    refine ⟨nodes, hloop, by rw [hlength, length_replicate], fun id hid => hset id hid⟩

/-- The dominators of the nodes are put in. -/
theorem exists_tree_nodes {graph : Graph} {doms : List (Option ℕ)} {parent : ℕ → ℕ}
    {nodes : List (Option BlockId)} (exit : BlockId)
    (hrange : ∀ id ∈ func.ids, range.InRange id) (hsub : ∀ id ∈ graph.ids, id ∈ func.ids)
    (hnodup : graph.ids.Nodup) (hknown : Known graph.ids.length doms parent (graph.ids.length + 1))
    (hle : ∀ v, 0 < v → v ≤ graph.ids.length → parent v ≤ graph.ids.length)
    (hlength : nodes.length = range.len) :
    ∃ nodes', (graph.ids.zip (doms.drop 1)).foldlM (setDominator range graph exit) nodes =
        .ok nodes' ∧ nodes'.length = range.len ∧
      (∀ id ∈ graph.ids, nodes'[id - range.first]? =
        some (some (blockOf exit graph.ids (parent (node graph.ids id))))) ∧
      ∀ id ∈ func.ids, id ∉ graph.ids → nodes'[id - range.first]? = nodes[id - range.first]? := by
  have hdoms : doms.drop 1 = graph.ids.map fun id => some (parent (node graph.ids id)) := by
    refine ext_getElem? fun k => ?_
    rw [getElem?_drop, getElem?_map, add_comm]
    rcases lt_or_ge k graph.ids.length with hk | hk
    · have hget := getElem?_eq_getElem hk
      generalize graph.ids[k] = id at hget
      have hnode : node graph.ids id = k + 1 := Option.some.inj
        ((nodeOf_of_mem (mem_of_getElem? hget)).symm.trans (nodeOf_eq hnodup hget))
      rw [hknown.known (k + 1) (by omega), hget, Option.map_some, hnode]
    · rw [getElem?_eq_none (by rw [hknown.length]; omega), getElem?_eq_none hk]
      rfl
  have hzip : graph.ids.zip (doms.drop 1) =
      graph.ids.map fun id => (id, some (parent (node graph.ids id))) := by
    have hboth := zip_map' (f := fun id : BlockId => id)
      (g := fun id => some (parent (node graph.ids id))) (l := graph.ids)
    rwa [map_id', ← hdoms] at hboth
  have hread : ∀ id ∈ graph.ids, graph.block exit (parent (node graph.ids id)) =
      .ok (blockOf exit graph.ids (parent (node graph.ids id))) := by
    intro id hid
    have hparent := hle (node graph.ids id) (Nat.succ_pos _) (node_le hid)
    cases hcase : parent (node graph.ids id) with
    | zero => rfl
    | succ k =>
      have hget := getElem?_eq_getElem (show k < graph.ids.length by omega)
      rw [Graph.block, Nat.add_sub_cancel, blockOf, getD_eq_getElem?_getD, read_eq hget, hget,
        Option.getD_some]
      exact Nat.succ_ne_zero k
  obtain ⟨nodes', hloop, hlength', hset, hother⟩ := exists_foldlM_write
    (graph.ids.map fun id => (id, some (parent (node graph.ids id)))) nodes
    (fun entry => entry.1 - range.first)
    (fun entry => blockOf exit graph.ids (parent (node graph.ids entry.1)))
    (f := setDominator range graph exit)
    (by
      intro entry hentry table
      obtain ⟨id, hid, rfl⟩ := mem_map.1 hentry
      rw [setDominator]
      rw [(hrange id (hsub id hid)).offset, ok_bind, unwrap, ok_bind, hread id hid, ok_bind])
    (by
      intro entry hentry
      obtain ⟨id, hid, rfl⟩ := mem_map.1 hentry
      rw [hlength]
      exact (hrange id (hsub id hid)).2)
    (by
      rw [map_map]
      exact List.Nodup.map_on (fun id hid id' hid' =>
        (hrange id (hsub id hid)).inj (hrange id' (hsub id' hid'))) hnodup)
  refine ⟨nodes', hzip ▸ hloop, hlength'.trans hlength, fun id hid => ?_, fun id hid hnot => ?_⟩
  · exact hset (id, _) (mem_map_of_mem hid)
  · refine hother _ fun entry hentry heq => hnot ?_
    obtain ⟨id', hid', rfl⟩ := mem_map.1 hentry
    exact (hrange id' (hsub id' hid')).inj (hrange id hid) heq ▸ hid'

/-- The tree is there. -/
theorem exists_tree (hcons : func.Consistent) {nextBlockIdCounter : ℕ}
    (hfresh : ∀ id ∈ func.ids, id < nextBlockIdCounter) (includeThrows : Bool) :
    ∃ post ids parent, (∀ᶠ fuel in Filter.atTop,
        computePostDominatorTree fuel func nextBlockIdCounter includeThrows = .ok post) ∧
      post.exit = nextBlockIdCounter ∧ TreeOf func includeThrows ids parent post := by
  obtain ⟨graph, hgraph, horder, hpreds⟩ := exists_reverseGraph hcons includeThrows
  have hnum := horder.numbered
  have hsub : ∀ id ∈ graph.ids, id ∈ func.ids := by
    intro id hid
    obtain ⟨path, hpath⟩ := (horder.mem_iff id).1 hid
    exact hpath.mem_ids
  have hnodes : ∀ v, 0 < v → v ≤ graph.ids.length →
      graph.predsOf v = .ok (nodeGraph func includeThrows graph.ids v) := by
    intro v hpos hv
    obtain ⟨id, hid, rfl⟩ := exists_node horder.nodup hpos hv
    rw [nodeGraph_node hid]
    exact hpreds _ id _ (getElem?_idxOf hid) (horder.mem_blocks hid)
  obtain ⟨doms, parent, hdoms, hknown, hfalls, habove⟩ := exists_dominators hnum hnodes
  have hle : ∀ v, 0 < v → v ≤ graph.ids.length → parent v ≤ graph.ids.length :=
    fun v hpos hv => (le_of_lt (hfalls v hpos)).trans hv
  have hrange : ∀ id ∈ func.ids, (BlockRange.of func.ids).InRange id := fun id h =>
    BlockRange.inRange_of h
  obtain ⟨selves, hselves, hlength, hself⟩ := exists_selves hrange includeThrows
  obtain ⟨nodes, hloop, hlength', hset, hother⟩ := exists_tree_nodes nextBlockIdCounter hrange hsub
    horder.nodup hknown hle hlength
  refine ⟨⟨nextBlockIdCounter, .of func.ids, nodes⟩, graph.ids, parent, ?_, rfl,
    horder, hfalls, hle, fun id hid target => ?_, rfl, hfresh, fun id hid => ?_,
    fun id hid hnot => ?_⟩
  · filter_upwards [hgraph, hdoms] with fuel hgraph hdoms
    rw [computePostDominatorTree, hgraph, ok_bind, hdoms, ok_bind, hselves, ok_bind, hloop, ok_bind]
  · rw [horder.postDominates_iff hid, habove _ (node_le hid)]
  · have hne : id ≠ nextBlockIdCounter := ne_of_lt (hfresh id (hsub id hid))
    have hget : PostDominator.node ⟨nextBlockIdCounter, .of func.ids, nodes⟩ id =
        .ok (some (blockOf nextBlockIdCounter graph.ids (parent (node graph.ids id)))) := by
      rw [PostDominator.node, (hrange id (hsub id hid)).index]
      exact read_eq (hset id hid)
    rw [PostDominator.get, if_neg hne, hget, ok_bind]
    dsimp only
    rw [if_pos]
    intro heq
    have hlt := hfalls (node graph.ids id) (Nat.succ_pos _)
    rcases Nat.eq_zero_or_pos (parent (node graph.ids id)) with hzero | hpos
    · rw [hzero, blockOf] at heq
      exact hne heq.symm
    · obtain ⟨other, hmem, hnode⟩ := exists_node horder.nodup hpos
        (hle _ (Nat.succ_pos _) (node_le hid))
      rw [← hnode, blockOf_node hmem] at heq
      rw [← hnode, heq] at hlt
      exact lt_irrefl _ hlt
  · have hne : id ≠ nextBlockIdCounter := ne_of_lt (hfresh id hid)
    have hget : PostDominator.node ⟨nextBlockIdCounter, .of func.ids, nodes⟩ id =
        .ok (if includeThrows then none else some id) := by
      rw [PostDominator.node, (hrange id hid).index]
      exact read_eq ((hother id hid hnot).trans (hself id hid))
    rw [PostDominator.get, if_neg hne, hget, ok_bind]
    cases includeThrows with
    | true => rfl
    | false => exact congrArg Except.ok (if_neg (not_not.2 rfl))

end Tree

end Soup.Hir
