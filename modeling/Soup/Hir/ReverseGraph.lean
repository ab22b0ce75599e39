import Soup.Hir.Search

/-!
# Paths to the exit and the reverse graph

A block post-dominates another when every path from there to the exit goes through it, and there is
such a path.
-/

namespace Soup.Hir

open List HirFunction

/-- The blocks of a path from a block to the exit. -/
inductive ExitPath (func : HirFunction) (includeThrows : Bool) : BlockId → List BlockId → Prop
  | exit {id : BlockId} {block : BasicBlock} (hblock : (id, block) ∈ func.blocks)
      (hflows : flowsIntoExit includeThrows block = true) : ExitPath func includeThrows id [id]
  | step {id next : BlockId} {path : List BlockId} (edge : func.Edge id next)
      (rest : ExitPath func includeThrows next path) : ExitPath func includeThrows id (id :: path)

section Paths

variable (func : HirFunction) (includeThrows : Bool)

def ReachesExit (id : BlockId) : Prop := ∃ path, ExitPath func includeThrows id path

def PostDominates (target id : BlockId) : Prop :=
  ReachesExit func includeThrows id ∧ ∀ path, ExitPath func includeThrows id path → target ∈ path

/-- The closest of the other blocks that post-dominate `id`. -/
def IsImmediate (target id : BlockId) : Prop :=
  target ≠ id ∧ PostDominates func includeThrows target id ∧
    ∀ other, other ≠ id → PostDominates func includeThrows other id →
      PostDominates func includeThrows other target

variable {func includeThrows} {id : BlockId} {path : List BlockId}

theorem ExitPath.mem_ids (h : ExitPath func includeThrows id path) : id ∈ func.ids := by
  cases h with
  | exit hblock _ => exact mem_map_of_mem hblock
  | step edge _ =>
    obtain ⟨block, hblock, -⟩ := edge
    exact mem_map_of_mem hblock

end Paths

/-!
## The reverse graph

The nodes after the exit are the blocks that reach it, each behind a successor or with an edge to
the exit (`ReverseOrder`), and the predecessors of a node are the nodes of its successors
(`exists_reverseGraph`).
-/

open Lib

section Search

variable {func : HirFunction} {includeThrows : Bool} {range : BlockRange}
  {places : List (Option ℕ)}

theorem searching_start : Searching func includeThrows
    ⟨replicate func.values.length false, []⟩ [] := by
  refine ⟨by simp [values], ?_, by simp [found], by simp [found], trivial, by simp,
    by simp⟩
  intro v hv
  simp [found, values, hv]

variable (includeThrows) in
/-- The search finds all that flows into the exit. -/
theorem exists_search (hplaces : PlacedIn func range places)
    (hids : ∀ block ∈ func.values, ∀ id ∈ block.preds, id ∈ func.ids) :
    ∃ search, (∀ᶠ fuel in Filter.atTop, func.values.zipIdx.foldlM
        (searchBlock fuel range places func.values includeThrows)
        ⟨replicate func.values.length false, []⟩ = .ok search) ∧
      Searching func includeThrows search [] ∧
      ∀ v, FlowsAt func includeThrows v → v ∈ found search [] := by
  obtain ⟨search, hloop, hend, hall⟩ := eventually_foldlM func.values.zipIdx
    (f := fun fuel => searchBlock fuel range places func.values includeThrows)
    (P := fun done search => Searching func includeThrows search [] ∧
      ∀ entry ∈ done, flowsIntoExit includeThrows entry.1 = true → entry.2 ∈ found search [])
    (s := ⟨replicate func.values.length false, []⟩) ⟨searching_start, by simp⟩ (by
      rintro done ⟨block, place⟩ rest hxs search ⟨h, hdone⟩
      have hblock : func.values[place]? = some block :=
        mem_zipIdx_iff_getElem?.1 (hxs ▸ by simp : (block, place) ∈ func.values.zipIdx)
      have hlt : place < func.blocks.length := by
        have := (List.getElem?_eq_some_iff.1 hblock).1
        rwa [values, length_map] at this
      by_cases hflows : flowsIntoExit includeThrows block = true
      · by_cases hmem : place ∈ found search []
        · refine ⟨search, .of_forall fun fuel => ?_, h, fun entry hentry hf => ?_⟩
          · rw [searchBlock, if_pos hflows, read_eq (h.visited place hlt), ok_bind,
              decide_eq_true hmem, if_pos rfl]
          · rcases mem_append.1 hentry with hentry | hentry
            · exact hdone entry hentry hf
            · rw [mem_singleton.1 hentry]
              exact hmem
        · obtain ⟨search', hrun, hend, hsub⟩ := Searching.run hplaces hids _ _
            (h.push hblock hmem (.inl ⟨block, hblock, hflows⟩))
          refine ⟨search', ?_, hend, fun entry hentry hf => hsub (mem_found_push.2 ?_)⟩
          · filter_upwards [hrun] with fuel hrun
            rw [searchBlock, if_pos hflows, read_eq (h.visited place hlt), ok_bind,
              decide_eq_false hmem, if_neg Bool.false_ne_true]
            exact hrun
          · rcases mem_append.1 hentry with hentry | hentry
            · exact .inr (hdone entry hentry hf)
            · rw [mem_singleton.1 hentry]
              exact .inl rfl
      · refine ⟨search, .of_forall fun fuel => ?_, h, fun entry hentry hf => ?_⟩
        · rw [searchBlock, if_neg hflows]
        · rcases mem_append.1 hentry with hentry | hentry
          · exact hdone entry hentry hf
          · rw [mem_singleton.1 hentry] at hf
            exact absurd hf hflows)
  refine ⟨search, hloop, hend, ?_⟩
  rintro v ⟨block, hblock, hflows⟩
  exact hall (block, v) (mem_zipIdx_iff_getElem?.2 hblock) hflows

end Search

/-! ### The order -/

/-- Every block flows into the exit, or has an edge to a block before. -/
def LedIds (func : HirFunction) (includeThrows : Bool) (ids : List BlockId) : Prop :=
  ∀ (k : ℕ) (id : BlockId), ids[k]? = some id →
    (∃ block, (id, block) ∈ func.blocks ∧ flowsIntoExit includeThrows block = true) ∨
      ∃ j < k, ∃ other, ids[j]? = some other ∧ func.Edge id other

/-- The blocks in the order of the nodes. -/
structure ReverseOrder (func : HirFunction) (includeThrows : Bool) (ids : List BlockId) : Prop where
  nodup : ids.Nodup
  mem_iff : ∀ id, id ∈ ids ↔ ReachesExit func includeThrows id
  led : LedIds func includeThrows ids

section Order

variable {func : HirFunction} {includeThrows : Bool}

/-- The blocks at some places. -/
def idsAt (func : HirFunction) (order : List ℕ) : List BlockId := order.map (func.ids.getD · 0)

theorem getElem?_idsAt {order : List ℕ} {k v : ℕ} {id : BlockId} (hv : order[k]? = some v)
    (hid : func.ids[v]? = some id) : (idsAt func order)[k]? = some id := by
  rw [idsAt, getElem?_map, hv, Option.map_some, getD_eq_getElem?_getD, hid]
  rfl

theorem exists_idsAt {order : List ℕ} (hlt : ∀ v ∈ order, v < func.blocks.length) {k : ℕ}
    {id : BlockId} (h : (idsAt func order)[k]? = some id) :
    ∃ v, order[k]? = some v ∧ func.ids[v]? = some id := by
  rw [idsAt, getElem?_map, Option.map_eq_some_iff] at h
  obtain ⟨v, hv, rfl⟩ := h
  have hvlt : v < func.ids.length := by
    rw [ids, length_map]
    exact hlt v (mem_of_getElem? hv)
  refine ⟨v, hv, ?_⟩
  rw [getD_eq_getElem?_getD, getElem?_eq_getElem hvlt, Option.getD_some]

theorem leadsTo_iff (hcons : func.Consistent) {u v : ℕ} {id other : BlockId}
    (hu : func.ids[u]? = some other) (hv : func.ids[v]? = some id) :
    LeadsTo func u v ↔ func.Edge id other := by
  constructor
  · rintro ⟨block, id', hblock, hid', hv'⟩
    obtain rfl := Option.some.inj (hv.symm.trans hv')
    exact (hcons other block (mem_blocks hu hblock) id).1 hid'
  · intro hedge
    have hother := mem_of_getElem? hu
    obtain ⟨⟨_, block⟩, hblock, rfl⟩ := mem_map.1 hother
    obtain ⟨u', hu', hvalue⟩ := exists_place hblock
    obtain rfl := place_inj hu hu'
    exact ⟨block, id, hvalue, (hcons _ block hblock id).2 hedge, hv⟩

theorem LedIds.reachesExit {ids : List BlockId} (hled : LedIds func includeThrows ids) :
    ∀ (k : ℕ) (id : BlockId), ids[k]? = some id → ReachesExit func includeThrows id := by
  intro k
  induction k using Nat.strong_induction_on with
  | _ k ih =>
    intro id hid
    rcases hled k id hid with ⟨block, hblock, hflows⟩ | ⟨j, hj, other, hother, hedge⟩
    · exact ⟨[id], .exit hblock hflows⟩
    · obtain ⟨path, hpath⟩ := ih j hj other hother
      exact ⟨id :: path, .step hedge hpath⟩

theorem Searching.reverseOrder {search : Search} (hcons : func.Consistent)
    (h : Searching func includeThrows search [])
    (hall : ∀ v, FlowsAt func includeThrows v → v ∈ found search []) :
    ReverseOrder func includeThrows (idsAt func search.postorder.reverse) := by
  have hfound : found search [] = search.postorder.reverse := rfl
  have hlt := hfound ▸ h.lt
  have hplace : ∀ v ∈ search.postorder.reverse, ∃ id, func.ids[v]? = some id := by
    intro v hv
    have hvlt : v < func.ids.length := by
      rw [ids, length_map]
      exact hlt v hv
    exact ⟨_, getElem?_eq_getElem hvlt⟩
  have hstep : LedIds func includeThrows (idsAt func search.postorder.reverse) := by
    intro k id hk
    obtain ⟨v, hv, hid⟩ := exists_idsAt hlt hk
    obtain ⟨hklt, hget⟩ := List.getElem?_eq_some_iff.1 hv
    have hsplit := take_append_drop k search.postorder.reverse
    rw [drop_eq_getElem_cons hklt, hget] at hsplit
    have hled := hfound ▸ h.led
    rw [← hsplit] at hled
    rcases hled.split with ⟨block, hblock, hflows⟩ | ⟨u, hu, hlead⟩
    · exact .inl ⟨block, mem_blocks hid hblock, hflows⟩
    · obtain ⟨j, hj⟩ := mem_iff_getElem?.1 hu
      have hjk : j < k := by
        have := (List.getElem?_eq_some_iff.1 hj).1
        rw [length_take] at this
        omega
      rw [getElem?_take, if_pos hjk] at hj
      obtain ⟨other, hother⟩ := hplace u (mem_of_getElem? hj)
      exact .inr ⟨j, hjk, other, getElem?_idsAt hj hother, (leadsTo_iff hcons hother hid).1 hlead⟩
  refine ⟨?_, fun id => ⟨fun hmem => ?_, ?_⟩, hstep⟩
  · refine List.Nodup.map_on ?_ (hfound ▸ h.nodup)
    intro u hu v hv heq
    obtain ⟨id, hid⟩ := hplace u hu
    obtain ⟨other, hother⟩ := hplace v hv
    rw [getD_eq_getElem?_getD, getD_eq_getElem?_getD, hid, hother, Option.getD_some,
      Option.getD_some] at heq
    exact place_inj hid (heq ▸ hother)
  · obtain ⟨k, hk⟩ := mem_iff_getElem?.1 hmem
    exact hstep.reachesExit k id hk
  · rintro ⟨path, hpath⟩
    have hmem : ∀ {v : ℕ} {id : BlockId}, v ∈ search.postorder.reverse → func.ids[v]? = some id →
        id ∈ idsAt func search.postorder.reverse := by
      intro v id hv hid
      obtain ⟨k, hk⟩ := mem_iff_getElem?.1 hv
      exact mem_of_getElem? (getElem?_idsAt hk hid)
    induction hpath with
    | exit hblock hflows =>
      obtain ⟨v, hid, hvalue⟩ := exists_place hblock
      exact hmem (hall v ⟨_, hvalue, hflows⟩) hid
    | @step id next path edge rest ih =>
      obtain ⟨k, hk⟩ := mem_iff_getElem?.1 ih
      obtain ⟨u, hu, hnext⟩ := exists_idsAt hlt hk
      obtain ⟨block, hblock, hnext'⟩ := edge
      obtain ⟨v, hid, -⟩ := exists_place hblock
      have hclosed := h.closed u (mem_reverse.1 (mem_of_getElem? hu)) v
        ((leadsTo_iff hcons hnext hid).2 ⟨block, hblock, hnext'⟩)
      exact hmem hclosed hid

end Order

/-! ### Nodes and predecessors -/

/-- The node of a block. -/
def nodeOf (ids : List BlockId) (id : BlockId) : Option ℕ :=
  if id ∈ ids then some (ids.idxOf id + 1) else none

/-- The nodes of the successors of a block, and of the exit. -/
def nodePreds (includeThrows : Bool) (ids : List BlockId) (block : BasicBlock) : List ℕ :=
  (if flowsIntoExit includeThrows block = true then [0] else []) ++
    (eachTerminalSuccessor block.terminal).filterMap (nodeOf ids)

section Nodes

variable {func : HirFunction} {includeThrows : Bool} {range : BlockRange} {ids : List BlockId}

theorem nodeOf_eq (hnodup : ids.Nodup) {k : ℕ} {id : BlockId} (h : ids[k]? = some id) :
    nodeOf ids id = some (k + 1) := by
  obtain ⟨hlt, hget⟩ := List.getElem?_eq_some_iff.1 h
  rw [nodeOf, if_pos (mem_of_getElem? h), ← hget, hnodup.idxOf_getElem]

theorem exists_nodes (hrange : ∀ id ∈ func.ids, range.InRange id) {order : List ℕ}
    (hlt : ∀ v ∈ order, v < func.blocks.length) (hnodup : (idsAt func order).Nodup) :
    ∃ nodes, order.zipIdx.foldlM (setNode func.ids range) (replicate range.len none) =
        .ok nodes ∧
      ∀ id, range.InRange id → nodes[id - range.first]? = some (nodeOf (idsAt func order) id) := by
  have hentry : ∀ entry ∈ order.zipIdx, ∃ id, func.ids[entry.1]? = some id ∧
      (idsAt func order)[entry.2]? = some id ∧ func.ids.getD entry.1 0 = id := by
    rintro ⟨v, k⟩ hmem
    have hv := mem_zipIdx_iff_getElem?.1 hmem
    have hvlt : v < func.ids.length := by
      rw [ids, length_map]
      exact hlt v (mem_of_getElem? hv)
    have hid := getElem?_eq_getElem hvlt
    refine ⟨_, hid, getElem?_idsAt hv hid, ?_⟩
    rw [getD_eq_getElem?_getD, hid, Option.getD_some]
  have hstep : ∀ entry ∈ order.zipIdx, ∀ table, setNode func.ids range table entry =
      write table (func.ids.getD entry.1 0 - range.first) (some (entry.2 + 1)) := by
    rintro ⟨v, k⟩ hmem table
    obtain ⟨id, hid, -, hget⟩ := hentry (v, k) hmem
    rw [setNode]
    rw [read_eq hid, ok_bind, (hrange id (mem_of_getElem? hid)).offset, ok_bind, hget]
  have hkeys : ∀ entry ∈ order.zipIdx, func.ids.getD entry.1 0 - range.first <
      (replicate range.len (none : Option ℕ)).length := by
    intro entry hmem
    obtain ⟨id, hid, -, hget⟩ := hentry entry hmem
    rw [hget, length_replicate]
    exact (hrange id (mem_of_getElem? hid)).2
  have hdistinct : (order.zipIdx.map fun entry =>
      func.ids.getD entry.1 0 - range.first).Nodup := by
    have hmap : order.zipIdx.map (fun entry => func.ids.getD entry.1 0 - range.first) =
        (idsAt func order).map (· - range.first) := by
      rw [idsAt, map_map]
      conv_rhs => rw [← zipIdx_map_fst 0 order, map_map]
      rfl
    rw [hmap]
    refine List.Nodup.map_on ?_ hnodup
    intro id hid id' hid' heq
    have hsub : ∀ id ∈ idsAt func order, id ∈ func.ids := by
      intro id hid
      obtain ⟨k, hk⟩ := mem_iff_getElem?.1 hid
      obtain ⟨v, -, hv⟩ := exists_idsAt hlt hk
      exact mem_of_getElem? hv
    exact (hrange id (hsub id hid)).inj (hrange id' (hsub id' hid')) heq
  obtain ⟨nodes, hloop, -, hset, hother⟩ := exists_foldlM_write order.zipIdx _ _ _ hstep hkeys
    hdistinct
  refine ⟨nodes, hloop, fun id hid => ?_⟩
  by_cases hmem : id ∈ idsAt func order
  · obtain ⟨k, hk⟩ := mem_iff_getElem?.1 hmem
    obtain ⟨v, hv, hvid⟩ := exists_idsAt hlt hk
    have hnode := hset (v, k) (mem_zipIdx_iff_getElem?.2 hv)
    rw [getD_eq_getElem?_getD, hvid, Option.getD_some] at hnode
    rw [hnode, nodeOf_eq hnodup hk]
  · rw [hother, getElem?_replicate, if_pos hid.2, nodeOf, if_neg hmem]
    intro entry hentry' heq
    obtain ⟨id', hid', hat, hget⟩ := hentry entry hentry'
    rw [hget] at heq
    exact hmem ((hrange id' (mem_of_getElem? hid')).inj hid heq ▸ mem_of_getElem? hat)

variable {nodes : List (Option ℕ)}

/-- A successor that does not reach the exit is left out. -/
theorem addPred_eq (hrange : ∀ id ∈ ids, range.InRange id)
    (hnodes : ∀ id, range.InRange id → nodes[id - range.first]? = some (nodeOf ids id))
    (preds : List ℕ) (id : BlockId) :
    addPred range nodes preds id = .ok (preds ++ (nodeOf ids id).toList) := by
  rw [addPred]
  cases hindex : range.index id with
  | none =>
    have hmem : id ∉ ids := by
      intro hmem
      rw [(hrange id hmem).index] at hindex
      cases hindex
    rw [nodeOf, if_neg hmem, Option.toList_none, append_nil]
  | some index =>
    have hid : range.InRange id := by
      rw [BlockRange.index] at hindex
      split at hindex
      · assumption
      · cases hindex
    obtain rfl := BlockRange.index_eq_some hindex
    dsimp only
    rw [read_eq (hnodes id hid), ok_bind]

theorem addPreds_eq (hrange : ∀ id ∈ ids, range.InRange id)
    (hnodes : ∀ id, range.InRange id → nodes[id - range.first]? = some (nodeOf ids id))
    {v : ℕ} {block : BasicBlock} (hblock : func.values[v]? = some block) (starts preds : List ℕ) :
    addPreds func.values range nodes includeThrows (starts, preds) v =
      .ok (starts ++ [(preds ++ nodePreds includeThrows ids block).length],
        preds ++ nodePreds includeThrows ids block) := by
  have hloop : ∀ (successors : List BlockId) (preds : List ℕ),
      successors.foldlM (addPred range nodes) preds =
        .ok (preds ++ successors.filterMap (nodeOf ids)) := by
    intro successors
    induction successors with
    | nil => intro preds; rw [filterMap_nil, append_nil]; rfl
    | cons id successors ih =>
      intro preds
      rw [foldlM_cons, addPred_eq hrange hnodes, ok_bind, ih]
      cases hnode : nodeOf ids id <;> simp [hnode]
  rw [addPreds]
  dsimp only
  rw [read_eq hblock, ok_bind, hloop, ok_bind]
  have hpreds : (if flowsIntoExit includeThrows block = true then preds ++ [0] else preds) ++
      (eachTerminalSuccessor block.terminal).filterMap (nodeOf ids) =
        preds ++ nodePreds includeThrows ids block := by
    rw [nodePreds, ← List.append_assoc]
    split <;> simp
  rw [hpreds]

/-- The predecessors of the nodes that are done, one list behind the other. -/
structure Listed (lists : List (List ℕ)) (state : List ℕ × List ℕ) : Prop where
  preds : state.2 = lists.flatten
  length : state.1.length = lists.length + 2
  starts : ∀ k ≤ lists.length, state.1[k + 1]? = some (lists.take k).flatten.length

variable {state : List ℕ × List ℕ} {lists : List (List ℕ)}

theorem Listed.concat (h : Listed lists state) (preds : List ℕ) :
    Listed (lists ++ [preds]) (state.1 ++ [(state.2 ++ preds).length], state.2 ++ preds) := by
  have hpreds : state.2 ++ preds = (lists ++ [preds]).flatten := by
    rw [h.preds, flatten_concat]
  refine ⟨hpreds, by simp [h.length], fun k hk => ?_⟩
  rw [length_append, length_singleton] at hk
  rcases lt_or_ge lists.length k with hlt | hge
  · obtain rfl : k = lists.length + 1 := le_antisymm hk hlt
    rw [getElem?_append_right (by rw [h.length]), h.length, hpreds, take_of_length_le]
    · simp
    · simp
  · rw [getElem?_append_left (by rw [h.length]; omega), h.starts k hge,
      take_append_of_le_length hge]

theorem Listed.predsOf (h : Listed lists state)
    {k : ℕ} {preds : List ℕ} (hk : lists[k]? = some preds) (ids : List BlockId) :
    Graph.predsOf ⟨ids, state.1, state.2⟩ (k + 1) = .ok preds := by
  obtain ⟨hlt, hget⟩ := List.getElem?_eq_some_iff.1 hk
  have hsplit : lists.flatten = (lists.take k).flatten ++
      (preds ++ (lists.drop (k + 1)).flatten) := by
    conv_lhs => rw [← take_append_drop k lists, drop_eq_getElem_cons hlt, hget]
    rw [flatten_append, flatten_cons]
  have hstop : (lists.take (k + 1)).flatten.length = (lists.take k).flatten.length +
      preds.length := by
    rw [take_add_one, hk, Option.toList_some, flatten_concat, length_append]
  have hle : (lists.take k).flatten.length + preds.length ≤ lists.flatten.length := by
    rw [hsplit, length_append, length_append]
    omega
  rw [Graph.predsOf]
  rw [read_eq (h.starts k (le_of_lt hlt)), ok_bind, read_eq (h.starts (k + 1) hlt), ok_bind,
    hstop, h.preds, if_pos ⟨Nat.le_add_right _ _, hle⟩, hsplit, drop_left,
    Nat.add_sub_cancel_left, take_left]

/-- The reverse graph is there. -/
theorem exists_reverseGraph (hcons : func.Consistent) (includeThrows : Bool) :
    ∃ graph, (∀ᶠ fuel in Filter.atTop, buildReverseGraph fuel func (.of func.ids) includeThrows =
        .ok graph) ∧
      ReverseOrder func includeThrows graph.ids ∧
      ∀ (k : ℕ) (id : BlockId) (block : BasicBlock), graph.ids[k]? = some id →
        (id, block) ∈ func.blocks →
          graph.predsOf (k + 1) = .ok (nodePreds includeThrows graph.ids block) := by
  have hrange : ∀ id ∈ func.ids, (BlockRange.of func.ids).InRange id := fun id h =>
    BlockRange.inRange_of h
  generalize BlockRange.of func.ids = range at hrange
  have hids : ∀ block ∈ func.values, ∀ id ∈ block.preds, id ∈ func.ids := by
    intro block hblock id hid
    obtain ⟨⟨target, block⟩, hentry, rfl⟩ := mem_map.1 hblock
    obtain ⟨source, hsource, -⟩ := (hcons target block hentry id).1 hid
    exact mem_map_of_mem hsource
  obtain ⟨places, hplaces, -, hplace, -⟩ := exists_foldlM_write func.ids.zipIdx
    (replicate range.len (none : Option ℕ)) (fun entry => entry.1 - range.first)
      (fun entry => entry.2)
    (f := setPlace range) (fun entry hentry table => by
      rw [setPlace, (hrange _ (fst_mem_of_mem_zipIdx hentry)).offset, ok_bind])
    (fun entry hentry => by
      rw [length_replicate]
      exact (hrange _ (fst_mem_of_mem_zipIdx hentry)).2)
    (by
      have hmap : func.ids.zipIdx.map (fun entry => entry.1 - range.first) =
          func.ids.map (· - range.first) := by
        conv_rhs => rw [← zipIdx_map_fst 0 func.ids, map_map]
        rfl
      rw [hmap]
      exact List.Nodup.map_on (fun id hid id' hid' => (hrange id hid).inj (hrange id' hid'))
        func.nodup)
  have hplacedIn : PlacedIn func range places := fun v id hv =>
    ⟨hrange id (mem_of_getElem? hv), hplace (id, v) (mem_zipIdx_iff_getElem?.2 hv)⟩
  obtain ⟨search, hsearch, hend, hall⟩ := exists_search includeThrows hplacedIn hids
  have horder := hend.reverseOrder hcons hall
  have hlt : ∀ v ∈ search.postorder.reverse, v < func.blocks.length := hend.lt
  obtain ⟨nodes, hnodes, hnode⟩ := exists_nodes hrange hlt horder.nodup
  have hsub : ∀ id ∈ idsAt func search.postorder.reverse, range.InRange id := by
    intro id hid
    obtain ⟨path, hpath⟩ := (horder.mem_iff id).1 hid
    exact hrange id hpath.mem_ids
  generalize hpostorder : search.postorder.reverse = order at *
  generalize hgids : idsAt func order = ids at *
  have hvalue : ∀ v ∈ order, ∃ block, func.values[v]? = some block := by
    intro v hv
    have hvlt : v < func.values.length := by
      rw [values, length_map]
      exact hlt v hv
    exact ⟨_, getElem?_eq_getElem hvlt⟩
  obtain ⟨state, hstate, hlisted⟩ := exists_foldlM order
    (f := addPreds func.values range nodes includeThrows) (s := ([0, 0], []))
    (P := fun done state => Listed (done.map fun v =>
      nodePreds includeThrows ids (func.values.getD v ⟨.unreachable, []⟩)) state)
    ⟨rfl, rfl, fun k hk => by
      obtain rfl := Nat.le_zero.1 hk
      rfl⟩
    (by
      rintro done v rest rfl state h
      obtain ⟨block, hblock⟩ := hvalue v (by simp)
      refine ⟨_, addPreds_eq hsub hnode hblock state.1 state.2, ?_⟩
      rw [map_append, map_singleton, getD_eq_getElem?_getD, hblock]
      exact h.concat _)
  have hmapM : order.mapM (read func.ids) = .ok ids := by
    rw [← hgids]
    refine mapM_ok fun v hv => ?_
    have hvlt : v < func.ids.length := by
      rw [HirFunction.ids, length_map]
      exact hlt v hv
    have hid := getElem?_eq_getElem hvlt
    rw [read_eq hid, getD_eq_getElem?_getD, hid, Option.getD_some]
  refine ⟨⟨ids, state.1, state.2⟩, ?_, horder, ?_⟩
  · filter_upwards [hsearch] with fuel hsearch
    rw [buildReverseGraph]
    dsimp only
    rw [hplaces, ok_bind, hsearch, ok_bind, hpostorder, hnodes, ok_bind, hstate, ok_bind, hmapM,
      ok_bind]
  · intro k id block hk hblock
    refine hlisted.predsOf ?_ ids
    rw [← hgids] at hk
    obtain ⟨v, hv, hid⟩ := exists_idsAt hlt hk
    obtain ⟨u, hu, hvalue⟩ := exists_place hblock
    obtain rfl := place_inj hid hu
    rw [getElem?_map, hv, Option.map_some, getD_eq_getElem?_getD, hvalue]
    rfl

end Nodes

end Soup.Hir
