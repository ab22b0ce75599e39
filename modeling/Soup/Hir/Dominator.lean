import Mathlib.Algebra.Order.Ring.Int
import Mathlib.Data.List.Basic

/-!
# Blocks and post-dominators

The blocks of `hir/mod.rs` with the successors of a terminal (`visitors.rs`). A terminal keeps the
blocks that are its successors.
-/

namespace Soup.Hir

open List Option

abbrev BlockId := ℕ

inductive Terminal where
  | unsupported
  | unreachable
  | throw
  | «return»
  | goto (block : BlockId)
  | «if» (consequent alternate : BlockId)
  | branch (consequent alternate : BlockId)
  | switch (cases : List BlockId)
  | doWhile (loopBlock : BlockId)
  | «while» (test : BlockId)
  | «for» (init : BlockId)
  | forOf (init : BlockId)
  | forIn (init : BlockId)
  | logical (test : BlockId)
  | ternary (test : BlockId)
  | optional (test : BlockId)
  | label (block : BlockId)
  | sequence (block : BlockId)
  | maybeThrow (continuation : BlockId) (handler : Option BlockId)
  | «try» (block : BlockId)
  | scope (block : BlockId)
  | prunedScope (block : BlockId)
  deriving DecidableEq, Repr

def eachTerminalSuccessor : Terminal → List BlockId
  | .goto block => [block]
  | .if consequent alternate => [consequent, alternate]
  | .branch consequent alternate => [consequent, alternate]
  | .switch cases => cases
  | .optional test | .ternary test | .logical test => [test]
  | .return => []
  | .throw => []
  | .doWhile loopBlock => [loopBlock]
  | .while test => [test]
  | .for init => [init]
  | .forOf init => [init]
  | .forIn init => [init]
  | .label block => [block]
  | .sequence block => [block]
  | .maybeThrow continuation handler => continuation :: handler.toList
  | .try block => [block]
  | .scope block | .prunedScope block => [block]
  | .unreachable | .unsupported => []

structure BasicBlock where
  terminal : Terminal
  preds : List BlockId
  deriving DecidableEq, Repr

/-- The body of a function. The keys of its map are not repeated. -/
structure HirFunction where
  entry : BlockId
  blocks : List (BlockId × BasicBlock)
  nodup : (blocks.map Prod.fst).Nodup

namespace HirFunction

/-- The keys of the map. -/
def ids (func : HirFunction) : List BlockId := func.blocks.map Prod.fst

/-- The values of the map. -/
def values (func : HirFunction) : List BasicBlock := func.blocks.map Prod.snd

/-- `target` is a block, and a successor of the block `source`. -/
def Edge (func : HirFunction) (source target : BlockId) : Prop :=
  ∃ block, (source, block) ∈ func.blocks ∧ target ∈ eachTerminalSuccessor block.terminal ∧
    target ∈ func.ids

/-- Predecessor lists have the sources of the edges. -/
def Consistent (func : HirFunction) : Prop :=
  ∀ target block, (target, block) ∈ func.blocks → ∀ source,
    source ∈ block.preds ↔ func.Edge source target

variable {func : HirFunction} {id : BlockId} {block : BasicBlock} {v : ℕ}

theorem getElem?_ids : func.ids[v]? = func.blocks[v]?.map Prod.fst := getElem?_map

theorem getElem?_values : func.values[v]? = func.blocks[v]?.map Prod.snd := getElem?_map

/-- A block at its place. -/
theorem exists_place (h : (id, block) ∈ func.blocks) :
    ∃ v : ℕ, func.ids[v]? = some id ∧ func.values[v]? = some block := by
  obtain ⟨v, hv⟩ := mem_iff_getElem?.1 h
  exact ⟨v, by rw [getElem?_ids, hv]; rfl, by rw [getElem?_values, hv]; rfl⟩

theorem mem_blocks (hid : func.ids[v]? = some id) (hblock : func.values[v]? = some block) :
    (id, block) ∈ func.blocks := by
  rw [getElem?_ids, map_eq_some_iff] at hid
  rw [getElem?_values, map_eq_some_iff] at hblock
  obtain ⟨entry, hentry, rfl⟩ := hid
  obtain ⟨entry', hentry', rfl⟩ := hblock
  obtain rfl := some.inj (hentry.symm.trans hentry')
  exact mem_of_getElem? hentry

/-- A block has one place. -/
theorem place_inj {u : ℕ} (hu : func.ids[u]? = some id) (hv : func.ids[v]? = some id) : u = v :=
  (getElem?_inj (List.getElem?_eq_some_iff.1 hu).1 func.nodup).1 (hu.trans hv.symm)

theorem block_unique {block' : BasicBlock} (h : (id, block) ∈ func.blocks)
    (h' : (id, block') ∈ func.blocks) : block = block' := by
  obtain ⟨u, hid, hblock⟩ := exists_place h
  obtain ⟨v, hid', hblock'⟩ := exists_place h'
  obtain rfl := place_inj hid hid'
  exact some.inj (hblock.symm.trans hblock')

end HirFunction

/-!
## Post-dominators

`dominator.rs`. A value that may be `NONE` is an option, and an index that is not in range is a
failure. The loops that end by what they find take a bound on their steps, and to reach it is a
failure too.
-/

inductive Failure where
  /-- A diagnostic of `ErrorCategory::Invariant`. -/
  | invariant (reason : String)
  | outOfBounds
  | outOfFuel
  deriving DecidableEq, Repr

abbrev Run := Except Failure

def read {α : Type} (values : List α) (i : ℕ) : Run α :=
  match values[i]? with
  | some value => .ok value
  | none => .error .outOfBounds

def write {α : Type} (values : List α) (i : ℕ) (value : α) : Run (List α) :=
  if i < values.length then .ok (values.set i value) else .error .outOfBounds

/-- The value of an option that is an index. -/
def unwrap {α : Type} : Option α → Run α
  | some value => .ok value
  | none => .error .outOfBounds

theorem read_eq {α : Type} {values : List α} {i : ℕ} {value : α} (h : values[i]? = some value) :
    read values i = .ok value := by
  rw [read, h]

theorem write_eq {α : Type} {values : List α} {i : ℕ} (h : i < values.length) (value : α) :
    write values i value = .ok (values.set i value) := if_pos h

/-! ### Tables by block -/

structure BlockRange where
  first : ℕ
  len : ℕ
  deriving DecidableEq, Repr

def BlockRange.of : List BlockId → BlockRange
  | [] => ⟨0, 0⟩
  | id :: ids =>
    let (first, last) := (id :: ids).foldl (fun (first, last) id => (min first id, max last id))
      (id, id)
    ⟨first, last - first + 1⟩

def BlockRange.index (range : BlockRange) (id : BlockId) : Option ℕ :=
  if range.first ≤ id ∧ id - range.first < range.len then some (id - range.first) else none

/-- `(id.0 - range.first) as usize`. -/
def BlockRange.offset (range : BlockRange) (id : BlockId) : Run ℕ :=
  if range.first ≤ id then .ok (id - range.first) else .error .outOfBounds

structure PostDominator where
  exit : BlockId
  range : BlockRange
  /-- By `BlockRange.index`. `none`: not a node. -/
  nodes : List (Option BlockId)
  deriving DecidableEq, Repr

/-- `self.range.index(id).map(|index| self.nodes[index])`. -/
def PostDominator.node (post : PostDominator) (id : BlockId) : Run (Option BlockId) :=
  match post.range.index id with
  | some index => read post.nodes index
  | none => .ok none

def PostDominator.get (post : PostDominator) (id : BlockId) : Run (Option BlockId) :=
  if id = post.exit then .ok none
  else do
    let node ← post.node id
    match node with
    | none => .error (.invariant "Unknown node in post-dominator tree")
    | some dominator => .ok (if dominator ≠ id then some dominator else none)

structure BlockSet where
  range : BlockRange
  has : List Bool
  deriving DecidableEq, Repr

def BlockSet.contains (set : BlockSet) (id : BlockId) : Run Bool :=
  match set.range.index id with
  | some index => read set.has index
  | none => .ok false

/-! ### Groups -/

/-- A list for each of some consecutive numbers. -/
structure Groups where
  starts : List ℕ
  members : List BlockId
  deriving DecidableEq, Repr

/-- `u32::MAX`, which is no block. -/
def noneId : BlockId := 4294967295

/-- The sums of the counts up to each place. -/
def runningSums (sum : ℕ) : List ℕ → List ℕ
  | [] => []
  | count :: counts => (sum + count) :: runningSums (sum + count) counts

def countMember (starts : List ℕ) (pair : ℕ × BlockId) : Run (List ℕ) := do
  let count ← read starts (pair.1 + 1)
  write starts (pair.1 + 1) (count + 1)

/-- The state has the members and the ends. -/
def placeMember (state : List BlockId × List ℕ) (pair : ℕ × BlockId) :
    Run (List BlockId × List ℕ) := do
  let place ← read state.2 pair.1
  let members ← write state.1 place pair.2
  let ends ← write state.2 pair.1 (place + 1)
  .ok (members, ends)

def Groups.new (len : ℕ) (pairs : List (ℕ × BlockId)) : Run Groups := do
  let counts ← pairs.foldlM countMember (replicate (len + 1) 0)
  let starts := runningSums 0 counts
  let state ← pairs.foldlM placeMember (replicate pairs.length noneId, starts)
  .ok ⟨starts, state.1⟩

/-- `members[starts[group]..starts[group + 1]]`. -/
def Groups.get (groups : Groups) (group : ℕ) : Run (List BlockId) := do
  let start ← read groups.starts group
  let stop ← read groups.starts (group + 1)
  if start ≤ stop ∧ stop ≤ groups.members.length then
    .ok ((groups.members.drop start).take (stop - start))
  else .error .outOfBounds

structure PostDominatorFrontiers where
  range : BlockRange
  frontiers : Groups
  deriving DecidableEq, Repr

def PostDominatorFrontiers.get (post : PostDominatorFrontiers) (id : BlockId) :
    Run (Option (List BlockId)) :=
  match post.range.index id with
  | some index => some <$> post.frontiers.get index
  | none => .ok none

/-! ### The reverse graph -/

/-- The reverse graph, of what reaches the exit. A node is its index in RPO: the exit is 0. -/
structure Graph where
  ids : List BlockId
  predStarts : List ℕ
  preds : List ℕ
  deriving DecidableEq, Repr

def flowsIntoExit (includeThrowsAsExitNode : Bool) (block : BasicBlock) : Bool :=
  match block.terminal with
  | .return => true
  | .throw => includeThrowsAsExitNode
  | _ => false

structure Search where
  visited : List Bool
  postorder : List ℕ
  deriving DecidableEq, Repr

/-- The loop over the stack, whose entries are a place with the rest of its predecessors. -/
def searchLoop (range : BlockRange) (places : List (Option ℕ)) (blocks : List BasicBlock) :
    ℕ → Search → List (ℕ × List BlockId) → Run Search
  | 0, _, _ => .error .outOfFuel
  | _ + 1, search, [] => .ok search
  | fuel + 1, search, (place, []) :: stack =>
    searchLoop range places blocks fuel { search with postorder := search.postorder ++ [place] }
      stack
  | fuel + 1, search, (place, successor :: successors) :: stack => do
    let index ← range.offset successor
    let found ← read places index
    let found ← unwrap found
    let visited ← read search.visited found
    if visited then searchLoop range places blocks fuel search ((place, successors) :: stack)
    else do
      let block ← read blocks found
      searchLoop range places blocks fuel { search with visited := search.visited.set found true }
        ((found, block.preds) :: (place, successors) :: stack)

def setPlace (range : BlockRange) (places : List (Option ℕ)) (entry : BlockId × ℕ) :
    Run (List (Option ℕ)) := do
  let index ← range.offset entry.1
  write places index (some entry.2)

/-- The search from a block, if it flows into the exit and was not found. -/
def searchBlock (fuel : ℕ) (range : BlockRange) (places : List (Option ℕ))
    (blocks : List BasicBlock) (includeThrowsAsExitNode : Bool) (search : Search)
    (entry : BasicBlock × ℕ) : Run Search := do
  let (block, place) := entry
  if flowsIntoExit includeThrowsAsExitNode block then do
    let visited ← read search.visited place
    if visited then .ok search
    else
      searchLoop range places blocks fuel { search with visited := search.visited.set place true }
        [(place, block.preds)]
  else .ok search

def setNode (ids : List BlockId) (range : BlockRange) (nodes : List (Option ℕ))
    (entry : ℕ × ℕ) : Run (List (Option ℕ)) := do
  let (place, index) := entry
  let id ← read ids place
  let offset ← range.offset id
  write nodes offset (some (index + 1))

def addPred (range : BlockRange) (nodes : List (Option ℕ)) (preds : List ℕ) (successor : BlockId) :
    Run (List ℕ) :=
  match range.index successor with
  | none => .ok preds
  | some index => do
    let node ← read nodes index
    .ok (preds ++ node.toList)

/-- The state has the starts and the predecessors. -/
def addPreds (blocks : List BasicBlock) (range : BlockRange) (nodes : List (Option ℕ))
    (includeThrowsAsExitNode : Bool) (state : List ℕ × List ℕ) (place : ℕ) :
    Run (List ℕ × List ℕ) := do
  let (predStarts, preds) := state
  let block ← read blocks place
  let preds := if flowsIntoExit includeThrowsAsExitNode block then preds ++ [0] else preds
  let preds ← (eachTerminalSuccessor block.terminal).foldlM (addPred range nodes) preds
  .ok (predStarts ++ [preds.length], preds)

def buildReverseGraph (fuel : ℕ) (func : HirFunction) (range : BlockRange)
    (includeThrowsAsExitNode : Bool) : Run Graph := do
  let ids := func.ids
  let blocks := func.values
  let places ← ids.zipIdx.foldlM (setPlace range) (replicate range.len none)
  let search ← blocks.zipIdx.foldlM (searchBlock fuel range places blocks includeThrowsAsExitNode)
    ⟨replicate blocks.length false, []⟩
  let postorder := search.postorder.reverse
  let nodes ← postorder.zipIdx.foldlM (setNode ids range) (replicate range.len none)
  let (predStarts, preds) ← postorder.foldlM (addPreds blocks range nodes includeThrowsAsExitNode)
    ([0, 0], [])
  let ids ← postorder.mapM (read ids)
  .ok ⟨ids, predStarts, preds⟩

/-! ### The fixpoint -/

/-- The two inner loops take the same steps, one at a time. -/
def intersect (doms : List (Option ℕ)) : ℕ → ℕ → ℕ → Run ℕ
  | 0, _, _ => .error .outOfFuel
  | fuel + 1, a, b =>
    if a = b then .ok a
    else if a > b then do
      let dom ← read doms a
      let a ← unwrap dom
      intersect doms fuel a b
    else do
      let dom ← read doms b
      let b ← unwrap dom
      intersect doms fuel a b

def noProcessedPred (id : BlockId) : Failure :=
  .invariant s!"At least one predecessor must have been visited for block BlockId({id})"

/-- The body of the loop over the predecessors. -/
def meetPred (doms : List (Option ℕ)) (newIdom : Option ℕ) (pred : ℕ) : Run (Option ℕ) := do
  let dom ← read doms pred
  match dom, newIdom with
  | none, _ => .ok newIdom
  | some _, none => .ok (some pred)
  | some _, some idom => do
    let idom ← intersect doms (pred + idom + 1) pred idom
    .ok (some idom)

/-- `graph.preds[graph.pred_starts[node]..graph.pred_starts[node + 1]]`. -/
def Graph.predsOf (graph : Graph) (node : ℕ) : Run (List ℕ) := do
  let start ← read graph.predStarts node
  let stop ← read graph.predStarts (node + 1)
  if start ≤ stop ∧ stop ≤ graph.preds.length then
    .ok ((graph.preds.drop start).take (stop - start))
  else .error .outOfBounds

/-- The body of the loop over the nodes. -/
def updateNode (graph : Graph) (state : List (Option ℕ) × Bool) (entry : BlockId × ℕ) :
    Run (List (Option ℕ) × Bool) := do
  let (doms, changed) := state
  let (id, index) := entry
  let node := index + 1
  let preds ← graph.predsOf node
  let newIdom ← preds.foldlM (meetPred doms) none
  match newIdom with
  | none => .error (noProcessedPred id)
  | some idom =>
    let dom ← read doms node
    if dom ≠ some idom then do
      let doms ← write doms node (some idom)
      .ok (doms, true)
    else .ok (doms, changed)

/-- The loop `while changed`. -/
def dominatorLoop (graph : Graph) : ℕ → List (Option ℕ) → Run (List (Option ℕ))
  | 0, _ => .error .outOfFuel
  | fuel + 1, doms => do
    let (doms, changed) ← graph.ids.zipIdx.foldlM (updateNode graph) (doms, false)
    if changed then dominatorLoop graph fuel doms else .ok doms

def computeImmediateDominators (fuel : ℕ) (graph : Graph) : Run (List (Option ℕ)) :=
  dominatorLoop graph fuel (some 0 :: replicate graph.ids.length none)

def setSelf (range : BlockRange) (nodes : List (Option BlockId)) (id : BlockId) :
    Run (List (Option BlockId)) := do
  let offset ← range.offset id
  write nodes offset (some id)

/-- The block of a node. -/
def Graph.block (graph : Graph) (exit : BlockId) : ℕ → Run BlockId
  | 0 => .ok exit
  | dom => read graph.ids (dom - 1)

def setDominator (range : BlockRange) (graph : Graph) (exit : BlockId)
    (nodes : List (Option BlockId)) (entry : BlockId × Option ℕ) :
    Run (List (Option BlockId)) := do
  let (id, dom) := entry
  let offset ← range.offset id
  let dom ← unwrap dom
  let dominator ← graph.block exit dom
  write nodes offset (some dominator)

def computePostDominatorTree (fuel : ℕ) (func : HirFunction) (nextBlockIdCounter : ℕ)
    (includeThrowsAsExitNode : Bool) : Run PostDominator := do
  let exit := nextBlockIdCounter
  let ids := func.ids
  let range := BlockRange.of ids
  let graph ← buildReverseGraph fuel func range includeThrowsAsExitNode
  let doms ← computeImmediateDominators fuel graph
  let nodes ← (if includeThrowsAsExitNode then [] else ids).foldlM (setSelf range)
    (replicate range.len none)
  let nodes ← (graph.ids.zip (doms.drop 1)).foldlM (setDominator range graph exit) nodes
  .ok ⟨exit, range, nodes⟩

/-! ### The frontiers -/

/-- The walk from a successor of `pred` up to `stop`. -/
def frontierWalk (post : PostDominator) (pred stop : BlockId) :
    ℕ → BlockId → List (Option BlockId) × List (ℕ × BlockId) →
      Run (List (Option BlockId) × List (ℕ × BlockId))
  | 0, _, _ => .error .outOfFuel
  | fuel + 1, targetId, (newest, frontiers) => do
    if targetId = stop then .ok (newest, frontiers)
    else
      let index ← post.range.offset targetId
      let last ← read newest index
      if last = some pred then .ok (newest, frontiers)
      else do
        let newest ← write newest index (some pred)
        let frontiers := frontiers ++ [(index, pred)]
        match ← post.get targetId with
        | some next =>
          if next ≠ post.exit then frontierWalk post pred stop fuel next (newest, frontiers)
          else .ok (newest, frontiers)
        | none => .ok (newest, frontiers)

def addEdge (post : PostDominator) (blockId : BlockId) (edges : List (ℕ × BlockId))
    (pred : BlockId) : Run (List (ℕ × BlockId)) := do
  let _ ← post.get pred
  let index ← post.range.offset pred
  .ok (edges ++ [(index, blockId)])

/-- `pred` is in the frontier of each successor and its post-dominators that are not `pred`'s. -/
def addFrontiers (fuel : ℕ) (post : PostDominator) (successors : Groups)
    (state : List (Option BlockId) × List (ℕ × BlockId)) (pred : BlockId) :
    Run (List (Option BlockId) × List (ℕ × BlockId)) := do
  let dominator ← post.get pred
  let index ← post.range.offset pred
  let targets ← successors.get index
  targets.foldlM (fun state blockId => frontierWalk post pred (dominator.getD pred) fuel blockId
    state) state

def postDominatorFrontiers (fuel : ℕ) (func : HirFunction) (post : PostDominator) :
    Run PostDominatorFrontiers := do
  let edges ← func.blocks.foldlM (fun edges entry =>
    entry.2.preds.foldlM (addEdge post entry.1) edges) []
  let successors ← Groups.new post.range.len edges
  let state ← func.ids.foldlM (addFrontiers fuel post successors)
    (replicate post.range.len none, [])
  let frontiers ← Groups.new post.range.len state.2
  .ok ⟨post.range, frontiers⟩

/-! ### Unconditional blocks -/

def unconditionalLoop (dominators : PostDominator) :
    ℕ → Option BlockId → List Bool → Run (List Bool)
  | 0, _, _ => .error .outOfFuel
  | _ + 1, none, has => .ok has
  | fuel + 1, some blockId, has => do
    if blockId = dominators.exit then .ok has
    else
      let current ← dominators.get blockId
      let index ← dominators.range.offset blockId
      let before ← read has index
      if before then
        .error (.invariant "Internal error: non-terminating loop in ComputeUnconditionalBlocks")
      else unconditionalLoop dominators fuel current (has.set index true)

def computeUnconditionalBlocks (fuel : ℕ) (func : HirFunction) (nextBlockIdCounter : ℕ) :
    Run BlockSet := do
  let dominators ← computePostDominatorTree fuel func nextBlockIdCounter false
  let range := dominators.range
  let has ← unconditionalLoop dominators fuel (some func.entry) (replicate range.len false)
  .ok ⟨range, has⟩

end Soup.Hir
