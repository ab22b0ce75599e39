import Soup.Hir.Groups

/-!
# Load classes

`immediate_dominators` and `load_class` of `mergeSmallChunks.rs`. A bit set of entries is a
function, and its iterator has the ids in order. `UNREACHED` is `none`. The loops that end by what
they find take a bound on their steps, and to reach it is a failure.
-/

namespace Soup.Bundler

open List Function

open Hir (Run runningSums unwrap)

/-- A table by node. -/
abbrev Nodes := ℕ → Option ℕ

/-! ## Immediate dominators -/

structure Visit where
  postorder : Nodes
  order : List ℕ

/-- The loop over the stack, with the number of the successor that is next. -/
def visitLoop (successors : ℕ → List ℕ) : ℕ → Visit → List (ℕ × ℕ) → Run Visit
  | 0, _, _ => .error .outOfFuel
  | _ + 1, visit, [] => .ok visit
  | fuel + 1, visit, (node, next) :: stack =>
    match (successors node)[next]? with
    | some succ =>
      if visit.postorder succ = none then
        visitLoop successors fuel
          ⟨update visit.postorder succ (some 0), visit.order⟩
          ((succ, 0) :: (node, next + 1) :: stack)
      else visitLoop successors fuel visit ((node, next + 1) :: stack)
    | none =>
      visitLoop successors fuel
        ⟨update visit.postorder node (some visit.order.length), visit.order ++ [node]⟩
        stack

/-- The two inner loops take the same steps, one at a time. -/
def climb (postorder idom : Nodes) : ℕ → ℕ → ℕ → Run ℕ
  | 0, _, _ => .error .outOfFuel
  | fuel + 1, a, b =>
    if a = b then .ok a
    else if (postorder a).getD 0 < (postorder b).getD 0 then do
      let a ← unwrap (idom a)
      climb postorder idom fuel a b
    else if (postorder b).getD 0 < (postorder a).getD 0 then do
      let b ← unwrap (idom b)
      climb postorder idom fuel a b
    else climb postorder idom fuel a b

/-- What is done with each predecessor. -/
def meetPred (postorder idom : Nodes) (fuel : ℕ) (newIdom : Option ℕ) (pred : ℕ) : Run (Option ℕ) :=
  match idom pred, newIdom with
  | none, _ => .ok newIdom
  | some _, none => .ok (some pred)
  | some _, some newIdom => do
    let a ← climb postorder idom fuel pred newIdom
    .ok (some a)

/-- What is done with each node of the reverse order, behind the root. -/
def updateNode (postorder : Nodes) (predecessors : ℕ → List ℕ) (fuel : ℕ) (state : Nodes × Bool)
    (node : ℕ) : Run (Nodes × Bool) := do
  let (idom, changed) := state
  let newIdom ← (predecessors node).foldlM (meetPred postorder idom fuel) none
  .ok (if idom node ≠ newIdom then (update idom node newIdom, true) else (idom, changed))

/-- The loop `while changed`. -/
def changeLoop (visit : Visit) (predecessors : ℕ → List ℕ) : ℕ → Nodes → Run Nodes
  | 0, _ => .error .outOfFuel
  | fuel + 1, idom => do
    let (idom, changed) ← visit.order.reverse.tail.foldlM
      (updateNode visit.postorder predecessors fuel) (idom, false)
    if changed then changeLoop visit predecessors fuel idom else .ok idom

def immediateDominators (fuel : ℕ) (successors : ℕ → List ℕ) (root : ℕ)
    (predecessors : ℕ → List ℕ) : Run Nodes := do
  let visit ← visitLoop successors fuel ⟨update (fun _ => none) root (some 0), []⟩
    [(root, 0)]
  changeLoop visit predecessors fuel (update (fun _ => none) root (some root))

/-! ## The graph of the entries -/

/-- The entries, with what some live code of an entry `import()`s, and those that can stand in for
their importers. -/
structure EntryGraph where
  len : ℕ
  /-- The second entry is in an `import()` of the first. -/
  imports : ℕ → ℕ → Bool
  guaranteed : ℕ → Bool

namespace EntryGraph

variable (graph : EntryGraph)

/-- The iterator over a set of entries. -/
def ids (bits : ℕ → Bool) : List ℕ := (range graph.len).filter bits

/-- `importer_bits[entry_id]`, less the entry itself. -/
def importerBits (entry importer : ℕ) : Bool :=
  graph.imports importer entry && decide (importer ≠ entry)

def vroot : ℕ := graph.len

def predecessors (entry : ℕ) : List ℕ :=
  if graph.guaranteed entry then graph.ids (graph.importerBits entry) else [graph.vroot]

/-- The edges in the order of the two loops that count and place them. -/
def edgePairs : List (ℕ × ℕ) :=
  (range graph.len).flatMap fun entry => (graph.predecessors entry).map fun pred => (pred, entry)

def countEdge (offsets : List ℕ) (pair : ℕ × ℕ) : List ℕ := offsets.modify (pair.1 + 2) (· + 1)

/-- `for i in 2..offsets.len() { offsets[i] += offsets[i - 1] }`. -/
def sumOffsets : List ℕ → List ℕ
  | [] => []
  | first :: offsets => first :: runningSums 0 offsets

def placeEdge (state : List ℕ × List ℕ) (pair : ℕ × ℕ) : List ℕ × List ℕ :=
  let (edges, offsets) := state
  let place := offsets.getD (pair.1 + 1) 0
  (edges.set place pair.2, offsets.set (pair.1 + 1) (place + 1))

/-- The edges and the offsets. -/
def successorTables : List ℕ × List ℕ :=
  let offsets := sumOffsets (graph.edgePairs.foldl countEdge (replicate (graph.len + 3) 0))
  graph.edgePairs.foldl placeEdge
    (replicate (offsets.getD (offsets.length - 1) 0) 0, offsets)

/-- `edges[offsets[node]..offsets[node + 1]]`. -/
def successors (node : ℕ) : List ℕ :=
  let (edges, offsets) := graph.successorTables
  (edges.drop (offsets.getD node 0)).take (offsets.getD (node + 1) 0 - offsets.getD node 0)

def idom (fuel : ℕ) : Run Nodes :=
  immediateDominators fuel graph.successors graph.vroot graph.predecessors

/-! ## `load_class` -/

/-- The marks of the walks: an entry is seen when it has the epoch of the walk. -/
structure Marks where
  seen : ℕ → ℕ
  epoch : ℕ

/-- The fast path: an entry of the key is above the node. -/
def dominatedByKey (idom : Nodes) (key : ℕ → Bool) : ℕ → Option ℕ → Run Bool
  | 0, _ => .error .outOfFuel
  | _ + 1, none => .ok true
  | fuel + 1, some up =>
    if up = graph.vroot then .ok false
    else if key up then .ok true
    else dominatedByKey idom key fuel (idom up)

/-- The loop over the importers of a node. The first part is false where a root was met. -/
def pushImporters (idom : Nodes) (key : ℕ → Bool) (epoch : ℕ) : List ℕ → (ℕ → ℕ) → List ℕ →
    Bool × (ℕ → ℕ) × List ℕ
  | [], seen, worklist => (true, seen, worklist)
  | importer :: importers, seen, worklist =>
    if key importer ∨ seen importer = epoch ∨ idom importer = none then
      pushImporters idom key epoch importers seen worklist
    else if !graph.guaranteed importer then (false, seen, worklist)
    else
      pushImporters idom key epoch importers (update seen importer epoch)
        (importer :: worklist)

/-- The loop `'walk`, with the top of the worklist first. -/
def walkBack (idom : Nodes) (key : ℕ → Bool) (epoch : ℕ) : ℕ → (ℕ → ℕ) → List ℕ →
    Run (Bool × (ℕ → ℕ))
  | 0, _, _ => .error .outOfFuel
  | _ + 1, seen, [] => .ok (true, seen)
  | fuel + 1, seen, below :: worklist =>
    match graph.pushImporters idom key epoch (graph.ids (graph.importerBits below)) seen
      worklist with
    | (false, seen, _) => .ok (false, seen)
    | (true, seen, worklist) => walkBack idom key epoch fuel seen worklist

/-- Without the shortcut the walk has to tell. -/
def fastPath (shortcut : Bool) (fuel : ℕ) (idom : Nodes) (key : ℕ → Bool) (entry : ℕ) : Run Bool :=
  if shortcut then graph.dominatedByKey idom key fuel (idom entry) else .ok false

/-- Whether something of the key comes before the entry. -/
def preceded (shortcut : Bool) (fuel : ℕ) (idom : Nodes) (key : ℕ → Bool) (marks : Marks)
    (entry : ℕ) : Run (Bool × Marks) := do
  let fast ← graph.fastPath shortcut fuel idom key entry
  if fast then .ok (true, marks)
  else do
    let epoch := marks.epoch + 1
    let (preceded, seen) ← graph.walkBack idom key epoch fuel marks.seen [entry]
    .ok (preceded, ⟨seen, epoch⟩)

/-- What is done with each entry of the key. The state has the class, whether it lost an entry, and
the marks. -/
def visitCandidate (shortcut : Bool) (fuel : ℕ) (idom : Nodes) (key : ℕ → Bool)
    (state : (ℕ → Bool) × Bool × Marks) (entry : ℕ) : Run ((ℕ → Bool) × Bool × Marks) := do
  let (cls, dropped, marks) := state
  if !graph.guaranteed entry then .ok (cls, dropped, marks)
  else do
    let (preceded, marks) ← graph.preceded shortcut fuel idom key marks entry
    .ok (if preceded then (update cls entry false, true, marks) else (cls, dropped, marks))

/-- `load_class` has the shortcut. -/
def loadClass (shortcut : Bool) (fuel : ℕ) (idom : Nodes) (marks : Marks) (key : ℕ → Bool) :
    Run ((ℕ → Bool) × Marks) := do
  let (cls, dropped, marks) ← (graph.ids key).foldlM
    (graph.visitCandidate shortcut fuel idom key) (key, false, marks)
  .ok (if dropped ∧ graph.ids cls = [] then (key, marks) else (cls, marks))

/-- The calls for some keys, one after the other. -/
def loadClasses (shortcut : Bool) (fuel : ℕ) (idom : Nodes) : Marks → List (ℕ → Bool) →
    Run (List (ℕ → Bool))
  | _, [] => .ok []
  | marks, key :: keys => do
    let (cls, marks) ← graph.loadClass shortcut fuel idom marks key
    let classes ← loadClasses shortcut fuel idom marks keys
    .ok (cls :: classes)

end EntryGraph

/-!
## The successor tables

The offsets are the starts of the groups of `Soup.Hir.Groups`, one place further: the place of a
node has the number of the edges that are already there, and in the end the start of the next node
(`mem_successors`).
-/

open Hir (membersOf below mem_membersOf below_succ below_mono below_len length_membersOf_lt Counted
  Placed place_lt length_runningSums)

namespace EntryGraph

variable {graph : EntryGraph} {entry pred : ℕ}

theorem mem_ids {bits : ℕ → Bool} {e : ℕ} : e ∈ graph.ids bits ↔ e < graph.len ∧ bits e = true := by
  rw [ids, mem_filter, mem_range]

theorem mem_edgePairs : (pred, entry) ∈ graph.edgePairs ↔
    entry < graph.len ∧ pred ∈ graph.predecessors entry := by
  rw [edgePairs, mem_flatMap]
  constructor
  · rintro ⟨e, he, hpair⟩
    obtain ⟨p, hp, heq⟩ := mem_map.1 hpair
    obtain ⟨rfl, rfl⟩ := Prod.mk.inj heq
    exact ⟨mem_range.1 he, hp⟩
  · rintro ⟨he, hp⟩
    exact ⟨entry, mem_range.2 he, mem_map_of_mem hp⟩

theorem pred_lt (h : pred ∈ graph.predecessors entry) : pred < graph.len + 1 := by
  rw [predecessors] at h
  split at h
  · exact Nat.lt_succ_of_lt (mem_ids.1 h).1
  · rw [mem_singleton.1 h]
    exact Nat.lt_succ_self _

theorem edgePairs_lt : ∀ pair ∈ graph.edgePairs, pair.1 < graph.len + 1 := fun _ hpair =>
  pred_lt (mem_edgePairs.1 hpair).2

/-! ### The loops -/

theorem countEdges (pairs : List (ℕ × ℕ)) {len : ℕ} (hlt : ∀ pair ∈ pairs, pair.1 < len)
    (first : ℕ) (done : List (ℕ × ℕ)) (counts : List ℕ) (h : Counted len done counts) :
    ∃ counts', pairs.foldl countEdge (first :: counts) = first :: counts' ∧
      Counted len (done ++ pairs) counts' := by
  induction pairs generalizing done counts with
  | nil => exact ⟨counts, rfl, by rwa [append_nil]⟩
  | cons pair pairs ih =>
    obtain ⟨node, member⟩ := pair
    have hnode : node < len := hlt (node, member) mem_cons_self
    obtain ⟨-, hstep⟩ := h.step member hnode
    have hget : counts[node + 1]? = some (membersOf done node).length := h.2.2 node hnode
    have hcount : countEdge (first :: counts) (node, member) =
        first :: counts.set (node + 1) ((membersOf done node).length + 1) := by
      rw [countEdge, modify_succ_cons, modify_eq_set_getElem?, hget]
      rfl
    rw [foldl_cons, hcount]
    obtain ⟨counts', hfold, hcounted⟩ :=
      ih (fun pair hpair => hlt pair (mem_cons_of_mem _ hpair)) _ _ hstep
    exact ⟨counts', hfold, by rwa [append_assoc] at hcounted⟩

theorem placeEdges {all : List (ℕ × ℕ)} {len : ℕ} (hlt : ∀ pair ∈ all, pair.1 < len) (first : ℕ)
    (rest done : List (ℕ × ℕ)) (hall : all = done ++ rest) (edges ends : List ℕ)
    (h : Placed all len done (edges, ends)) :
    ∃ edges' ends', rest.foldl placeEdge (edges, first :: ends) = (edges', first :: ends') ∧
      Placed all len all (edges', ends') := by
  induction rest generalizing done edges ends with
  | nil =>
    rw [append_nil] at hall
    exact ⟨edges, ends, rfl, hall ▸ h⟩
  | cons pair rest ih =>
    obtain ⟨node, member⟩ := pair
    have hnode : node < len := hlt (node, member) (by rw [hall]; simp)
    have hstep := h.step hlt hall
    have hplace : (first :: ends).getD (node + 1) 0 =
        below all node + (membersOf done node).length := by
      rw [getD_cons_succ, getD_eq_getElem?_getD, h.ends node hnode]
      rfl
    rw [foldl_cons, placeEdge, hplace, set_cons_succ]
    exact ih _ (by rw [hall, append_assoc]; rfl) _ _ hstep

/-- The tables have the members of every node. -/
theorem successors_eq {node : ℕ} (hnode : node < graph.len + 1) :
    graph.successors node = membersOf graph.edgePairs node := by
  obtain ⟨counts, hcounts, hcounted⟩ := countEdges graph.edgePairs edgePairs_lt 0 []
    (replicate (graph.len + 2) 0) (by
      refine ⟨length_replicate, by simp, fun g hg => ?_⟩
      rw [getElem?_replicate, if_pos (by omega)]
      rfl)
  rw [nil_append] at hcounted
  have hlast : (0 :: runningSums 0 counts).getD ((0 :: runningSums 0 counts).length - 1) 0 =
      graph.edgePairs.length := by
    rw [length_cons, length_runningSums, hcounted.1, Nat.add_sub_cancel, getD_cons_succ,
      getD_eq_getElem?_getD, hcounted.starts le_rfl, below_len edgePairs_lt]
    rfl
  obtain ⟨edges, ends, hplaced, hend⟩ := placeEdges edgePairs_lt 0 graph.edgePairs []
    rfl (replicate graph.edgePairs.length 0) (runningSums 0 counts) (by
      refine ⟨length_replicate, ?_, fun g hg => ?_, fun g _ k hk => ?_⟩
      · rw [length_runningSums, hcounted.1]
      · rw [hcounted.starts (le_of_lt hg)]
        rfl
      · exact absurd hk (Nat.not_lt_zero k))
  have htables : graph.successorTables = (edges, 0 :: ends) := by
    rw [successorTables, replicate_succ, hcounts, sumOffsets, hlast, hplaced]
  have hstart : (0 :: ends).getD node 0 = below graph.edgePairs node := by
    cases node with
    | zero => simp [below]
    | succ node =>
      rw [getD_cons_succ, getD_eq_getElem?_getD, hend.ends node (by omega), below_succ]
      rfl
  have hstop : (0 :: ends).getD (node + 1) 0 = below graph.edgePairs (node + 1) := by
    rw [getD_cons_succ, getD_eq_getElem?_getD, hend.ends node hnode, below_succ]
    rfl
  rw [successors, htables]
  dsimp only
  rw [hstart, hstop, below_succ, Nat.add_sub_cancel_left]
  have hlength : edges.length = graph.edgePairs.length := hend.length
  have hle := below_mono graph.edgePairs (show node + 1 ≤ graph.len + 1 from hnode)
  rw [below_len edgePairs_lt, below_succ] at hle
  refine ext_getElem? fun k => ?_
  rw [getElem?_take]
  split
  next hk =>
    rw [getElem?_drop]
    exact hend.members node hnode k hk
  · rw [getElem?_eq_none]
    omega

theorem mem_successors {node succ : ℕ} (hnode : node < graph.len + 1) :
    succ ∈ graph.successors node ↔ succ < graph.len ∧ node ∈ graph.predecessors succ := by
  rw [successors_eq hnode, mem_membersOf, mem_edgePairs]

end EntryGraph

end Soup.Bundler
