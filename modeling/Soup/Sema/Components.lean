import Soup.Lib.Run
import Soup.Lib.SortByKey

/-!
# Strongly connected components

`strongly_connected_components` and `Components::new` of `sema/components.rs`. Nodes and files are
numbers, the vectors of a traversal that it indexes by node are functions, and `u32::MAX` is `none`.
The two stacks have their last entry first. The loop over what is in progress runs with fuel.
-/

namespace Soup.Sema

open Function List

inductive Panic
  | outOfBounds
  | unwrap
  | outOfFuel
  deriving DecidableEq, Repr

/-- `strongly_connected_components::Node`. -/
structure Node where
  index : Option ℕ := none
  lowlink : ℕ := 0
  isOnStack : Bool := false

/-- The variables of `strongly_connected_components`. -/
structure Traversal where
  nodes : ℕ → Node := fun _ => {}
  componentOf : ℕ → ℕ := fun _ => 0
  components : List (List ℕ) := []
  stack : List ℕ := []
  visited : ℕ := 0
  /-- A node in progress, and how many of its edges have been followed. -/
  inProgress : List (ℕ × ℕ) := []

namespace Traversal

/-- What comes first for a node with no edge followed. -/
def visit (s : Traversal) (node : ℕ) : Traversal :=
  { s with
    nodes := update s.nodes node ⟨some s.visited, s.visited, true⟩
    visited := s.visited + 1
    stack := node :: s.stack }

/-- `nodes[node].lowlink = nodes[node].lowlink.min(low)`. -/
def lower (s : Traversal) (node low : ℕ) : Traversal :=
  { s with
    nodes := update s.nodes node
      { s.nodes node with lowlink := min (s.nodes node).lowlink low } }

/-- `stack.split_off(from)` and the loop over the component. -/
def popComponent (s : Traversal) (node : ℕ) : Except Panic Traversal :=
  match s.stack.idxOf? node with
  | none => .error .unwrap
  | some above =>
    let component := s.stack.take (above + 1)
    .ok { s with
      stack := s.stack.drop (above + 1)
      nodes := fun n => if n ∈ component then { s.nodes n with isOnStack := false } else s.nodes n
      componentOf := fun n => if n ∈ component then s.components.length else s.componentOf n
      components := s.components ++ [component.mergeSort (· ≤ ·)] }

/-- `in_progress.pop()` and what follows it. -/
def finish (s : Traversal) (node : ℕ) (rest : List (ℕ × ℕ)) : Except Panic Traversal :=
  let s := { s with inProgress := rest }
  let s := match rest with
    | [] => s
    | (parent, _) :: _ => s.lower parent (s.nodes node).lowlink
  if (s.nodes node).index = some (s.nodes node).lowlink then s.popComponent node else .ok s

/-- The edge to `next`, which is the next one of `node`. -/
def follow (s : Traversal) (edges : List (List ℕ)) (node followed next : ℕ) (rest : List (ℕ × ℕ)) :
    Except Panic Traversal :=
  let s := { s with inProgress := (node, followed + 1) :: rest }
  if edges.length ≤ next then .error .outOfBounds
  else
    match (s.nodes next).index with
    | none => .ok { s with inProgress := (next, 0) :: s.inProgress }
    | some index => .ok (if (s.nodes next).isOnStack then s.lower node index else s)

/-- The body of the `while let` loop. -/
def step (s : Traversal) (edges : List (List ℕ)) (node followed : ℕ) (rest : List (ℕ × ℕ)) :
    Except Panic Traversal :=
  let s := if followed = 0 then s.visit node else s
  match edges[node]? with
  | none => .error .outOfBounds
  | some targets =>
    match targets[followed]? with
    | some next => s.follow edges node followed next rest
    | none => s.finish node rest

/-- The `while let` loop. -/
def loop (edges : List (List ℕ)) : ℕ → Traversal → Except Panic Traversal
  | 0, _ => .error .outOfFuel
  | fuel + 1, s =>
    match s.inProgress with
    | [] => .ok s
    | (node, followed) :: rest => s.step edges node followed rest >>= loop edges fuel

/-- The body of the loop over the roots. -/
def fromRoot (edges : List (List ℕ)) (fuel : ℕ) (s : Traversal) (root : ℕ) :
    Except Panic Traversal :=
  if (s.nodes root).index ≠ none then .ok s
  else loop edges fuel { s with inProgress := (root, 0) :: s.inProgress }

end Traversal

/-- `strongly_connected_components`: the component number of each node, and the nodes of each
component. -/
def stronglyConnectedComponents (fuel : ℕ) (edges : List (List ℕ)) :
    Except Panic (List ℕ × List (List ℕ)) := do
  let s ← (range edges.length).foldlM (Traversal.fromRoot edges fuel) {}
  .ok ((range edges.length).map s.componentOf, s.components)

/-! ## Components -/

/-- `components::Component`. -/
structure Component where
  files : List ℕ
  level : ℕ
  imports : List ℕ
  deriving DecidableEq, Repr

/-- `components::Components`, where `of_file` is a function. -/
structure Components where
  all : List Component
  ofFile : ℕ → Option ℕ

namespace Components

/-- `node_of`: the last place of a file in `order`. -/
def nodeOf (order : List ℕ) : ℕ → Option ℕ :=
  order.zipIdx.foldl (fun nodeOf entry => update nodeOf entry.1 (some entry.2)) fun _ => none

/-- `edges_of`. -/
def edgesOf (order : List ℕ) (imports : ℕ → List ℕ) (file : ℕ) : List ℕ :=
  (((imports file).filterMap (nodeOf order)).mergeSort (· ≤ ·)).dedup

/-- The variables of the loop over the components. -/
structure Linked where
  levels : ℕ → ℕ := fun _ => 0
  imports : ℕ → List ℕ := fun _ => []
  /-- For each component, the last component found to import it. -/
  lastImporter : ℕ → Option ℕ := fun _ => none

/-- The body of the loop over the edges of the component `number`. -/
def Linked.link (number : ℕ) (s : Linked) (imported : ℕ) : Linked :=
  if imported = number then s
  else
    let levels := update s.levels number (max (s.levels number) (s.levels imported + 1))
    let lastImporter := update s.lastImporter imported (some number)
    if s.lastImporter imported ≠ some number then
      { levels, lastImporter, imports := update s.imports number (s.imports number ++ [imported]) }
    else { s with levels, lastImporter }

/-- The body of the loop over the components. -/
def Linked.linkComponent (edges : List (List ℕ)) (numberOf : List ℕ) (s : Linked)
    (entry : List ℕ × ℕ) : Linked :=
  ((entry.1.flatMap fun node => edges.getD node []).map fun imported =>
    numberOf.getD imported 0).foldl (Linked.link entry.2) s

/-- `Components::new`. -/
def new (fuel : ℕ) (order : List ℕ) (imports : ℕ → List ℕ) : Except Panic Components := do
  let edges := order.map (edgesOf order imports)
  let (numberOf, numbered) ← stronglyConnectedComponents fuel edges
  let linked := numbered.zipIdx.foldl (Linked.linkComponent edges numberOf) {}
  let first := fun number => (numbered.getD number []).getD 0 0
  let inProgramOrder := (range numbered.length).mergeSort fun a b => first a ≤ first b
  let indexOf := fun number => inProgramOrder.idxOf number
  let component := fun number =>
    { files := (numbered.getD number []).map fun node => order.getD node 0
      level := linked.levels number
      imports := (linked.imports number).map indexOf : Component }
  .ok {
    all := inProgramOrder.map component
    ofFile := fun file => (nodeOf order file).map fun node => indexOf (numberOf.getD node 0) }

end Components

end Soup.Sema
