import Mathlib.Algebra.Order.Ring.Int
import Mathlib.Data.List.Basic
import Mathlib.Order.Filter.AtTopBot.Basic

/-!
# Walks from entry points

`for_each_edge` and `EntryWalk` of `findAllImportedPartsInJSOrder.rs`, without code splitting,
wrapped files and CSS: every valid record is an `Edge::Import`, and the walk owns one chunk. The
walk takes a bound on its steps. `entered` is not in the source, and no step reads it: the files in
the order in which they were entered, each with the file and the part that it was entered from.
-/

namespace Soup.Bundler

open List

/-- `Index::RUNTIME`. -/
def runtimeIndex : ℕ := 0

inductive ImportKind where
  | entryPointRun
  | entryPointBuild
  | stmt
  | require
  | dynamic
  | requireResolve
  | «at»
  | atConditional
  | url
  | composes
  | htmlManifest
  | internal
  deriving DecidableEq, Repr

structure ImportRecord where
  kind : ImportKind
  /-- The file, if the record is of one. -/
  sourceIndex : Option ℕ
  deriving DecidableEq, Repr

structure ModulePart where
  importRecordIndices : List ℕ
  live : Bool
  deriving DecidableEq, Repr

structure ModuleFile where
  isHtml : Bool
  records : List ImportRecord
  parts : List ModulePart
  live : Bool
  /-- The ids of the entry points that load the file. -/
  entryBits : List ℕ
  deriving DecidableEq, Repr

structure ModuleGraph where
  files : List ModuleFile
  targets_lt : ∀ file ∈ files, ∀ record ∈ file.records, ∀ target ∈ record.sourceIndex,
    target < files.length

/-- Parts `begin..end` of a file. -/
structure PartRun where
  sourceIndex : ℕ
  begin : ℕ
  /-- `none`: the rest of the file. The walk leaves the file here. -/
  «end» : Option ℕ
  deriving DecidableEq, Repr

inductive WalkFrame where
  | enter (sourceIndex : ℕ) (importer : Option (ℕ × ℕ))
  | place (run : PartRun)
  deriving DecidableEq, Repr

/-- The state of a walk, with the chunk that it owns. -/
structure EntryWalk where
  seen : ℕ → Bool
  left : ℕ → Bool
  runs : List PartRun
  hasCycle : Bool
  /-- Not in the source. -/
  entered : List (ℕ × Option (ℕ × ℕ))

def EntryWalk.empty : EntryWalk := ⟨fun _ => false, fun _ => false, [], false, []⟩

/-! ## Edges -/

namespace ModuleFile

/-- The files that a part leads to. `runsHere`: the load runs the part. -/
def partEdges (file : ModuleFile) (runsHere : Bool) (part : ModulePart) : List ℕ :=
  part.importRecordIndices.filterMap fun recordId =>
    file.records[recordId]?.bind fun record =>
      if record.kind = .stmt ∨ runsHere then record.sourceIndex else none

/-- `for_each_edge`: the parts, with the files that they lead to. The namespace export part has the
index 0, and counts last. -/
def edges (file : ModuleFile) (runs : Bool) : List (ℕ × ℕ) :=
  if file.isHtml then (file.records.filterMap ImportRecord.sourceIndex).map fun other => (0, other)
  else (range' 1 file.parts.length).flatMap fun partIndex =>
    match file.parts[partIndex % file.parts.length]? with
    | none => []
    | some part => (file.partEdges (runs && part.live) part).map fun other => (partIndex, other)

end ModuleFile

/-! ## The walk -/

/-- What a file pushes: the frames, and where the parts begin that are in none of them. -/
structure Pushed where
  begin : ℕ
  frames : List WalkFrame
  hasCycle : Bool

namespace ModuleGraph

variable (graph : ModuleGraph) (entryId : ℕ)

def file (sourceIndex : ℕ) : ModuleFile := graph.files.getD sourceIndex ⟨false, [], [], false, []⟩

/-- The load of the entry point runs the file: the walk places it. -/
def loads (sourceIndex : ℕ) : Bool :=
  (graph.file sourceIndex).live && (graph.file sourceIndex).entryBits.contains entryId

def edges (sourceIndex : ℕ) : List (ℕ × ℕ) :=
  (graph.file sourceIndex).edges (graph.loads entryId sourceIndex)

/-- The closure `import`. -/
def importEdge (walk : EntryWalk) (sourceIndex : ℕ) (pushed : Pushed) (edge : ℕ × ℕ) : Pushed :=
  let (partIndex, other) := edge
  if other = runtimeIndex then pushed
  else if walk.seen other then
    { pushed with hasCycle := pushed.hasCycle || !walk.left other && graph.loads entryId other }
  else
    let pushed :=
      if graph.loads entryId sourceIndex ∧ partIndex > pushed.begin then
        { pushed with
          frames := pushed.frames ++ [WalkFrame.place ⟨sourceIndex, pushed.begin, some partIndex⟩]
          begin := partIndex }
      else pushed
    { pushed with
      frames := pushed.frames ++ [WalkFrame.enter other (some (sourceIndex, partIndex))] }

/-- The frames that a file pushes, in their order. -/
def pushEdges (walk : EntryWalk) (sourceIndex : ℕ) : Pushed :=
  (graph.edges entryId sourceIndex).foldl (graph.importEdge entryId walk sourceIndex)
    ⟨0, [], walk.hasCycle⟩

/-- The file is entered: the walk, and what is pushed. -/
def enterFile (walk : EntryWalk) (sourceIndex : ℕ) (importer : Option (ℕ × ℕ)) :
    EntryWalk × List WalkFrame :=
  let walk := { walk with
    seen := Function.update walk.seen sourceIndex true
    entered := walk.entered ++ [(sourceIndex, importer)] }
  let pushed := graph.pushEdges entryId walk sourceIndex
  ({ walk with hasCycle := pushed.hasCycle },
    if graph.loads entryId sourceIndex then
      pushed.frames ++ [WalkFrame.place ⟨sourceIndex, pushed.begin, none⟩]
    else pushed.frames)

def placeRun (walk : EntryWalk) (run : PartRun) : EntryWalk :=
  { walk with
    runs := walk.runs ++ [run]
    left := if run.end = none then Function.update walk.left run.sourceIndex true else walk.left }

/-- The loop of `walk`. The first frame is the last one of the stack. -/
def walkLoop : ℕ → List WalkFrame → EntryWalk → Option EntryWalk
  | _, [], walk => some walk
  | 0, _ :: _, _ => none
  | fuel + 1, .place run :: stack, walk => walkLoop fuel stack (placeRun walk run)
  | fuel + 1, .enter sourceIndex importer :: stack, walk =>
    if walk.seen sourceIndex then walkLoop fuel stack walk
    else
      let (walk, pushed) := graph.enterFile entryId walk sourceIndex importer
      walkLoop fuel (pushed ++ stack) walk

/-- `EntryWalk::run` from its first root on. The others are the files of the chunk. -/
def runWalks (fuel : ℕ) (roots : List ℕ) (walk : EntryWalk) : Option EntryWalk :=
  roots.foldlM (fun walk root =>
    if walk.seen root then some walk else graph.walkLoop entryId fuel [.enter root none] walk) walk

end ModuleGraph

/-- An entry point with its chunk: the files that it loads and whose parts are in the chunk. -/
structure EntryChunk (graph : ModuleGraph) where
  entryId : ℕ
  root : ℕ
  files : List ℕ
  root_lt : root < graph.files.length
  files_lt : ∀ file ∈ files, file < graph.files.length
  files_load : ∀ file ∈ files, graph.loads entryId file = true

namespace EntryChunk

variable {graph : ModuleGraph} (chunk : EntryChunk graph)

/-- Where the walk starts. -/
def roots : List ℕ := chunk.root :: chunk.files.filter fun file => file ≠ runtimeIndex

/-- `EntryWalk::run`. -/
def run (fuel : ℕ) : Option EntryWalk := graph.runWalks chunk.entryId fuel chunk.roots .empty

end EntryChunk

/-!
## Walks without a stack

A stack of frames is worked off from its first frame to its last one, and what a file pushes is
worked off before the frames behind it (`Walks`). Every stack is worked off, and the loop does that.
-/

namespace ModuleGraph

variable {graph : ModuleGraph} {entryId : ℕ}

variable (graph entryId) in
/-- The frames are worked off. -/
inductive Walks : List WalkFrame → EntryWalk → EntryWalk → Prop
  | nil (walk : EntryWalk) : Walks [] walk walk
  | place {run : PartRun} {rest : List WalkFrame} {walk walk' : EntryWalk}
      (h : Walks rest (placeRun walk run) walk') : Walks (.place run :: rest) walk walk'
  | seen {sourceIndex : ℕ} {importer : Option (ℕ × ℕ)} {rest : List WalkFrame}
      {walk walk' : EntryWalk} (hseen : walk.seen sourceIndex = true) (h : Walks rest walk walk') :
      Walks (.enter sourceIndex importer :: rest) walk walk'
  | enter {sourceIndex : ℕ} {importer : Option (ℕ × ℕ)} {rest : List WalkFrame}
      {walk walk₁ walk' : EntryWalk} (hseen : walk.seen sourceIndex = false)
      (hpushed : Walks (graph.enterFile entryId walk sourceIndex importer).2
        (graph.enterFile entryId walk sourceIndex importer).1 walk₁)
      (h : Walks rest walk₁ walk') : Walks (.enter sourceIndex importer :: rest) walk walk'

variable {frames rest : List WalkFrame} {walk walk' walk₁ : EntryWalk} {z : ℕ}
  {importer : Option (ℕ × ℕ)}

theorem walks_append : ∀ {frames : List WalkFrame} {walk : EntryWalk},
    graph.Walks entryId (frames ++ rest) walk walk' ↔
      ∃ walk₁, graph.Walks entryId frames walk walk₁ ∧ graph.Walks entryId rest walk₁ walk'
  | [], walk => by
    refine ⟨fun h => ⟨walk, .nil walk, h⟩, ?_⟩
    rintro ⟨walk₁, h, h'⟩
    cases h
    exact h'
  | frame :: frames, walk => by
    constructor
    · intro h
      cases h with
      | place h =>
        obtain ⟨walk₁, h, h'⟩ := walks_append.1 h
        exact ⟨walk₁, .place h, h'⟩
      | seen hseen h =>
        obtain ⟨walk₁, h, h'⟩ := walks_append.1 h
        exact ⟨walk₁, .seen hseen h, h'⟩
      | enter hseen hpushed h =>
        obtain ⟨walk₁, h, h'⟩ := walks_append.1 h
        exact ⟨walk₁, .enter hseen hpushed h, h'⟩
    · rintro ⟨walk₁, h, h'⟩
      cases h with
      | place h => exact .place (walks_append.2 ⟨walk₁, h, h'⟩)
      | seen hseen h => exact .seen hseen (walks_append.2 ⟨walk₁, h, h'⟩)
      | enter hseen hpushed h => exact .enter hseen hpushed (walks_append.2 ⟨walk₁, h, h'⟩)

/-- The loop works off the frames, and goes on with what is behind them. -/
theorem Walks.loop (h : graph.Walks entryId frames walk walk') : ∃ steps, ∀ fuel stack,
    graph.walkLoop entryId (fuel + steps) (frames ++ stack) walk =
      graph.walkLoop entryId fuel stack walk' := by
  induction h with
  | nil walk => exact ⟨0, fun _ _ => rfl⟩
  | place h ih =>
    obtain ⟨steps, hsteps⟩ := ih
    exact ⟨steps + 1, fun fuel stack => hsteps fuel stack⟩
  | seen hseen h ih =>
    obtain ⟨steps, hsteps⟩ := ih
    refine ⟨steps + 1, fun fuel stack => ?_⟩
    rw [← add_assoc, cons_append, walkLoop, if_pos hseen, hsteps]
  | enter hseen hpushed h ihPushed ih =>
    obtain ⟨steps, hsteps⟩ := ih
    obtain ⟨stepsPushed, hstepsPushed⟩ := ihPushed
    refine ⟨steps + stepsPushed + 1, fun fuel stack => ?_⟩
    rw [← add_assoc, cons_append, walkLoop, if_neg (Bool.not_eq_true _ ▸ hseen),
      ← add_assoc]
    exact (hstepsPushed _ _).trans (hsteps fuel stack)

/-- The loop ends, whatever more steps it may take. -/
theorem Walks.eventually (h : graph.Walks entryId frames walk walk') :
    ∀ᶠ fuel in Filter.atTop, graph.walkLoop entryId fuel frames walk = some walk' := by
  obtain ⟨steps, hsteps⟩ := h.loop
  filter_upwards [Filter.eventually_ge_atTop steps] with fuel hfuel
  have := hsteps (fuel - steps) []
  rw [Nat.sub_add_cancel hfuel, append_nil] at this
  rw [this, walkLoop]

end ModuleGraph

end Soup.Bundler
