import Soup.Bundler.EntryWalk
import Soup.Lib.Buckets

/-!
# What parts do and read at load

`LoadEffect::of` of `findAllImportedPartsInJSOrder.rs`, with `can_be_moved` of expressions, classes
and `export default`. Of a statement or an expression only what these read is kept.
-/

namespace Soup.Bundler

open List

inductive PropertyKind where
  | normal
  | get
  | set
  | spread
  | declare
  | abstract
  | classStaticBlock
  | autoAccessor
  deriving DecidableEq, Repr

mutual

inductive Expr where
  | eClass («class» : Class)
  | eArrow
  | eFunction
  | eNumber
  | eBoolean
  | eBranchBoolean
  | eNull
  | eUndefined
  | eBigInt
  | eString
  | eInlinedEnum
  | eImportMeta
  | eTemplate (hasTag : Bool) (partsLen : ℕ)
  | eArray (wasOriginallyMacro : Bool)
  | eObject (wasOriginallyMacro : Bool)
  /-- Every other kind. -/
  | other

inductive Class where
  | mk (hasExtends : Bool) (hasDecorators : Bool) (properties : List Property)

/-- The kind, three of the flags, the value and the initializer. -/
inductive Property where
  | mk (kind : PropertyKind) (isComputed : Bool) (isSpread : Bool) (isStatic : Bool)
    (value : Option Expr) (initializer : Option Expr)

end

mutual

/-- `Expr::can_be_moved`. -/
def Expr.canBeMoved : Expr → Bool
  | .eClass c => c.canBeMoved
  | .eArrow | .eFunction | .eNumber | .eBoolean | .eBranchBoolean | .eNull | .eUndefined | .eBigInt
      | .eString
  | .eInlinedEnum | .eImportMeta => true
  | .eTemplate hasTag partsLen => !hasTag && partsLen == 0
  | .eArray wasOriginallyMacro => wasOriginallyMacro
  | .eObject wasOriginallyMacro => wasOriginallyMacro
  | .other => false

/-- `Class::can_be_moved`. -/
def Class.canBeMoved : Class → Bool
  | .mk hasExtends hasDecorators properties =>
    if hasExtends then false
    else if hasDecorators then false
    else canBeMovedAll properties

/-- The loop over the properties. -/
def canBeMovedAll : List Property → Bool
  | [] => true
  | property :: properties =>
    if property.canBeMoved then canBeMovedAll properties else false

/-- A turn of that loop. -/
def Property.canBeMoved : Property → Bool
  | .mk kind isComputed isSpread isStatic value initializer =>
    if kind = .classStaticBlock then false
    else if isComputed || isSpread then false
    else if (kind = .normal || kind = .autoAccessor) && isStatic then
      isMovedIfAny value && isMovedIfAny initializer
    else true

def isMovedIfAny : Option Expr → Bool
  | none => true
  | some .eArrow => true
  | some .eFunction => true
  | some value => value.canBeMoved

end

/-- `StmtOrExpr` of an `export default`. -/
inductive DefaultValue where
  | expr (e : Expr)
  | sClass («class» : Class)
  | sFunction
  /-- Every other statement. -/
  | stmt

/-- `ExportDefault::can_be_moved`. -/
def DefaultValue.canBeMoved : DefaultValue → Bool
  | expr e => e.canBeMoved
  | sClass c => c.canBeMoved
  | sFunction => true
  | stmt => false

inductive Stmt where
  | sImport
  | sExportStar
  | sExportFrom
  | sExportClause
  | sFunction
  | sComment
  | sDirective
  | sTypeScript
  | sEmpty
  | sExportDefault (value : DefaultValue)
  | sClass («class» : Class)
  /-- The values of the declarations. -/
  | sLocal (decls : List (Option Expr))
  /-- Every other kind. -/
  | other

inductive LoadEffect where
  | hoisted
  | assigns
  | evaluates
  deriving DecidableEq, Repr

namespace LoadEffect

/-- The order of the derived `Ord`. -/
def rank : LoadEffect → ℕ
  | hoisted => 0
  | assigns => 1
  | evaluates => 2

/-- `max`. -/
def max (a b : LoadEffect) : LoadEffect := if a.rank ≤ b.rank then b else a

/-- `of_moved`. -/
def ofMoved (canBeMoved : Bool) : LoadEffect := if canBeMoved then assigns else evaluates

/-- The effect of one statement. -/
def ofStmt : Stmt → LoadEffect
  | .sImport | .sExportStar | .sExportFrom | .sExportClause | .sFunction | .sComment | .sDirective
      | .sTypeScript
  | .sEmpty => hoisted
  | .sExportDefault .sFunction => hoisted
  | .sExportDefault value => ofMoved value.canBeMoved
  | .sClass c => ofMoved c.canBeMoved
  | .sLocal decls => ofMoved (decls.all fun value => value.all Expr.canBeMoved)
  | .other => evaluates

/-- `LoadEffect::of`, of the statements of a part. -/
def of (stmts : List Stmt) : LoadEffect := (stmts.map ofStmt).foldl max hoisted

end LoadEffect

/-!
## Reads at load

`LoadTimeReads` of `findAllImportedPartsInJSOrder.rs`: what the live parts do at load, which parts
name a binding of which (`LoadTimeReads.new`), and the search over the parts of a chunk
(`LoadTimeReads.isBrokenBy`). The queue of the search is a stack and has its last entry first;
`u32::MAX` as a position is `none`.
-/

inductive WrapKind where
  | none
  | cjs
  | esm
  deriving DecidableEq, Repr

structure Dependency where
  sourceIndex : ℕ
  partIndex : ℕ
  deriving DecidableEq, Repr

/-- A part, with whether it is live. -/
structure LoadPart where
  stmts : List Stmt
  dependencies : List Dependency
  live : Bool

/-- A file, with whether it is live and whether it is of CSS. -/
structure LoadFile where
  parts : List LoadPart
  wrap : WrapKind
  isCss : Bool
  live : Bool

/-- The files, of which dependencies name parts. -/
structure LoadGraph where
  files : List LoadFile
  reachableFiles : List ℕ
  dependencies_lt : ∀ file ∈ files, ∀ part ∈ file.parts, ∀ dependency ∈ part.dependencies,
    ∃ target, files[dependency.sourceIndex]? = some target ∧
      dependency.partIndex < target.parts.length

/-- `NAMESPACE_EXPORT_PART_INDEX`. -/
def namespaceExportPartIndex : ℕ := 0

structure LoadTimeReads where
  /-- Per file: the id of its part 0. The id of a part is that plus its index. -/
  firstPartId : List ℕ
  fileOfPart : List ℕ
  /-- `hoisted` also for a part that does not run where it prints. -/
  effects : List LoadEffect
  dependentsStart : List ℕ
  /-- The parts that name a binding of a part, next to each other. -/
  dependents : List ℕ
  /-- Per part of the chunk that is not hoisted: the index of its run. -/
  position : List (Option ℕ)
  visited : List Bool
  deriving DecidableEq, Repr

/-- A live part with its file's index and its id, as `for_each_live_part` hands them out. -/
structure LivePart where
  file : ℕ
  id : ℕ
  part : LoadPart

namespace LoadGraph

/-- The first two tables of `LoadTimeReads::new`. -/
def partIds (c : LoadGraph) : List ℕ × List ℕ :=
  c.files.zipIdx.foldl (fun s f => (s.1 ++ [s.2.length], s.2 ++ replicate f.1.parts.length f.2))
    ([], [])

/-- `for_each_live_part`. -/
def liveParts (c : LoadGraph) (firstPartId : List ℕ) : List LivePart :=
  c.reachableFiles.flatMap fun i =>
    match c.files[i]? with
    | none => []
    | some file =>
      if !file.live || file.isCss then []
      else (file.parts.zipIdx.filter fun p => p.1.live).map fun p =>
        ⟨i, firstPartId.getD i 0 + p.2, p.1⟩

def wrapOf (c : LoadGraph) (file : ℕ) : WrapKind := (c.files[file]?.map (·.wrap)).getD .none

end LoadGraph

namespace LoadTimeReads

/-- The id of a dependency. -/
def idOf (firstPartId : List ℕ) (dependency : Dependency) : ℕ :=
  firstPartId.getD dependency.sourceIndex 0 + dependency.partIndex

/-- The first pass of `new`. -/
def countPart (c : LoadGraph) (firstPartId : List ℕ) (s : List LoadEffect × List ℕ) (p : LivePart) :
    List LoadEffect × List ℕ :=
  (if c.wrapOf p.file = .none && p.file != runtimeIndex &&
      p.id - firstPartId.getD p.file 0 != namespaceExportPartIndex then
    s.1.set p.id (LoadEffect.of p.part.stmts)
  else s.1,
  p.part.dependencies.foldl
  (fun starts dependency => Lib.countBucket starts (idOf firstPartId dependency)) s.2)

/-- The second pass of `new`. -/
def fillPart (firstPartId : List ℕ) (s : List ℕ × List ℕ) (p : LivePart) : List ℕ × List ℕ :=
  p.part.dependencies.foldl
    (fun s dependency => Lib.fillBucket (idOf firstPartId dependency) p.id s.1 s.2) s

/-- `LoadTimeReads::new`. -/
def new (c : LoadGraph) : LoadTimeReads :=
  let ids := c.partIds
  let partsLen := ids.2.length
  let live := c.liveParts ids.1
  let counted := live.foldl (countPart c ids.1)
    (replicate partsLen .hoisted, replicate (partsLen + 2) 0)
  let summed := Lib.sumBuckets counted.2
  let filled := live.foldl (fillPart ids.1) (summed, replicate (summed.getD (partsLen + 1) 0) 0)
  { firstPartId := ids.1
    fileOfPart := ids.2
    effects := counted.1
    dependentsStart := filled.1
    dependents := filled.2
    position := replicate partsLen none
    visited := replicate partsLen false }

variable (reads : LoadTimeReads) (c : LoadGraph) (runs : List PartRun)

def effect (id : ℕ) : LoadEffect := reads.effects.getD id .hoisted

/-- The ids of the parts of a run that are not hoisted. -/
def partsOfRun (run : PartRun) : List ℕ :=
  let partsLen := (c.files[run.sourceIndex]?.map (·.parts.length)).getD 0
  let stop := min (run.end.getD partsLen) partsLen
  ((range' run.begin (stop - run.begin)).map (reads.firstPartId.getD run.sourceIndex 0 + ·)).filter
    fun id =>
    reads.effect id != .hoisted

/-- What `for_each_part_backward` hands out: the index of the run and the id. -/
def partsBackward : List (ℕ × ℕ) :=
  runs.zipIdx.reverse.flatMap fun run => (reads.partsOfRun c run.1).map fun id => (run.2, id)

/-- The test on a dependent that evaluates code. -/
def isBefore (position : List (Option ℕ)) (runIndex written dependent : ℕ) : Bool :=
  ((position.getD dependent none).any (· < runIndex)) &&
    reads.fileOfPart.getD dependent 0 != reads.fileOfPart.getD written 0

/-- The loop over the dependents of one part, with the queue and the visited marks; `none` when it
returns. -/
def visitDependents (position : List (Option ℕ)) (runIndex written : ℕ) :
    List ℕ → List ℕ × List Bool → Option (List ℕ × List Bool)
  | [], s => some s
  | dependent :: dependents, (queue, visited) =>
    if reads.effect dependent = .evaluates then
      if reads.isBefore position runIndex written dependent then none
      else visitDependents position runIndex written dependents (queue, visited)
    else if visited[dependent]? = some false then
      visitDependents position runIndex written dependents
        (dependent :: queue, visited.set dependent true)
    else visitDependents position runIndex written dependents (queue, visited)

/-- Every part that is put in the queue gets a mark. -/
theorem visitDependents_count {reads : LoadTimeReads} {position : List (Option ℕ)}
    {runIndex written : ℕ} {dependents : List ℕ} {s s' : List ℕ × List Bool}
    (h : reads.visitDependents position runIndex written dependents s = some s') :
    s'.1.length + s'.2.count false = s.1.length + s.2.count false := by
  induction dependents generalizing s with
  | nil => rw [Option.some.inj h]
  | cons dependent dependents ih =>
    rw [visitDependents] at h
    split at h
    · split at h
      · cases h
      · exact ih h
    · split at h
      next hfalse =>
        obtain ⟨hlt, hget⟩ := List.getElem?_eq_some_iff.1 hfalse
        have hpos : 0 < s.2.count false := count_pos_iff.2 (hget ▸ getElem_mem hlt)
        rw [ih h, count_set hlt, hget, length_cons]
        simp only [beq_self_eq_true, if_true]
        rw [if_neg (by decide)]
        omega
      next => exact ih h

/-- The search from a part that gives a binding its value. The first part is whether some part is
broken. -/
def search (position : List (Option ℕ)) (runIndex written : ℕ) :
    List ℕ → List Bool → Bool × List Bool
  | [], visited => (false, visited)
  | id :: queue, visited =>
    match _h : reads.visitDependents position runIndex written
        (Lib.bucket reads.dependentsStart reads.dependents id) (queue, visited) with
    | none => (true, visited)
    | some s => search position runIndex written s.1 s.2
termination_by queue visited => queue.length + visited.count false
decreasing_by
  have hcount : s.1.length + s.2.count false = queue.length + visited.count false :=
    visitDependents_count _h
  rw [length_cons]
  omega

/-- The searches from all parts that give a binding its value, until one is broken. -/
def searchAll (position : List (Option ℕ)) : List (ℕ × ℕ) → List Bool → Bool
  | [], _ => false
  | (runIndex, written) :: parts, visited =>
    let s := reads.search position runIndex written [written] visited
    s.1 || searchAll position parts s.2

/-- `is_broken_by`, with the scratch tables that it leaves. -/
def isBrokenBy : Bool × LoadTimeReads :=
  let parts := reads.partsBackward c runs
  let position := parts.foldl (fun position p => position.set p.2 (some p.1)) reads.position
  let isBroken := reads.searchAll position parts reads.visited
  (isBroken, { reads with
    position := parts.foldl (fun position p => position.set p.2 none) position
    visited := replicate reads.visited.length false })

end LoadTimeReads

end Soup.Bundler
