import Soup.Install.MergeConflict
import Soup.Semver.Query

/-!
# Rebinding the edges of a merged lockfile

`rebind` of `merge_conflict.rs`, on a lockfile as it comes from the loader: packages, dependencies
and, for each dependency, the package it is bound to. A `HashMap` from name hashes to packages is a
function, and the rules of `overrides` and the entries of `catalogs` are what their lookups give
for a dependency, next to the lists that `aliases_of` reads. The statistics are left out.
-/

namespace Soup.Install

open Soup.Semver

/-! ## Dependencies -/

/-- `NpmInfo`: a range of the versions of a package. -/
structure NpmInfo where
  name : Bytes
  version : Group
  isAlias : Bool

/-- `dependency::Version`. -/
inductive DependencyVersion
  | uninitialized
  | npm (info : NpmInfo)
  | distTag (name : Bytes)
  | tarball (packageName : Bytes)
  | folder
  | symlink
  | workspace
  | git (packageName : Bytes)
  | github (packageName : Bytes)
  | catalog (name : Bytes)

namespace DependencyVersion

def isNpm : DependencyVersion → Bool
  | npm _ => true
  | _ => false

def isUninitialized : DependencyVersion → Bool
  | uninitialized => true
  | _ => false

/-- The range of an `npm` version. -/
def npm? : DependencyVersion → Option NpmInfo
  | npm info => some info
  | _ => none

end DependencyVersion

/-- `Behavior`, as far as it is read. -/
structure Behavior where
  optional : Bool := false
  peer : Bool := false
  workspace : Bool := false
  bundled : Bool := false

def Behavior.isOptional (behavior : Behavior) : Bool := behavior.optional && !behavior.peer

structure Dependency where
  name : Bytes
  nameHash : UInt64
  version : DependencyVersion
  behavior : Behavior := {}

namespace Dependency

/-- The name of the package as it should appear in a remote registry. -/
def realname (dep : Dependency) : Bytes :=
  match dep.version with
  | .distTag name => name
  | .git packageName => packageName
  | .github packageName => packageName
  | .npm info => info.name
  | .tarball packageName => packageName
  | _ => dep.name

/-- The edges a lockfile that bun wrote can hold without a package. -/
def mayStayUnbound (dep : Dependency) : Bool :=
  dep.behavior.isOptional || dep.behavior.peer || dep.version.isUninitialized

end Dependency

/-! ## The lockfile -/

/-- `Resolution`, as far as it is read. -/
inductive Resolution
  | root
  | npm (version : Version)
  | workspace
  | other

structure Package where
  name : Bytes
  resolution : Resolution
  /-- The slice of its dependencies, from `begin` to `end`. -/
  first : ℕ
  last : ℕ

namespace Package

def dependencies (package : Package) : List ℕ :=
  List.range' package.first (package.last - package.first)

end Package

/-- `invalid_package_id`. -/
def invalidPackageId : ℕ := 2 ^ 32 - 1

structure Lockfile where
  packages : List Package
  /-- `buffers.dependencies`. -/
  dependencies : List Dependency
  /-- `buffers.resolutions`. -/
  resolutions : List ℕ
  /-- `package_index`. -/
  packageIndex : UInt64 → List ℕ
  /-- The rules of `overrides` without a scope. -/
  overrides : List Dependency := []
  /-- `overrides.lookup`. -/
  overrideOf : ℕ → Option Dependency := fun _ => none
  /-- The entries of the default catalog, then of the others. -/
  catalogs : List Dependency := []
  /-- `catalogs.get`, by the names of a catalog and of a dependency. -/
  catalogOf : Bytes → Bytes → Option Dependency := fun _ _ => none

namespace Lockfile

variable (lockfile : Lockfile)

def versionOf (package : ℕ) : Option Version :=
  match lockfile.packages[package]? with
  | some { resolution := .npm version, .. } => some version
  | _ => none

/-- Like the resolver, never overrides a `workspace:` edge. -/
def appliedOverride (depId : ℕ) (dep : Dependency) : Option Dependency :=
  if dep.behavior.workspace then none else lockfile.overrideOf depId

def resolveCatalogDependency (dep : Dependency) : Option DependencyVersion :=
  match dep.version with
  | .catalog name => (lockfile.catalogOf name dep.name).map Dependency.version
  | version => some version

/-- A rule's `catalog:` names the catalog entry of its key, as in the resolver. -/
def effectiveVersion (depId : ℕ) (dep : Dependency) : Option DependencyVersion :=
  lockfile.resolveCatalogDependency ((lockfile.appliedOverride depId dep).getD dep)

def effectiveNpmRange (depId : ℕ) (dep : Dependency) : Option NpmInfo :=
  (lockfile.effectiveVersion depId dep).bind DependencyVersion.npm?

/-- The range of an edge that a version can answer, after overrides and catalogs. -/
def rangeOf (depId : ℕ) (dep : Dependency) : Option NpmInfo :=
  -- A bundled package comes with its parent. A peer is bound by version when the lockfile loads.
  if dep.behavior.bundled || dep.behavior.peer then none
  else if !dep.version.isNpm && dep.realname != dep.name then none
  else lockfile.effectiveNpmRange depId dep

def takes (range : NpmInfo) (package : ℕ) : Bool :=
  (lockfile.versionOf package).any range.version.satisfies

def isNamed (package : ℕ) (range : NpmInfo) : Bool :=
  lockfile.packages[package]?.any fun pkg => pkg.name == range.name

/-- Whether the package an edge is bound to is one its range takes. `none` where a range and a
version cannot answer that: the edge is left alone. -/
def accepts (depId : ℕ) (dep : Dependency) (target : ℕ) : Option Bool :=
  match lockfile.rangeOf depId dep with
  | none => none
  | some range =>
    match lockfile.packages[target]?.map Package.resolution with
    | some (.npm _) => some (lockfile.isNamed target range && lockfile.takes range target)
    -- A workspace serves the dependencies on its name.
    | some .workspace => none
    | some .root => none
    -- The resolver gives no tarball, repository or folder to a range.
    | _ => some false

/-! ## Aliases -/

/-- `record`: an alias and the name it installs under. -/
def recordAlias (dep : Dependency) : Option (UInt64 × NpmInfo) :=
  match dep.version with
  | .npm info => if info.isAlias then some (dep.nameHash, info) else none
  | _ => none

/-- The resolver records an alias from each place that can declare one for every dependency of its
name: a dependency, an override without a scope, a catalog. -/
def aliasesOf : List (UInt64 × NpmInfo) :=
  ((lockfile.packages.flatMap Package.dependencies).filterMap fun depId =>
      lockfile.dependencies[depId]?.bind recordAlias) ++
    lockfile.overrides.filterMap recordAlias ++ lockfile.catalogs.filterMap recordAlias

/-- `is_satisfied_by_a_bound_of`: an exclusive bound counts, and so does an unset comparator's
`0.0.0`. -/
def isSatisfiedByABoundOf (group other : Group) : Bool :=
  ((other.alternatives.flatMap Query.ranges).flatMap fun range => [range.left, range.right]).any
    fun comparator =>
      let version := if comparator.op = .lt ∧ comparator.version.tag = .ZERO_PRE then
        { comparator.version with tag := {} } else comparator.version
      group.satisfies version

/-- The aliases that the resolver can give to this dependency in the place of its own range: its
range takes a bound of the alias. -/
def followed (dep : Dependency) : List NpmInfo :=
  match dep.version with
  | .npm info =>
    if !info.isAlias && !dep.behavior.bundled && !dep.behavior.peer then
      (lockfile.aliasesOf.filterMap fun entry =>
        if entry.1 = dep.nameHash then some entry.2 else none).filter fun other =>
          isSatisfiedByABoundOf info.version other.version
    else []
  | _ => []

/-! ## Spares -/

/-- A version as `fmt` prints it. -/
def fmtVersion (version : Version) : Bytes :=
  text (toString version.major.toNat) ++ b '.' :: text (toString version.minor.toNat) ++
    b '.' :: text (toString version.patch.toNat) ++
    (if version.tag.hasPre then b '-' :: version.tag.pre else []) ++
    (if version.tag.hasBuild then b '+' :: version.tag.build else [])

/-- The registry packages with their `name@version`. -/
def packageIds : List (Bytes × ℕ) :=
  lockfile.packages.zipIdx.filterMap fun entry =>
    match entry.1.resolution with
    | .npm version => some (entry.1.name ++ b '@' :: fmtVersion version, entry.2)
    | _ => none

/-- The package that `spares_of` finds for an id: the last one that was inserted. -/
def packageById (id : Bytes) : Option ℕ :=
  (lockfile.packageIds.reverse.find? fun entry => entry.1 == id).map Prod.snd

/-- For a package that keeps a path, the versions of it that lost the path there. -/
def sparesOf (spares : List Spare) (target : ℕ) : List ℕ :=
  spares.filterMap fun spare =>
    if lockfile.packageById spare.kept = some target then lockfile.packageById spare.lost else none

/-! ## Rebinding -/

section Rebind

variable (stringHash : Bytes → UInt64) (spares : List Spare)

/-- The package with the higher version, the second of two with one version. -/
def laterOf (highest next : ℕ) : ℕ :=
  match lockfile.versionOf highest, lockfile.versionOf next with
  | some version, some nextVersion =>
    if version.orderWithBuild nextVersion = .gt then highest else next
  | _, _ => next

/-- `max_by` on the versions. -/
def maxByVersion : List ℕ → Option ℕ
  | [] => none
  | package :: rest => some (rest.foldl lockfile.laterOf package)

/-- The highest version that the range takes, of some packages. -/
def highest (range : NpmInfo) (packages : List ℕ) : Option ℕ :=
  lockfile.maxByVersion
    (packages.filter fun package => lockfile.isNamed package range && lockfile.takes range package)

/-- The package of the merged graph for an edge that `target` does not serve: a version that lost
its path to `target`, which is what the side of the edge locked, else the highest version that the
range takes. `none` also for a dependency that follows an alias: which alias is for the resolver to
say. -/
def acceptingPackage (depId : ℕ) (dep : Dependency) (target : Option ℕ) : Option ℕ :=
  if lockfile.followed dep ≠ [] then none
  else
    match lockfile.rangeOf depId dep with
    | none => none
    | some range =>
      (target.bind fun target => lockfile.highest range (lockfile.sparesOf spares target)).or
        (lockfile.highest range (lockfile.packageIndex (stringHash range.name)))

/-- A row of the same owner and name that is bound to the same package and takes it. -/
def shares (resolutions : List ℕ) (dep : Dependency) (depId target sibling : ℕ) : Bool :=
  match lockfile.dependencies[sibling]? with
  | none => false
  | some other =>
    sibling != depId && other.nameHash == dep.nameHash &&
      resolutions[sibling]? == some target &&
      (lockfile.rangeOf sibling other).any fun range => lockfile.takes range target

/-- The package of an edge that is not bound to one that serves it. -/
def move (resolutions : List ℕ) (depId : ℕ) (dep : Dependency) (target : Option ℕ) : List ℕ :=
  match lockfile.acceptingPackage stringHash spares depId dep target with
  | some package => resolutions.set depId package
  -- An optional dependency keeps the package it has: without it the install skips the dependency.
  | none =>
    if dep.behavior.isOptional then resolutions else resolutions.set depId invalidPackageId

/-- The body of the loop of `rebind`, for one dependency of an owner. -/
def visit (resolutions : List ℕ) (edge : Package × ℕ) : List ℕ :=
  match lockfile.dependencies[edge.2]?, resolutions[edge.2]? with
  | some dep, some target =>
    if target < lockfile.packages.length then
      match lockfile.accepts edge.2 dep target with
      | none => resolutions
      | some accepted =>
        if accepted || (lockfile.followed dep).any fun other =>
            lockfile.isNamed target other && lockfile.takes other target then resolutions
        -- Rows of one owner and one name share a folder: the package one of them takes serves all.
        else if edge.1.dependencies.any fun sibling =>
            lockfile.shares resolutions dep edge.2 target sibling then resolutions
        else lockfile.move stringHash spares resolutions edge.2 dep (some target)
    else if dep.mayStayUnbound then resolutions
    else lockfile.move stringHash spares resolutions edge.2 dep none
  | _, _ => resolutions

/-- The dependencies in the order they are visited, each with its owner. -/
def edges : List (Package × ℕ) :=
  lockfile.packages.flatMap fun owner => owner.dependencies.map (owner, ·)

/-- One visit per edge. Moving an edge changes which packages are reached, never what another edge
accepts. -/
def rebind : List ℕ := lockfile.edges.foldl (lockfile.visit stringHash spares) lockfile.resolutions

end Rebind

end Lockfile

end Soup.Install
