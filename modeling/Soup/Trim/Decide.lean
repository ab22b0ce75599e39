import Mathlib.Data.Finset.SDiff
import Mathlib.Data.List.Sort
import Mathlib.Data.Prod.Lex
import Soup.Bytes

/-!
# Removable features

The data of `src/trim`: features and sets of them, the edges between features, what a build knows of
a program, and why a feature stays. The features, with what their tables say, are generated by the
build, so they are a parameter here (`FeatureTable`). A set of features is a finite set, which is
iterated in the order of the features. `FeatureEdges` are sorted, as `FeatureEdges::new` leaves
them.
-/

namespace Soup.Trim

open List

/-- Where a feature is entered from. -/
inductive EnteredFrom
  | program
  | startup
  | commandLine
deriving DecidableEq, Repr

/-- The generated features and trim features, with those that the source names. -/
structure FeatureTable (Feature TrimFeature : Type) [LinearOrder Feature] where
  all : List Feature
  all_sorted : all.Pairwise (· < ·)
  mem_all : ∀ feature, feature ∈ all
  enteredFrom : Feature → EnteredFrom
  isEngine : Feature → Bool
  features : TrimFeature → List Feature
  jit : Feature
  interpreter : Feature
  builtinSourceText : Feature
  imageCompiler : Feature
  webAssembly : Feature
  inspector : Feature
  profilers : Feature
  bunfig : Feature
  cliOptions : Feature
  crashReport : Feature
  dataFileLoaders : Feature
  runtimeTranspiler : Feature
  workerConstructor : Feature
  postMessage : Feature
  messageChannel : Feature
  structuredClone : Feature
  shadowRealm : Feature
  check : Feature
  aotCompiler : Feature
  bundler : Feature
  nativeAddons : Feature
  packageFiles : Feature
  sourceMaps : Feature
  intl : TrimFeature
  temporal : TrimFeature
  webassembly : TrimFeature

/-! ## Edges -/

/-- How sure it is that an edge is followed. -/
inductive EdgeStrength
  | reference
  | abortingGuard
  | recoverableGuard
deriving DecidableEq, Repr

def EdgeStrength.index : EdgeStrength → ℕ
  | .reference => 0
  | .abortingGuard => 1
  | .recoverableGuard => 2

def EdgeStrength.min (a b : EdgeStrength) : EdgeStrength := if b.index < a.index then b else a

/-- The feature `source` needs `target`: `from` and `to` in the source. -/
structure FeatureEdge (Feature : Type) where
  source : Feature
  target : Feature
  strength : EdgeStrength
  isFollowed : Bool
deriving DecidableEq, Repr

/-- The edges, sorted by `source`. -/
structure FeatureEdges (Feature : Type) [LinearOrder Feature] where
  edges : List (FeatureEdge Feature)
  needsOfBuiltins : List (Feature × Feature)
  sorted : edges.Pairwise fun a b => a.source ≤ b.source

section Edges

variable {Feature : Type} [LinearOrder Feature]

def FeatureEdge.key (edge : FeatureEdge Feature) : Feature ×ₗ Feature :=
  toLex (edge.source, edge.target)

/-- `dedup_by` of `FeatureEdges::new`, behind the edge that duplicates are merged into. -/
def mergeEdges : FeatureEdge Feature → List (FeatureEdge Feature) → List (FeatureEdge Feature)
  | merged, [] => [merged]
  | merged, duplicate :: rest =>
    if (duplicate.source, duplicate.target) = (merged.source, merged.target) then
      mergeEdges { merged with
        strength := merged.strength.min duplicate.strength
        isFollowed := merged.isFollowed || duplicate.isFollowed } rest
    else merged :: mergeEdges duplicate rest

/-- Edges of the same pair become one. -/
def mergeAll : List (FeatureEdge Feature) → List (FeatureEdge Feature)
  | [] => []
  | edge :: rest => mergeEdges edge rest

theorem map_source_mergeEdges (merged : FeatureEdge Feature) (rest : List (FeatureEdge Feature)) :
    ((mergeEdges merged rest).map FeatureEdge.source).Sublist
      ((merged :: rest).map FeatureEdge.source) := by
  induction rest generalizing merged with
  | nil => exact List.Sublist.refl _
  | cons duplicate rest ih =>
    rw [mergeEdges]
    split
    · exact (ih _).trans ((sublist_cons_self _ _).cons_cons _)
    · exact (ih duplicate).cons_cons _

/-- The edges that `FeatureEdges::new` sorts. -/
def sortEdges (edges : List (FeatureEdge Feature)) : List (FeatureEdge Feature) :=
  (edges.filter fun edge => edge.source ≠ edge.target).insertionSort fun a b => a.key ≤ b.key

theorem sortEdges_sorted (edges : List (FeatureEdge Feature)) :
    ((sortEdges edges).map FeatureEdge.source).Pairwise (· ≤ ·) := by
  rw [pairwise_map]
  refine (pairwise_insertionSort _ _).imp fun {a b} hab => ?_
  rcases Prod.Lex.le_iff.1 hab with hlt | ⟨heq, -⟩
  · exact hlt.le
  · exact heq.le

/-- `FeatureEdges::new`. -/
def FeatureEdges.new (edges : List (FeatureEdge Feature)) : FeatureEdges Feature where
  edges := (mergeAll (sortEdges edges)).map fun edge =>
    { edge with isFollowed := edge.isFollowed || decide (edge.strength = .reference) }
  needsOfBuiltins := []
  sorted := by
    rw [pairwise_map]
    have hsorted := sortEdges_sorted edges
    generalize sortEdges edges = sorted at hsorted
    cases sorted with
    | nil => exact List.Pairwise.nil
    | cons edge rest => exact pairwise_map.1 (hsorted.sublist (map_source_mergeEdges edge rest))

/-- `partition_point`, where what it looks for comes first. -/
def partitionPoint {α : Type} (l : List α) (p : α → Bool) : ℕ := (l.takeWhile p).length

/-- The edges that leave a feature. -/
def FeatureEdges.leaving (edges : FeatureEdges Feature) (feature : Feature) :
    List (FeatureEdge Feature) :=
  (edges.edges.take (partitionPoint edges.edges fun edge => edge.source ≤ feature)).drop
    (partitionPoint edges.edges fun edge => edge.source < feature)

end Edges

/-! ## What a build knows -/

/-- An index into the witnesses of a build. -/
abbrev WitnessIndex := ℕ

/-- A feature that the program names. -/
structure UsedFeature (Feature : Type) where
  feature : Feature
  witness : Option WitnessIndex
  isNamed : Bool

inductive UnseenCodeCause
  | programNotCompiled
  | reportMissing
  | flowResultDisabled
  | evaluatesText
  | importsUncompiledCode
  | loadsModuleByName
  | loadsCodeByName
  | runsUnseenCode
  | runsMachineCode
  | optionAdmitsCode
deriving DecidableEq, Repr

/-- Code that the analysis does not see. -/
structure UnseenCode where
  cause : UnseenCodeCause
  witness : Option WitnessIndex

structure UsedFeatures (Feature : Type) where
  features : List (UsedFeature Feature)
  causes : List UnseenCode
  startsWorkersFromUnseenCode : Bool

inductive RuntimeRequirement (Feature : Type)
  | nothing
  | feature (feature : Feature)
  | wholeRuntime
  | runtimeCode
deriving DecidableEq

/-- A feature that an option of the executable needs. -/
structure OptionRequirement (Feature : Type) where
  requirement : RuntimeRequirement Feature
  label : Bytes

structure ExecutableSettings (Feature : Type) where
  autoloadsBunfig : Bool
  autoloadsPackageJson : Bool
  autoloadsTsconfig : Bool
  embedsSourceMaps : Bool
  execArgv : List (OptionRequirement Feature)

/-- What the user wants to keep and to remove. -/
structure TrimRequest (Feature TrimFeature : Type) where
  removesUnused : Bool
  allow : List TrimFeature
  remove : List TrimFeature
  removeInternal : List Feature

structure TrimInput (Feature TrimFeature : Type) where
  used : UsedFeatures Feature
  settings : ExecutableSettings Feature
  request : TrimRequest Feature TrimFeature

section Used

variable {Feature TrimFeature : Type} [DecidableEq Feature]

def UsedFeatures.hasCause (used : UsedFeatures Feature) (cause : UnseenCodeCause) : Bool :=
  used.causes.any fun unseen => unseen.cause = cause

def UsedFeatures.uses (used : UsedFeatures Feature) (feature : Feature) : Bool :=
  used.features.any fun named => named.feature = feature

def UsedFeatures.names (used : UsedFeatures Feature) (feature : Feature) : Bool :=
  used.features.any fun named => named.feature = feature && named.isNamed

def TrimInput.isProgramCompiled (input : TrimInput Feature TrimFeature) : Bool :=
  !input.used.hasCause .programNotCompiled

end Used

/-! ## What stays -/

/-- Why a feature stays. -/
inductive RetainReason (Feature TrimFeature : Type)
  | allowed (name : TrimFeature)
  | used (witness : Option WitnessIndex)
  | requiredByOption (index : ℕ)
  | alwaysEntered
  | reachableByUnseenCode (index : ℕ)
  | neededBy (feature : Feature) (strength : EdgeStrength)
  | notRequested
deriving DecidableEq

structure Retained (Feature TrimFeature : Type) where
  feature : Feature
  reason : RetainReason Feature TrimFeature

/-- The features that go (`unused`), and the reasons of those that stay. -/
structure Decision (Feature TrimFeature : Type) where
  unused : Finset Feature
  requested : Finset Feature
  unretained : Finset Feature
  retained : List (Retained Feature TrimFeature)
  requirements : List (OptionRequirement Feature)

section Decision

variable {Feature TrimFeature : Type} [DecidableEq Feature]

/-- The reason of a feature in a list that has it once. -/
def findReason (retained : List (Retained Feature TrimFeature)) (feature : Feature) :
    Option (RetainReason Feature TrimFeature) :=
  (retained.find? fun r => r.feature = feature).map Retained.reason

/-- `Decision::reason_of`; the list is sorted, and the binary search finds the feature. -/
def Decision.reasonOf (decision : Decision Feature TrimFeature) (feature : Feature) :
    Option (RetainReason Feature TrimFeature) := findReason decision.retained feature

/-- The loop of `Decision::chain_of`. -/
def Decision.chainLoop (decision : Decision Feature TrimFeature) :
    ℕ → List Feature → Feature → Option (List Feature)
  | 0, _, _ => none
  | fuel + 1, chain, current =>
    match decision.reasonOf current with
    | some (.neededBy dependent _) =>
      if chain.contains dependent then some chain
      else decision.chainLoop fuel (chain ++ [dependent]) dependent
    | _ => some chain

/-- `Decision::chain_of`. A round that goes on is for another feature of `retained`. -/
def Decision.chainOf (decision : Decision Feature TrimFeature) (feature : Feature) :
    Option (List Feature) :=
  decision.chainLoop (decision.retained.length + 1) [feature] feature

end Decision

/-!
## What is removed

`decide` of `decide.rs`, with `collect_requirements` of `settings.rs`. The seed gets its reasons in
the order of the source, and the first reason of a feature stays. The loop of `close` has as much
fuel as there are features: each is in the worklist once.
-/

/-- The features so far, with the first reason of each. -/
structure RetainedFeatures (Feature TrimFeature : Type) where
  set : Finset Feature
  reasons : List (Retained Feature TrimFeature)

variable {Feature TrimFeature : Type} [LinearOrder Feature]

/-- Only the first reason counts. -/
def RetainedFeatures.insert (retained : RetainedFeatures Feature TrimFeature) (feature : Feature)
    (reason : RetainReason Feature TrimFeature) : RetainedFeatures Feature TrimFeature :=
  if feature ∈ retained.set then retained
  else { set := Insert.insert feature retained.set, reasons := retained.reasons ++
    [{ feature, reason }] }

/-- `insert` for each feature of a list, in its order. -/
def RetainedFeatures.insertAll (retained : RetainedFeatures Feature TrimFeature)
    (features : List Feature)
    (reason : RetainReason Feature TrimFeature) : RetainedFeatures Feature TrimFeature :=
  features.foldl (fun retained feature => retained.insert feature reason) retained

variable (T : FeatureTable Feature TrimFeature)

/-! ### Sets of features -/

/-- `FeatureSet::iter`. -/
def FeatureTable.iter (set : Finset Feature) : List Feature :=
  T.all.filter fun feature => feature ∈ set

def FeatureTable.allFeatures : Finset Feature := T.all.toFinset

def FeatureTable.allEnteredFrom (origin : EnteredFrom) : Finset Feature :=
  (T.all.filter fun feature => T.enteredFrom feature = origin).toFinset

def FeatureTable.allOutsideCompiledPrograms : Finset Feature :=
  Insert.insert T.jit (T.allEnteredFrom .commandLine)

def RetainedFeatures.insertSet (retained : RetainedFeatures Feature TrimFeature)
    (features : Finset Feature)
    (reason : RetainReason Feature TrimFeature) : RetainedFeatures Feature TrimFeature :=
  retained.insertAll (T.iter features) reason

/-! ### The constants -/

def FeatureTable.ALWAYS_ENTERED : List Feature :=
  [T.bunfig, T.cliOptions, T.crashReport, T.profilers]

def FeatureTable.ENGINE_FEATURES_OUTSIDE_LANGUAGE : List Feature :=
  [T.webAssembly, T.inspector, T.profilers]

def FeatureTable.KEPT_ONLY_WHEN_NAMED : List TrimFeature := [T.intl, T.temporal, T.webassembly]

def FeatureTable.LOADS_FILES_FROM_DISK : Feature := T.dataFileLoaders

def FeatureTable.RUNS_FILES_FROM_DISK : List Feature :=
  [T.LOADS_FILES_FROM_DISK, T.runtimeTranspiler, T.interpreter, T.builtinSourceText]

def FeatureTable.STARTS_WORKERS : Feature := T.workerConstructor

def FeatureTable.ENTERED_BY_EACH_WORKER : List Feature :=
  [T.postMessage, T.messageChannel, T.structuredClone]

def FeatureTable.CREATES_REALMS : Feature := T.shadowRealm

def FeatureTable.RUNS_BUILTIN_MODULES_FROM_TEXT : Feature := T.runtimeTranspiler

def FeatureTable.ENTERED_BY_BUNDLER : List Feature :=
  [T.check, T.aotCompiler, T.imageCompiler, T.jit]

/-! ### The seed -/

/-- The features of a requirement. -/
def FeatureTable.requiredFeatures : RuntimeRequirement Feature → Finset Feature
  | .nothing => ∅
  | .feature feature => {feature}
  | .wholeRuntime => T.allEnteredFrom .program
  | .runtimeCode => T.allEnteredFrom .program

def FeatureTable.collectRequirements (settings : ExecutableSettings Feature) :
    List (OptionRequirement Feature) :=
  let settingFeatures :=
    [(settings.autoloadsBunfig, T.bunfig, text "autoloading bunfig.toml"),
      (settings.autoloadsPackageJson, T.packageFiles, text "autoloading package.json"),
      (settings.autoloadsTsconfig, T.packageFiles, text "autoloading tsconfig.json"),
      (settings.embedsSourceMaps, T.sourceMaps, text "the embedded source maps")]
  (settingFeatures.filter fun (isEnabled, _, _) => isEnabled).map (fun (_, feature, label) =>
    { requirement := .feature feature, label }) ++
    settings.execArgv.filter fun option => option.requirement ≠ .nothing

def FeatureTable.featuresKeptOnlyWhenNamed : Finset Feature :=
  (T.KEPT_ONLY_WHEN_NAMED.flatMap T.features).toFinset

def FeatureTable.languageFeatures : Finset Feature :=
  ((T.iter (T.allEnteredFrom .program)).filter T.isEngine).toFinset \
    T.ENGINE_FEATURES_OUTSIDE_LANGUAGE.toFinset

def FeatureTable.featuresReachableByText : Finset Feature :=
  T.languageFeatures \ T.featuresKeptOnlyWhenNamed

/-- What unseen code can enter, by its cause. -/
def FeatureTable.featuresReachableBy : UnseenCodeCause → Finset Feature
  | .programNotCompiled => Insert.insert T.jit (T.allEnteredFrom .program)
  | .reportMissing => T.allEnteredFrom .program
  | .flowResultDisabled => T.allEnteredFrom .program
  | .evaluatesText => T.featuresReachableByText
  | .importsUncompiledCode => T.allEnteredFrom .program
  | .loadsModuleByName => {T.LOADS_FILES_FROM_DISK}
  | .loadsCodeByName => T.featuresReachableByText ∪ T.RUNS_FILES_FROM_DISK.toFinset
  | .runsUnseenCode => Insert.insert T.nativeAddons T.featuresReachableByText
  | .runsMachineCode => Insert.insert T.nativeAddons T.featuresReachableByText
  | .optionAdmitsCode => T.allEnteredFrom .program

def FeatureTable.canStartWorkerFromUnseenCode (used : UsedFeatures Feature) : Bool :=
  used.startsWorkersFromUnseenCode && used.uses T.workerConstructor

/-- What a realm needs, and a Worker that starts from code that the build has not compiled. -/
def FeatureTable.seedUncompiled (used : UsedFeatures Feature)
    (seed : RetainedFeatures Feature TrimFeature) : RetainedFeatures Feature TrimFeature :=
  let seed :=
    if used.names T.CREATES_REALMS then
      seed.insert T.RUNS_BUILTIN_MODULES_FROM_TEXT (.neededBy T.CREATES_REALMS .recoverableGuard)
    else seed
  if T.canStartWorkerFromUnseenCode used then
    let reason := .neededBy T.STARTS_WORKERS .recoverableGuard
    (seed.insertSet T (T.featuresReachableBy .loadsCodeByName) reason).insertSet T
      T.ENTERED_BY_EACH_WORKER.toFinset reason
  else seed

def computeSeed (input : TrimInput Feature TrimFeature)
    (requirements : List (OptionRequirement Feature)) : RetainedFeatures Feature TrimFeature :=
  let seed : RetainedFeatures Feature TrimFeature := { set := ∅, reasons := [] }
  let seed := input.request.allow.foldl (fun seed name =>
    seed.insertSet T (T.features name).toFinset (.allowed name)) seed
  let seed := input.used.features.foldl
    (fun seed used => seed.insert used.feature (.used used.witness)) seed
  let seed := T.seedUncompiled input.used seed
  let seed := requirements.zipIdx.foldl (fun seed (option, index) =>
    seed.insertSet T (T.requiredFeatures option.requirement) (.requiredByOption index)) seed
  let seed := seed.insertAll T.ALWAYS_ENTERED .alwaysEntered
  input.used.causes.zipIdx.foldl (fun seed (unseen, index) =>
    seed.insertSet T (T.featuresReachableBy unseen.cause) (.reachableByUnseenCode index)) seed

/-- The feature stays because the user allows it. -/
def isAllowed (retained : RetainedFeatures Feature TrimFeature) (feature : Feature) : Bool :=
  retained.reasons.any fun kept => kept.feature = feature && match kept.reason with
    | .allowed _ => true
    | _ => false

def retainWhatAllowedBuiltinsNeed (edges : FeatureEdges Feature)
    (retained : RetainedFeatures Feature TrimFeature) : RetainedFeatures Feature TrimFeature :=
  edges.needsOfBuiltins.foldl (fun retained (feature, needed) =>
    if isAllowed retained feature then retained.insert needed (.neededBy feature .abortingGuard)
    else retained) retained

def retainAllAProgramCanEnter (retained : RetainedFeatures Feature TrimFeature) :
    RetainedFeatures Feature TrimFeature :=
  let retained :=
    if T.bundler ∈ retained.set then
      retained.insertAll T.ENTERED_BY_BUNDLER (.neededBy T.bundler .recoverableGuard)
    else retained
  retained.insertSet T (T.allFeatures \ T.allOutsideCompiledPrograms) .notRequested

/-- What is retained before the edges are followed. -/
def seedOf (input : TrimInput Feature TrimFeature) (edges : FeatureEdges Feature) :
    RetainedFeatures Feature TrimFeature :=
  let retained := computeSeed T input (T.collectRequirements input.settings)
  let retained := retainWhatAllowedBuiltinsNeed edges retained
  if !input.request.removesUnused then retainAllAProgramCanEnter T retained else retained

/-! ### The closure -/

/-- `retained` with the worklist. -/
abbrev Closing (Feature TrimFeature : Type) := RetainedFeatures Feature TrimFeature × List Feature

/-- The body of the loop of `close` over the edges that leave `feature`. -/
def followEdge (feature : Feature) (s : Closing Feature TrimFeature) (edge : FeatureEdge Feature) :
    Closing Feature TrimFeature :=
  if !edge.isFollowed then s
  else
    (s.1.insert edge.target (.neededBy feature edge.strength),
      if edge.target ∈ s.1.set then s.2 else s.2 ++ [edge.target])

/-- The search takes one feature after the other. -/
def closeLoop (edges : FeatureEdges Feature) :
    ℕ → Closing Feature TrimFeature → Option (RetainedFeatures Feature TrimFeature)
  | _, (retained, []) => some retained
  | 0, (_, _ :: _) => none
  | fuel + 1, (retained, feature :: worklist) =>
    closeLoop edges fuel ((edges.leaving feature).foldl (followEdge feature) (retained, worklist))

def close (edges : FeatureEdges Feature) (retained : RetainedFeatures Feature TrimFeature) :
    Option (RetainedFeatures Feature TrimFeature) :=
  closeLoop edges T.all.length (retained, T.iter retained.set)

/-! ### The decision -/

/-- A present feature with its reason; the reasons are sorted by their features, of which each has
one. -/
def collectRetained (present : Finset Feature) (reasons : List (Retained Feature TrimFeature)) :
    List (Retained Feature TrimFeature) :=
  (T.iter present).map fun feature =>
    { feature, reason := (findReason reasons feature).getD .notRequested }

/-- The decision, where a refused feature that must stay is an error. -/
def FeatureTable.decide (input : TrimInput Feature TrimFeature) (edges : FeatureEdges Feature) :
    Option (Decision Feature TrimFeature) :=
  (close T edges (seedOf T input edges)).map fun retained =>
    let unretained :=
      if input.request.removesUnused || input.isProgramCompiled then T.allFeatures \ retained.set
        else ∅
    let requested := (input.request.remove.flatMap T.features).toFinset
    let unused := unretained ∪ input.request.removeInternal.toFinset ∪ requested
    { unused
      requested
      unretained
      retained := collectRetained T (T.allFeatures \ unused) retained.reasons
      requirements := T.collectRequirements input.settings }

end Soup.Trim
