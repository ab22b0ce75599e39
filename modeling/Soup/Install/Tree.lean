import Mathlib.Data.List.Nodup
import Soup.Bytes
import Soup.Lib.Scope

/-!
# Hoisting

`Tree::process_subtree` and `Tree::hoist_dependency`, and the loop of `Lockfile::hoist` that runs
them, on a lockfile whose dependencies are regular registry dependencies with one name each in
their package and that all resolve to a package. What is left out of both functions is for peers,
for bundled, folder and workspace packages, for rows that are skipped and for a package that lists
a name twice; without these no tree but `INVALID_ID` is a hoist root, and both methods do the same.

A name is told by its hash. The parent `INVALID_ID` and the dependency `ROOT_DEP_ID` are `none`.
-/

namespace Soup.Install

open List Option

/-! ## Lockfiles -/

/-- A dependency, with the package in `resolutions`. -/
structure Edge where
  nameHash : UInt64
  resolution : ℕ
deriving Inhabited

/-- `DependencyIDSlice`. -/
structure DependencyIDSlice where
  off : ℕ
  len : ℕ

def DependencyIDSlice.ids (slice : DependencyIDSlice) : List ℕ := range' slice.off slice.len

/-- The dependencies of a lockfile and, for each package, its list of them. -/
structure Graph where
  dependencies : List Edge
  resolutionLists : List DependencyIDSlice
  /-- What `sort_indices_unstable` makes of the dependencies of a package with `DepSorter`. -/
  sort : List ℕ → List ℕ
  sort_perm : ∀ ids, (sort ids).Perm ids

namespace Graph

variable (g : Graph)

def edge (depId : ℕ) : Edge := g.dependencies[depId]?.getD default

def nameHash (depId : ℕ) : UInt64 := (g.edge depId).nameHash

def resolution (depId : ℕ) : ℕ := (g.edge depId).resolution

/-- `resolution_lists[package]`. -/
def resolutionList (package : ℕ) : List ℕ :=
  (g.resolutionLists[package]?.map DependencyIDSlice.ids).getD []

/-- The package that a dependency brings in, the root package for `ROOT_DEP_ID`. -/
def packageOf : Option ℕ → ℕ
  | none => 0
  | some depId => g.resolution depId

end Graph

/-! ## Trees -/

/-- `BuilderEntry`: a tree and its rows. -/
structure BuilderEntry where
  parent : Option ℕ
  dependencyId : Option ℕ
  rows : List ℕ := []

structure FillItem where
  treeId : ℕ
  dependencyId : ℕ

structure Builder where
  list : List BuilderEntry := []
  queue : List FillItem := []

/-- Goes up both rounds until `period` pairs of trees were the same. -/
def sameRounds (list : List BuilderEntry) : ℕ → Option ℕ → Option ℕ → Bool
  | 0, _, _ => true
  | period + 1, some lower, some upper =>
    match list[lower]?, list[upper]? with
    | some lowerTree, some upperTree =>
      lowerTree.dependencyId == upperTree.dependencyId &&
        lowerTree.rows.isPrefixOf upperTree.rows &&
        sameRounds list period lowerTree.parent upperTree.parent
    | _, _ => false
  | _ + 1, _, _ => false

/-- The loop of `repeating_period` from `roundStart` on. Every round goes to a tree before, so
`fuel` is the number of trees. -/
def repeatingPeriodFrom (list : List BuilderEntry) (parent dependencyId : Option ℕ) :
    ℕ → Option ℕ → ℕ → Option ℕ
  | fuel + 1, some roundStart, period =>
    match list[roundStart]? with
    | some tree =>
      if tree.dependencyId = dependencyId ∧ sameRounds list period parent tree.parent = true then
        some period
      else repeatingPeriodFrom list parent dependencyId fuel tree.parent (period + 1)
    | none => none
  | _, _, _ => none

/-- Returns `some n` if two identical rounds of `n` trees end at `parent`, which means a third round
would nest forever. -/
def repeatingPeriod (list : List BuilderEntry) (parent dependencyId : Option ℕ) : Option ℕ :=
  repeatingPeriodFrom list parent dependencyId list.length parent 1

/-! ## Hoisting a dependency -/

inductive HoistDependencyResult
  | dependencyLoop
  | hoisted
  | placement (id : ℕ)
deriving DecidableEq

namespace Graph

variable (g : Graph)

/-- `placed.get(&(id, name_hash))`: the first row of the name in a tree. -/
def placed (entry : BuilderEntry) (nameHash : UInt64) : Option ℕ :=
  entry.rows.find? fun row => g.nameHash row = nameHash

/-- De-duplicates a dependency, moves it to the top directory or leaves it where it is. Every round
goes to a tree before, so `fuel` is the number of trees. -/
def hoistDependency (list : List BuilderEntry) (depId : ℕ) :
    Bool → ℕ → ℕ → HoistDependencyResult
  | asDefined, fuel + 1, selfId =>
    match list[selfId]? with
    | none => .dependencyLoop
    | some this =>
      match g.placed this (g.nameHash depId) with
      | some row =>
        -- this dependency is the same package as the other, hoist
        if g.resolution row = g.resolution depId then .hoisted else .dependencyLoop
      | none =>
        match this.parent with
        | some parent =>
          let id := hoistDependency list depId false fuel parent
          if !asDefined || id ≠ .dependencyLoop then id else .placement selfId
        | none => .placement selfId
  | _, 0, _ => .dependencyLoop

/-- A row of a tree, queued if its package has dependencies. -/
def place (builder : Builder) (id depId : ℕ) : Builder where
  list := builder.list.modify id fun entry => { entry with rows := entry.rows ++ [depId] }
  queue :=
    if g.resolutionList (g.resolution depId) = [] then builder.queue
    else builder.queue ++ [{ treeId := id, dependencyId := depId }]

/-- The body of the loop of `process_subtree`. -/
def hoist (nextId : ℕ) (builder : Builder) (depId : ℕ) : Builder :=
  match g.hoistDependency builder.list depId true builder.list.length nextId with
  | .placement id => g.place builder id depId
  | _ => builder

/-- Drops the last tree if it got no row. -/
def popIfEmpty (builder : Builder) : Builder :=
  match builder.list.getLast? with
  | some entry => if entry.rows = [] then { builder with list := builder.list.dropLast }
    else builder
  | none => builder

/-- `Tree::process_subtree`, `none` where it stops in `crash_on_endless_nesting`. Without `guarded`
it does not ask `repeating_period`. -/
def processSubtree (guarded : Bool) (self dependencyId : Option ℕ) (builder : Builder) :
    Option Builder :=
  let resolutionList := g.resolutionList (g.packageOf dependencyId)
  if resolutionList = [] then some builder
  else if guarded && (repeatingPeriod builder.list self dependencyId).isSome then none
  else
    let nextId := builder.list.length
    let builder := { builder with list := builder.list ++ [{ parent := self, dependencyId }] }
    some (popIfEmpty ((g.sort resolutionList).foldl (g.hoist nextId) builder))

/-! ## Building the tree -/

/-- The tree of the root package. -/
def start (guarded : Bool) : Option Builder := g.processSubtree guarded none none {}

/-- The loop of `Lockfile::hoist`, for some rounds. This goes breadth-first. -/
def fill (guarded : Bool) : ℕ → Builder → Option Builder
  | 0, builder => some builder
  | fuel + 1, builder =>
    match builder.queue with
    | [] => some builder
    | item :: queue => do
      let builder ← g.processSubtree guarded (some item.treeId) (some item.dependencyId)
        { builder with queue }
      fill guarded fuel builder

/-- What some rounds make of the root package. -/
def run (guarded : Bool) (rounds : ℕ) : Option Builder :=
  (g.start guarded).bind (g.fill guarded rounds)

end Graph

/-!
## The trees as scopes

Looking a name up in `node_modules` goes up from a folder, so the trees are scopes (`scopes`), and
`hoist_dependency` is such a lookup from the tree above (`hoist_cases`). `Forest` is what holds of
the trees and the queue whatever the rows are: a tree is below a row of the tree above, there is one
tree for a row, and the queue holds rows that have no tree yet.
-/

open Soup.Lib

/-- The trees as scopes. -/
def scopes (list : List BuilderEntry) : Scopes ℕ where
  parent i := list[i]?.bind BuilderEntry.parent
  rows i := (list[i]?.map BuilderEntry.rows).getD []

/-- The dependency that a tree is for. -/
def depAt (list : List BuilderEntry) (i : ℕ) : Option ℕ := list[i]?.bind BuilderEntry.dependencyId

theorem parent_scopes (list : List BuilderEntry) (i : ℕ) :
    (scopes list).parent i = list[i]?.bind BuilderEntry.parent := rfl

theorem rows_scopes (list : List BuilderEntry) (i : ℕ) :
    (scopes list).rows i = (list[i]?.map BuilderEntry.rows).getD [] := rfl

variable {list : List BuilderEntry}

theorem lt_length_of_parent {i p : ℕ}
    (h : (scopes list).parent i = some p) : i < list.length := by
  obtain ⟨tree, htree, -⟩ := bind_eq_some_iff.1 h
  exact (List.getElem?_eq_some_iff.1 htree).1

theorem lt_length_of_mem {i d : ℕ} (h : d ∈ (scopes list).rows i) :
    i < list.length := by
  by_contra hi
  rw [rows_scopes, getElem?_eq_none (not_lt.1 hi)] at h
  cases h

namespace Graph

variable (g : Graph)

/-- The dependencies of the package of a tree, in the order they are walked. -/
def depsOf (list : List BuilderEntry) (i : ℕ) : List ℕ :=
  g.sort (g.resolutionList (g.packageOf (depAt list i)))

/-- The first row of a name from a tree upwards. -/
abbrev Finds (list : List BuilderEntry) (i : ℕ) (nameHash : UInt64) (row : ℕ) : Prop :=
  Scopes.Finds g.nameHash (scopes list) nameHash i row

/-- The first row of the name of a dependency is for the package that it resolves to. -/
def Sees (list : List BuilderEntry) (i d : ℕ) : Prop :=
  ∃ row, g.Finds list i (g.nameHash d) row ∧ g.resolution row = g.resolution d

/-- The first row of the name of a dependency is for another package. -/
def Clashes (list : List BuilderEntry) (i d : ℕ) : Prop :=
  ∃ row, g.Finds list i (g.nameHash d) row ∧ g.resolution row ≠ g.resolution d

/-- Two trees that find the same rows. -/
abbrev Twins (list : List BuilderEntry) (i j : ℕ) : Prop :=
  Scopes.Twins g.nameHash (scopes list) i j

/-- What the lockfile promises: the dependencies of a package are dependencies, each with its own
name. -/
def WellFormed : Prop :=
  ∀ package, (∀ d ∈ g.resolutionList package, d < g.dependencies.length) ∧
    ((g.resolutionList package).map g.nameHash).Nodup

variable {g} {list : List BuilderEntry} {b : Builder} {i d r : ℕ}

theorem mem_depsOf : d ∈ g.depsOf list i ↔
    d ∈ g.resolutionList (g.packageOf (depAt list i)) := (g.sort_perm _).mem_iff

theorem Clashes.twin {j : ℕ} (h : g.Twins list i j) (hc : g.Clashes list i d) :
    g.Clashes list j d := by
  obtain ⟨row, hrow, hres⟩ := hc
  exact ⟨row, (h _ _).1 hrow, hres⟩

theorem nodup_depsOf (hw : g.WellFormed) : ((g.depsOf list i).map g.nameHash).Nodup :=
  (((g.sort_perm _).map _).nodup_iff).2 (hw _).2

/-! ### Hoisting is a lookup -/

theorem placed_eq_own {tree : BuilderEntry} (h : list[i]? = some tree) (n : UInt64) :
    g.placed tree n = (scopes list).own g.nameHash i n := by
  rw [Scopes.own, rows_scopes, h]
  rfl

/-- The lookup from a tree above the one a dependency is for. -/
theorem hoistDependency_above (hs : (scopes list).Grounded) (fuel : ℕ) :
    ∀ i < list.length, i < fuel →
      (∀ row, g.Finds list i (g.nameHash d) row → g.hoistDependency list d false fuel i =
        if g.resolution row = g.resolution d then .hoisted else .dependencyLoop) ∧
      ∀ r, Scopes.Misses g.nameHash (scopes list) (g.nameHash d) i r →
        g.hoistDependency list d false fuel i = .placement r := by
  induction fuel with
  | zero => exact fun i _ hi => absurd hi (Nat.not_lt_zero i)
  | succ fuel ih =>
    intro i hi hfuel
    have hget : list[i]? = some list[i] := getElem?_eq_getElem hi
    have hparent : (scopes list).parent i = list[i].parent := by
      rw [parent_scopes, hget, bind_some]
    rw [hoistDependency, hget]
    simp only [placed_eq_own hget]
    cases hown : (scopes list).own g.nameHash i (g.nameHash d) with
    | some row =>
      refine ⟨fun row' h => ?_, fun r h => ?_⟩
      · rw [(Scopes.Finds.here hown).unique h]
      · exact absurd h (Scopes.Finds.here hown).not_misses
    | none =>
      cases hp : list[i].parent with
      | none =>
        refine ⟨fun row h => ?_, fun r h => ?_⟩
        · cases h with
          | here hown' => rw [hown] at hown'; cases hown'
          | above _ hparent' => rw [hparent, hp] at hparent'; cases hparent'
        · cases h with
          | root => rfl
          | above _ hparent' => rw [hparent, hp] at hparent'; cases hparent'
      | some p =>
        have hlt : p < i := hs i p (hparent.trans hp)
        obtain ⟨hfinds, hmisses⟩ := ih p (hlt.trans hi) (by omega)
        simp only [Bool.not_false, Bool.true_or, if_true]
        refine ⟨fun row h => ?_, fun r h => ?_⟩
        · cases h with
          | here hown' => rw [hown] at hown'; cases hown'
          | above _ hparent' h =>
            obtain rfl := some.inj ((hparent.trans hp).symm.trans hparent')
            exact hfinds row h
        · cases h with
          | root _ hparent' => rw [hparent, hp] at hparent'; cases hparent'
          | above _ hparent' h =>
            obtain rfl := some.inj ((hparent.trans hp).symm.trans hparent')
            exact hmisses r h

/-- What is done with a dependency whose name no row of its own tree has: a row of its package above
serves it, a row of another package above keeps it in its tree, and otherwise it gets a row in the
topmost tree. -/
theorem hoist_cases (hs : (scopes b.list).Grounded) {x : ℕ} (hx : x < b.list.length)
    (hown : (scopes b.list).own g.nameHash x (g.nameHash d) = none) :
    (∃ p, (scopes b.list).parent x = some p ∧ ((g.Sees b.list p d ∧ g.hoist x b d = b) ∨
        (g.Clashes b.list p d ∧ g.hoist x b d = g.place b x d) ∨
        ∃ r, Scopes.Misses g.nameHash (scopes b.list) (g.nameHash d) p r ∧
          g.hoist x b d = g.place b r d)) ∨
      ((scopes b.list).parent x = none ∧ g.hoist x b d = g.place b x d) := by
  have hget : b.list[x]? = some b.list[x] := getElem?_eq_getElem hx
  have hparent : (scopes b.list).parent x = b.list[x].parent := by
    rw [parent_scopes, hget, bind_some]
  obtain ⟨fuel, hfuel⟩ : ∃ fuel, b.list.length = fuel + 1 := ⟨b.list.length - 1, by omega⟩
  have hresult : g.hoistDependency b.list d true b.list.length x =
      b.list[x].parent.elim (.placement x) fun parent =>
        if g.hoistDependency b.list d false fuel parent = .dependencyLoop then .placement x
        else g.hoistDependency b.list d false fuel parent := by
    rw [hfuel, hoistDependency, hget]
    simp only [placed_eq_own hget, hown]
    cases b.list[x].parent with
    | none => rfl
    | some p => simp
  cases hp : b.list[x].parent with
  | none =>
    rw [hp, elim_none] at hresult
    exact .inr ⟨hparent.trans hp, by rw [hoist, hresult]⟩
  | some p =>
    rw [hp, elim_some] at hresult
    have hlt : p < x := hs x p (hparent.trans hp)
    obtain ⟨hfinds, hmisses⟩ := hoistDependency_above (g := g) (d := d) hs fuel p
      (hlt.trans hx) (by omega)
    refine .inl ⟨p, hparent.trans hp, ?_⟩
    rcases Scopes.finds_or_misses g.nameHash hs (g.nameHash d) p with
      ⟨row, hrow⟩ | ⟨r, hr⟩
    · by_cases hsame : g.resolution row = g.resolution d
      · rw [hfinds row hrow, if_pos hsame] at hresult
        exact .inl ⟨⟨row, hrow, hsame⟩, by rw [hoist, hresult]; rfl⟩
      · rw [hfinds row hrow, if_neg hsame] at hresult
        exact .inr (.inl ⟨⟨row, hrow, hsame⟩, by rw [hoist, hresult]; rfl⟩)
    · rw [hmisses r hr] at hresult
      exact .inr (.inr ⟨r, hr, by rw [hoist, hresult]; rfl⟩)

/-! ### One more row -/

theorem length_place : (g.place b r d).list.length = b.list.length := length_modify ..

theorem depAt_place : depAt (g.place b r d).list i = depAt b.list i := by
  rw [depAt, depAt, place, getElem?_modify]
  split
  · cases b.list[i]? <;> rfl
  · cases b.list[i]? <;> rfl

theorem scopes_place (hr : r < b.list.length) :
    scopes (g.place b r d).list = (scopes b.list).push r d := by
  have hparent : (scopes (g.place b r d).list).parent = ((scopes b.list).push r d).parent := by
    funext i
    show (scopes (g.place b r d).list).parent i = (scopes b.list).parent i
    rw [parent_scopes, parent_scopes, place, getElem?_modify]
    split
    · cases b.list[i]? <;> rfl
    · cases b.list[i]? <;> rfl
  have hrows : (scopes (g.place b r d).list).rows = ((scopes b.list).push r d).rows := by
    funext i
    by_cases hi : i = r
    · subst hi
      rw [Scopes.rows_push_self, rows_scopes, rows_scopes, place, getElem?_modify,
        getElem?_eq_getElem hr]
      simp
    · rw [Scopes.rows_push_ne hi, rows_scopes, rows_scopes, place,
        getElem?_modify_ne _ _ (fun h => hi h.symm)]
  exact Scopes.ext hparent hrows

theorem mem_queue_place {item : FillItem} : item ∈ (g.place b r d).queue ↔
    item ∈ b.queue ∨ g.resolutionList (g.resolution d) ≠ [] ∧
      item = { treeId := r, dependencyId := d } := by
  rw [place]
  split
  next h =>
    simp [h]
  next h =>
    simp [h]

/-! ### Trees, rows and the queue -/

/-- What holds of the trees and the queue, wherever the rows are. -/
structure Forest (g : Graph) (b : Builder) : Prop where
  root : ∀ i < b.list.length, (scopes b.list).parent i = none → i = 0 ∧ depAt b.list i = none
  /-- A tree is for a row of the tree above, whose package has dependencies. -/
  below : ∀ i p, (scopes b.list).parent i = some p → p < i ∧
    ∃ d, depAt b.list i = some d ∧ d ∈ (scopes b.list).rows p ∧
      g.resolutionList (g.resolution d) ≠ []
  /-- A row has one tree. -/
  unique : ∀ i j p, (scopes b.list).parent i = some p → (scopes b.list).parent j = some p →
    depAt b.list i = depAt b.list j → i = j
  names : ∀ i, (((scopes b.list).rows i).map g.nameHash).Nodup
  range : ∀ i, ∀ d ∈ (scopes b.list).rows i, d < g.dependencies.length
  queued : ∀ item ∈ b.queue, item.dependencyId ∈ (scopes b.list).rows item.treeId ∧
    g.resolutionList (g.resolution item.dependencyId) ≠ [] ∧
    ∀ i, (scopes b.list).parent i = some item.treeId → depAt b.list i ≠ some item.dependencyId
  nodup : b.queue.Nodup

namespace Forest

variable (h : g.Forest b)

include h

theorem grounded : (scopes b.list).Grounded := fun i p hp => (h.below i p hp).1

/-- A lookup that misses ends at the topmost tree. -/
theorem misses_eq {n : UInt64} (hi : i < b.list.length)
    (hm : Scopes.Misses g.nameHash (scopes b.list) n i r) : r = 0 := by
  obtain ⟨hle, hroot, -⟩ := hm.root_spec h.grounded
  exact (h.root r (by omega) hroot).1

theorem place (hr : r < b.list.length)
    (hown : (scopes b.list).own g.nameHash r (g.nameHash d) = none)
    (hd : d < g.dependencies.length) : g.Forest (g.place b r d) := by
  have hnot : d ∉ (scopes b.list).rows r := fun hmem => Scopes.own_eq_none.1 hown d hmem rfl
  have hrows : ∀ {i e}, e ∈ (scopes b.list).rows i → e ∈ ((scopes b.list).push r d).rows i := by
    intro i e he
    by_cases hi : i = r
    · subst hi
      rw [Scopes.rows_push_self]
      exact mem_append_left _ he
    · rwa [Scopes.rows_push_ne hi]
  refine ⟨?_, ?_, ?_, ?_, ?_, ?_, ?_⟩
  · rw [length_place, scopes_place hr]
    intro i hi hparent
    rw [depAt_place]
    exact h.root i hi hparent
  · rw [scopes_place hr]
    intro i p hparent
    obtain ⟨hlt, e, he, hmem, hdeps⟩ := h.below i p hparent
    exact ⟨hlt, e, by rw [depAt_place, he], hrows hmem, hdeps⟩
  · rw [scopes_place hr]
    intro i j p hi hj hdep
    rw [depAt_place, depAt_place] at hdep
    exact h.unique i j p hi hj hdep
  · rw [scopes_place hr]
    intro i
    by_cases hi : i = r
    · subst hi
      rw [Scopes.rows_push_self, map_append, nodup_append]
      refine ⟨h.names i, by simp, ?_⟩
      rintro _ hname _ hname' rfl
      obtain ⟨e, he, heq⟩ := mem_map.1 hname
      rw [map_singleton, mem_singleton] at hname'
      exact Scopes.own_eq_none.1 hown e he (heq.trans hname')
    · rw [Scopes.rows_push_ne hi]
      exact h.names i
  · rw [scopes_place hr]
    intro i e he
    by_cases hi : i = r
    · subst hi
      rw [Scopes.rows_push_self] at he
      rcases mem_append.1 he with he | he
      · exact h.range i e he
      · rwa [mem_singleton.1 he]
    · rw [Scopes.rows_push_ne hi] at he
      exact h.range i e he
  · rw [scopes_place hr]
    intro item hitem
    rcases mem_queue_place.1 hitem with hitem | ⟨hdeps, rfl⟩
    · obtain ⟨hmem, hdeps, hnone⟩ := h.queued item hitem
      refine ⟨hrows hmem, hdeps, fun i hparent => ?_⟩
      rw [depAt_place]
      exact hnone i hparent
    · refine ⟨by rw [Scopes.rows_push_self]; simp, hdeps, fun i hparent hdep => ?_⟩
      rw [depAt_place] at hdep
      obtain ⟨-, e, he, hmem, -⟩ := h.below i r hparent
      obtain rfl := some.inj (hdep.symm.trans he)
      exact hnot hmem
  · rw [Graph.place]
    split
    · exact h.nodup
    · refine nodup_append.2 ⟨h.nodup, by simp, ?_⟩
      rintro item hitem _ hitem' rfl
      rw [mem_singleton] at hitem'
      subst hitem'
      exact hnot (h.queued _ hitem).1

end Forest

end Graph

end Soup.Install
