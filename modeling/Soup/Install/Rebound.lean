import Soup.Install.Rebind

/-!
# No edge is left out of range

What `rebind` leaves: every edge that a range speaks for and that is bound to a registry package is
in range (`InRange`), up to a case that `LeftForAnotherName` names. The loop visits every edge once
and a visit moves its own edge only, so the visit of an edge says what is true of it at the end;
and an edge that is bound to a package it accepts never moves (`foldl_visit_of_accepts`), which is
what an edge that shares its folder relies on.
-/

namespace Soup.Install

open Soup.Semver List Option

namespace Lockfile

variable (lockfile : Lockfile)

/-- What holds of a lockfile that the loader built: a dependency belongs to one package, every
registry package is in the index under its name, and a package id is no `invalid_package_id`. -/
structure Loaded (stringHash : Bytes → UInt64) : Prop where
  nodup : (lockfile.edges.map Prod.snd).Nodup
  indexed : ∀ package name, (lockfile.packages[package]?.any fun pkg => pkg.name == name) = true →
    (lockfile.versionOf package).isSome = true →
    package ∈ lockfile.packageIndex (stringHash name)
  length_le : lockfile.packages.length ≤ invalidPackageId

/-- The target of an edge has the name of a range and its version satisfies it. -/
def Fits (range : NpmInfo) (target : ℕ) : Prop :=
  lockfile.isNamed target range = true ∧ lockfile.takes range target = true

/-- Another dependency of the same owner and name that is bound to the same package and accepts
it. -/
def SharedInRange (resolutions : List ℕ) (edge : Package × ℕ) (dep : Dependency) (target : ℕ) :
    Prop :=
  ∃ sibling ∈ edge.1.dependencies, ∃ other range, sibling ≠ edge.2 ∧
    lockfile.dependencies[sibling]? = some other ∧ other.nameHash = dep.nameHash ∧
    resolutions[sibling]? = some target ∧ lockfile.rangeOf sibling other = some range ∧
    lockfile.Fits range target

/-- No package of the graph fits a range. -/
def NoneFits (range : NpmInfo) : Prop := ∀ package, ¬lockfile.Fits range package

/-- An edge is in range, as the documentation of the merge has it. -/
def InRange (resolutions : List ℕ) (edge : Package × ℕ) : Prop :=
  ∀ dep range target, lockfile.dependencies[edge.2]? = some dep →
    lockfile.rangeOf edge.2 dep = some range → resolutions[edge.2]? = some target →
    (lockfile.versionOf target).isSome = true →
    lockfile.Fits range target ∨ (∃ other ∈ lockfile.followed dep, lockfile.Fits other target) ∨
      lockfile.SharedInRange resolutions edge dep target ∨
      (dep.behavior.isOptional = true ∧ lockfile.NoneFits range)

section Rebind

variable (stringHash : Bytes → UInt64) (spares : List Spare)

/-- The resolutions at the turn of a dependency. -/
def resolutionsAt (depId : ℕ) : List ℕ :=
  (lockfile.edges.takeWhile fun edge => edge.2 ≠ depId).foldl (lockfile.visit stringHash spares)
    lockfile.resolutions

/-- At its turn an edge was left alone for rows that share its folder, and those whose range takes
the version ask for a package of another name. -/
def LeftForAnotherName (edge : Package × ℕ) : Prop :=
  ∃ dep target, lockfile.dependencies[edge.2]? = some dep ∧
    (lockfile.resolutionsAt stringHash spares edge.2)[edge.2]? = some target ∧
    (∃ sibling ∈ edge.1.dependencies,
      lockfile.shares (lockfile.resolutionsAt stringHash spares edge.2) dep edge.2 target
        sibling = true) ∧
    ∀ sibling ∈ edge.1.dependencies,
      lockfile.shares (lockfile.resolutionsAt stringHash spares edge.2) dep edge.2 target
        sibling = true →
      ∀ other range, lockfile.dependencies[sibling]? = some other →
        lockfile.rangeOf sibling other = some range → lockfile.isNamed target range = false

/-- What `rebind` leaves of an edge: it is in range, or it is optional and which alias it is to
follow is for the resolver to say, or it was left alone for a row that asks for another package. -/
def LeavesInRange (edge : Package × ℕ) : Prop :=
  ∀ dep range target, lockfile.dependencies[edge.2]? = some dep →
    lockfile.rangeOf edge.2 dep = some range →
    (lockfile.rebind stringHash spares)[edge.2]? = some target →
    (lockfile.versionOf target).isSome = true →
    lockfile.Fits range target ∨ (∃ other ∈ lockfile.followed dep, lockfile.Fits other target) ∨
      lockfile.SharedInRange (lockfile.rebind stringHash spares) edge dep target ∨
      (dep.behavior.isOptional = true ∧
        (lockfile.followed dep ≠ [] ∨ lockfile.NoneFits range)) ∨
      lockfile.LeftForAnotherName stringHash spares edge

end Rebind

/-! ## One visit -/

variable {lockfile} {stringHash : Bytes → UInt64} {spares : List Spare} {resolutions : List ℕ}
  {edge : Package × ℕ} {dep : Dependency} {target i : ℕ} {range : NpmInfo}

theorem versionOf_eq_some {version : Version} : lockfile.versionOf target = some version ↔
    ∃ package, lockfile.packages[target]? = some package ∧ package.resolution = .npm version := by
  unfold versionOf
  split
  next name v first last hpackage =>
    simp [hpackage]
  next hnot =>
    constructor
    · intro h
      cases h
    · rintro ⟨package, hpackage, hresolution⟩
      refine (hnot package.name version package.first package.last ?_).elim
      rw [hpackage, ← hresolution]

/-- What `accepts` says of a registry package. -/
theorem accepts_npm (hrange : lockfile.rangeOf i dep = some range)
    (hversion : (lockfile.versionOf target).isSome = true) :
    lockfile.accepts i dep target =
      some (lockfile.isNamed target range && lockfile.takes range target) := by
  obtain ⟨version, hversion⟩ := isSome_iff_exists.1 hversion
  obtain ⟨package, hpackage, hresolution⟩ := versionOf_eq_some.1 hversion
  rw [accepts, hrange]
  simp only [hpackage, map_some, hresolution]

theorem isSome_versionOf_of_takes (h : lockfile.takes range target = true) :
    (lockfile.versionOf target).isSome = true := by
  obtain ⟨version, hversion, -⟩ := (Option.any_eq_true ..).1 h
  rw [hversion]
  rfl

theorem lt_length_of_versionOf (h : (lockfile.versionOf target).isSome = true) :
    target < lockfile.packages.length := by
  obtain ⟨version, hversion⟩ := isSome_iff_exists.1 h
  obtain ⟨package, hpackage, -⟩ := versionOf_eq_some.1 hversion
  exact (List.getElem?_eq_some_iff.1 hpackage).1

/-! ## Finding a package -/

theorem foldl_laterOf_mem (first : ℕ) : ∀ rest : List ℕ,
    rest.foldl lockfile.laterOf first ∈ first :: rest
  | [] => mem_singleton_self _
  | next :: rest => by
    have hpick : lockfile.laterOf first next = first ∨ lockfile.laterOf first next = next := by
      unfold laterOf
      split
      · split
        · exact .inl rfl
        · exact .inr rfl
      · exact .inr rfl
    have hrest := foldl_laterOf_mem (lockfile.laterOf first next) rest
    rw [foldl_cons]
    rcases mem_cons.1 hrest with h | h
    · rw [h]
      rcases hpick with hpick | hpick <;> simp [hpick]
    · simp [h]

variable {packages : List ℕ} {package : ℕ}

theorem maxByVersion_mem (h : lockfile.maxByVersion packages = some package) :
    package ∈ packages := by
  cases packages with
  | nil => cases h
  | cons first rest =>
    rw [← some.inj h]
    exact foldl_laterOf_mem first rest

theorem fits_of_highest (h : lockfile.highest range packages = some package) :
    lockfile.Fits range package := by
  have := (mem_filter.1 (maxByVersion_mem h)).2
  exact (Bool.and_eq_true ..).mp this

theorem not_fits_of_highest (h : lockfile.highest range packages = none)
    (hmem : package ∈ packages) : ¬lockfile.Fits range package := by
  rintro ⟨hnamed, htakes⟩
  have hfilter : package ∈ packages.filter fun package =>
      lockfile.isNamed package range && lockfile.takes range package :=
    mem_filter.2 ⟨hmem, by rw [hnamed, htakes]; rfl⟩
  unfold highest at h
  cases hp : packages.filter fun package =>
      lockfile.isNamed package range && lockfile.takes range package with
  | nil =>
    rw [hp] at hfilter
    cases hfilter
  | cons first rest =>
    rw [hp] at h
    cases h

theorem move_getElem?_ne {t : Option ℕ} {d : ℕ} (h : i ≠ d) :
    (lockfile.move stringHash spares resolutions d dep t)[i]? = resolutions[i]? := by
  unfold move
  split
  · exact getElem?_set_ne h.symm
  · split
    · rfl
    · exact getElem?_set_ne h.symm

/-- A visit moves no other edge. -/
theorem visit_getElem?_ne (h : i ≠ edge.2) :
    (lockfile.visit stringHash spares resolutions edge)[i]? = resolutions[i]? := by
  unfold visit
  split
  · split
    · split
      · rfl
      · split
        · rfl
        · split
          · rfl
          · exact move_getElem?_ne h
    · split
      · rfl
      · exact move_getElem?_ne h
  · rfl

theorem foldl_visit_getElem?_of_not_mem (es : List (Package × ℕ)) (h : i ∉ es.map Prod.snd) :
    (es.foldl (lockfile.visit stringHash spares) resolutions)[i]? = resolutions[i]? := by
  induction es generalizing resolutions with
  | nil => rfl
  | cons e es ih =>
    rw [map_cons, mem_cons, not_or] at h
    rw [foldl_cons, ih h.2, visit_getElem?_ne h.1]

/-- An edge stays at a package that it accepts. -/
theorem foldl_visit_of_accepts (es : List (Package × ℕ))
    (hdep : lockfile.dependencies[i]? = some dep) (hat : resolutions[i]? = some target)
    (hlt : target < lockfile.packages.length) (h : lockfile.accepts i dep target = some true) :
    (es.foldl (lockfile.visit stringHash spares) resolutions)[i]? = some target := by
  induction es generalizing resolutions with
  | nil => exact hat
  | cons e es ih =>
    rw [foldl_cons]
    refine ih ?_
    by_cases hi : i = e.2
    · subst hi
      rw [visit, hdep, hat]
      simp only [hlt, if_true, h, Bool.true_or]
      exact hat
    · rw [visit_getElem?_ne hi, hat]

variable (spares) in
/-- What the package for an edge is, and why there is none. -/
theorem acceptingPackage_spec (hloaded : lockfile.Loaded stringHash)
    (hrange : lockfile.rangeOf i dep = some range) (t : Option ℕ) :
    match lockfile.acceptingPackage stringHash spares i dep t with
    | some package => lockfile.Fits range package
    | none => lockfile.followed dep ≠ [] ∨ lockfile.NoneFits range := by
  split
  next package h =>
    unfold acceptingPackage at h
    split at h
    · cases h
    · rw [hrange] at h
      rcases or_eq_some_iff.1 h with h | ⟨-, h⟩
      · obtain ⟨target, -, h⟩ := bind_eq_some_iff.1 h
        exact fits_of_highest h
      · exact fits_of_highest h
  next h =>
    unfold acceptingPackage at h
    split at h
    next hfollowed =>
      exact .inl hfollowed
    · rw [hrange] at h
      refine .inr fun package hfits => ?_
      have hindex := (or_eq_none_iff.1 h).2
      exact not_fits_of_highest hindex (hloaded.indexed package range.name hfits.1
        (isSome_versionOf_of_takes hfits.2)) hfits

/-! ## The visit of an edge -/

theorem eq_of_set {d a : ℕ} (h : (resolutions.set d a)[d]? = some target) : target = a := by
  have hlt : d < resolutions.length := by
    have := (List.getElem?_eq_some_iff.1 h).1
    rwa [length_set] at this
  rw [getElem?_set_self hlt] at h
  exact (some.inj h).symm

/-- Why the target of an edge is left at its turn: it fits, an alias does, a row that shares its
folder takes it, or nothing serves the edge and it is optional. -/
def LeftAt (lockfile : Lockfile) (resolutions : List ℕ) (edge : Package × ℕ) (dep : Dependency)
    (range : NpmInfo) (target : ℕ) : Prop :=
  lockfile.Fits range target ∨ (∃ other ∈ lockfile.followed dep, lockfile.Fits other target) ∨
    (resolutions[edge.2]? = some target ∧ ∃ sibling ∈ edge.1.dependencies,
      lockfile.shares resolutions dep edge.2 target sibling = true) ∨
    (dep.behavior.isOptional = true ∧ (lockfile.followed dep ≠ [] ∨ lockfile.NoneFits range))

theorem move_spec (hloaded : lockfile.Loaded stringHash)
    (hrange : lockfile.rangeOf edge.2 dep = some range) (t : Option ℕ)
    (hafter : (lockfile.move stringHash spares resolutions edge.2 dep t)[edge.2]? = some target)
    (hversion : (lockfile.versionOf target).isSome = true) :
    lockfile.LeftAt resolutions edge dep range target := by
  have hspec := acceptingPackage_spec spares hloaded hrange t
  unfold move at hafter
  split at hafter
  next package haccepting =>
    rw [haccepting] at hspec
    rw [eq_of_set hafter]
    exact .inl hspec
  next haccepting =>
    rw [haccepting] at hspec
    split at hafter
    next hoptional =>
      exact .inr (.inr (.inr ⟨hoptional, hspec⟩))
    · have hlt := lt_length_of_versionOf hversion
      rw [eq_of_set hafter] at hlt
      exact absurd hlt (not_lt.2 hloaded.length_le)

theorem visit_spec (hloaded : lockfile.Loaded stringHash)
    (hdep : lockfile.dependencies[edge.2]? = some dep)
    (hrange : lockfile.rangeOf edge.2 dep = some range)
    (hafter : (lockfile.visit stringHash spares resolutions edge)[edge.2]? = some target)
    (hversion : (lockfile.versionOf target).isSome = true) :
    lockfile.LeftAt resolutions edge dep range target := by
  have hmove : ∀ t, (lockfile.move stringHash spares resolutions edge.2 dep t)[edge.2]? =
      some target → lockfile.LeftAt resolutions edge dep range target :=
    fun t h => move_spec hloaded hrange t h hversion
  cases hbefore : resolutions[edge.2]? with
  | none =>
    rw [visit, hdep, hbefore] at hafter
    rw [hbefore] at hafter
    cases hafter
  | some before =>
    rw [visit, hdep, hbefore] at hafter
    simp only at hafter
    split at hafter
    next hbound =>
      split at hafter
      · -- A range and the package say nothing: it is no registry package.
        rename_i haccepts
        obtain rfl := some.inj (hbefore.symm.trans hafter)
        rw [accepts_npm hrange hversion] at haccepts
        cases haccepts
      next accepted haccepts =>
        split at hafter
        next hkeep =>
          obtain rfl := some.inj (hbefore.symm.trans hafter)
          rw [accepts_npm hrange hversion] at haccepts
          rcases (Bool.or_eq_true ..).mp hkeep with hkeep | hkeep
          · rw [← some.inj haccepts] at hkeep
            exact .inl ((Bool.and_eq_true ..).mp hkeep)
          · obtain ⟨other, hother, hfits⟩ := any_eq_true.1 hkeep
            exact .inr (.inl ⟨other, hother, (Bool.and_eq_true ..).mp hfits⟩)
        · split at hafter
          next hshared =>
            obtain rfl := some.inj (hbefore.symm.trans hafter)
            obtain ⟨sibling, hsibling, hshares⟩ := any_eq_true.1 hshared
            exact .inr (.inr (.inl ⟨hbefore, sibling, hsibling, hshares⟩))
          · exact hmove _ hafter
    · split at hafter
      next hbound _ =>
        obtain rfl := some.inj (hbefore.symm.trans hafter)
        exact absurd (lt_length_of_versionOf hversion) hbound
      · exact hmove _ hafter

/-! ## The whole run -/

theorem shares_spec {sibling : ℕ} {d : ℕ}
    (h : lockfile.shares resolutions dep d target sibling = true) :
    ∃ other range, lockfile.dependencies[sibling]? = some other ∧ sibling ≠ d ∧
      other.nameHash = dep.nameHash ∧ resolutions[sibling]? = some target ∧
      lockfile.rangeOf sibling other = some range ∧ lockfile.takes range target = true := by
  unfold shares at h
  split at h
  · cases h
  next other hother =>
    simp only [Bool.and_eq_true, bne_iff_ne, ne_eq, beq_iff_eq, Option.any_eq_true] at h
    obtain ⟨⟨⟨hne, hhash⟩, hat⟩, range, hrange, htakes⟩ := h
    exact ⟨other, range, hother, hne, hhash, hat, hrange, htakes⟩

variable (spares) in
/-- The run of `rebind`, cut at the turn of an edge. -/
theorem rebind_split (hloaded : lockfile.Loaded stringHash) (hedge : edge ∈ lockfile.edges) :
    ∃ after : List (Package × ℕ), lockfile.rebind stringHash spares =
        after.foldl (lockfile.visit stringHash spares)
          (lockfile.visit stringHash spares
            (lockfile.resolutionsAt stringHash spares edge.2) edge) ∧
      edge.2 ∉ after.map Prod.snd := by
  obtain ⟨before, after, hsplit⟩ := append_of_mem hedge
  have hnodup := hloaded.nodup
  rw [hsplit, map_append, map_cons, nodup_append] at hnodup
  obtain ⟨-, hafter, hbefore⟩ := hnodup
  have htake : lockfile.edges.takeWhile (fun e => e.2 ≠ edge.2) = before := by
    rw [hsplit, takeWhile_append_of_pos, takeWhile_cons_of_neg, append_nil]
    · simp
    · intro e he
      simpa using hbefore e.2 (mem_map_of_mem he) edge.2 (by simp)
  refine ⟨after, ?_, (nodup_cons.1 hafter).1⟩
  rw [resolutionsAt, htake, rebind, hsplit, foldl_append, foldl_cons]

/-- **Rebinding leaves no edge out of range**, apart from an optional edge that follows an alias,
and from one that was left alone for a row that asks for another package. -/
theorem rebind_leavesInRange (lockfile : Lockfile) (stringHash : Bytes → UInt64)
    (spares : List Spare) (hloaded : lockfile.Loaded stringHash) :
    ∀ edge ∈ lockfile.edges, lockfile.LeavesInRange stringHash spares edge := by
  intro edge hedge dep range target hdep hrange htarget hversion
  obtain ⟨after, hrebind, hnot⟩ := rebind_split spares hloaded hedge
  have hturn := htarget
  rw [hrebind, foldl_visit_getElem?_of_not_mem after hnot] at hturn
  rcases visit_spec hloaded hdep hrange hturn hversion with
    h | h | ⟨hat, sibling, hsibling, hshares⟩ | h
  · exact .inl h
  · exact .inr (.inl h)
  · by_cases hnamed : ∃ sibling ∈ edge.1.dependencies, ∃ other range,
        lockfile.shares (lockfile.resolutionsAt stringHash spares edge.2) dep edge.2 target
          sibling = true ∧ lockfile.dependencies[sibling]? = some other ∧
        lockfile.rangeOf sibling other = some range ∧ lockfile.isNamed target range = true
    · obtain ⟨sibling, hsibling, other, range, hshares, hother, hrange', hname⟩ := hnamed
      obtain ⟨other', range', hother', hne, hhash, hat', hrange'', htakes⟩ := shares_spec hshares
      obtain rfl := some.inj (hother.symm.trans hother')
      obtain rfl := some.inj (hrange'.symm.trans hrange'')
      -- The sibling accepts the package, so it is still there at the end.
      have haccepts : lockfile.accepts sibling other target = some true := by
        rw [accepts_npm hrange' hversion, hname, htakes]
        rfl
      have hstays : (lockfile.rebind stringHash spares)[sibling]? = some target := by
        rw [hrebind]
        refine foldl_visit_of_accepts after hother ?_ (lt_length_of_versionOf hversion) haccepts
        rw [visit_getElem?_ne hne, hat']
      exact .inr (.inr (.inl ⟨sibling, hsibling, other, range, hne, hother, hhash, hstays, hrange',
        hname, htakes⟩))
    · refine .inr (.inr (.inr (.inr ⟨dep, target, hdep, hat, ⟨sibling, hsibling, hshares⟩, ?_⟩)))
      intro sibling hsibling hshares other range hother hrange'
      rw [← Bool.not_eq_true]
      exact fun hname => hnamed ⟨sibling, hsibling, other, range, hshares, hother, hrange', hname⟩
  · exact .inr (.inr (.inr (.inl h)))

/-! ### Two lockfiles -/

/-- The registry packages by the hash of their name. -/
def indexByName (stringHash : Bytes → UInt64) (packages : List Package) (hash : UInt64) : List ℕ :=
  (List.range packages.length).filter fun i =>
    packages[i]?.any fun package => stringHash package.name == hash

theorem indexed_indexByName (h : lockfile.packageIndex = indexByName stringHash lockfile.packages)
    (package : ℕ) (name : Bytes)
    (hname : (lockfile.packages[package]?.any fun pkg => pkg.name == name) = true) :
    package ∈ lockfile.packageIndex (stringHash name) := by
  obtain ⟨pkg, hpkg, hname⟩ := (Option.any_eq_true ..).1 hname
  rw [h, indexByName, mem_filter, mem_range, hpkg]
  refine ⟨(List.getElem?_eq_some_iff.1 hpkg).1, ?_⟩
  rw [any_some, eq_of_beq hname, beq_self_eq_true]

/-- A hash of names. -/
def hashOf (name : Bytes) : UInt64 := name.foldl (fun hash c => hash * 31 + c.toUInt64) 7

/-- A dependency on a range, or on a range of another package under a name. -/
def dependencyOn (name realname range : Bytes) (behavior : Behavior) : Dependency where
  name
  nameHash := hashOf name
  version := .npm { name := realname, version := parse range, isAlias := name != realname }
  behavior

/-- The root depends on `foo` in a range, bound to a version above it, and a package next to one in
the range installs `bar` under the name. -/
def fooPackages : List Package :=
  [{ name := [], resolution := .root, first := 0, last := 1 },
    { name := text "foo", resolution := .npm { major := 3 }, first := 1, last := 1 },
    { name := text "foo", resolution := .npm { major := 1, minor := 5 }, first := 1, last := 1 },
    { name := text "app", resolution := .npm { major := 1 }, first := 1, last := 2 },
    { name := text "bar", resolution := .npm { major := 1, minor := 2 }, first := 2, last := 2 }]

def fooLockfile (behavior : Behavior) (second : Bytes) : Lockfile where
  packages := fooPackages
  dependencies := [dependencyOn (text "foo") (text "foo") (text "^1.0.0") behavior,
    dependencyOn second (text "bar") (text "^1.2.0") {}]
  resolutions := [1, 4]
  packageIndex := indexByName hashOf fooPackages

theorem loaded_fooLockfile (behavior : Behavior) (second : Bytes) :
    (fooLockfile behavior second).Loaded hashOf where
  nodup := by
    show (fooPackages.flatMap _ |>.map Prod.snd).Nodup
    decide
  indexed := fun package name hname _ => indexed_indexByName rfl package name hname
  length_le := by
    show fooPackages.length ≤ invalidPackageId
    decide

/-- The edge of the root moves to the version in its range. -/
theorem rebind_leavesInRange_foo :
    (fooLockfile {} (text "bar")).rebind hashOf [] = [2, 4] ∧
      ∀ edge ∈ (fooLockfile {} (text "bar")).edges,
        (fooLockfile {} (text "bar")).LeavesInRange hashOf [] edge :=
  ⟨by decide +kernel, rebind_leavesInRange (fooLockfile {} (text "bar")) hashOf []
    (loaded_fooLockfile {} (text "bar"))⟩

/-- An optional edge that follows the alias of another package stays at a version out of its range,
next to one that fits. -/
theorem not_inRange_of_alias :
    (fooLockfile { optional := true } (text "foo")).Loaded hashOf ∧
      ¬∀ edge ∈ (fooLockfile { optional := true } (text "foo")).edges,
        (fooLockfile { optional := true } (text "foo")).InRange
          ((fooLockfile { optional := true } (text "foo")).rebind hashOf []) edge := by
  refine ⟨loaded_fooLockfile _ _, fun h => ?_⟩
  have hedge : (fooPackages[0], 0) ∈
      (fooLockfile { optional := true } (text "foo")).edges := mem_flatMap.2
    ⟨fooPackages[0], mem_cons_self .., mem_map_of_mem (by decide)⟩
  rcases h (fooPackages[0], 0) hedge _ _ 1 rfl rfl (by decide +kernel) (by decide +kernel) with
    ⟨-, h⟩ | ⟨other, hother, hname, -⟩ | ⟨sibling, hsibling, other, range, hne, -⟩ | ⟨-, h⟩
  · revert h
    decide +kernel
  · have hnone : ((fooLockfile { optional := true } (text "foo")).followed
        (dependencyOn (text "foo") (text "foo") (text "^1.0.0") { optional := true })).all
          (fun other => !(fooLockfile { optional := true } (text "foo")).isNamed 1 other) =
            true := by
      decide +kernel
    have := all_eq_true.1 hnone other hother
    rw [hname] at this
    cases this
  · have honly : fooPackages[0].dependencies = [0] := rfl
    rw [honly] at hsibling
    exact hne (mem_singleton.1 hsibling)
  · exact h 2 ⟨by decide +kernel, by decide +kernel⟩

end Lockfile

end Soup.Install
