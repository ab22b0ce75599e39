import Soup.Install.Listed

/-!
# The union loses no package

The second loop of `Packages::collect` settles every path once: `assign` gives each document its
row (`Assigned`), and a document's row can keep the path only where the path above is kept by that
document's row (`Settled`). `build_union_keeps` puts this together with `write`: every package row
of a document is in the union for that document, at its own key or behind the prefix.
-/

namespace Soup.Install

open Soup.Semver Soup.Lib List

/-! ## Assigning rows -/

namespace PackagePath

variable {path path' : PackagePath} {side s : Side} {i : ℕ}

/-- Each document that lists a row has one, and every row that is listed belongs to a document. -/
structure Assigned (path : PackagePath) : Prop where
  lists : ∀ {side i}, path.rows side = some i → path.lists side i = true
  total : ∀ {side i}, path.lists side i = true → ∃ j, path.rows side = some j
  covered : ∀ {i}, i < path.listed.length → ∃ side, path.rows side = some i
  /-- A row that a document lists and that is not its row is the other one's, and its own row is
  not listed by the other one. -/
  own : ∀ {side i}, path.lists side i = true → path.rows side ≠ some i →
    path.rows side.other = some i ∧ ∃ j, path.rows side = some j ∧ path.lists side.other j = false

theorem lt_of_lists (h : path.lists side i = true) : i < path.listed.length := by
  by_contra hi
  rw [lists, getElem?_eq_none (not_lt.1 hi)] at h
  cases h

theorem mem_own :
    i ∈ path.own side ↔ path.lists side i = true ∧ path.lists side.other i = false := by
  simp only [own, mem_filter, mem_range, Bool.and_eq_true, Bool.not_eq_true']
  exact ⟨fun h => h.2, fun h => ⟨lt_of_lists h.1, h⟩⟩

theorem findIdx?_lists (h : path.listed.findIdx? (fun known => known.2 side) = some i) :
    path.lists side i = true ∧ ∀ j < i, path.lists side j = false := by
  obtain ⟨hi, hat, hbefore⟩ := findIdx?_eq_some_iff_getElem.1 h
  refine ⟨by simp [lists, hi, hat], fun j hj => ?_⟩
  have := hbefore j hj
  simp [lists, lt_trans hj hi, this]

theorem findIdx?_isSome (h : path.lists side i = true) :
    ∃ j, path.listed.findIdx? (fun known => known.2 side) = some j := by
  have hi := lt_of_lists h
  rw [lists, getElem?_eq_getElem hi] at h
  refine Option.isSome_iff_exists.1 ?_
  rw [List.findIdx?_isSome, any_eq_true]
  exact ⟨path.listed[i], getElem_mem hi, h⟩

variable {row : Option ℕ}

section

variable (h : path.assignSide side = .ok row)
include h

/-- What a document's row is: the only one it does not share, or the first it lists. -/
theorem assignSide_spec :
    (∃ i, path.own side = [i] ∧ row = some i) ∨
      (path.own side = [] ∧ row = path.listed.findIdx? fun known => known.2 side) := by
  unfold assignSide at h
  split at h
  next i hown =>
    cases h
    exact .inl ⟨i, hown, rfl⟩
  next hown =>
    cases h
    exact .inr ⟨hown, rfl⟩
  · cases h

theorem assignSide_lists (hrow : row = some i) : path.lists side i = true := by
  rcases assignSide_spec h with ⟨j, hown, rfl⟩ | ⟨-, rfl⟩
  · obtain rfl := Option.some.inj hrow
    exact (mem_own.1 (by rw [hown]; simp)).1
  · exact (findIdx?_lists hrow).1

theorem assignSide_total (hi : path.lists side i = true) : ∃ j, row = some j := by
  rcases assignSide_spec h with ⟨j, -, rfl⟩ | ⟨-, rfl⟩
  · exact ⟨j, rfl⟩
  · exact findIdx?_isSome hi

end

/-- A document without a row of its own lists only rows that the other one lists as well. -/
theorem lists_other (h : path.own side = []) (hi : path.lists side i = true) :
    path.lists side.other i = true := by
  by_contra hother
  have : i ∈ path.own side := mem_own.2 ⟨hi, Bool.eq_false_iff.2 hother⟩
  rw [h] at this
  cases this

/-- A row that a document shares and that is not its row: the document has one of its own. -/
theorem assignSide_own {row row' : Option ℕ} (h : path.assignSide side = .ok row)
    (h' : path.assignSide side.other = .ok row') (hi : path.lists side i = true)
    (hne : row ≠ some i) (hother : row' = some i) :
    ∃ j, row = some j ∧ path.lists side.other j = false := by
  rcases assignSide_spec h with ⟨j, hown, rfl⟩ | ⟨hown, rfl⟩
  · exact ⟨j, rfl, (mem_own.1 (by rw [hown]; simp : j ∈ path.own side)).2⟩
  · exfalso
    have hback : side.other.other = side := by cases side <;> rfl
    rcases assignSide_spec h' with ⟨j, hown', rfl⟩ | ⟨hown', rfl⟩
    · obtain rfl := Option.some.inj hother
      have := (mem_own.1 (by rw [hown']; simp : j ∈ path.own side.other)).2
      rw [hback, hi] at this
      cases this
    · obtain ⟨j, hj⟩ := findIdx?_isSome hi
      have hlists := findIdx?_lists hj
      have hlists' := findIdx?_lists hother
      have hle : ¬j < i := fun hlt => by
        have := lists_other hown hlists.1
        rw [hlists'.2 j hlt] at this
        cases this
      have hge : ¬i < j := fun hlt => by
        rw [hlists.2 i hlt] at hi
        cases hi
      exact hne (by rw [hj, le_antisymm (not_lt.1 hge) (not_lt.1 hle)])

theorem assign_spec (h : path.assign = .ok path') :
    path'.key = path.key ∧ path'.listed = path.listed ∧ Assigned path' := by
  obtain ⟨ours, hours, h⟩ := bind_eq_ok h
  obtain ⟨theirs, htheirs, h⟩ := bind_eq_ok h
  split at h
  · cases h
  rename_i hall
  have hpath := Except.ok.inj h
  have hkey : path'.key = path.key := hpath ▸ rfl
  have hlisted : path'.listed = path.listed := hpath ▸ rfl
  have hrow : path'.rows .ours = ours := hpath ▸ rfl
  have hrow' : path'.rows .theirs = theirs := hpath ▸ rfl
  have hassign : path'.assignSide = path.assignSide := hpath ▸ rfl
  have hside : ∀ side, path'.assignSide side = .ok (path'.rows side) := fun side => by
    rw [hassign]
    cases side
    · exact hours.trans (congrArg Except.ok hrow.symm)
    · exact htheirs.trans (congrArg Except.ok hrow'.symm)
  have hcovered : ∀ i < path'.listed.length, path'.rows .ours = some i ∨
      path'.rows .theirs = some i :=
    fun i hi => by
    rw [hrow, hrow']
    rw [hlisted] at hi
    by_contra hnot
    rw [not_or] at hnot
    exact hall (any_eq_true.2 ⟨i, mem_range.2 hi, by simpa using hnot⟩)
  refine ⟨hkey, hlisted, fun hrow => assignSide_lists (hside _) hrow,
    fun hi => assignSide_total (hside _) hi, fun {i} hi => ?_, fun {side i} hi hne => ?_⟩
  · rcases hcovered i hi with h | h
    · exact ⟨.ours, h⟩
    · exact ⟨.theirs, h⟩
  · have hother : path'.rows side.other = some i := by
      have := hcovered i (lt_of_lists hi)
      cases side
      · exact this.resolve_left hne
      · exact this.resolve_right hne
    exact ⟨hother, assignSide_own (hside _) (hside _) hi hne hother⟩

/-! ## Deciding who keeps a path -/

theorem decideKeeps_spec {workspaces : Workspaces}
    (h : path.decideKeeps workspaces = .ok (some side)) :
    ∃ row, path.candidate side = some row := by
  unfold decideKeeps at h
  split at h
  · have hfind := Except.ok.inj h
    have := find?_some hfind
    obtain ⟨row, hrow, -⟩ := (Option.any_eq_true ..).1 this
    exact ⟨row, hrow⟩
  · split at h
    · cases h
    next row hours htheirs =>
      cases h
      exact ⟨row, hours⟩
    next row hours htheirs =>
      cases h
      exact ⟨row, htheirs⟩
    next ours theirs hours htheirs =>
      have hboth : ∀ s, ∃ row, path.candidate s = some row := fun s => by
        cases s
        · exact ⟨ours, hours⟩
        · exact ⟨theirs, htheirs⟩
      exact hboth side

theorem keeps_of_isKept (h : path.isKept side = true) :
    path.fills side = true ∧ ∃ keeper, path.keeps = some keeper ∧
      (keeper = side ∨ path.common = true) := by
  obtain ⟨hfills, hkeeps⟩ := (Bool.and_eq_true ..).mp h
  obtain ⟨keeper, hkeeper, hside⟩ := (Option.any_eq_true ..).1 hkeeps
  refine ⟨hfills, keeper, hkeeper, ?_⟩
  simpa using hside

theorem rowOf_of_candidate {row : Row} (h : path.candidate side = some row) :
    path.rowOf side = some row := (Option.filter_eq_some_iff.1 h).1

/-- The row at the path is the row of each document that keeps it. -/
theorem kept_of_isKept (h : path.isKept side = true) : path.kept = path.rowOf side := by
  obtain ⟨-, keeper, hkeeper, rfl | hcommon⟩ := keeps_of_isKept h
  · rw [kept, hkeeper, Option.bind_some]
  · have hrows : path.rows .ours = path.rows .theirs := by
      simpa using ((Bool.and_eq_true ..).mp hcommon).2
    have hall : ∀ s, path.rows s = path.rows side := fun s => by
      cases s <;> cases side <;> first | rfl | exact hrows | exact hrows.symm
    rw [kept, hkeeper, Option.bind_some, rowOf, rowOf, hall keeper]

end PackagePath

/-! ## The second loop -/

namespace Packages

variable {paths paths' initial : List PackagePath} {todo : List ℕ} {i : ℕ}
  {workspaces : Workspaces}

theorem index_congr (h : paths.map PackagePath.key = paths'.map PackagePath.key) (key : Bytes) :
    index paths key = index paths' key := by
  have hmap : ∀ l : List PackagePath,
      index l key = (l.map PackagePath.key).findIdx? fun k => k == key := fun l => by
    rw [findIdx?_map]
    rfl
  rw [hmap, hmap, h]

/-- What is true between two rounds of the loop: the paths that are still to come keep nothing, and
a row keeps a path behind them only below a path that its document keeps. -/
structure Settled (initial paths : List PackagePath) (todo : List ℕ) : Prop where
  nodup : todo.Nodup
  contents : paths.map (fun path => (path.key, path.listed)) =
    initial.map fun path => (path.key, path.listed)
  waiting : ∀ {i path}, i ∈ todo → paths[i]? = some path → path.keeps = none
  assigned : ∀ {i path}, i ∉ todo → paths[i]? = some path → path.Assigned
  keeper : ∀ {i path side}, i ∉ todo → paths[i]? = some path → path.keeps = some side →
    ∃ row, path.candidate side = some row
  above : ∀ {i path side parent j}, i ∉ todo → paths[i]? = some path → path.isKept side = true →
    parentOf path.key = some parent → index paths parent = some j →
    ∃ above, paths[j]? = some above ∧ above.isKept side = true

/-- A path that is still to come is kept by nobody. -/
theorem Settled.isKept_false (h : Settled initial paths todo) {path : PackagePath} {side : Side}
    (hi : i ∈ todo) (hpath : paths[i]? = some path) : path.isKept side = false := by
  by_contra hkept
  obtain ⟨-, keeper, hkeeper, -⟩ := PackagePath.keeps_of_isKept (Bool.eq_true_of_not_eq_false hkept)
  rw [h.waiting hi hpath] at hkeeper
  cases hkeeper

/-- One round puts a path in the place of the one it was settled from. -/
theorem settle_spec {path : PackagePath} (hpath : paths[i]? = some path)
    (h : settle workspaces paths i = .ok paths') :
    ∃ settled, paths' = paths.set i settled ∧ settled.key = path.key ∧
      settled.listed = path.listed ∧ settled.Assigned ∧ settled.fills = fillsOf paths path.key ∧
      ∀ side, settled.keeps = some side → ∃ row, settled.candidate side = some row := by
  rw [settle, hpath] at h
  obtain ⟨assigned, hassign, h⟩ := bind_eq_ok h
  obtain ⟨hkey, hlisted, hassigned⟩ := PackagePath.assign_spec hassign
  obtain ⟨keeps, hkeeps, h⟩ := bind_eq_ok h
  cases h
  refine ⟨_, rfl, hkey, hlisted,
    ⟨hassigned.lists, hassigned.total, hassigned.covered, hassigned.own⟩, ?_, fun side hside => ?_⟩
  · show fillsOf paths assigned.key = _
    rw [hkey]
  · obtain rfl : keeps = some side := hside
    exact PackagePath.decideKeeps_spec hkeeps

theorem settle_settled (hstep : settle workspaces paths i = .ok paths')
    (h : Settled initial paths (i :: todo)) : Settled initial paths' todo := by
  obtain ⟨hi, hnodup⟩ := nodup_cons.1 h.nodup
  cases hpath : paths[i]? with
  | none =>
    rw [settle, hpath] at hstep
    cases hstep
    have hnot : ∀ {k path}, k ∉ todo → paths[k]? = some path → k ∉ i :: todo :=
      fun {k path} hk hpath' hmem => by
        rcases mem_cons.1 hmem with rfl | hmem
        · rw [hpath] at hpath'; cases hpath'
        · exact hk hmem
    exact ⟨hnodup, h.contents, fun hk => h.waiting (mem_cons_of_mem _ hk),
      fun hk hp => h.assigned (hnot hk hp) hp, fun hk hp => h.keeper (hnot hk hp) hp,
      fun hk hp => h.above (hnot hk hp) hp⟩
  | some path =>
    obtain ⟨settled, rfl, hkey, hlisted, hassigned, hfills, hkeeps⟩ := settle_spec hpath hstep
    have hlt := (List.getElem?_eq_some_iff.1 hpath).1
    have hself : (paths.set i settled)[i]? = some settled := getElem?_set_self hlt
    have hother : ∀ {k}, k ≠ i → (paths.set i settled)[k]? = paths[k]? :=
      fun hk => getElem?_set_ne (Ne.symm hk)
    have hcontents : (paths.set i settled).map (fun path => (path.key, path.listed)) =
        paths.map fun path => (path.key, path.listed) := by
      rw [map_set, hkey, hlisted]
      refine ext_getElem? fun k => ?_
      rw [getElem?_set]
      split
      next hk =>
        subst hk
        simp [hlt, (List.getElem?_eq_some_iff.1 hpath).2]
      · rfl
    have hkeys : (paths.set i settled).map PackagePath.key = paths.map PackagePath.key := by
      have := congrArg (map Prod.fst) hcontents
      rw [map_map, map_map] at this
      exact this
    -- A path above that is kept is not the one this round settles.
    have habove : ∀ {side j} {above : PackagePath}, paths[j]? = some above →
        above.isKept side = true → (paths.set i settled)[j]? = some above :=
      fun {side j above} hj hkept => by
        rw [hother, hj]
        rintro rfl
        rw [h.isKept_false (mem_cons_self ..) hj] at hkept
        cases hkept
    have hnot : ∀ {k}, k ∉ todo → k ≠ i → k ∉ i :: todo := fun hk hki hmem =>
      (mem_cons.1 hmem).elim hki hk
    refine ⟨hnodup, hcontents.trans h.contents, fun {k p} hk hp => ?_, fun {k p} hk hp => ?_,
      fun {k p s} hk hp hs => ?_, fun {k p s parent j} hk hp hkept hparent hj => ?_⟩
    · have hki : k ≠ i := fun hki => hi (hki ▸ hk)
      rw [hother hki] at hp
      exact h.waiting (mem_cons_of_mem _ hk) hp
    · by_cases hki : k = i
      · subst hki
        rw [hself] at hp
        exact Option.some.inj hp ▸ hassigned
      · rw [hother hki] at hp
        exact h.assigned (hnot hk hki) hp
    · by_cases hki : k = i
      · subst hki
        rw [hself] at hp
        obtain rfl := Option.some.inj hp
        exact hkeeps s hs
      · rw [hother hki] at hp
        exact h.keeper (hnot hk hki) hp hs
    · rw [index_congr hkeys] at hj
      by_cases hki : k = i
      · subst hki
        rw [hself] at hp
        obtain rfl := Option.some.inj hp
        obtain ⟨hfill, -⟩ := PackagePath.keeps_of_isKept hkept
        rw [hkey] at hparent
        rw [hfills, fillsOf, hparent, Option.bind_some, hj] at hfill
        obtain ⟨above, habv, hkept'⟩ := (Option.any_eq_true ..).1 hfill
        exact ⟨above, habove habv hkept', hkept'⟩
      · rw [hother hki] at hp
        obtain ⟨above, habv, hkept'⟩ := h.above (hnot hk hki) hp hkept hparent hj
        exact ⟨above, habove habv hkept', hkept'⟩

/-- The second loop of `Packages::collect` settles every path. -/
theorem run_settled (hundecided : ∀ path ∈ initial, path.keeps = none)
    (hrun : (order initial).foldlM (settle workspaces) initial = .ok paths) :
    Settled initial paths [] := by
  have hperm := perm_insertionSort
    (fun i j => keyLength initial i ≤ keyLength initial j) (range initial.length)
  have hmem : ∀ {i : ℕ}, i ∉ order initial → initial[i]? = none := fun hi => by
    refine getElem?_eq_none (not_lt.1 fun hlt => hi ?_)
    exact hperm.mem_iff.2 (mem_range.2 hlt)
  refine foldlM_invariant (fun todo paths => Settled initial paths todo)
    (fun i todo paths paths' hstep h => settle_settled hstep h) hrun ?_
  refine ⟨hperm.nodup_iff.2 nodup_range, rfl, fun {i path} _ hpath => ?_,
    fun hi hpath => ?_, fun hi hpath => ?_, fun hi hpath => ?_⟩
  · exact hundecided path (mem_of_getElem? hpath)
  all_goals
    rw [hmem hi] at hpath
    cases hpath

/-! ## Writing the rows -/

/-- The key that a document's row has in the union. -/
def keyFor (path : PackagePath) (side : Side) : Bytes :=
  if path.isKept side then path.key else side.keyPrefix ++ path.key

/-- No key stands behind the prefix of a side. A `:` is not valid in a dependency name. -/
def Unprefixed (paths : List PackagePath) : Prop :=
  ∀ path ∈ paths, ∀ side : Side, ¬side.keyPrefix <+: path.key

variable {packages : Packages} {path : PackagePath} {side : Side} {row : Row}

/-- The two prefixes are apart. -/
theorem keyPrefix_append_inj {s t : Side} {x y : Bytes} (h : s.keyPrefix ++ x = t.keyPrefix ++ y) :
    s = t ∧ x = y := by
  have hhead : (s.keyPrefix ++ x)[1]? = (t.keyPrefix ++ y)[1]? := congrArg (·[1]?) h
  have hst : s = t := by
    cases s <;> cases t
    · rfl
    · exact absurd (Option.some.inj hhead) (by decide)
    · exact absurd (Option.some.inj hhead) (by decide)
    · rfl
  subst hst
  exact ⟨rfl, append_cancel_left h⟩

theorem mem_sides (side : Side) : side ∈ Side.sides := by cases side <;> decide

variable {entry : Bytes × Row}

theorem mem_moved : entry ∈ moved path ↔
    ∃ side row, path.rowOf side = some row ∧ row.workspace = false ∧ path.isKept side = false ∧
      entry = (side.keyPrefix ++ path.key, row) := by
  simp only [moved, mem_filterMap, mem_sides, true_and, Option.map_eq_some_iff,
    Option.filter_eq_some_iff, Bool.and_eq_true, Bool.not_eq_true', and_assoc]
  simp only [eq_comm]

theorem mem_write : entry ∈ packages.write ↔
    (∃ path ∈ packages.paths, entry ∈ moved path) ∨
      ∃ path ∈ packages.paths, ∃ row, path.kept = some row ∧ entry = (path.key, row) := by
  simp only [write, mem_append, mem_flatMap, mem_filterMap, Option.map_eq_some_iff]
  simp only [eq_comm]

/-- The row of a document, under its key. -/
theorem mem_write_of_rowOf (hpath : path ∈ packages.paths) (hrow : path.rowOf side = some row)
    (hw : row.workspace = false) : (keyFor path side, row) ∈ packages.write := by
  rw [mem_write, keyFor]
  by_cases hkept : path.isKept side = true
  · rw [if_pos hkept]
    exact .inr ⟨path, hpath, row, by rw [PackagePath.kept_of_isKept hkept, hrow], rfl⟩
  · rw [if_neg hkept]
    exact .inl ⟨path, hpath, mem_moved.2 ⟨side, row, hrow, hw, Bool.eq_false_iff.2 hkept, rfl⟩⟩

/-- Nothing of a document stands behind its prefix where its row keeps the path. -/
theorem not_mem_keys_of_isKept (hkeys : (packages.paths.map PackagePath.key).Nodup)
    (hplain : Unprefixed packages.paths) (hpath : path ∈ packages.paths)
    (hkept : path.isKept side = true) :
    side.keyPrefix ++ path.key ∉ packages.write.map Prod.fst := by
  intro hmem
  obtain ⟨entry, hentry, hkey⟩ := mem_map.1 hmem
  rcases mem_write.1 hentry with ⟨other, hother, hmoved⟩ | ⟨other, hother, row, -, rfl⟩
  · obtain ⟨s, row, -, -, hnot, rfl⟩ := mem_moved.1 hmoved
    obtain ⟨rfl, hkeys'⟩ := keyPrefix_append_inj hkey
    obtain rfl := inj_on_of_nodup_map hkeys hother hpath hkeys'
    rw [hkept] at hnot
    cases hnot
  · exact hplain other hother side ⟨path.key, hkey.symm⟩

/-- The keys of what a filter takes over, each with the key it had. -/
theorem map_filterMap_sublist {α β γ : Type} {f : α → Option β} {k : β → γ} {g : α → γ}
    (h : ∀ a b, f a = some b → k b = g a) (l : List α) :
    ((l.filterMap f).map k).Sublist (l.map g) := by
  induction l with
  | nil => exact .slnil
  | cons a l ih =>
    rw [filterMap_cons, map_cons]
    split
    · exact ih.cons _
    next entry hentry =>
      rw [map_cons, h a entry hentry]
      exact ih.cons_cons _

theorem nodup_moved (path : PackagePath) : ((moved path).map Prod.fst).Nodup := by
  have hsub : ((moved path).map Prod.fst).Sublist
      (Side.sides.map fun side => side.keyPrefix ++ path.key) :=
    map_filterMap_sublist (fun side entry hentry => by
      obtain ⟨row, -, rfl⟩ := Option.map_eq_some_iff.1 hentry
      rfl) Side.sides
  refine hsub.nodup (List.Nodup.map_on (fun s _ t _ h => ?_) (by decide))
  exact (keyPrefix_append_inj h).1

/-- Every key of the union stands there once. -/
theorem nodup_write (hkeys : (packages.paths.map PackagePath.key).Nodup)
    (hplain : Unprefixed packages.paths) : (packages.write.map Prod.fst).Nodup := by
  have hkept : ((packages.paths.filterMap fun path =>
      path.kept.map fun row => (path.key, row)).map Prod.fst).Sublist
        (packages.paths.map PackagePath.key) :=
    map_filterMap_sublist (fun path entry hentry => by
      obtain ⟨row, -, rfl⟩ := Option.map_eq_some_iff.1 hentry
      rfl) packages.paths
  rw [write, map_append, nodup_append]
  refine ⟨?_, hkept.nodup hkeys, ?_⟩
  · rw [map_flatMap, nodup_flatMap]
    refine ⟨fun path _ => nodup_moved path, ?_⟩
    refine (pairwise_map.1 hkeys).imp fun hne key h h' => ?_
    obtain ⟨entry, hentry, rfl⟩ := mem_map.1 h
    obtain ⟨entry', hentry', hkey⟩ := mem_map.1 h'
    obtain ⟨s, row, -, -, -, rfl⟩ := mem_moved.1 hentry
    obtain ⟨s', row', -, -, -, rfl⟩ := mem_moved.1 hentry'
    exact hne (keyPrefix_append_inj hkey).2.symm
  · intro key hmoved key' hkept' hkey
    obtain ⟨entry, hentry, rfl⟩ := mem_map.1 hmoved
    obtain ⟨path, hpath, hentry⟩ := mem_flatMap.1 hentry
    obtain ⟨s, row, -, -, -, rfl⟩ := mem_moved.1 hentry
    obtain ⟨path', hpath', rfl⟩ := mem_map.1 (hkept.subset hkept')
    exact hplain path' hpath' s ⟨path.key, hkey⟩

/-! ## Keys -/

/-- The name of a package in a key. -/
inductive IsName : Bytes → Prop
  | plain {name : Bytes} (hslash : b '/' ∉ name) (hhead : name.head? ≠ some (b '@')) : IsName name
  | inScope {scope name : Bytes} (hscope : b '/' ∉ scope) (hslash : b '/' ∉ name)
      (hhead : name.head? ≠ some (b '@')) : IsName (b '@' :: scope ++ b '/' :: name)

/-- A key is a path of names. -/
inductive IsKey : Bytes → Prop
  | name {name : Bytes} (hname : IsName name) : IsKey name
  | step {key name : Bytes} (hkey : IsKey key) (hname : IsName name) : IsKey (key ++ b '/' :: name)

/-- The path of `key` is that of `parent` and one name more. -/
def Below (parent key : Bytes) : Prop :=
  IsKey parent ∧ ∃ name, IsName name ∧ key = parent ++ b '/' :: name

theorem splitAtLastSlash_append {x y : Bytes} (hy : b '/' ∉ y) :
    splitAtLastSlash (x ++ b '/' :: y) = some (x, y) := by
  have hcut : splitAtFirst (b '/') (y.reverse ++ b '/' :: x.reverse) =
      some (y.reverse, x.reverse) := splitAtFirst_append fun h => hy (mem_reverse.1 h)
  rw [splitAtLastSlash, reverse_append, reverse_cons, append_assoc, singleton_append, hcut,
    Option.map_some, reverse_reverse, reverse_reverse]

/-- What stands behind the last `/` of a key has no scope. -/
theorem IsKey.last {key : Bytes} (h : IsKey key) :
    match splitAtLastSlash key with
    | some (_, last) => last.head? ≠ some (b '@')
    | none => key.head? ≠ some (b '@') := by
  have hscoped : ∀ {front scope name : Bytes}, b '/' ∉ name →
      splitAtLastSlash (front ++ (b '@' :: scope ++ b '/' :: name)) =
        some (front ++ b '@' :: scope, name) :=
    fun hslash => by rw [← append_assoc, splitAtLastSlash_append hslash]
  cases h with
  | name hname =>
    cases hname with
    | plain hslash hhead =>
      rw [splitAtLastSlash, splitAtFirst_of_notMem fun h => hslash (mem_reverse.1 h)]
      exact hhead
    | inScope hscope hslash hhead =>
      rw [splitAtLastSlash_append hslash]
      exact hhead
  | step hkey hname =>
    cases hname with
    | plain hslash hhead =>
      rw [splitAtLastSlash_append hslash]
      exact hhead
    | inScope hscope hslash hhead =>
      rw [append_cons, hscoped hslash]
      exact hhead

/-- `parent_of` is the path above, whatever names are scoped. -/
theorem Below.parentOf_eq {parent key : Bytes} (h : Below parent key) :
    parentOf key = some parent := by
  obtain ⟨hparent, name, hname, rfl⟩ := h
  have hlast := hparent.last
  cases hname with
  | plain hslash hhead =>
    rw [parentOf, splitAtLastSlash_append hslash]
    dsimp only
    cases hsplit : splitAtLastSlash parent with
    | none =>
      rw [hsplit] at hlast
      exact if_neg hlast
    | some parts =>
      rw [hsplit] at hlast
      exact if_neg hlast
  | @inScope scope name hscope hslash hhead =>
    have hat : b '/' ∉ b '@' :: scope := fun h => hscope ((mem_cons.1 h).resolve_left (by decide))
    have habove : parent ++ b '/' :: (b '@' :: scope ++ b '/' :: name) =
        (parent ++ b '/' :: b '@' :: scope) ++ b '/' :: name := by simp
    rw [habove, parentOf, splitAtLastSlash_append hslash]
    dsimp only
    rw [splitAtLastSlash_append hat]
    exact if_pos rfl

/-! ## No package is lost -/

/-- The union has a document's row of a key once for that document: at the key, and then nothing
stands at the key behind the prefix, or there. -/
def Stands (packages : Packages) (side : Side) (key id : Bytes) : Prop :=
  ∃ path ∈ packages.paths, path.key = key ∧ ∃ row, path.rowOf side = some row ∧ row.id = id ∧
    if path.isKept side then
      (key, row) ∈ packages.write ∧ side.keyPrefix ++ key ∉ packages.write.map Prod.fst
    else (side.keyPrefix ++ key, row) ∈ packages.write

/-- What the union of two documents has of their rows. -/
structure LosesNoPackage (workspaces : Workspaces) (rows : List ((Bytes × JsonValue) × Side))
    (packages : Packages) : Prop where
  /-- A package row of a document is in the union for that document, unless the document lists one
  more package at the key, which the other document does not list: then it is the other one's. -/
  stands : ∀ {side key value row}, ((key, value), side) ∈ rows → Row.parse value = some row →
    row.workspace = false → packages.Stands side key row.id ∨
      packages.Stands side.other key row.id ∧ ∃ own, Lists workspaces rows side key own ∧
        ¬Lists workspaces rows side.other key own
  /-- A document has one row at a key. -/
  once : ∀ {side key id id'}, packages.Stands side key id → packages.Stands side key id' → id = id'
  /-- The keys of the union are distinct. -/
  distinct : (packages.write.map Prod.fst).Nodup
  /-- A row at a real path is the row of a document that keeps it there. -/
  kept : ∀ {key row}, (key, row) ∈ packages.write → (∀ side : Side, ¬side.keyPrefix <+: key) →
    ∃ path ∈ packages.paths, path.key = key ∧ ∃ side, path.isKept side = true ∧
      path.rowOf side = some row ∧ Lists workspaces rows side key row.id
  /-- Where a document's row keeps its key, the key above is kept by a row of that document. -/
  above : ∀ {path side parent}, path ∈ packages.paths → path.isKept side = true →
    Below parent path.key → (∃ s id, Lists workspaces rows s parent id) →
    ∃ above ∈ packages.paths, above.key = parent ∧ above.isKept side = true ∧
      ∃ row, above.rowOf side = some row ∧ Lists workspaces rows side parent row.id ∧
        (parent, row) ∈ packages.write

end Packages

/-- The rows of both documents. -/
def packageRows (ours theirs : ObjectJSON) : List ((Bytes × JsonValue) × Side) :=
  both ((propertiesOf (ours.get (text "packages"))).getD [])
    ((propertiesOf (theirs.get (text "packages"))).getD [])

/-- What `Packages::collect` leaves. -/
structure Collected (workspaces : Workspaces) (rows : List ((Bytes × JsonValue) × Side))
    (paths : List PackagePath) : Prop where
  keys : (paths.map PackagePath.key).Nodup
  ids : ∀ path ∈ paths, (path.listed.map fun known => known.1.id).Nodup
  parsed : ∀ path ∈ paths, ∀ known ∈ path.listed, ∃ value, Row.parse value = some known.1
  origin : ∀ path ∈ paths, ∃ row ∈ rows, row.1.1 = path.key
  listed : ∀ side key id,
    (∃ path ∈ paths, path.key = key ∧ path.Has side id) ↔ Lists workspaces rows side key id
  assigned : ∀ path ∈ paths, path.Assigned
  keeper : ∀ path ∈ paths, ∀ side, path.keeps = some side →
    path.isKept side = true ∧ ∃ row, path.rowOf side = some row
  above : ∀ path ∈ paths, ∀ side parent, path.isKept side = true →
    parentOf path.key = some parent → (∃ above ∈ paths, above.key = parent) →
    ∃ above ∈ paths, above.key = parent ∧ above.isKept side = true

section Collect

open Packages

variable {workspaces : Workspaces} {rows : List ((Bytes × JsonValue) × Side)}
  {initial paths : List PackagePath} {path : PackagePath} {side : Side} {row : Row}
  {key id : Bytes} {i : ℕ}

theorem index_spec {parent : Bytes} (h : ∃ above ∈ paths, above.key = parent) :
    ∃ j, index paths parent = some j := by
  obtain ⟨above, habove, hkey⟩ := h
  refine Option.isSome_iff_exists.1 ?_
  rw [index, findIdx?_isSome, any_eq_true]
  exact ⟨above, habove, by rw [hkey, beq_self_eq_true]⟩

theorem key_of_index {parent : Bytes} {j : ℕ} {above : PackagePath}
    (h : index paths parent = some j) (hj : paths[j]? = some above) : above.key = parent := by
  obtain ⟨hlt, hkey, -⟩ := findIdx?_eq_some_iff_getElem.1 h
  rw [getElem?_eq_getElem hlt] at hj
  rw [← Option.some.inj hj]
  exact eq_of_beq hkey

/-- The two loops. -/
theorem collected_of_settled (h : ListsOf workspaces rows initial)
    (hset : Settled initial paths []) : Collected workspaces rows paths := by
  have hcontents : ∀ path ∈ paths, ∃ before ∈ initial, before.key = path.key ∧
      before.listed = path.listed := fun path hpath => by
    have hmem := mem_map_of_mem (f := fun p : PackagePath => (p.key, p.listed)) hpath
    rw [hset.contents] at hmem
    obtain ⟨before, hbefore, he⟩ := mem_map.1 hmem
    obtain ⟨hkey, hlisted⟩ := Prod.mk.inj he
    exact ⟨before, hbefore, hkey, hlisted⟩
  have hat : ∀ path ∈ paths, ∃ i : ℕ, paths[i]? = some path := fun path hpath =>
    mem_iff_getElem?.1 hpath
  have hnot : ∀ {i : ℕ}, i ∉ ([] : List ℕ) := not_mem_nil
  refine ⟨?_, fun path hpath => ?_, fun path hpath => ?_, fun path hpath => ?_,
    fun side key id => ?_, fun path hpath => ?_, fun path hpath side hside => ?_,
    fun path hpath side parent hkept hparent habove => ?_⟩
  · have := congrArg (map Prod.fst) hset.contents
    rw [map_map, map_map] at this
    have hkeys : paths.map PackagePath.key = initial.map PackagePath.key := this
    rw [hkeys]
    exact h.keys
  · obtain ⟨before, hbefore, -, hlisted⟩ := hcontents path hpath
    rw [← hlisted]
    exact h.ids before hbefore
  · obtain ⟨before, hbefore, -, hlisted⟩ := hcontents path hpath
    rw [← hlisted]
    exact h.parsed before hbefore
  · obtain ⟨before, hbefore, hkey, -⟩ := hcontents path hpath
    rw [← hkey]
    exact h.origin before hbefore
  · rw [← h.listed side key id]
    have hmap : ∀ l : List PackagePath, (∃ path ∈ l, path.key = key ∧ path.Has side id) ↔
        ∃ c ∈ l.map (fun path => (path.key, path.listed)), c.1 = key ∧
          ∃ known ∈ c.2, known.1.id = id ∧ known.2 side = true := fun l => by
      simp only [mem_map, exists_exists_and_eq_and, PackagePath.Has]
    rw [hmap, hmap, hset.contents]
  · obtain ⟨i, hi⟩ := hat path hpath
    exact hset.assigned hnot hi
  · obtain ⟨i, hi⟩ := hat path hpath
    obtain ⟨row, hrow⟩ := hset.keeper hnot hi hside
    have hfills := (Option.filter_eq_some_iff.1 hrow).2
    exact ⟨by simp [PackagePath.isKept, hfills, hside], row, PackagePath.rowOf_of_candidate hrow⟩
  · obtain ⟨i, hi⟩ := hat path hpath
    obtain ⟨j, hj⟩ := index_spec habove
    obtain ⟨above, hat, hkept'⟩ := hset.above hnot hi hkept hparent hj
    exact ⟨above, mem_of_getElem? hat, key_of_index hj hat, hkept'⟩

namespace Collected

variable (h : Collected workspaces rows paths)

include h

theorem lists_of_lists (hpath : path ∈ paths) {known : Row × (Side → Bool)}
    (hi : path.listed[i]? = some known) (hlists : path.lists side i = true) :
    Lists workspaces rows side path.key known.1.id := by
  rw [PackagePath.lists, hi, Option.any_some] at hlists
  exact (h.listed side path.key known.1.id).1
    ⟨path, hpath, rfl, known, mem_of_getElem? hi, rfl, hlists⟩

/-- A document lists the row it has. -/
theorem lists_rowOf (hpath : path ∈ paths) (hrow : path.rowOf side = some row) :
    Lists workspaces rows side path.key row.id := by
  obtain ⟨i, hi, hat⟩ := Option.bind_eq_some_iff.1 hrow
  obtain ⟨known, hknown, rfl⟩ := Option.map_eq_some_iff.1 hat
  exact h.lists_of_lists hpath hknown ((h.assigned path hpath).lists hi)

section

variable (hplain : Unprefixed paths)
include hplain

theorem stands_of_rowOf (hpath : path ∈ paths)
    (hrow : path.rowOf side = some row) (hw : row.workspace = false) :
    Packages.Stands { paths } side path.key row.id := by
  have hmem : (keyFor path side, row) ∈ Packages.write { paths } := mem_write_of_rowOf hpath hrow hw
  refine ⟨path, hpath, rfl, row, hrow, rfl, ?_⟩
  rw [keyFor] at hmem
  by_cases hkept : path.isKept side = true
  · rw [if_pos hkept] at hmem ⊢
    exact ⟨hmem, not_mem_keys_of_isKept h.keys hplain hpath hkept⟩
  · rw [if_neg hkept] at hmem ⊢
    exact hmem

/-- A row that a document lists. -/
theorem stands_of_mem {value : JsonValue}
    (hmem : ((key, value), side) ∈ rows) (hrow : Row.parse value = some row)
    (hw : row.workspace = false) : Packages.Stands { paths } side key row.id ∨
      Packages.Stands { paths } side.other key row.id ∧ ∃ own, Lists workspaces rows side key own ∧
        ¬Lists workspaces rows side.other key own := by
  have hlists : Lists workspaces rows side key row.id :=
    ⟨value, row, hmem, hrow, rfl, fun hw' => by rw [hw] at hw'; cases hw'⟩
  obtain ⟨path, hpath, rfl, known, hknown, hid, hside⟩ := (h.listed side key row.id).2 hlists
  obtain ⟨i, hi⟩ := mem_iff_getElem?.1 hknown
  obtain ⟨value', hvalue'⟩ := h.parsed path hpath known hknown
  have hknownw : known.1.workspace = false := by rw [Row.workspace_eq hvalue' hrow hid, hw]
  have hat : path.lists side i = true := by rw [PackagePath.lists, hi, Option.any_some, hside]
  have hrowOf : ∀ {s}, path.rows s = some i → path.rowOf s = some known.1 := fun hs => by
    rw [PackagePath.rowOf, hs, Option.bind_some, hi, Option.map_some]
  rw [← hid]
  by_cases hrows : path.rows side = some i
  · exact .inl (h.stands_of_rowOf hplain hpath (hrowOf hrows) hknownw)
  · obtain ⟨hother, j, hj, hnot⟩ := (h.assigned path hpath).own hat hrows
    have hlistsj := (h.assigned path hpath).lists hj
    have hlt := PackagePath.lt_of_lists hlistsj
    refine .inr ⟨h.stands_of_rowOf hplain hpath (hrowOf hother) hknownw, path.listed[j].1.id,
      h.lists_of_lists hpath (getElem?_eq_getElem hlt) hlistsj, fun hown => ?_⟩
    obtain ⟨path', hpath', hkey, known', hknown', hid', hside'⟩ := (h.listed ..).2 hown
    obtain rfl := inj_on_of_nodup_map h.keys hpath' hpath hkey
    obtain rfl := inj_on_of_nodup_map (h.ids path' hpath') hknown' (getElem_mem hlt) hid'
    rw [PackagePath.lists, getElem?_eq_getElem hlt, Option.any_some, hside'] at hnot
    cases hnot

theorem losesNoPackage :
    Packages.LosesNoPackage workspaces rows { paths } where
  stands := h.stands_of_mem hplain
  once := by
    rintro side key id id' ⟨path, hpath, hkey, row, hrow, rfl, -⟩
      ⟨path', hpath', hkey', row', hrow',
      rfl, -⟩
    obtain rfl := inj_on_of_nodup_map h.keys hpath hpath' (hkey.trans hkey'.symm)
    rw [hrow] at hrow'
    rw [Option.some.inj hrow']
  distinct := nodup_write h.keys hplain
  kept := fun {key row} hmem hkey => by
    rcases mem_write.1 hmem with ⟨path, -, hmoved⟩ | ⟨path, hpath, row', hkept, he⟩
    · obtain ⟨side, row', -, -, -, he⟩ := mem_moved.1 hmoved
      exact absurd ⟨path.key, (Prod.mk.inj he).1.symm⟩ (hkey side)
    · obtain ⟨rfl, rfl⟩ := Prod.mk.inj he
      obtain ⟨side, hside, hrow⟩ := Option.bind_eq_some_iff.1 hkept
      exact ⟨path, hpath, rfl, side, (h.keeper path hpath side hside).1, hrow,
        h.lists_rowOf hpath hrow⟩
  above := fun {path side parent} hpath hkept hparent hlists => by
    obtain ⟨s, id, hlists⟩ := hlists
    obtain ⟨before, hbefore, hkey, -⟩ := (h.listed s parent id).2 hlists
    obtain ⟨above, habove, hkey', hkept'⟩ :=
      h.above path hpath side parent hkept hparent.parentOf_eq ⟨before, hbefore, hkey⟩
    obtain ⟨-, keeper, hkeeper, -⟩ := PackagePath.keeps_of_isKept hkept'
    obtain ⟨hkeeper, row, hrow⟩ := h.keeper above habove keeper hkeeper
    have hsame : above.rowOf side = some row := by
      rw [← PackagePath.kept_of_isKept hkept', PackagePath.kept_of_isKept hkeeper, hrow]
    subst hkey'
    refine ⟨above, habove, rfl, hkept', row, hsame, h.lists_rowOf habove hsame,
      mem_write.2 (.inr ?_)⟩
    exact ⟨above, habove, row, by rw [PackagePath.kept_of_isKept hkept', hsame], rfl⟩

end

end Collected

end Collect

/-! ## The union of two documents -/

section BuildUnion

open Packages

variable {writeString : Bytes → Bytes} {ours theirs : ObjectJSON}

theorem propertiesOf_of_okOr {value : Option JsonValue} {error : Declined} {rows : ObjectJSON}
    (h : okOr error (propertiesOf value) = .ok rows) : (propertiesOf value).getD [] = rows := by
  cases hp : propertiesOf value with
  | none => rw [hp] at h; cases h
  | some properties => rw [hp] at h; cases h; rfl

theorem collect_collected {oursRows theirsRows : Option JsonValue} {workspaces : Workspaces}
    {packages : Packages}
    (h : Packages.collect writeString oursRows theirsRows workspaces = .ok packages) :
    Collected workspaces (both ((propertiesOf oursRows).getD [])
      ((propertiesOf theirsRows).getD []))
      packages.paths := by
  obtain ⟨ours, hours, h⟩ := bind_eq_ok h
  obtain ⟨theirs, htheirs, h⟩ := bind_eq_ok h
  obtain ⟨listing, hlisting, h⟩ := bind_eq_ok h
  obtain ⟨paths, hpaths, h⟩ := bind_eq_ok h
  cases h
  rw [propertiesOf_of_okOr hours, propertiesOf_of_okOr htheirs]
  have hlistsOf := Listing.run_listsOf hlisting
  exact collected_of_settled hlistsOf (run_settled hlistsOf.undecided hpaths)

/-- **The union loses no package** of two documents whose keys do not stand behind a prefix of the
union. -/
theorem buildUnion_losesNoPackage {union : Union}
    (hunion : buildUnion writeString ours theirs = .ok union)
    (hplain : ∀ row ∈ packageRows ours theirs, ∀ side : Side, ¬side.keyPrefix <+: row.1.1) :
    ∃ workspaces packages,
      Workspaces.collect (ours.get (text "workspaces")) (theirs.get (text "workspaces")) =
        .ok workspaces ∧
      Packages.collect writeString (ours.get (text "packages")) (theirs.get (text "packages"))
        workspaces = .ok packages ∧
      union.packages = packages.write ∧
      LosesNoPackage workspaces (packageRows ours theirs) packages := by
  obtain ⟨oursVersion, -, hunion⟩ := bind_eq_ok hunion
  obtain ⟨theirsVersion, -, hunion⟩ := bind_eq_ok hunion
  obtain ⟨workspaces, hworkspaces, hunion⟩ := bind_eq_ok hunion
  obtain ⟨packages, hpackages, hunion⟩ := bind_eq_ok hunion
  cases hunion
  refine ⟨workspaces, packages, hworkspaces, hpackages, rfl, ?_⟩
  have hcollected := collect_collected hpackages
  refine hcollected.losesNoPackage fun path hpath side => ?_
  obtain ⟨row, hrow, hkey⟩ := hcollected.origin path hpath
  rw [← hkey]
  exact hplain row hrow side

/-! ### A key that stands there twice -/

/-- A string between quotes. -/
def quoted (s : Bytes) : Bytes := b '"' :: s ++ [b '"']

/-- A document with one workspace, the root, and rows from the registry. -/
def document (rows : List (Bytes × Bytes)) : ObjectJSON :=
  [(text "lockfileVersion", .number (text "1")), (text "workspaces", .object [([], .object [])]),
    (text "packages", .object (rows.map fun row =>
      (row.1, .array [.string row.2, .string [], .object [], .string (text "sha512-")])))]

def fooConflict : ObjectJSON × ObjectJSON :=
  (document [(text "foo", text "foo@1.0.0"), (text "foo/bar", text "bar@1.0.0")],
    document [(text "foo", text "foo@2.0.0")])

theorem buildUnion_losesNoPackage_foo : ∃ union workspaces packages,
    buildUnion quoted fooConflict.1 fooConflict.2 = .ok union ∧
      union.packages = packages.write ∧
      LosesNoPackage workspaces (packageRows fooConflict.1 fooConflict.2) packages := by
  have hok : (buildUnion quoted fooConflict.1 fooConflict.2).toOption.isSome = true := by
    decide +kernel
  cases hunion : buildUnion quoted fooConflict.1 fooConflict.2 with
  | error declined =>
    rw [hunion] at hok
    cases hok
  | ok union =>
    have hplain : ∀ key ∈ (packageRows fooConflict.1 fooConflict.2).map fun row => row.1.1,
        ∀ side ∈ Side.sides, ¬side.keyPrefix <+: key := by decide
    obtain ⟨workspaces, packages, -, -, hwrite, h⟩ := buildUnion_losesNoPackage hunion
      fun row hrow side => hplain row.1.1 (mem_map_of_mem hrow) side (mem_sides side)
    exact ⟨union, workspaces, packages, rfl, hwrite, h⟩

/-- A document with a row at a key behind a prefix, and a row that moves there. -/
theorem buildUnion_key_twice : ∃ keys,
    (buildUnion quoted
      (document [(text "foo", text "foo@1.0.0"), (text ":ours/foo", text "foo@1.0.0")])
      (document [(text "foo", text "foo@2.0.0")])).toOption.map
        (fun union => union.packages.map Prod.fst) = some keys ∧ ¬keys.Nodup :=
  ⟨[text ":ours/foo", text "foo", text ":ours/foo"], by decide +kernel, by decide⟩

end BuildUnion

end Soup.Install
