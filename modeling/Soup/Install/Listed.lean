import Soup.Lib.Run
import Soup.Install.MergeConflict

/-!
# The rows that the documents list

The first loop of `Packages::collect` reads every row of both documents into the path of its key.
`Lists` says what a document lists, apart from the workspaces that the union drops, and
`ListsOf` that paths say the same (`collect_listed`): each key has one path, and each path has one
row of an id, with the documents that list it.
-/

namespace Soup.Install

open Soup.Semver Soup.Lib List

/-- A document lists a package at a key, and the union does not drop it. -/
def Lists (workspaces : Workspaces) (rows : List ((Bytes × JsonValue) × Side)) (side : Side)
    (key id : Bytes) : Prop :=
  ∃ value row, ((key, value), side) ∈ rows ∧ Row.parse value = some row ∧ row.id = id ∧
    (row.workspace = true → row.workspacePath ∈ workspaces.paths)

namespace Row

variable {value : JsonValue} {row : Row}

theorem parse_spec (h : parse value = some row) :
    row.value = value ∧ split row.id = some (row.name, row.resolution) ∧
      row.workspace = (text "workspace:").isPrefixOf row.resolution := by
  simp only [parse, Option.bind_eq_bind, Option.bind_eq_some_iff, Option.pure_def,
    Option.some.injEq] at h
  obtain ⟨items, -, id, -, ⟨name, resolution⟩, hsplit, rfl⟩ := h
  exact ⟨rfl, hsplit, rfl⟩

/-- The id says whether a row is a workspace. -/
theorem workspace_eq {value' : JsonValue} {row' : Row} (h : parse value = some row)
    (h' : parse value' = some row') (hid : row.id = row'.id) : row.workspace = row'.workspace := by
  obtain ⟨-, hsplit, hw⟩ := parse_spec h
  obtain ⟨-, hsplit', hw'⟩ := parse_spec h'
  rw [hid, hsplit'] at hsplit
  obtain ⟨-, hresolution⟩ := Prod.mk.inj (Option.some.inj hsplit)
  rw [hw, hw', hresolution]

end Row

variable {s : Side}

namespace PackagePath

variable {row : Row} {side : Side}

/-- The path has a row of an id that the document lists. -/
def Has (path : PackagePath) (side : Side) (id : Bytes) : Prop :=
  ∃ known ∈ path.listed, known.1.id = id ∧ known.2 side = true

variable {l : List (Row × (Side → Bool))}

theorem has_listRow {id : Bytes} :
    (∃ known ∈ listRow row side l, known.1.id = id ∧ known.2 s = true) ↔
      (∃ known ∈ l, known.1.id = id ∧ known.2 s = true) ∨ (row.id = id ∧ s = side) := by
  induction l with
  | nil => simp [listRow]
  | cons known rest ih =>
    unfold listRow
    by_cases hid : known.1.id = row.id
    · rw [if_pos hid]
      simp only [mem_cons, exists_eq_or_imp, Function.update_apply]
      by_cases hs : s = side
      · simp only [hs, and_true, hid]
        grind
      · simp only [hs, if_false, and_false, or_false]
    · rw [if_neg hid]
      simp only [mem_cons, exists_eq_or_imp]
      rw [ih, or_assoc]

theorem has_list {path : PackagePath} {id : Bytes} :
    (path.list row side).Has s id ↔ path.Has s id ∨ (row.id = id ∧ s = side) :=
  has_listRow

theorem ids_listRow (l : List (Row × (Side → Bool))) :
    (listRow row side l).map (fun known => known.1.id) =
      if row.id ∈ l.map (fun known => known.1.id) then l.map (fun known => known.1.id)
      else l.map (fun known => known.1.id) ++ [row.id] := by
  induction l with
  | nil => simp [listRow]
  | cons known rest ih =>
    unfold listRow
    by_cases hid : known.1.id = row.id
    · simp [hid]
    · rw [if_neg hid, map_cons, ih]
      have hid' : row.id ≠ known.1.id := fun h => hid h.symm
      simp only [map_cons, mem_cons, hid', false_or]
      split <;> rfl

theorem nodup_listRow (h : (l.map fun known => known.1.id).Nodup) :
    ((listRow row side l).map fun known => known.1.id).Nodup := by
  rw [ids_listRow]
  split
  · exact h
  next hid =>
    exact nodup_append.2 ⟨h, by simp, by grind⟩

theorem mem_listRow {known : Row × (Side → Bool)} (h : known ∈ listRow row side l) :
    known.1 = row ∨ ∃ known' ∈ l, known'.1 = known.1 := by
  induction l with
  | nil =>
    rw [listRow, mem_singleton] at h
    exact .inl (by rw [h])
  | cons first rest ih =>
    unfold listRow at h
    split at h
    · rcases mem_cons.1 h with rfl | h
      · exact .inr ⟨first, by simp, rfl⟩
      · exact .inr ⟨known, by simp [h], rfl⟩
    · rcases mem_cons.1 h with rfl | h
      · exact .inr ⟨known, by simp, rfl⟩
      · rcases ih h with h | ⟨known', h, he⟩
        · exact .inl h
        · exact .inr ⟨known', by simp [h], he⟩

end PackagePath

namespace Listing

variable {key : Bytes} {row : Row} {side : Side} {paths : List PackagePath}

theorem has_listAt {k id : Bytes} :
    (∃ path ∈ listAt key row side paths, path.key = k ∧ path.Has s id) ↔
      (∃ path ∈ paths, path.key = k ∧ path.Has s id) ∨ (key = k ∧ row.id = id ∧ s = side) := by
  induction paths with
  | nil =>
    simp only [listAt, mem_singleton, exists_eq_left, PackagePath.has_list]
    simp [PackagePath.Has, PackagePath.list]
  | cons path rest ih =>
    unfold listAt
    by_cases hkey : path.key = key
    · rw [if_pos hkey]
      simp only [mem_cons, exists_eq_or_imp, PackagePath.has_list]
      have hlist : (path.list row side).key = path.key := rfl
      rw [hlist, hkey]
      grind
    · rw [if_neg hkey]
      simp only [mem_cons, exists_eq_or_imp]
      rw [ih, or_assoc]

theorem keys_listAt (paths : List PackagePath) :
    (listAt key row side paths).map PackagePath.key =
      if key ∈ paths.map PackagePath.key then paths.map PackagePath.key
      else paths.map PackagePath.key ++ [key] := by
  induction paths with
  | nil => simp [listAt, PackagePath.list]
  | cons path rest ih =>
    unfold listAt
    by_cases hkey : path.key = key
    · simp [hkey, PackagePath.list]
    · rw [if_neg hkey, map_cons, ih]
      have hkey' : key ≠ path.key := fun h => hkey h.symm
      simp only [map_cons, mem_cons, hkey', false_or]
      split <;> rfl

theorem mem_listAt {path : PackagePath}
    (h : path ∈ listAt key row side paths) :
    path ∈ paths ∨ ∃ old, (old ∈ paths ∨ old = { key }) ∧ old.key = key ∧
      path = old.list row side := by
  induction paths with
  | nil => exact .inr ⟨{ key }, .inr rfl, rfl, mem_singleton.1 h⟩
  | cons first rest ih =>
    unfold listAt at h
    split at h
    next hkey =>
      rcases mem_cons.1 h with rfl | h
      · exact .inr ⟨first, by simp, hkey, rfl⟩
      · exact .inl (by simp [h])
    · rcases mem_cons.1 h with rfl | h
      · exact .inl (by simp)
      · rcases ih h with h | ⟨old, hold, he⟩
        · exact .inl (by simp [h])
        · exact .inr ⟨old, by grind, he⟩

end Listing

/-! ## The first loop -/

/-- Paths that say what the documents list. -/
structure ListsOf (workspaces : Workspaces) (rows : List ((Bytes × JsonValue) × Side))
    (paths : List PackagePath) : Prop where
  keys : (paths.map PackagePath.key).Nodup
  ids : ∀ path ∈ paths, (path.listed.map fun known => known.1.id).Nodup
  listed : ∀ side key id,
    (∃ path ∈ paths, path.key = key ∧ path.Has side id) ↔ Lists workspaces rows side key id
  parsed : ∀ path ∈ paths, ∀ known ∈ path.listed, ∃ value, Row.parse value = some known.1
  origin : ∀ path ∈ paths, ∃ row ∈ rows, row.1.1 = path.key
  undecided : ∀ path ∈ paths, path.keeps = none

namespace ListsOf

variable {workspaces : Workspaces} {rows : List ((Bytes × JsonValue) × Side)}
  {paths : List PackagePath} {key : Bytes} {value : JsonValue} {side : Side} {row : Row}

theorem nil : ListsOf workspaces [] [] where
  keys := by simp
  ids := by simp
  listed := by simp [Lists]
  parsed := by simp
  origin := by simp
  undecided := by simp

theorem lists_append {k id : Bytes} (hrow : Row.parse value = some row) :
    Lists workspaces (rows ++ [((key, value), side)]) s k id ↔
      Lists workspaces rows s k id ∨ (key = k ∧ row.id = id ∧ s = side ∧
        (row.workspace = true → row.workspacePath ∈ workspaces.paths)) := by
  constructor
  · rintro ⟨value', row', hmem, hparse, hid, hpath⟩
    rcases mem_append.1 hmem with hmem | hmem
    · exact .inl ⟨value', row', hmem, hparse, hid, hpath⟩
    · obtain ⟨⟨rfl, rfl⟩, rfl⟩ : (k = key ∧ value' = value) ∧ s = side := by simpa using hmem
      obtain rfl : row' = row := by
        rw [hrow] at hparse
        exact (Option.some.inj hparse).symm
      exact .inr ⟨rfl, hid, rfl, hpath⟩
  · rintro (⟨value', row', hmem, hparse, hid, hpath⟩ | ⟨rfl, rfl, rfl, hpath⟩)
    · exact ⟨value', row', mem_append_left _ hmem, hparse, hid, hpath⟩
    · exact ⟨value, row, by simp, hrow, rfl, hpath⟩

/-- A row of a workspace that is not there is dropped. -/
theorem drop (h : ListsOf workspaces rows paths) (hrow : Row.parse value = some row)
    (hw : row.workspace = true) (hpath : row.workspacePath ∉ workspaces.paths) :
    ListsOf workspaces (rows ++ [((key, value), side)]) paths where
  keys := h.keys
  ids := h.ids
  listed := fun s k id => by
    rw [lists_append hrow, ← h.listed]
    have : ¬(row.workspace = true → row.workspacePath ∈ workspaces.paths) := fun h => hpath (h hw)
    simp only [this, and_false, or_false]
  parsed := h.parsed
  origin := fun path hmem => by
    obtain ⟨row, hrow, hkey⟩ := h.origin path hmem
    exact ⟨row, mem_append_left _ hrow, hkey⟩
  undecided := h.undecided

theorem listAt (h : ListsOf workspaces rows paths) (hrow : Row.parse value = some row)
    (hpath : row.workspace = true → row.workspacePath ∈ workspaces.paths) :
    ListsOf workspaces (rows ++ [((key, value), side)]) (Listing.listAt key row side paths) where
  keys := by
    rw [Listing.keys_listAt]
    split
    · exact h.keys
    next hkey =>
      exact nodup_append.2 ⟨h.keys, by simp, by grind⟩
  ids := fun path hmem => by
    rcases Listing.mem_listAt hmem with hmem | ⟨old, hold | rfl, -, rfl⟩
    · exact h.ids path hmem
    · exact PackagePath.nodup_listRow (h.ids old hold)
    · exact PackagePath.nodup_listRow (by simp)
  listed := fun s k id => by
    rw [lists_append hrow, Listing.has_listAt, h.listed]
    have : (row.workspace = true → row.workspacePath ∈ workspaces.paths) = True := eq_true hpath
    rw [this, and_true]
  parsed := fun path hmem known hknown => by
    rcases Listing.mem_listAt hmem with hmem | ⟨old, hold, -, rfl⟩
    · exact h.parsed path hmem known hknown
    · rcases PackagePath.mem_listRow hknown with he | ⟨known', hknown', he⟩
      · exact ⟨value, by rw [he, hrow]⟩
      · rcases hold with hold | rfl
        · obtain ⟨value', hvalue⟩ := h.parsed old hold known' hknown'
          exact ⟨value', by rw [← he, hvalue]⟩
        · cases hknown'
  origin := fun path hmem => by
    rcases Listing.mem_listAt hmem with hmem | ⟨old, -, hkey, rfl⟩
    · obtain ⟨row, hrow, hkey⟩ := h.origin path hmem
      exact ⟨row, mem_append_left _ hrow, hkey⟩
    · exact ⟨((key, value), side), by simp, hkey.symm⟩
  undecided := fun path hmem => by
    rcases Listing.mem_listAt hmem with hmem | ⟨old, hold | rfl, -, rfl⟩
    · exact h.undecided path hmem
    · exact h.undecided old hold
    · rfl

end ListsOf

namespace Listing

variable {workspaces : Workspaces} {writeString : Bytes → Bytes} {listing listing' : Listing}

theorem checkSource_paths {row : Row} {source : Bytes}
    (h : listing.checkSource row source = .ok listing') : listing'.paths = listing.paths := by
  unfold checkSource at h
  split at h
  · split at h
    · cases h
    · cases h; rfl
  · cases h; rfl

variable {rows : List ((Bytes × JsonValue) × Side)}

/-- One row of a document. -/
theorem add_listsOf {property : (Bytes × JsonValue) × Side}
    (hadd : listing.add writeString workspaces property = .ok listing')
    (h : ListsOf workspaces rows listing.paths) :
    ListsOf workspaces (rows ++ [property]) listing'.paths := by
  obtain ⟨row, hrow, hadd⟩ := bind_eq_ok hadd
  have hparse : Row.parse property.1.2 = some row := by
    cases hp : Row.parse property.1.2 with
    | none => rw [hp] at hrow; cases hrow
    | some r => rw [hp] at hrow; cases hrow; rfl
  by_cases hw : row.workspace = true
  · by_cases hpath : row.workspacePath ∈ workspaces.paths
    · rw [if_neg (by simp [hw, hpath]), if_pos hw] at hadd
      cases hadd
      exact h.listAt hparse fun _ => hpath
    · rw [if_pos (by simp [hw, hpath])] at hadd
      cases hadd
      exact h.drop hparse hw hpath
  · rw [if_neg (by simp [hw]), if_neg hw] at hadd
    obtain ⟨checked, hcheck, hadd⟩ := bind_eq_ok hadd
    cases hadd
    rw [checkSource_paths hcheck]
    exact h.listAt hparse fun hw' => absurd hw' hw

/-- The first loop of `Packages::collect` reads what the documents list. -/
theorem run_listsOf {listing : Listing}
    (hrun : rows.foldlM (Listing.add writeString workspaces) {} = .ok listing) :
    ListsOf workspaces rows listing.paths := by
  obtain ⟨done, hdone, h⟩ := foldlM_invariant
    (fun left (state : Listing) => ∃ done, done ++ left = rows ∧
      ListsOf workspaces done state.paths)
    (by
      rintro property left state state' hadd ⟨done, hdone, h⟩
      exact ⟨done ++ [property], by simpa using hdone, add_listsOf hadd h⟩)
    hrun ⟨[], rfl, ListsOf.nil⟩
  rw [append_nil] at hdone
  rwa [hdone] at h

end Listing

end Soup.Install
