import Mathlib.Data.List.TakeWhile
import Soup.Lib.LittleEndian
import Soup.Bytes

/-!
# The ICU data package

`icu_data.rs`. A `u32` is a number below `2 ^ 32`.
-/

namespace Soup.Trim

open Lib List Option

/-- `Range<u32>`. -/
structure Range where
  start : ℕ
  stop : ℕ
  deriving DecidableEq, Repr

namespace Range

def isEmpty (range : Range) : Bool := range.stop ≤ range.start

def indexes (range : Range) : List ℕ := range' range.start (range.stop - range.start)

end Range

inductive TrimInternalError where
  | malformedIcuData
  deriving DecidableEq, Repr

/-- `TOMBSTONE`. -/
def tombstoneBytes : Bytes := text "BUNICUREMOVED" ++ [0, 0, 0]

def minimumPackageSize : ℕ := 32
def minimumHeaderSize : ℕ := 20
def countSize : ℕ := 4
def entrySize : ℕ := 8
def dataOffsetField : ℕ := 4
def tombstoneSize : ℕ := 16

structure TableOfContents where
  start : ℕ
  count : ℕ
  deriving DecidableEq, Repr

structure Tombstone where
  entries : Range
  start : ℕ
  deriving DecidableEq, Repr

structure PlannedRemoval where
  table : TableOfContents
  tombstones : List Tombstone
  removedSpans : List Range
  deadRanges : List Range
  deadNames : List ℕ
  deriving DecidableEq, Repr

/-! ## Runs -/

def checkRuns : ℕ → ℕ → List Range → Option Unit
  | previousEnd, count, [] => if previousEnd ≤ count then some () else none
  | previousEnd, count, run :: runs =>
    if run.isEmpty ∨ run.start < previousEnd then none else checkRuns run.stop count runs

def checkDisjoint : List Range → List Range → Option Unit
  | left :: lefts, right :: rights =>
    if left.stop ≤ right.start then checkDisjoint lefts (right :: rights)
    else if right.stop ≤ left.start then checkDisjoint (left :: lefts) rights
    else none
  | _, _ => some ()
  termination_by lefts rights => lefts.length + rights.length

def pushMerged (ranges : List Range) (range : Range) : List Range :=
  match ranges.getLast? with
  | some last =>
    if last.stop = range.start then ranges.dropLast ++ [⟨last.start, range.stop⟩]
    else ranges ++ [range]
  | none => [range]

def mergeAdjacent (ranges : List Range) : List Range := ranges.foldl pushMerged []

/-! ## The table of contents -/

def u32At (bytes : Bytes) (position : ℕ) : Option ℕ :=
  if position + 4 ≤ bytes.length then some (ofLittleEndian ((bytes.drop position).take 4)) else none

/-- `u32::try_from`. -/
def u32TryFrom (n : ℕ) : Option ℕ := if n < 2 ^ 32 then some n else none

def hasCommonDataHeader (package : Bytes) : Bool :=
  (package.drop 2).take 2 = [0xda, 0x27] && (package.drop 8).take 2 = [0, 0] &&
    (package.drop 12).take 5 = text "CmnD" ++ [1]

namespace TableOfContents

variable (table : TableOfContents) (package : Bytes)

def entryPosition (index : ℕ) : ℕ := table.start + countSize + entrySize * index

def nameOffset (index : ℕ) : Option ℕ :=
  if table.count ≤ index then none else u32At package (table.entryPosition index)

def dataOffset (index : ℕ) : Option ℕ :=
  if table.count ≤ index then none
  else u32At package (table.entryPosition index + dataOffsetField)

def itemStart (index : ℕ) : Option ℕ :=
  if index = table.count then u32TryFrom package.length
  else (table.dataOffset package index).map (table.start + ·)

/-- The body of the loop of `check_entries`. -/
def checkEntry (limit entriesSize previousDataOffset index : ℕ) : Option ℕ := do
  let dataOffset ← table.dataOffset package index
  let nameOffset ← table.nameOffset package index
  if dataOffset < previousDataOffset ∨ nameOffset < entriesSize ∨ limit ≤ nameOffset then none
  else if (package.drop (table.start + nameOffset)).contains 0 then some dataOffset
  else none

def checkEntries : Option Unit := do
  let limit ← u32TryFrom (package.length - table.start)
  let entriesSize ← u32TryFrom (table.entryPosition table.count - table.start)
  let last ← (range table.count).foldlM (table.checkEntry package limit entriesSize) entriesSize
  if last ≤ limit then some () else none

def findOwnedExtent (span : Range) : Option Range := do
  let precedingStart := if span.start = 0 then none else table.itemStart package (span.start - 1)
  let firstOwned := (span.indexes.find? fun index =>
    table.itemStart package index ≠ precedingStart).getD span.stop
  let start ← table.itemStart package firstOwned
  let stop ← table.itemStart package span.stop
  some ⟨start, stop⟩

def findDeadRanges (removedSpans : List Range) : Option (List Range) := do
  let extents ← removedSpans.mapM (table.findOwnedExtent package)
  some ((extents.filter fun extent => !extent.isEmpty).foldl pushMerged [])

/-- What a span that is tombstoned gives: the tombstone, and the rest of its bytes. -/
def tombstonesOf (spans : List (Range × Range)) : List Tombstone × List Range :=
  let long := spans.filter fun (_, extent) => !(extent.stop - extent.start < tombstoneSize)
  (long.map fun (span, extent) => ⟨span, extent.start⟩,
    (long.map fun (_, extent) => ⟨extent.start + tombstoneSize, extent.stop⟩).filter
      fun deadRange => !deadRange.isEmpty)

def findTombstones (tombstonedSpans : List Range) : Option (List Tombstone × List Range) := do
  let extents ← tombstonedSpans.mapM (table.findOwnedExtent package)
  some (tombstonesOf (tombstonedSpans.zip extents))

def findDeadNamesOf (span : Range) : Option (List ℕ) := do
  let retainedBefore := if span.start = 0 then none else table.nameOffset package (span.start - 1)
  let retainedAfter := table.nameOffset package span.stop
  let names ← span.indexes.mapM (table.nameOffset package)
  some (names.filter fun name => retainedBefore ≠ some name ∧ retainedAfter ≠ some name)

def findDeadNames (removedSpans : List Range) : Option (List ℕ) := do
  let names ← removedSpans.mapM (table.findDeadNamesOf package)
  some names.flatten

end TableOfContents

def readTableOfContents (package : Bytes) : Option TableOfContents :=
  if package.length < minimumPackageSize ∨ u32TryFrom package.length = none ∨
      !hasCommonDataHeader package then none
  else
    let start := ofLittleEndian (package.take 2)
    if start < minimumHeaderSize then none
    else do
      let count ← u32At package start
      if package.length < start + countSize + entrySize * count then none
      else
        let table : TableOfContents := ⟨start, count⟩
        table.checkEntries package
        some table

/-! ## Removal -/

def planRemoval (package : Bytes) (removedItems tombstonedItems : List Range) :
    Option PlannedRemoval := do
  let table ← readTableOfContents package
  checkRuns 0 table.count removedItems
  checkRuns 0 table.count tombstonedItems
  checkDisjoint removedItems tombstonedItems
  let removedSpans := mergeAdjacent removedItems
  let tombstonedSpans := mergeAdjacent tombstonedItems
  let (tombstones, tombstonedDead) ← table.findTombstones package tombstonedSpans
  let removedDead ← table.findDeadRanges package removedSpans
  let deadRanges := (tombstonedDead ++ removedDead).mergeSort fun a b => a.start ≤ b.start
  let deadNames ← table.findDeadNames package removedSpans
  some ⟨table, tombstones, removedSpans, mergeAdjacent deadRanges, deadNames⟩

def writeTombstone (table : TableOfContents) (package : Bytes) (tombstone : Tombstone) :
    Except Panic Bytes := do
  let package ← copyFromSlice package tombstone.start tombstoneBytes
  let dataOffset := toLittleEndian 4 (tombstone.start - table.start)
  tombstone.entries.indexes.foldlM (fun package index =>
    copyFromSlice package (table.entryPosition index + dataOffsetField) dataOffset) package

def writeTombstones (package : Bytes) (removal : PlannedRemoval) : Except Panic Bytes :=
  removal.tombstones.foldlM (writeTombstone removal.table) package

/-- The bytes from a position on are zero up to the first zero. -/
def zeroName (package : Bytes) (position : ℕ) : Except Panic Bytes :=
  if position ≤ package.length then
    let name := (package.drop position).takeWhile fun byte => byte ≠ 0
    .ok (overwrite package position (replicate name.length 0))
  else .error .outOfRange

def zeroNames (package : Bytes) (removal : PlannedRemoval) : Except Panic Bytes :=
  removal.deadNames.foldlM (fun package nameOffset =>
    zeroName package (removal.table.start + nameOffset)) package

/-- The loop of `compact_entries`. -/
def compactSpans (table : TableOfContents) : List Range → ℕ → Bytes → Except Panic (ℕ × Bytes)
  | [], retainedCount, package => .ok (retainedCount, package)
  | span :: spans, retainedCount, package => do
    let nextStart := (spans.head?.map Range.start).getD table.count
    let package ← copyWithin package (table.entryPosition span.stop)
      (table.entryPosition nextStart) (table.entryPosition retainedCount)
    compactSpans table spans (retainedCount + (nextStart - span.stop)) package

def compactEntries (package : Bytes) (removal : PlannedRemoval) : Except Panic Bytes :=
  let table := removal.table
  match removal.removedSpans.head? with
  | none => .ok package
  | some firstSpan => do
    let (retainedCount, package) ←
      compactSpans table removal.removedSpans firstSpan.start package
    let package ← fillZero package (table.entryPosition retainedCount)
      (table.entryPosition table.count)
    copyFromSlice package table.start (toLittleEndian countSize retainedCount)

/-- The ranges that nothing refers to any more, and the package. -/
def removeItems (package : Bytes) (removedItems tombstonedItems : List Range) :
    Except Panic (Except TrimInternalError (List Range) × Bytes) :=
  match planRemoval package removedItems tombstonedItems with
  | none => .ok (.error .malformedIcuData, package)
  | some removal => do
    let package ← writeTombstones package removal
    let package ← zeroNames package removal
    let package ← compactEntries package removal
    .ok (.ok removal.deadRanges, package)

/-!
## Accepted packages

What `readTableOfContents` checks, field by field (`readTableOfContents_eq_some`).
-/

/-- The number in the four bytes from a position on. -/
def u32Of (bytes : Bytes) (position : ℕ) : ℕ := ofLittleEndian ((bytes.drop position).take 4)

theorem u32At_eq_some {bytes : Bytes} {position n : ℕ} :
    u32At bytes position = some n ↔ position + 4 ≤ bytes.length ∧ u32Of bytes position = n := by
  rw [u32At]
  split
  next h =>
    rw [some_inj]
    exact ⟨fun hn => ⟨h, hn⟩, And.right⟩
  next h =>
    exact ⟨nofun, fun hn => absurd hn.1 h⟩

theorem u32TryFrom_eq_some {n m : ℕ} : u32TryFrom n = some m ↔ n < 2 ^ 32 ∧ n = m := by
  rw [u32TryFrom]
  split
  next h =>
    rw [some_inj]
    exact ⟨fun hn => ⟨h, hn⟩, And.right⟩
  next h =>
    exact ⟨nofun, fun hn => absurd hn.1 h⟩

namespace TableOfContents

variable (table : TableOfContents) (package : Bytes)

/-- The field `name_offset` of an entry. -/
def nameOf (index : ℕ) : ℕ := u32Of package (table.entryPosition index)

/-- The field `data_offset` of an entry. -/
def dataOf (index : ℕ) : ℕ := u32Of package (table.entryPosition index + dataOffsetField)

/-- Where an item starts; the last one is followed by the end of the package. -/
def startOf (index : ℕ) : ℕ :=
  if index = table.count then package.length else table.start + table.dataOf package index

def entriesSize : ℕ := countSize + entrySize * table.count

theorem entryPosition_eq (index : ℕ) : table.entryPosition index = table.start + 4 + 8 * index :=
  rfl

theorem entriesSize_eq : table.entriesSize = 4 + 8 * table.count := rfl

/-- An entry is in order. -/
structure EntryOk (index : ℕ) : Prop where
  name_ge : table.entriesSize ≤ table.nameOf package index
  name_lt : table.nameOf package index < package.length - table.start
  nul : 0 ∈ package.drop (table.start + table.nameOf package index)

/-- The package is accepted with this table. -/
structure Accepted : Prop where
  size_ge : minimumPackageSize ≤ package.length
  size_lt : package.length < 2 ^ 32
  header : hasCommonDataHeader package = true
  start_eq : table.start = ofLittleEndian (package.take 2)
  start_ge : minimumHeaderSize ≤ table.start
  count_eq : u32Of package table.start = table.count
  entries_le : table.start + table.entriesSize ≤ package.length
  first_le : ∀ i < table.count, table.entriesSize ≤ table.dataOf package i
  mono : ∀ i j, i < j → j < table.count → table.dataOf package i ≤ table.dataOf package j
  data_le : ∀ i < table.count, table.dataOf package i ≤ package.length - table.start
  entry : ∀ i < table.count, table.EntryOk package i

variable {table package}

variable {index : ℕ}

theorem entryPosition_le (h : index < table.count) :
    table.entryPosition index + entrySize ≤ table.start + table.entriesSize := by
  rw [entryPosition, entriesSize, entrySize, countSize]
  omega

theorem nameOffset_eq (hsize : table.start + table.entriesSize ≤ package.length)
    (h : index < table.count) :
    table.nameOffset package index = some (table.nameOf package index) := by
  have hle := entryPosition_le h
  rw [nameOffset, if_neg (not_le.2 h), u32At_eq_some]
  refine ⟨?_, rfl⟩
  rw [entrySize] at hle
  omega

theorem dataOffset_eq (hsize : table.start + table.entriesSize ≤ package.length)
    (h : index < table.count) :
    table.dataOffset package index = some (table.dataOf package index) := by
  have hle := entryPosition_le h
  rw [dataOffset, if_neg (not_le.2 h), u32At_eq_some]
  refine ⟨?_, rfl⟩
  rw [entrySize] at hle
  rw [dataOffsetField]
  omega

theorem checkEntry_eq_some (hsize : table.start + table.entriesSize ≤ package.length)
    {limit entriesSize previous index next : ℕ} (h : index < table.count) :
    table.checkEntry package limit entriesSize previous index = some next ↔
      next = table.dataOf package index ∧ previous ≤ next ∧
        entriesSize ≤ table.nameOf package index ∧ table.nameOf package index < limit ∧
        0 ∈ package.drop (table.start + table.nameOf package index) := by
  rw [checkEntry, dataOffset_eq hsize h, nameOffset_eq hsize h]
  simp only [bind_eq_bind, bind_some]
  split
  next hbad =>
    refine ⟨nofun, ?_⟩
    rintro ⟨rfl, hprevious, hge, hlt, -⟩
    omega
  next hgood =>
    split
    next hnul =>
      rw [some_inj]
      constructor
      · rintro rfl
        exact ⟨rfl, by omega, by omega, by omega, contains_iff_mem.1 hnul⟩
      · rintro ⟨rfl, -⟩
        rfl
    next hnul =>
      refine ⟨nofun, ?_⟩
      rintro ⟨-, -, -, -, hmem⟩
      exact absurd (contains_iff_mem.2 hmem) hnul

/-- The loop of `check_entries`: the entries are in order, and their data does not go back. -/
theorem foldlM_checkEntry (hsize : table.start + table.entriesSize ≤ package.length)
    {limit entriesSize : ℕ} : ∀ {n last : ℕ}, n ≤ table.count →
    ((range n).foldlM (table.checkEntry package limit entriesSize) entriesSize = some last ↔
      (∀ i < n, entriesSize ≤ table.dataOf package i ∧ table.dataOf package i ≤ last ∧
        entriesSize ≤ table.nameOf package i ∧ table.nameOf package i < limit ∧
        0 ∈ package.drop (table.start + table.nameOf package i)) ∧
      (∀ i j, i < j → j < n → table.dataOf package i ≤ table.dataOf package j) ∧
      last = if n = 0 then entriesSize else table.dataOf package (n - 1))
  | 0, last, _ => by
    rw [range_zero, foldlM_nil]
    constructor
    · intro h
      exact ⟨fun i hi => absurd hi (Nat.not_lt_zero i),
        fun _ j _ hj => absurd hj (Nat.not_lt_zero j), (some.inj h).symm⟩
    · rintro ⟨-, -, rfl⟩
      rfl
  | n + 1, last, hn => by
    rw [range_succ, foldlM_append, bind_eq_bind, bind_eq_some_iff]
    simp only [foldlM_cons, foldlM_nil, Option.bind_eq_bind, Option.pure_def,
      Option.bind_fun_some, checkEntry_eq_some hsize (Nat.lt_of_succ_le hn),
      foldlM_checkEntry hsize (Nat.le_of_succ_le hn), Nat.succ_ne_zero, if_false,
      Nat.add_sub_cancel]
    constructor
    · rintro ⟨previous, ⟨hentries, hmono, hprevious⟩, rfl, hle, hrest⟩
      have hfirst : entriesSize ≤ previous := by
        split at hprevious
        · exact le_of_eq hprevious.symm
        next hne =>
          rw [hprevious]
          exact (hentries (n - 1) (by omega)).1
      refine ⟨fun i hi => ?_, fun i j hij hj => ?_, rfl⟩
      · rcases Nat.lt_succ_iff_lt_or_eq.1 hi with hi | rfl
        · obtain ⟨hge, hlast, hrest⟩ := hentries i hi
          exact ⟨hge, hlast.trans hle, hrest⟩
        · exact ⟨hfirst.trans hle, le_rfl, hrest⟩
      · rcases Nat.lt_succ_iff_lt_or_eq.1 hj with hj | rfl
        · exact hmono i j hij hj
        · exact (hentries i hij).2.1.trans hle
    · rintro ⟨hentries, hmono, rfl⟩
      refine ⟨_, ⟨fun i hi => ?_, fun i j hij hj => hmono i j hij (by omega), rfl⟩, rfl, ?_,
        (hentries n (by omega)).2.2⟩
      · obtain ⟨hge, -, hrest⟩ := hentries i (by omega)
        refine ⟨hge, ?_, hrest⟩
        rw [if_neg (by omega)]
        rcases lt_or_ge i (n - 1) with hlt | hge
        · exact hmono i (n - 1) hlt (by omega)
        · obtain rfl : i = n - 1 := by omega
          exact le_rfl
      · split
        · exact (hentries n (by omega)).1
        · exact hmono (n - 1) n (by omega) (by omega)

theorem checkEntries_eq_some (hsize : table.start + table.entriesSize ≤ package.length)
    (hlt : package.length < 2 ^ 32) : table.checkEntries package = some () ↔
      (∀ i < table.count, table.entriesSize ≤ table.dataOf package i) ∧
      (∀ i j, i < j → j < table.count → table.dataOf package i ≤ table.dataOf package j) ∧
      (∀ i < table.count, table.dataOf package i ≤ package.length - table.start) ∧
      ∀ i < table.count, table.EntryOk package i := by
  have hentries : table.entryPosition table.count - table.start = table.entriesSize := by
    rw [entryPosition, entriesSize]
    omega
  rw [checkEntries, hentries, u32TryFrom_eq_some.2 ⟨by omega, rfl⟩,
    u32TryFrom_eq_some.2 ⟨by omega, rfl⟩]
  simp only [bind_eq_bind, bind_some]
  rw [bind_eq_some_iff]
  constructor
  · rintro ⟨last, hlast, hle⟩
    obtain ⟨hentries, hmono, -⟩ := (foldlM_checkEntry hsize le_rfl).1 hlast
    split at hle
    next hlimit =>
      refine ⟨fun i hi => (hentries i hi).1, hmono, fun i hi => (hentries i hi).2.1.trans hlimit,
        fun i hi => ?_⟩
      obtain ⟨-, -, hge, hlt, hnul⟩ := hentries i hi
      exact ⟨hge, hlt, hnul⟩
    · exact nomatch hle
  · rintro ⟨hfirst, hmono, hle, hentry⟩
    refine ⟨_, (foldlM_checkEntry hsize le_rfl).2 ⟨fun i hi => ?_, hmono, rfl⟩, ?_⟩
    · refine ⟨hfirst i hi, ?_, (hentry i hi).name_ge, (hentry i hi).name_lt, (hentry i hi).nul⟩
      rw [if_neg (by omega)]
      rcases lt_or_ge i (table.count - 1) with hlt | hge
      · exact hmono i _ hlt (by omega)
      · obtain rfl : i = table.count - 1 := by omega
        exact le_rfl
    · rw [if_pos]
      split
      · omega
      · exact hle _ (by omega)

theorem readTableOfContents_eq_some :
    readTableOfContents package = some table ↔ table.Accepted package := by
  constructor
  · intro h
    rw [readTableOfContents] at h
    split at h
    · exact nomatch h
    rename_i hgood
    simp only [not_or] at hgood
    obtain ⟨hge, hlt, hheader⟩ := hgood
    have hlt : package.length < 2 ^ 32 := by
      by_contra hnot
      exact hlt (by rw [u32TryFrom, if_neg hnot])
    dsimp only at h
    split at h
    · exact nomatch h
    rename_i hstart
    obtain ⟨count, hcount, h⟩ := bind_eq_some_iff.1 h
    split at h
    · exact nomatch h
    rename_i hentries
    obtain ⟨⟨⟩, hcheck, heq⟩ := bind_eq_some_iff.1 h
    obtain rfl := some.inj heq
    have hsize : ofLittleEndian (package.take 2) + (countSize + entrySize * count) ≤
        package.length := by omega
    obtain ⟨hfirst, hmono, hdata, hentry⟩ := (checkEntries_eq_some hsize hlt).1 hcheck
    exact ⟨not_lt.1 hge, hlt, by simpa using hheader, rfl, not_lt.1 hstart,
      (u32At_eq_some.1 hcount).2, hsize, hfirst, hmono, hdata, hentry⟩
  · intro h
    have hstart := h.start_ge
    have hentries := h.entries_le
    have hcheck := (checkEntries_eq_some h.entries_le h.size_lt).2
      ⟨h.first_le, h.mono, h.data_le, h.entry⟩
    have hcount : u32At package table.start = some table.count := by
      refine u32At_eq_some.2 ⟨?_, h.count_eq⟩
      rw [entriesSize, countSize] at hentries
      omega
    rw [readTableOfContents, if_neg, ← h.start_eq, if_neg (not_lt.2 hstart), hcount]
    · simp only [bind_eq_bind, bind_some]
      rw [if_neg (by rw [entriesSize] at hentries; omega), hcheck]
      rfl
    · rw [u32TryFrom, if_pos h.size_lt, h.header]
      simp only [not_or]
      exact ⟨not_lt.2 h.size_ge, nofun, nofun⟩

/-! ### Where the items start -/

theorem startOf_eq (hindex : index < table.count) :
    table.startOf package index = table.start + table.dataOf package index :=
  if_neg (ne_of_lt hindex)

section Items

variable (h : table.Accepted package)

include h

section

variable (hindex : index ≤ table.count)
include hindex

theorem itemStart_eq : table.itemStart package index = some (table.startOf package index) := by
  rw [itemStart, startOf]
  split
  · exact u32TryFrom_eq_some.2 ⟨h.size_lt, rfl⟩
  next hne =>
    rw [dataOffset_eq h.entries_le (lt_of_le_of_ne hindex hne)]
    rfl

theorem startOf_le : table.startOf package index ≤ package.length := by
  rw [startOf]
  split
  · exact le_rfl
  next hne =>
    have hdata := h.data_le index (lt_of_le_of_ne hindex hne)
    have hsize := h.entries_le
    omega

theorem le_startOf : table.start + table.entriesSize ≤ table.startOf package index := by
  rw [startOf]
  split
  · exact h.entries_le
  next hne =>
    exact Nat.add_le_add_left (h.first_le index (lt_of_le_of_ne hindex hne)) _

end

theorem startOf_mono {i j : ℕ} (hij : i ≤ j) (hj : j ≤ table.count) :
    table.startOf package i ≤ table.startOf package j := by
  rcases eq_or_lt_of_le hij with rfl | hlt
  · exact le_rfl
  rcases eq_or_lt_of_le hj with rfl | hj
  · rw [startOf, startOf, if_pos rfl]
    exact startOf_le h (le_of_lt hlt)
  · rw [startOf_eq (hlt.trans hj), startOf_eq hj]
    exact Nat.add_le_add_left (h.mono i j hlt hj) _

end Items

end TableOfContents

end Soup.Trim
