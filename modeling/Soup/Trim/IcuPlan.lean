import Mathlib.Data.List.Sort
import Soup.Lib.Run
import Soup.Lib.SortByKey
import Soup.Trim.IcuRuns

/-!
# The plan of a removal

A plan that is made does what it should (`planned_of_planRemoval`): the dead ranges are the bytes
that the removed spans own, and those behind the tombstones.
-/

namespace Soup.Trim

open Lib List TableOfContents

/-! ## Ranges that are sorted -/

/-- No number is in both ranges. -/
theorem apart_of_not_has {a b : Range} (ha : a.start < a.stop) (hb : b.start < b.stop)
    (hnot : ∀ x, a.Has x → ¬b.Has x) : a.stop ≤ b.start ∨ b.stop ≤ a.start := by
  by_contra h
  rw [not_or, not_le, not_le] at h
  rcases le_total a.start b.start with hle | hle
  · exact hnot b.start ⟨hle, h.1⟩ ⟨le_rfl, hb⟩
  · exact hnot a.start ⟨le_rfl, ha⟩ ⟨hle, h.2⟩

theorem rising_mergeSort {ranges : List Range}
    (hproper : ∀ range ∈ ranges, range.start < range.stop)
    (hapart : ranges.Pairwise fun a b => a.stop ≤ b.start ∨ b.stop ≤ a.start) :
    Rising (ranges.mergeSort fun a b => decide (a.start ≤ b.start)) := by
  refine ⟨fun range hrange => hproper range (mem_mergeSort.1 hrange),
    (pairwise_mergeSort_key (fun h => h.symm) hapart).imp_of_mem ?_⟩
  rintro a b - hb ⟨hle, hab | hba⟩
  · exact hab
  · have hb := hproper b (mem_mergeSort.1 hb)
    omega

/-! ## What the tables give -/

section Plan

variable {table : TableOfContents} {package : Bytes} {spans : List Range}

/-- Spans of items of a table. -/
structure Spans (table : TableOfContents) (spans : List Range) : Prop where
  spaced : Spaced spans
  le_count : ∀ span ∈ spans, span.stop ≤ table.count

section

variable (hspans : Spans table spans)
include hspans

section

variable (h : table.Accepted package)
include h

theorem Spans.ownedExtents :
    (spans.map (table.ownedExtent package)).Pairwise fun a b => a.stop ≤ b.start := by
  rw [pairwise_map]
  refine hspans.spaced.pairwise.imp_of_mem fun {a b} _ hb hab => ?_
  exact not_has_ownedExtent_of_le h (hspans.spaced.proper b hb)
    (hspans.le_count b hb) (le_of_lt hab)

theorem Spans.mapM_findOwnedExtent :
    spans.mapM (table.findOwnedExtent package) = some (spans.map (table.ownedExtent package)) :=
  mapM_some fun span hspan => findOwnedExtent_eq h (hspans.spaced.proper span hspan)
    (hspans.le_count span hspan)

theorem findDeadRanges_spec :
    ∃ dead, table.findDeadRanges package spans = some dead ∧ Rising dead ∧
      ∀ x, InRanges dead x ↔ ∃ span ∈ spans, (table.ownedExtent package span).Has x := by
  rw [findDeadRanges, hspans.mapM_findOwnedExtent h]
  have hrising : Rising ((spans.map (table.ownedExtent package)).filter
      fun extent => !extent.isEmpty) := by
    refine ⟨fun extent hextent => ?_, (hspans.ownedExtents h).filter _⟩
    have hnot := of_mem_filter hextent
    rwa [Bool.not_eq_true', Range.isEmpty, decide_eq_false_iff_not, not_le] at hnot
  obtain ⟨hspaced, hhas, -⟩ := mergeAdjacent_spec hrising
  refine ⟨_, rfl, hspaced.rising, fun x => (hhas x).trans ?_⟩
  constructor
  · rintro ⟨extent, hextent, hx⟩
    obtain ⟨span, hspan, rfl⟩ := mem_map.1 (mem_of_mem_filter hextent)
    exact ⟨span, hspan, hx⟩
  · rintro ⟨span, hspan, hx⟩
    refine ⟨_, mem_filter.2 ⟨mem_map_of_mem hspan, ?_⟩, hx⟩
    rw [Bool.not_eq_true', Range.isEmpty, decide_eq_false_iff_not]
    exact not_le.2 (hx.1.trans_lt hx.2)

end

end

/-- A tombstone of a span: it is in the bytes that the span owns. -/
structure TombstoneOk (table : TableOfContents) (package : Bytes) (tombstone : Tombstone) :
    Prop where
  proper : tombstone.entries.start < tombstone.entries.stop
  le_count : tombstone.entries.stop ≤ table.count
  start_eq : tombstone.start = (table.ownedExtent package tombstone.entries).start
  fits : tombstone.start + tombstoneSize ≤ (table.ownedExtent package tombstone.entries).stop

/-- The bytes of a span that are behind its tombstone. -/
def restOf (table : TableOfContents) (package : Bytes) (tombstone : Tombstone) : Range :=
  ⟨tombstone.start + tombstoneSize, (table.ownedExtent package tombstone.entries).stop⟩

/-- The spans that own enough bytes for a tombstone. -/
def longSpans (table : TableOfContents) (package : Bytes) (spans : List Range) : List Range :=
  spans.filter fun span => !((table.ownedExtent package span).stop -
    (table.ownedExtent package span).start < tombstoneSize)

def tombstoneOf (table : TableOfContents) (package : Bytes) (span : Range) : Tombstone :=
  ⟨span, (table.ownedExtent package span).start⟩

theorem tombstonesOf_eq (spans : List Range) :
    tombstonesOf (spans.zip (spans.map (table.ownedExtent package))) =
      ((longSpans table package spans).map (tombstoneOf table package),
        ((longSpans table package spans).map fun span =>
          restOf table package (tombstoneOf table package span)).filter
            fun deadRange => !deadRange.isEmpty) := by
  rw [← map_prod_left_eq_zip, tombstonesOf, filter_map, map_map, map_map]
  rfl

section

variable (hspans : Spans table spans)
include hspans

section

variable (h : table.Accepted package)
include h

theorem tombstoneOk {span : Range} (hspan : span ∈ longSpans table package spans) :
    TombstoneOk table package (tombstoneOf table package span) := by
  obtain ⟨hmem, hlong⟩ := mem_filter.1 hspan
  have hproper := hspans.spaced.proper span hmem
  have hcount := hspans.le_count span hmem
  refine ⟨hproper, hcount, rfl, ?_⟩
  rw [Bool.not_eq_true', decide_eq_false_iff_not] at hlong
  have hle := ownedExtent_le h hproper hcount
  rw [tombstoneOf]
  dsimp only
  omega

theorem findTombstones_spec :
    ∃ tombstones dead, table.findTombstones package spans = some (tombstones, dead) ∧
      (∀ tombstone ∈ tombstones, TombstoneOk table package tombstone ∧ tombstone.entries ∈ spans) ∧
      tombstones.Pairwise (fun a b => a.entries.stop < b.entries.start) ∧ Rising dead ∧
      ∀ x, InRanges dead x ↔ ∃ tombstone ∈ tombstones, (restOf table package tombstone).Has x := by
  rw [findTombstones, hspans.mapM_findOwnedExtent h]
  simp only [Option.bind_eq_bind, Option.bind_some]
  rw [tombstonesOf_eq]
  have hlong : (longSpans table package spans).Pairwise fun a b => a.stop < b.start :=
    hspans.spaced.pairwise.filter _
  refine ⟨_, _, rfl, fun tombstone htombstone => ?_, pairwise_map.2 hlong,
    ⟨fun dead hdead => ?_, ?_⟩, fun x => ?_⟩
  · obtain ⟨span, hspan, rfl⟩ := mem_map.1 htombstone
    exact ⟨tombstoneOk hspans h hspan, mem_of_mem_filter hspan⟩
  · have hnot := of_mem_filter hdead
    rwa [Bool.not_eq_true', Range.isEmpty, decide_eq_false_iff_not, not_le] at hnot
  · refine List.Pairwise.filter _ (pairwise_map.2 (hlong.imp_of_mem fun {a b} _ hb hab => ?_))
    obtain ⟨hb, -⟩ := mem_filter.1 hb
    have hle := not_has_ownedExtent_of_le h (hspans.spaced.proper b hb)
      (hspans.le_count b hb) (le_of_lt hab)
    exact hle.trans (Nat.le_add_right _ _)
  · constructor
    · rintro ⟨dead, hdead, hx⟩
      obtain ⟨span, hspan, rfl⟩ := mem_map.1 (mem_of_mem_filter hdead)
      exact ⟨_, mem_map_of_mem hspan, hx⟩
    · rintro ⟨tombstone, htombstone, hx⟩
      obtain ⟨span, hspan, rfl⟩ := mem_map.1 htombstone
      refine ⟨_, mem_filter.2 ⟨mem_map_of_mem hspan, ?_⟩, hx⟩
      rw [Bool.not_eq_true', Range.isEmpty, decide_eq_false_iff_not]
      exact not_le.2 (hx.1.trans_lt hx.2)

theorem findDeadNames_spec :
    ∃ names, table.findDeadNames package spans = some names ∧ ∀ name ∈ names, ∃ index,
      InRanges spans index ∧ index < table.count ∧ name = table.nameOf package index := by
  have hone : ∀ span ∈ spans, table.findDeadNamesOf package span =
      some ((span.indexes.map (table.nameOf package)).filter fun name =>
        (if span.start = 0 then none else table.nameOffset package (span.start - 1)) ≠ some name ∧
          table.nameOffset package span.stop ≠ some name) := by
    intro span hspan
    have hcount := hspans.le_count span hspan
    have hnames : span.indexes.mapM (table.nameOffset package) =
        some (span.indexes.map (table.nameOf package)) :=
      mapM_some fun index hindex => nameOffset_eq h.entries_le
        ((mem_indexes.1 hindex).2.trans_le hcount)
    rw [findDeadNamesOf, hnames]
    rfl
  rw [findDeadNames, mapM_some hone]
  refine ⟨_, rfl, fun name hname => ?_⟩
  obtain ⟨names, hnames, hname⟩ := mem_flatten.1 hname
  obtain ⟨span, hspan, rfl⟩ := mem_map.1 hnames
  obtain ⟨index, hindex, rfl⟩ := mem_map.1 (mem_of_mem_filter hname)
  have hhas := mem_indexes.1 hindex
  exact ⟨index, ⟨span, hspan, hhas⟩, hhas.2.trans_le (hspans.le_count span hspan), rfl⟩

end

end

end Plan

/-! ## The plan -/

/-- A plan that removes some items, and puts tombstones in place of others. -/
structure Planned (package : Bytes) (removedItems tombstonedItems : List Range)
    (removal : PlannedRemoval) : Prop where
  accepted : removal.table.Accepted package
  spans : Spans removal.table removal.removedSpans
  removed : ∀ x, InRanges removal.removedSpans x ↔ InRanges removedItems x
  tombstone : ∀ tombstone ∈ removal.tombstones, TombstoneOk removal.table package tombstone
  tombstoned : ∀ tombstone ∈ removal.tombstones, ∀ x, tombstone.entries.Has x →
    InRanges tombstonedItems x
  apart : removal.tombstones.Pairwise fun a b => a.entries.stop < b.entries.start
  disjoint : ∀ x, InRanges removedItems x → ¬InRanges tombstonedItems x
  names : ∀ name ∈ removal.deadNames, ∃ index, InRanges removedItems index ∧
    index < removal.table.count ∧ name = removal.table.nameOf package index
  dead : Spaced removal.deadRanges
  dead_iff : ∀ x, InRanges removal.deadRanges x ↔
    (∃ tombstone ∈ removal.tombstones, (restOf removal.table package tombstone).Has x) ∨
      ∃ span ∈ removal.removedSpans, (removal.table.ownedExtent package span).Has x

theorem spans_mergeAdjacent {table : TableOfContents} {runs : List Range}
    (h : checkRuns 0 table.count runs = some ()) : Spans table (mergeAdjacent runs) ∧
      ∀ x, InRanges (mergeAdjacent runs) x ↔ InRanges runs x := by
  obtain ⟨hrising, hbounds, -⟩ := rising_of_checkRuns h
  obtain ⟨hspaced, hhas, hstop⟩ := mergeAdjacent_spec hrising
  refine ⟨⟨hspaced, fun span hspan => ?_⟩, hhas⟩
  obtain ⟨run, hrun, hle⟩ := hstop span hspan
  exact hle.trans (hbounds run hrun).2

theorem planned_of_planRemoval {package : Bytes} {removedItems tombstonedItems : List Range}
    {removal : PlannedRemoval}
    (h : planRemoval package removedItems tombstonedItems = some removal) :
    Planned package removedItems tombstonedItems removal := by
  rw [planRemoval] at h
  obtain ⟨table, htable, h⟩ := Option.bind_eq_some_iff.1 h
  obtain ⟨⟨⟩, hremoved, h⟩ := Option.bind_eq_some_iff.1 h
  obtain ⟨⟨⟩, htombstoned, h⟩ := Option.bind_eq_some_iff.1 h
  obtain ⟨⟨⟩, hdisjoint, h⟩ := Option.bind_eq_some_iff.1 h
  have haccepted := readTableOfContents_eq_some.1 htable
  obtain ⟨hspans, hspansIff⟩ := spans_mergeAdjacent hremoved
  obtain ⟨htspans, htspansIff⟩ := spans_mergeAdjacent htombstoned
  have hnot : ∀ x, InRanges removedItems x → ¬InRanges tombstonedItems x :=
    not_inRanges_of_checkDisjoint hdisjoint (rising_of_checkRuns hremoved).1
      (rising_of_checkRuns htombstoned).1
  obtain ⟨tombstones, tombstonedDead, htombstones, hok, hapart, hrising, hrest⟩ :=
    findTombstones_spec htspans haccepted
  obtain ⟨removedDead, hdead, hrising', hextents⟩ := findDeadRanges_spec hspans haccepted
  obtain ⟨names, hnames, hnamesOf⟩ := findDeadNames_spec hspans haccepted
  dsimp only at h
  rw [htombstones] at h
  simp only [Option.bind_eq_bind, Option.bind_some] at h
  rw [hdead, Option.bind_some, hnames, Option.bind_some] at h
  obtain rfl := Option.some.inj h
  -- the spans of the two kinds have no item in common, and so own no byte in common
  have hcross : ∀ x, InRanges tombstonedDead x → ¬InRanges removedDead x := by
    intro x hx hx'
    obtain ⟨tombstone, htombstone, hx⟩ := (hrest x).1 hx
    obtain ⟨span, hspan, hx'⟩ := (hextents x).1 hx'
    obtain ⟨hok, hentries⟩ := hok tombstone htombstone
    have hproper := hspans.spaced.proper span hspan
    have hstart : (table.ownedExtent package tombstone.entries).start ≤ x := by
      rw [← hok.start_eq]
      exact (Nat.le_add_right _ _).trans hx.1
    rcases apart_of_not_has hok.proper hproper fun y hy hy' =>
      hnot y ((hspansIff y).1 ⟨span, hspan, hy'⟩) ((htspansIff y).1 ⟨_, hentries, hy⟩) with hle
        | hle
    · have hle := not_has_ownedExtent_of_le haccepted hproper
        (hspans.le_count span hspan) hle
      exact absurd (hx.2.trans_le (hle.trans hx'.1)) (lt_irrefl _)
    · have hle := not_has_ownedExtent_of_le haccepted hok.proper hok.le_count hle
      exact absurd (hx'.2.trans_le (hle.trans hstart)) (lt_irrefl _)
  have hsorted :
      Rising ((tombstonedDead ++ removedDead).mergeSort fun a b => a.start ≤ b.start) := by
    refine rising_mergeSort (fun range hrange => ?_) (pairwise_append.2
      ⟨hrising.pairwise.imp fun hle => .inl hle, hrising'.pairwise.imp fun hle => .inl hle,
        fun a ha b hb => ?_⟩)
    · exact (mem_append.1 hrange).elim (hrising.proper range) (hrising'.proper range)
    · exact apart_of_not_has (hrising.proper a ha) (hrising'.proper b hb)
        fun x hx hx' => hcross x ⟨a, ha, hx⟩ ⟨b, hb, hx'⟩
  obtain ⟨hspaced, hhas, -⟩ := mergeAdjacent_spec hsorted
  refine ⟨haccepted, hspans, hspansIff, fun tombstone htombstone => (hok tombstone htombstone).1,
    fun tombstone htombstone x hx => (htspansIff x).1 ⟨_, (hok tombstone htombstone).2, hx⟩, hapart,
      hnot,
    fun name hname => ?_, hspaced, fun x => (hhas x).trans ?_⟩
  · obtain ⟨index, hindex, hrest⟩ := hnamesOf name hname
    exact ⟨index, (hspansIff index).1 hindex, hrest⟩
  · rw [← hrest, ← hextents, ← inRanges_append]
    simp only [InRanges, mem_mergeSort]

end Soup.Trim
