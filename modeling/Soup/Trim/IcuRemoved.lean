import Soup.Trim.IcuWritten

/-!
# Removed items

A removal leaves a package that is accepted, with the items that are kept under their names, and the
dead ranges are in nothing that is left (`removeItems_spec`).
-/

namespace Soup.Trim

open Lib List Nat TableOfContents

variable {package package₁ package₂ package₃ : Bytes} {removedItems tombstonedItems : List Range}
  {removal : PlannedRemoval}

theorem getElem?_length_takeWhile {bytes : Bytes} {p : ℕ} (h : 0 ∈ bytes.drop p) :
    bytes[p + ((bytes.drop p).takeWhile fun byte => byte ≠ 0).length]? = some 0 := by
  rw [← getElem?_drop, ← getElem?_take_of_lt (lt_add_one _), take_takeWhile h]
  exact getElem?_concat_length

namespace TombstoneOk

variable {table : TableOfContents} {tombstone : Tombstone}

theorem firstOwned_lt (h : TombstoneOk table package tombstone) :
    table.firstOwned package tombstone.entries < tombstone.entries.stop := by
  refine lt_of_le_of_ne (firstOwned_le table package h.proper).2 fun heq => ?_
  have hfits := h.fits
  rw [h.start_eq, ownedExtent, heq, tombstoneSize] at hfits
  dsimp only at hfits
  omega

/-- The names end before the tombstones. -/
theorem nameRange_le (h : TombstoneOk table package tombstone) (htidy : Tidy table package)
    {index : ℕ}
    (hindex : index < table.count) : (table.nameRange package index).stop ≤ tombstone.start := by
  rw [h.start_eq]
  exact htidy.before index hindex _ (h.firstOwned_lt.trans_le h.le_count)

end TombstoneOk

/-! ## Passes -/

section Passes

variable (hplan : Planned package removedItems tombstonedItems removal)

include hplan

theorem writeTombstones_ok : ∃ package₁, writeTombstones package removal = .ok package₁ ∧
    Tombstoned removal.table package removal.tombstones package₁ := by
  refine exists_foldlM removal.tombstones ⟨rfl, fun _ _ _ => rfl, forall_mem_nil _,
    fun _ _ => rfl, forall_mem_nil _, fun _ _ _ => rfl⟩ ?_
  intro done tombstone rest hsplit package₁ h
  have hmem : ∀ earlier ∈ done, earlier ∈ removal.tombstones := fun earlier hearlier =>
    hsplit ▸ mem_append_left _ hearlier
  refine h.step hplan.accepted (hplan.tombstone tombstone ?_) fun earlier hearlier =>
    ⟨hplan.tombstone earlier (hmem earlier hearlier), ?_⟩
  · exact hsplit ▸ mem_append_right _ mem_cons_self
  · have hapart := hplan.apart
    rw [hsplit] at hapart
    exact (pairwise_append.1 hapart).2.2 earlier hearlier tombstone mem_cons_self

theorem zeroNames_ok (htidy : Tidy removal.table package)
    (h : Tombstoned removal.table package removal.tombstones package₁) :
    ∃ package₂, zeroNames package₁ removal = .ok package₂ ∧
      Zeroed removal.table package removedItems package₁ package₂ := by
  refine exists_foldlM (P := fun _ => Zeroed removal.table package removedItems package₁)
    removal.deadNames ⟨rfl, fun _ => .inl rfl⟩ ?_
  intro done name rest hsplit package₂ hzeroed
  obtain ⟨index, hremoved, hindex, rfl⟩ :=
    hplan.names name (hsplit ▸ mem_append_right _ mem_cons_self)
  have hentry := hplan.accepted.entry index hindex
  have hlength := h.length
  refine hzeroed.step ?_ hindex hremoved ?_
  · have := hentry.name_lt
    omega
  · rw [h.same _ (.inr ?_) fun tombstone htombstone hin => ?_]
    · exact getElem?_length_takeWhile hentry.nul
    · have := hentry.name_ge
      omega
    · have hle := (hplan.tombstone tombstone htombstone).nameRange_le htidy hindex
      rw [nameRange] at hle
      dsimp only at hle
      omega

omit hplan in
/-- The items that are kept. -/
def PlannedRemoval.kept (removal : PlannedRemoval) : List ℕ :=
  match removal.removedSpans with
  | [] => range removal.table.count
  | span :: spans => range span.start ++ keptBehind removal.table.count (span :: spans)

theorem kept_spec : removal.kept.Pairwise (· < ·) ∧ ∀ i, i ∈ removal.kept ↔
    i < removal.table.count ∧ ¬InRanges removedItems i := by
  simp only [← hplan.removed]
  have hspans := hplan.spans
  rw [PlannedRemoval.kept]
  cases hremoved : removal.removedSpans with
  | nil =>
    refine ⟨pairwise_lt_range, fun i => ?_⟩
    have hnot : ¬InRanges [] i := fun ⟨_, hrange, _⟩ => absurd hrange not_mem_nil
    rw [mem_range, iff_true_intro hnot, and_true]
  | cons span spans =>
    rw [hremoved] at hspans
    obtain ⟨hpairwise, hmem⟩ := keptBehind_spec hspans
    have hproper := hspans.spaced.proper span mem_cons_self
    have hcount := hspans.le_count span mem_cons_self
    have hbehind : ∀ i, InRanges spans i → span.stop ≤ i := by
      rintro i ⟨range, hrange, hi⟩
      have hlt := (pairwise_cons.1 hspans.spaced.pairwise).1 range hrange
      exact (le_of_lt hlt).trans hi.1
    refine ⟨pairwise_append.2 ⟨pairwise_lt_range, hpairwise, fun i hi j hj => ?_⟩, fun i => ?_⟩
    · have hi := mem_range.1 hi
      have hj := ((hmem j).1 hj).1
      omega
    · have hor : InRanges (span :: spans) i ↔ span.Has i ∨ InRanges spans i := by
        rw [← inRanges_singleton, ← inRanges_append]
        rfl
      rw [mem_append, mem_range, hmem, hor, not_or, Range.Has]
      constructor
      · rintro (hlt | ⟨hge, hlt, hnot⟩)
        · refine ⟨by omega, by omega, fun hin => ?_⟩
          have := hbehind i hin
          omega
        · exact ⟨hlt, by omega, hnot⟩
      · rintro ⟨hlt, hnotSpan, hnot⟩
        rcases lt_or_ge i span.start with hbefore | hafter
        · exact .inl hbefore
        · exact .inr ⟨not_lt.1 fun hstop => hnotSpan ⟨hafter, hstop⟩, hlt, hnot⟩

theorem length_kept_le : removal.kept.length ≤ removal.table.count := by
  obtain ⟨hpairwise, hmem⟩ := kept_spec hplan
  have hsub : removal.kept ⊆ range removal.table.count := fun i hi =>
    mem_range.2 ((hmem i).1 hi).1
  have hle := (subperm_of_subset (hpairwise.imp ne_of_lt) hsub).length_le
  rwa [length_range] at hle

theorem compactEntries_ok (hlength : package₂.length = package.length)
    (hcount : u32Of package₂ removal.table.start = removal.table.count) :
    ∃ package₃, compactEntries package₂ removal = .ok package₃ ∧
      Compacted removal.table package₂ removal.kept package₃ := by
  have hspans := hplan.spans
  have hsize := hplan.accepted.entries_le
  have hlt := hplan.accepted.size_lt
  have hkeptLe := length_kept_le hplan
  rw [compactEntries]
  cases hremoved : removal.removedSpans with
  | nil =>
    refine ⟨package₂, rfl, rfl, fun _ _ => rfl, ?_, fun k i hk j _ => ?_⟩
    · rw [PlannedRemoval.kept, hremoved, hcount, length_range]
    · rw [PlannedRemoval.kept, hremoved] at hk
      obtain ⟨hbound, hget⟩ := List.getElem?_eq_some_iff.1 hk
      rw [getElem_range] at hget
      rw [hget]
  | cons span spans =>
    have hkept : removal.kept =
        range span.start ++ keptBehind removal.table.count (span :: spans) := by
      rw [PlannedRemoval.kept, hremoved]
    rw [hremoved] at hspans
    have hstarts : ∀ other ∈ span :: spans, (range span.start).length ≤ other.start := by
      intro other hother
      rw [length_range]
      rcases mem_cons.1 hother with rfl | hother
      · exact le_rfl
      · have hlt := (pairwise_cons.1 hspans.spaced.pairwise).1 other hother
        have hproper := hspans.spaced.proper span mem_cons_self
        omega
    have hmoved : Moved removal.table package₂ (range span.start) package₂ := by
      refine ⟨rfl, fun _ _ => rfl, fun k i hk j _ => ?_⟩
      obtain ⟨hbound, hget⟩ := List.getElem?_eq_some_iff.1 hk
      rw [getElem_range] at hget
      rw [hget]
    obtain ⟨package₄, hrun, hmoved⟩ := compactSpans_ok (hlength ▸ hsize) hspans hstarts hmoved
    rw [length_range, ← hkept] at hrun
    rw [← hkept] at hmoved
    have hcountLt : removal.table.count < 2 ^ 32 := by
      rw [entriesSize_eq] at hsize
      omega
    obtain ⟨package₅, package₆, hfill, hcopy, hcompacted⟩ :=
      hmoved.compacted hkeptLe (hlength ▸ hsize) hcountLt
    refine ⟨package₆, ?_, hcompacted⟩
    rw [head?_cons]
    dsimp only
    rw [hrun, ok_bind]
    rw [hfill, ok_bind]
    exact hcopy

end Passes

/-! ## Where the items start then -/

section Starts

variable {table : TableOfContents} {tombstone : Tombstone}

theorem TombstoneOk.between (hok : TombstoneOk table package tombstone)
    (haccepted : table.Accepted package) :
    table.startOf package tombstone.entries.start ≤ tombstone.start ∧
      tombstone.start ≤ table.startOf package tombstone.entries.stop := by
  rw [hok.start_eq]
  exact ⟨startOf_le_ownedExtent haccepted hok.proper hok.le_count,
    ownedExtent_le haccepted hok.proper hok.le_count⟩

variable (hplan : Planned package removedItems tombstonedItems removal)

include hplan

/-- Two tombstones are the same one, or their entries are apart. -/
theorem tombstones_apart {a b : Tombstone} (ha : a ∈ removal.tombstones)
    (hb : b ∈ removal.tombstones) :
    a = b ∨ a.entries.stop < b.entries.start ∨ b.entries.stop < a.entries.start := by
  have happly := List.Pairwise.forall_of_forall_of_flip
    (R := fun a b : Tombstone =>
      a = b ∨ a.entries.stop < b.entries.start ∨ b.entries.stop < a.entries.start)
    (fun _ _ => .inl rfl) (hplan.apart.imp fun hlt => .inr (.inl hlt))
    (hplan.apart.imp fun hlt => .inr (.inr hlt))
  exact happly ha hb

variable (h : Tombstoned removal.table package removal.tombstones package₁)

include h

/-- An item starts at its tombstone, or where it started before. -/
theorem start_cases {i : ℕ} (hi : i < removal.table.count) :
    (∃ tombstone ∈ removal.tombstones, tombstone.entries.Has i ∧
      removal.table.start + removal.table.dataOf package₁ i = tombstone.start) ∨
    (∀ tombstone ∈ removal.tombstones, ¬tombstone.entries.Has i) ∧
      removal.table.start + removal.table.dataOf package₁ i = removal.table.startOf package i := by
  by_cases hin : ∃ tombstone ∈ removal.tombstones, tombstone.entries.Has i
  · obtain ⟨tombstone, htombstone, hhas⟩ := hin
    have hge := (hplan.tombstone tombstone htombstone).start_ge hplan.accepted
    refine .inl ⟨tombstone, htombstone, hhas, ?_⟩
    rw [h.moved tombstone htombstone i hhas]
    omega
  · have hnot : ∀ tombstone ∈ removal.tombstones, ¬tombstone.entries.Has i :=
      fun tombstone htombstone hhas => hin ⟨tombstone, htombstone, hhas⟩
    refine .inr ⟨hnot, ?_⟩
    rw [h.data i hi hnot, startOf_eq hi]

theorem dataOf_bounds {i : ℕ} (hi : i < removal.table.count) :
    removal.table.entriesSize ≤ removal.table.dataOf package₁ i ∧
      removal.table.dataOf package₁ i ≤ package.length - removal.table.start := by
  rcases start_cases hplan h hi with ⟨tombstone, htombstone, -, hstart⟩ | ⟨-, hstart⟩
  · have hok := hplan.tombstone tombstone htombstone
    have hge := hok.start_ge hplan.accepted
    have hle := hok.le_length hplan.accepted
    rw [tombstoneSize] at hle
    omega
  · have hge := le_startOf hplan.accepted (le_of_lt hi)
    have hle := startOf_le hplan.accepted (le_of_lt hi)
    omega

theorem dataOf_mono {i j : ℕ} (hij : i < j) (hj : j < removal.table.count) :
    removal.table.dataOf package₁ i ≤ removal.table.dataOf package₁ j := by
  have hmono : ∀ {i j : ℕ}, i ≤ j → j ≤ removal.table.count →
      removal.table.startOf package i ≤ removal.table.startOf package j :=
    fun hij hj => startOf_mono hplan.accepted hij hj
  rcases start_cases hplan h (hij.trans hj) with ⟨a, ha, hai, hstart⟩ | ⟨hnot, hstart⟩ <;>
    rcases start_cases hplan h hj with ⟨b, hb, hbj, hstart'⟩ | ⟨hnot', hstart'⟩
  · have haOk := hplan.tombstone a ha
    have hbOk := hplan.tombstone b hb
    rcases tombstones_apart hplan ha hb with rfl | hlt | hlt
    · omega
    · have hle := hmono (le_of_lt hlt) ((le_of_lt hbOk.proper).trans hbOk.le_count)
      have := (haOk.between hplan.accepted).2
      have := (hbOk.between hplan.accepted).1
      omega
    · have := hai.1
      have := hbj.2
      omega
  · have haOk := hplan.tombstone a ha
    have hge : a.entries.stop ≤ j := not_lt.1 fun hlt =>
      hnot' a ha ⟨hai.1.trans (le_of_lt hij), hlt⟩
    have hle := hmono hge (le_of_lt hj)
    have := (haOk.between hplan.accepted).2
    omega
  · have hbOk := hplan.tombstone b hb
    have hle : i ≤ b.entries.start := le_of_lt (not_le.1 fun hge =>
      hnot b hb ⟨hge, hij.trans hbj.2⟩)
    have hle := hmono hle ((le_of_lt hbOk.proper).trans hbOk.le_count)
    have := (hbOk.between hplan.accepted).1
    omega
  · have hle := hmono (le_of_lt hij) (le_of_lt hj)
    omega

end Starts

/-! ## What is left -/

/-- An item is not removed, and no tombstone takes its place. -/
def Untouched (removedItems : List Range) (tombstones : List Tombstone) (index : ℕ) : Prop :=
  ¬InRanges removedItems index ∧ ∀ tombstone ∈ tombstones, ¬tombstone.entries.Has index

/-- The package that is left: the items that are kept, under their names, and their bytes. -/
structure Remains (table : TableOfContents) (package : Bytes) (removedItems : List Range)
    (tombstones : List Tombstone) (table' : TableOfContents) (package' : Bytes) (kept : List ℕ) :
    Prop where
  length : package'.length = package.length
  start : table'.start = table.start
  count : table'.count = kept.length
  ascending : kept.Pairwise (· < ·)
  mem_kept : ∀ i, i ∈ kept ↔ i < table.count ∧ ¬InRanges removedItems i
  name : ∀ k i, kept[k]? = some i → table'.nameBytes package' k = table.nameBytes package i
  start_eq : ∀ k i, kept[k]? = some i → Untouched removedItems tombstones i →
    table'.startOf package' k = table.startOf package i
  data : ∀ i ∈ kept, Untouched removedItems tombstones i → ∀ x, table.InItem package i x →
    package'[x]? = package[x]?
  tombstone : ∀ tombstone ∈ tombstones,
    (package'.drop tombstone.start).take tombstoneSize = tombstoneBytes
  moved : ∀ k i, kept[k]? = some i → ∀ tombstone ∈ tombstones, tombstone.entries.Has i →
    table'.startOf package' k = tombstone.start

/-- The dead ranges are in nothing that is left. -/
structure Unused (table : TableOfContents) (package : Bytes) (removedItems : List Range)
    (tombstones : List Tombstone) (dead : List Range) : Prop where
  spaced : Spaced dead
  inside : ∀ range ∈ dead, range.stop ≤ package.length
  entries : ∀ x, InRanges dead x → table.start + table.entriesSize ≤ x
  name : ∀ x, InRanges dead x → ∀ i < table.count, ¬(table.nameRange package i).Has x
  tombstone : ∀ x, InRanges dead x → ∀ tombstone ∈ tombstones,
    ¬(tombstone.start ≤ x ∧ x < tombstone.start + tombstoneSize)
  data : ∀ x, InRanges dead x → ∀ i < table.count, Untouched removedItems tombstones i →
    ¬table.InItem package i x

section Remains

variable (hplan : Planned package removedItems tombstonedItems removal)

include hplan

theorem unused (htidy : Tidy removal.table package) :
    Unused removal.table package removedItems removal.tombstones removal.deadRanges := by
  have hspan : ∀ span ∈ removal.removedSpans, span.start < span.stop ∧
      span.stop ≤ removal.table.count := fun span hspan =>
    ⟨hplan.spans.spaced.proper span hspan, hplan.spans.le_count span hspan⟩
  -- a dead byte is behind the start of an item
  have hstart : ∀ x, InRanges removal.deadRanges x → ∃ j < removal.table.count,
      removal.table.startOf package j ≤ x ∧ x < package.length := by
    intro x hx
    rcases (hplan.dead_iff x).1 hx with ⟨tombstone, htombstone, hx⟩ | ⟨span, hmem, hx⟩
    · have hok := hplan.tombstone tombstone htombstone
      refine ⟨_, hok.firstOwned_lt.trans_le hok.le_count, ?_, ?_⟩
      · have hle : tombstone.start ≤ x := (le_add_right _ _).trans hx.1
        rwa [hok.start_eq] at hle
      · exact hx.2.trans_le (startOf_le hplan.accepted hok.le_count)
    · obtain ⟨hproper, hcount⟩ := hspan span hmem
      refine ⟨_, ?_, hx.1, hx.2.trans_le (startOf_le hplan.accepted hcount)⟩
      refine lt_of_lt_of_le (lt_of_le_of_ne
        (firstOwned_le removal.table package hproper).2 fun heq => ?_) hcount
      have hlt := hx.1.trans_lt hx.2
      rw [ownedExtent, heq] at hlt
      exact absurd hlt (lt_irrefl _)
  refine ⟨hplan.dead, fun range hrange => ?_, fun x hx => ?_, fun x hx i hi hname => ?_,
    fun x hx tombstone htombstone hin => ?_, fun x hx i hi huntouched hitem => ?_⟩
  · have hproper := hplan.dead.proper range hrange
    obtain ⟨_, -, -, hlt⟩ := hstart (range.stop - 1) ⟨range, hrange, by omega, by omega⟩
    omega
  · obtain ⟨j, hj, hle, -⟩ := hstart x hx
    exact (le_startOf hplan.accepted (le_of_lt hj)).trans hle
  · obtain ⟨j, hj, hle, -⟩ := hstart x hx
    exact absurd (hname.2.trans_le ((htidy.before i hi j hj).trans hle)) (lt_irrefl _)
  · have hok := hplan.tombstone tombstone htombstone
    rcases (hplan.dead_iff x).1 hx with ⟨other, hother, hx⟩ | ⟨span, hmem, hx⟩
    · have hotherOk := hplan.tombstone other hother
      have hotherLe : other.start ≤ x := (le_add_right _ _).trans hx.1
      have hextent := hx.2
      rcases tombstones_apart hplan htombstone hother with rfl | hlt | hlt
      · exact absurd (hin.2.trans_le hx.1) (lt_irrefl _)
      · have hle := not_has_ownedExtent_of_le hplan.accepted hotherOk.proper
          hotherOk.le_count (le_of_lt hlt)
        rw [← hotherOk.start_eq] at hle
        exact absurd (hin.2.trans_le (hok.fits.trans (hle.trans hotherLe))) (lt_irrefl _)
      · have hle := not_has_ownedExtent_of_le hplan.accepted hok.proper
          hok.le_count (le_of_lt hlt)
        rw [← hok.start_eq] at hle
        exact absurd (hextent.trans_le (hle.trans hin.1)) (lt_irrefl _)
    · obtain ⟨hproper, hcount⟩ := hspan span hmem
      rcases apart_of_not_has hok.proper hproper fun y hy hy' =>
        hplan.disjoint y ((hplan.removed y).1 ⟨span, hmem, hy'⟩)
          (hplan.tombstoned tombstone htombstone y hy) with hle | hle
      · have hle := not_has_ownedExtent_of_le hplan.accepted hproper hcount hle
        exact absurd (hin.2.trans_le (hok.fits.trans (hle.trans hx.1))) (lt_irrefl _)
      · have hle := not_has_ownedExtent_of_le hplan.accepted hok.proper
          hok.le_count hle
        rw [← hok.start_eq] at hle
        exact absurd (hx.2.trans_le (hle.trans hin.1)) (lt_irrefl _)
  · rcases (hplan.dead_iff x).1 hx with ⟨tombstone, htombstone, hx⟩ | ⟨span, hmem, hx⟩
    · have hok := hplan.tombstone tombstone htombstone
      refine not_has_ownedExtent hplan.accepted hok.proper hok.le_count
        (le_of_lt hi) (huntouched.2 tombstone htombstone) hitem ⟨?_, hx.2⟩
      rw [← hok.start_eq]
      exact (le_add_right _ _).trans hx.1
    · obtain ⟨hproper, hcount⟩ := hspan span hmem
      exact not_has_ownedExtent hplan.accepted hproper hcount (le_of_lt hi)
        (fun hhas => huntouched.1 ((hplan.removed i).1 ⟨span, hmem, hhas⟩)) hitem hx

variable (htidy : Tidy removal.table package)
  (h₁ : Tombstoned removal.table package removal.tombstones package₁)
  (h₂ : Zeroed removal.table package removedItems package₁ package₂)
  (h₃ : Compacted removal.table package₂ removal.kept package₃)

include h₁ h₂ h₃

omit h₁ h₃ in
/-- The names are behind the entries. -/
theorem same_of_lt {x : ℕ} (hx : x < removal.table.start + removal.table.entriesSize) :
    package₂[x]? = package₁[x]? := by
  rcases h₂.same x with hsame | ⟨-, index, hindex, -, hhas⟩
  · exact hsame
  · have hge := (hplan.accepted.entry index hindex).name_ge
    have hstart := hhas.1
    rw [nameRange] at hstart
    dsimp only at hstart
    omega

/-- The entry of an item that is kept. -/
theorem entry_eq {k i : ℕ} (hk : removal.kept[k]? = some i) :
    removal.table.nameOf package₃ k = removal.table.nameOf package i ∧
      removal.table.dataOf package₃ k = removal.table.dataOf package₁ i := by
  have hi := (((kept_spec hplan).2 i).1 (mem_of_getElem? hk)).1
  have hsame : ∀ j < 8, package₃[removal.table.entryPosition k + j]? =
      package₁[removal.table.entryPosition i + j]? := by
    intro j hj
    rw [h₃.entry k i hk j hj]
    refine same_of_lt hplan h₂ ?_
    rw [entryPosition_eq, entriesSize_eq]
    omega
  constructor
  · rw [← h₁.name i hi]
    exact u32Of_congr fun j hj => hsame j (by omega)
  · refine u32Of_congr fun j hj => ?_
    rw [add_assoc, add_assoc]
    exact hsame _ (by rw [dataOffsetField]; omega)

include htidy

/-- The name of an item that is kept stays as it is. -/
theorem name_eq {k i : ℕ} (hk : removal.kept[k]? = some i) :
    removal.table.nameBytes package₃ k = removal.table.nameBytes package i ∧
      0 ∈ package₃.drop (removal.table.start + removal.table.nameOf package i) := by
  obtain ⟨hi, hkept⟩ := ((kept_spec hplan).2 i).1 (mem_of_getElem? hk)
  have hentry := hplan.accepted.entry i hi
  rw [nameBytes, (entry_eq hplan h₁ h₂ h₃ hk).1]
  refine takeWhile_congr hentry.nul fun j hj => ?_
  have hge := hentry.name_ge
  have hin : (removal.table.nameRange package i).Has
      (removal.table.start + removal.table.nameOf package i + j) :=
    ⟨Nat.le_add_right _ _, Nat.lt_succ_of_le (Nat.add_le_add_left hj _)⟩
  rw [h₃.same _ (.inr (by omega))]
  have hzeroed : package₂[removal.table.start + removal.table.nameOf package i + j]? =
      package₁[removal.table.start + removal.table.nameOf package i + j]? := by
    rcases h₂.same _ with hsame | ⟨-, index, hindex, hremoved, hhas⟩
    · exact hsame
    · rcases lt_trichotomy index i with hlt | rfl | hlt
      · rcases htidy.apart index i hlt hi with hle | hle
        · exact absurd (hhas.2.trans_le (hle.trans hin.1)) (lt_irrefl _)
        · exact absurd (hin.2.trans_le (hle.trans hhas.1)) (lt_irrefl _)
      · exact absurd hremoved hkept
      · rcases htidy.apart i index hlt hindex with hle | hle
        · exact absurd (hin.2.trans_le (hle.trans hhas.1)) (lt_irrefl _)
        · exact absurd (hhas.2.trans_le (hle.trans hin.1)) (lt_irrefl _)
  rw [hzeroed]
  refine h₁.same _ (.inr (by omega)) fun tombstone htombstone htomb => ?_
  have hle := (hplan.tombstone tombstone htombstone).nameRange_le htidy hi
  exact absurd (hin.2.trans_le (hle.trans htomb.1)) (lt_irrefl _)

/-- A byte behind the names stays as it is, where no tombstone is written. -/
theorem byte_eq {i x : ℕ} (hi : i < removal.table.count) (hx : removal.table.startOf package i ≤ x)
    (hnot : ∀ tombstone ∈ removal.tombstones,
      ¬(tombstone.start ≤ x ∧ x < tombstone.start + tombstoneSize)) :
    package₃[x]? = package[x]? := by
  have hge := (le_startOf hplan.accepted (le_of_lt hi)).trans hx
  rw [h₃.same x (.inr hge), ← h₁.same x (.inr hge) hnot]
  rcases h₂.same x with hsame | ⟨-, index, hindex, -, hhas⟩
  · exact hsame
  · exact absurd (hhas.2.trans_le ((htidy.before index hindex i hi).trans hx)) (lt_irrefl _)

theorem remains : Remains removal.table package removedItems removal.tombstones
    ⟨removal.table.start, removal.kept.length⟩ package₃ removal.kept := by
  obtain ⟨hascending, hmem⟩ := kept_spec hplan
  have hlength : package₃.length = package.length := h₃.length.trans (h₂.length.trans h₁.length)
  have hstart : ∀ k i, removal.kept[k]? = some i →
      startOf ⟨removal.table.start, removal.kept.length⟩ package₃ k =
        removal.table.start + removal.table.dataOf package₁ i := by
    intro k i hk
    rw [← (entry_eq hplan h₁ h₂ h₃ hk).2]
    exact startOf_eq (List.getElem?_eq_some_iff.1 hk).1
  refine ⟨hlength, rfl, rfl, hascending, hmem, fun k i hk => (name_eq hplan htidy h₁ h₂ h₃ hk).1,
    fun k i hk huntouched => ?_, fun i hi huntouched x hx => ?_, fun tombstone htombstone => ?_,
    fun k i hk tombstone htombstone hhas => ?_⟩
  · obtain ⟨hi, -⟩ := (hmem i).1 (mem_of_getElem? hk)
    rw [hstart k i hk, h₁.data i hi huntouched.2, startOf_eq hi]
  · obtain ⟨hi, -⟩ := (hmem i).1 hi
    refine byte_eq hplan htidy h₁ h₂ h₃ hi hx.1 fun tombstone htombstone hin => ?_
    have hok := hplan.tombstone tombstone htombstone
    refine not_has_ownedExtent hplan.accepted hok.proper hok.le_count
      (le_of_lt hi) (huntouched.2 tombstone htombstone) hx ⟨?_, hin.2.trans_le hok.fits⟩
    rw [← hok.start_eq]
    exact hin.1
  · have hok := hplan.tombstone tombstone htombstone
    have hge := hok.start_ge hplan.accepted
    have hlt := hok.firstOwned_lt.trans_le hok.le_count
    rw [← h₁.bytes tombstone htombstone]
    refine take_drop_congr fun j _ => ?_
    rw [h₃.same _ (.inr (by omega))]
    rcases h₂.same (tombstone.start + j) with hsame | ⟨-, index, hindex, -, hhas⟩
    · exact hsame
    · have hle := hok.nameRange_le htidy hindex
      exact absurd (hhas.2.trans_le (hle.trans (le_add_right _ j))) (lt_irrefl _)
  · have hok := hplan.tombstone tombstone htombstone
    have hge := hok.start_ge hplan.accepted
    rw [hstart k i hk, h₁.moved tombstone htombstone i hhas]
    omega

theorem accepted :
    TableOfContents.Accepted ⟨removal.table.start, removal.kept.length⟩ package₃ := by
  have haccepted := hplan.accepted
  have hremains := remains hplan htidy h₁ h₂ h₃
  have hlength := hremains.length
  obtain ⟨hascending, hmem⟩ := kept_spec hplan
  have hkeptLe := length_kept_le hplan
  have hsize : entriesSize ⟨removal.table.start, removal.kept.length⟩ ≤
      removal.table.entriesSize := by
    rw [entriesSize_eq, entriesSize_eq]
    exact Nat.add_le_add_left (Nat.mul_le_mul_left 8 hkeptLe) 4
  have hsame : ∀ x < removal.table.start, package₃[x]? = package[x]? := by
    intro x hx
    rw [h₃.same x (.inl hx), same_of_lt hplan h₂ (by omega)]
    refine h₁.same x (.inl ?_) fun tombstone htombstone hin => ?_
    · rw [entryPosition_eq]
      omega
    · have hge := (hplan.tombstone tombstone htombstone).start_ge haccepted
      omega
  have hstartGe := haccepted.start_ge
  rw [minimumHeaderSize] at hstartGe
  have hwindow : ∀ p n, p + n ≤ 20 → (package₃.drop p).take n = (package.drop p).take n :=
    fun p n hp => take_drop_congr fun j hj => hsame _ (by omega)
  have hentry : ∀ k, k < removal.kept.length → ∃ i, removal.kept[k]? = some i ∧
      i < removal.table.count := by
    intro k hk
    have hget : removal.kept[k]? = some removal.kept[k] := getElem?_eq_getElem hk
    exact ⟨_, hget, ((hmem _).1 (mem_of_getElem? hget)).1⟩
  refine ⟨hlength ▸ haccepted.size_ge, hlength ▸ haccepted.size_lt, ?_, ?_, haccepted.start_ge,
    h₃.count, ?_, fun k hk => ?_, fun k l hkl hl => ?_, fun k hk => ?_, fun k hk => ?_⟩
  · rw [← haccepted.header, hasCommonDataHeader, hwindow 2 2 (by omega), hwindow 8 2 (by omega),
      hwindow 12 5 (by omega)]
    rfl
  · have htake := hwindow 0 2 (by omega)
    rw [drop_zero, drop_zero] at htake
    rw [htake]
    exact haccepted.start_eq
  · rw [hlength]
    exact (Nat.add_le_add_left hsize _).trans haccepted.entries_le
  · obtain ⟨i, hget, hi⟩ := hentry k hk
    exact hsize.trans ((dataOf_bounds hplan h₁ hi).1.trans_eq (entry_eq hplan h₁ h₂ h₃ hget).2.symm)
  · obtain ⟨i, hget, hi⟩ := hentry k (hkl.trans hl)
    obtain ⟨j, hget', hj⟩ := hentry l hl
    have hij : i < j := by
      obtain ⟨hk', rfl⟩ := List.getElem?_eq_some_iff.1 hget
      obtain ⟨hl', rfl⟩ := List.getElem?_eq_some_iff.1 hget'
      exact pairwise_iff_getElem.1 hascending k l hk' hl' hkl
    exact (entry_eq hplan h₁ h₂ h₃ hget).2.trans_le ((dataOf_mono hplan h₁ hij hj).trans_eq
      (entry_eq hplan h₁ h₂ h₃ hget').2.symm)
  · obtain ⟨i, hget, hi⟩ := hentry k hk
    rw [hlength]
    exact (entry_eq hplan h₁ h₂ h₃ hget).2.trans_le (dataOf_bounds hplan h₁ hi).2
  · obtain ⟨i, hget, hi⟩ := hentry k hk
    have hname := (entry_eq hplan h₁ h₂ h₃ hget).1
    have hold := haccepted.entry i hi
    refine ⟨hsize.trans (hold.name_ge.trans_eq hname.symm), ?_, ?_⟩
    · rw [hlength]
      exact hname.trans_lt hold.name_lt
    · have hnul := (name_eq hplan htidy h₁ h₂ h₃ hget).2
      rw [← hname] at hnul
      exact hnul

end Remains

/-- A removal fails and changes nothing, or leaves a package that is accepted, with all that is not
removed. -/
theorem removeItems_spec {table : TableOfContents} (h : readTableOfContents package = some table)
    (htidy : Tidy table package) (removedItems tombstonedItems : List Range) :
    removeItems package removedItems tombstonedItems = .ok (.error .malformedIcuData, package) ∨
    ∃ dead package' table' kept tombstones,
      removeItems package removedItems tombstonedItems = .ok (.ok dead, package') ∧
      readTableOfContents package' = some table' ∧
      Remains table package removedItems tombstones table' package' kept ∧
      Unused table package removedItems tombstones dead ∧
      ∀ tombstone ∈ tombstones, ∀ i, tombstone.entries.Has i → InRanges tombstonedItems i := by
  rw [removeItems]
  cases hremoval : planRemoval package removedItems tombstonedItems with
  | none => exact .inl rfl
  | some removal =>
    have hplan := planned_of_planRemoval hremoval
    have htable := (readTableOfContents_eq_some.2 hplan.accepted).symm.trans h
    obtain rfl := Option.some.inj htable
    obtain ⟨package₁, hrun₁, h₁⟩ := writeTombstones_ok hplan
    obtain ⟨package₂, hrun₂, h₂⟩ := zeroNames_ok hplan htidy h₁
    have hcount : u32Of package₂ removal.table.start = removal.table.count := by
      rw [← hplan.accepted.count_eq]
      refine u32Of_congr fun j hj => ?_
      have hsize := entriesSize_eq removal.table
      rw [same_of_lt hplan h₂ (by omega)]
      refine h₁.same _ (.inl (by rw [entryPosition_eq]; omega)) ?_
      intro tombstone htombstone hin
      have hge := (hplan.tombstone tombstone htombstone).start_ge hplan.accepted
      omega
    obtain ⟨package₃, hrun₃, h₃⟩ := compactEntries_ok hplan (h₂.length.trans h₁.length) hcount
    refine .inr ⟨removal.deadRanges, package₃, ⟨removal.table.start, removal.kept.length⟩,
      removal.kept, removal.tombstones, ?_, readTableOfContents_eq_some.2
        (accepted hplan htidy h₁ h₂ h₃), remains hplan htidy h₁ h₂ h₃, unused hplan htidy,
        hplan.tombstoned⟩
    dsimp only
    rw [hrun₁, ok_bind, hrun₂, ok_bind, hrun₃, ok_bind]

/-- A package with three items: the names `a`, `b` and `c`, and 2, 3 and 18 bytes. -/
def threeItems : Bytes :=
  [32, 0, 0xda, 0x27, 0, 0, 0, 0, 0, 0, 0, 0] ++ text "CmnD" ++ [1] ++ replicate 15 0 ++
    [3, 0, 0, 0, 28, 0, 0, 0, 34, 0, 0, 0, 30, 0, 0, 0, 36, 0, 0, 0, 32, 0, 0, 0, 39, 0, 0, 0] ++
    text "a" ++ [0] ++ text "b" ++ [0] ++ text "c" ++ [0] ++ [1, 2] ++ [3, 4, 5] ++ replicate 18 6

/-- The second item is removed, and the third one gets a tombstone. -/
theorem removeItems_spec_three : ∃ dead package' table' kept tombstones,
    removeItems threeItems [⟨1, 2⟩] [⟨2, 3⟩] = .ok (.ok dead, package') ∧
    readTableOfContents package' = some table' ∧
    Remains ⟨32, 3⟩ threeItems [⟨1, 2⟩] tombstones table' package' kept ∧
    Unused ⟨32, 3⟩ threeItems [⟨1, 2⟩] tombstones dead ∧
    ∀ tombstone ∈ tombstones, ∀ i, tombstone.entries.Has i → InRanges [⟨2, 3⟩] i := by
  have hascending : ∀ j < 3, ∀ i < j, nameBytes ⟨32, 3⟩ threeItems i <
      nameBytes ⟨32, 3⟩ threeItems j := by decide +kernel
  have hapart : ∀ j < 3, ∀ i < j, (nameRange ⟨32, 3⟩ threeItems i).stop ≤
      (nameRange ⟨32, 3⟩ threeItems j).start := by decide +kernel
  have htidy : Tidy ⟨32, 3⟩ threeItems :=
    ⟨fun i j hij hj => hascending j hj i hij, fun i j hij hj => .inl (hapart j hj i hij),
      by decide +kernel⟩
  exact (removeItems_spec (by decide +kernel) htidy [⟨1, 2⟩] [⟨2, 3⟩]).resolve_left
    (by decide +kernel)

end Soup.Trim
