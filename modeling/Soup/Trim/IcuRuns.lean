import Mathlib.Data.List.Induction
import Soup.Trim.IcuTable

/-!
# Runs and spans

Runs that are in order stay so when they are merged, and none of the merged ones touches the next
(`mergeAdjacent_spec`). The bytes that a span owns are in no item outside of it
(`TableOfContents.not_has_ownedExtent`).
-/

namespace Soup.Trim

open Lib List

def Range.Has (range : Range) (x : ℕ) : Prop := range.start ≤ x ∧ x < range.stop

/-- `x` is in one of the ranges. -/
def InRanges (ranges : List Range) (x : ℕ) : Prop := ∃ range ∈ ranges, range.Has x

/-- Ranges that are not empty, one behind the other. -/
structure Rising (ranges : List Range) : Prop where
  proper : ∀ range ∈ ranges, range.start < range.stop
  pairwise : ranges.Pairwise fun a b => a.stop ≤ b.start

/-- Ranges that are not empty, one behind the other and none next to another one. -/
structure Spaced (ranges : List Range) : Prop where
  proper : ∀ range ∈ ranges, range.start < range.stop
  pairwise : ranges.Pairwise fun a b => a.stop < b.start

variable {range : Range} {ranges left right : List Range} {x bound : ℕ}

theorem inRanges_append : InRanges (left ++ right) x ↔ InRanges left x ∨ InRanges right x := by
  constructor
  · rintro ⟨range, hrange, hx⟩
    rcases mem_append.1 hrange with hrange | hrange
    · exact .inl ⟨range, hrange, hx⟩
    · exact .inr ⟨range, hrange, hx⟩
  · rintro (⟨range, hrange, hx⟩ | ⟨range, hrange, hx⟩)
    · exact ⟨range, mem_append_left _ hrange, hx⟩
    · exact ⟨range, mem_append_right _ hrange, hx⟩

theorem inRanges_singleton : InRanges [range] x ↔ range.Has x := by
  constructor
  · rintro ⟨other, hother, hx⟩
    rwa [mem_singleton.1 hother] at hx
  · exact fun hx => ⟨range, mem_singleton_self _, hx⟩

theorem mem_indexes : x ∈ range.indexes ↔ range.Has x := by
  rw [Range.indexes, mem_range'_1, Range.Has]
  omega

theorem Rising.tail (h : Rising (range :: ranges)) : Rising ranges :=
  ⟨fun r hr => h.proper r (mem_cons_of_mem _ hr), (pairwise_cons.1 h.pairwise).2⟩

theorem Spaced.rising (h : Spaced ranges) : Rising ranges :=
  ⟨h.proper, h.pairwise.imp fun hlt => le_of_lt hlt⟩

theorem spaced_nil : Spaced [] := ⟨forall_mem_nil _, List.Pairwise.nil⟩

/-! ## Checks -/

theorem rising_of_checkRuns : ∀ {runs : List Range} {previousEnd count : ℕ},
    checkRuns previousEnd count runs = some () → Rising runs ∧
      (∀ run ∈ runs, previousEnd ≤ run.start ∧ run.stop ≤ count) ∧ previousEnd ≤ count
  | [], previousEnd, count, h => by
    rw [checkRuns] at h
    split at h
    next hle =>
      exact ⟨spaced_nil.rising, forall_mem_nil _, hle⟩
    · cases h
  | run :: runs, previousEnd, count, h => by
    rw [checkRuns] at h
    split at h
    · cases h
    rename_i hgood
    rw [not_or, Range.isEmpty, decide_eq_true_eq] at hgood
    obtain ⟨hrising, hbounds, hle⟩ := rising_of_checkRuns h
    refine ⟨⟨?_, pairwise_cons.2 ⟨fun other hother => (hbounds other hother).1,
      hrising.pairwise⟩⟩, ?_, by omega⟩
    · intro other hother
      rcases mem_cons.1 hother with rfl | hother
      · exact not_le.1 hgood.1
      · exact hrising.proper other hother
    · intro other hother
      rcases mem_cons.1 hother with rfl | hother
      · exact ⟨not_lt.1 hgood.2, hle⟩
      · obtain ⟨hstart, hstop⟩ := hbounds other hother
        exact ⟨by omega, hstop⟩

theorem Rising.start_le {run : Range} {runs : List Range} (h : Rising (run :: runs)) :
    ∀ range ∈ run :: runs, run.start ≤ range.start := by
  have hproper := h.proper run mem_cons_self
  exact forall_mem_cons.2 ⟨le_rfl, fun range hrange =>
    hproper.le.trans ((pairwise_cons.1 h.pairwise).1 range hrange)⟩

theorem not_inRanges_of_checkDisjoint : ∀ {left right : List Range},
    checkDisjoint left right = some () → Rising left → Rising right →
      ∀ x, InRanges left x → ¬InRanges right x
  | [], _, _, _, _, _ => by
    rintro ⟨range, hrange, -⟩
    exact absurd hrange not_mem_nil
  | _ :: _, [], _, _, _, _ => by
    rintro - ⟨range, hrange, -⟩
    exact absurd hrange not_mem_nil
  | run :: left, other :: right, h, hleft, hright, x => by
    rw [checkDisjoint] at h
    split at h
    next hle =>
      rintro ⟨range, hrange, hx⟩ hother
      rcases mem_cons.1 hrange with rfl | hrange
      · obtain ⟨range', hrange', hx'⟩ := hother
        have hstart := hright.start_le range' hrange'
        exact absurd (hx.2.trans_le (hle.trans (hstart.trans hx'.1))) (lt_irrefl _)
      · exact not_inRanges_of_checkDisjoint h hleft.tail hright x ⟨range, hrange, hx⟩ hother
    · split at h
      next hle =>
        rintro hrun ⟨range, hrange, hx⟩
        rcases mem_cons.1 hrange with rfl | hrange
        · obtain ⟨range', hrange', hx'⟩ := hrun
          have hstart := hleft.start_le range' hrange'
          exact absurd (hx.2.trans_le (hle.trans (hstart.trans hx'.1))) (lt_irrefl _)
        · exact not_inRanges_of_checkDisjoint h hleft hright.tail x hrun ⟨range, hrange, hx⟩
      · cases h
  termination_by left right => left.length + right.length

/-! ## Merging -/

theorem pushMerged_spec (h : Spaced ranges) (hproper : range.start < range.stop)
    (hle : ∀ earlier ∈ ranges, earlier.stop ≤ range.start) :
    Spaced (pushMerged ranges range) ∧
      (∀ x, InRanges (pushMerged ranges range) x ↔ InRanges ranges x ∨ range.Has x) ∧
      ∀ merged ∈ pushMerged ranges range, merged.stop ≤ range.stop := by
  rcases eq_nil_or_concat ranges with rfl | ⟨before, last, rfl⟩
  · refine ⟨⟨?_, pairwise_singleton _ _⟩, fun x => ?_, ?_⟩
    · intro other hother
      rwa [mem_singleton.1 hother]
    · rw [pushMerged, getLast?_nil]
      rw [inRanges_singleton]
      exact ⟨.inr, fun hx => hx.resolve_left fun ⟨other, hother, _⟩ => absurd hother not_mem_nil⟩
    · intro other hother
      rw [mem_singleton.1 hother]
  · rw [concat_eq_append] at h hle ⊢
    obtain ⟨hbefore, -, hlast⟩ := pairwise_append.1 h.pairwise
    have hlastProper := h.proper last (mem_append_right _ (mem_singleton_self _))
    have hstop := hle last (mem_append_right _ (mem_singleton_self _))
    have hlt : ∀ earlier ∈ before, earlier.stop < last.start := fun earlier hearlier =>
      hlast earlier hearlier last (mem_singleton_self _)
    rw [pushMerged, getLast?_concat]
    dsimp only
    split
    next heq =>
      rw [dropLast_concat]
      refine ⟨⟨?_, ?_⟩, fun x => ?_, ?_⟩
      · intro other hother
        rcases mem_append.1 hother with hother | hother
        · exact h.proper other (mem_append_left _ hother)
        · rw [mem_singleton.1 hother]
          exact hlastProper.trans (heq ▸ hproper)
      · refine pairwise_append.2 ⟨hbefore, pairwise_singleton _ _, ?_⟩
        intro earlier hearlier other hother
        rw [mem_singleton.1 hother]
        exact hlt earlier hearlier
      · rw [inRanges_append, inRanges_append, inRanges_singleton, inRanges_singleton, or_assoc]
        refine or_congr_right ?_
        simp only [Range.Has]
        omega
      · intro other hother
        rcases mem_append.1 hother with hother | hother
        · have := hlt other hother
          omega
        · rw [mem_singleton.1 hother]
    next hne =>
      refine ⟨⟨?_, pairwise_append.2 ⟨h.pairwise, pairwise_singleton _ _, ?_⟩⟩, fun x => ?_, ?_⟩
      · intro other hother
        rcases mem_append.1 hother with hother | hother
        · exact h.proper other hother
        · rwa [mem_singleton.1 hother]
      · intro earlier hearlier other hother
        rw [mem_singleton.1 hother]
        rcases mem_append.1 hearlier with hearlier | hearlier
        · exact (hlt earlier hearlier).trans (hlastProper.trans_le hstop)
        · rw [mem_singleton.1 hearlier]
          exact lt_of_le_of_ne hstop hne
      · rw [inRanges_append, inRanges_singleton]
      · intro other hother
        rcases mem_append.1 hother with hother | hother
        · exact (hle other hother).trans (le_of_lt hproper)
        · rw [mem_singleton.1 hother]

theorem mergeAdjacent_concat (ranges : List Range) (range : Range) :
    mergeAdjacent (ranges ++ [range]) = pushMerged (mergeAdjacent ranges) range := by
  rw [mergeAdjacent, foldl_append]
  rfl

/-- The merged ranges have the same numbers. -/
theorem mergeAdjacent_spec (h : Rising ranges) : Spaced (mergeAdjacent ranges) ∧
    (∀ x, InRanges (mergeAdjacent ranges) x ↔ InRanges ranges x) ∧
    ∀ merged ∈ mergeAdjacent ranges, ∃ range ∈ ranges, merged.stop ≤ range.stop := by
  induction ranges using reverseRecOn with
  | nil => exact ⟨spaced_nil, fun x => Iff.rfl, forall_mem_nil _⟩
  | append_singleton ranges range ih =>
    obtain ⟨hpairwise, -, hlast⟩ := pairwise_append.1 h.pairwise
    obtain ⟨hspaced, hhas, hstop⟩ :=
      ih ⟨fun r hr => h.proper r (mem_append_left _ hr), hpairwise⟩
    have hmem : range ∈ ranges ++ [range] := mem_append_right _ (mem_singleton_self _)
    obtain ⟨hspaced', hhas', hstop'⟩ := pushMerged_spec hspaced (h.proper range hmem)
      fun earlier hearlier => by
        obtain ⟨other, hother, hle⟩ := hstop earlier hearlier
        exact hle.trans (hlast other hother range (mem_singleton_self _))
    rw [mergeAdjacent_concat]
    refine ⟨hspaced', fun x => ?_, fun merged hmerged => ⟨range, hmem, hstop' merged hmerged⟩⟩
    rw [hhas', hhas, inRanges_append, inRanges_singleton]

/-! ## The bytes that a span owns -/

namespace TableOfContents

variable (table : TableOfContents) (package : Bytes)

/-- A byte of an item: it is behind the start of the item, and before every later start. -/
def InItem (index x : ℕ) : Prop :=
  table.startOf package index ≤ x ∧
    ∀ j ≤ table.count, table.startOf package index < table.startOf package j →
      x < table.startOf package j

/-- The first item of a span that does not start where the item before the span does. -/
def firstOwned (span : Range) : ℕ :=
  (span.indexes.find? fun index => table.itemStart package index ≠
    if span.start = 0 then none else table.itemStart package (span.start - 1)).getD span.stop

def ownedExtent (span : Range) : Range :=
  ⟨table.startOf package (table.firstOwned package span), table.startOf package span.stop⟩

variable {table package} {span : Range}

variable (table package) in
theorem firstOwned_le (hproper : span.start < span.stop) :
    span.start ≤ table.firstOwned package span ∧ table.firstOwned package span ≤ span.stop := by
  rw [firstOwned]
  cases hfind : span.indexes.find? _ with
  | none => exact ⟨le_of_lt hproper, le_rfl⟩
  | some index =>
    have hmem := mem_indexes.1 (mem_of_find?_eq_some hfind)
    exact ⟨hmem.1, le_of_lt hmem.2⟩

section Extents

variable (h : table.Accepted package) (hproper : span.start < span.stop)
  (hstop : span.stop ≤ table.count)

include h hproper hstop

theorem findOwnedExtent_eq :
    table.findOwnedExtent package span = some (table.ownedExtent package span) := by
  have hfirst := firstOwned_le table package hproper
  rw [findOwnedExtent]
  change (table.itemStart package (table.firstOwned package span)).bind _ = _
  rw [itemStart_eq h (hfirst.2.trans hstop), itemStart_eq h hstop]
  rfl

theorem ownedExtent_le : (table.ownedExtent package span).start ≤
    (table.ownedExtent package span).stop :=
  startOf_mono h (firstOwned_le table package hproper).2 hstop

theorem startOf_le_ownedExtent : table.startOf package span.start ≤
    (table.ownedExtent package span).start :=
  startOf_mono h (firstOwned_le table package hproper).1
    ((firstOwned_le table package hproper).2.trans hstop)

/-- The items before the span start before the bytes that it owns. -/
theorem startOf_lt_ownedExtent (hnonempty : (table.ownedExtent package span).start <
    (table.ownedExtent package span).stop) {index : ℕ} (hindex : index < span.start) :
    table.startOf package index < (table.ownedExtent package span).start := by
  have hle : table.startOf package index ≤ table.startOf package (span.start - 1) :=
    startOf_mono h (by omega) (by omega)
  refine hle.trans_lt (lt_of_le_of_ne ?_ ?_)
  · have hfirst := firstOwned_le table package hproper
    exact startOf_mono h (by omega) (by omega)
  · cases hfind : span.indexes.find? fun index => table.itemStart package index ≠
        if span.start = 0 then none else table.itemStart package (span.start - 1) with
    | none =>
      rw [ownedExtent, firstOwned, hfind] at hnonempty
      exact absurd hnonempty (lt_irrefl _)
    | some first =>
      have hlt := (mem_indexes.1 (mem_of_find?_eq_some hfind)).2
      have hne := find?_some hfind
      rw [decide_eq_true_eq] at hne
      rw [if_neg (by omega), itemStart_eq h (by omega), itemStart_eq h (by omega)] at hne
      rw [ownedExtent, firstOwned, hfind]
      exact fun heq => hne (congrArg some heq.symm)

/-- No item outside of the span has a byte of it. -/
theorem not_has_ownedExtent {index x : ℕ} (hindex : index ≤ table.count) (hnot : ¬span.Has index)
    (hx : table.InItem package index x) : ¬(table.ownedExtent package span).Has x := by
  rintro ⟨hstart, hlt⟩
  rcases lt_or_ge index span.start with hbefore | hafter
  · have hbelow := startOf_lt_ownedExtent h hproper hstop (hstart.trans_lt hlt) hbefore
    have hfirst := (firstOwned_le table package hproper).2
    have := hx.2 (table.firstOwned package span) (hfirst.trans hstop) hbelow
    exact absurd (this.trans_le hstart) (lt_irrefl _)
  · have hge : span.stop ≤ index := not_lt.1 fun hlt => hnot ⟨hafter, hlt⟩
    exact absurd (hlt.trans_le ((startOf_mono h hge hindex).trans hx.1)) (lt_irrefl _)

end Extents

/-- Spans without a common item own no byte in common. -/
theorem not_has_ownedExtent_of_le (h : table.Accepted package) {a b : Range}
    (hb : b.start < b.stop) (hstop : b.stop ≤ table.count) (hab : a.stop ≤ b.start) :
    (table.ownedExtent package a).stop ≤ (table.ownedExtent package b).start :=
  (startOf_mono h hab (by omega)).trans (startOf_le_ownedExtent h hb hstop)

end TableOfContents

end Soup.Trim
