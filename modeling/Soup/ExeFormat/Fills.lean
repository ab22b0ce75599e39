import Soup.ExeFormat.CutModel

/-!
# Fills

A fill is between the cuts, and a byte of an element that may be filled is in a cut or in a fill
(`computeFills_spec`). The sweep drops a cut when it ends before the element does, so that the later
elements do not need it.
-/

namespace Soup.ExeFormat

open List

def AddressRange.Has (range : AddressRange) (x : ℕ) : Prop := range.start ≤ x ∧ x < range.stop

/-- One range ends before the other starts. -/
def AddressRange.Before (a b : AddressRange) : Prop := a.stop ≤ b.start

/-- Ranges with bytes, in order and apart. -/
structure Ordered (ranges : List AddressRange) : Prop where
  pairwise : ranges.Pairwise AddressRange.Before
  proper : ∀ range ∈ ranges, range.start < range.stop

def Apart (a b : AddressRange) : Prop := a.Before b ∨ b.Before a

section Ordered

variable {a : AddressRange} {ranges : List AddressRange}

theorem Ordered.tail (h : Ordered (a :: ranges)) : Ordered ranges :=
  ⟨(pairwise_cons.1 h.pairwise).2, fun r hr => h.proper r (mem_cons_of_mem _ hr)⟩

theorem Ordered.before (h : Ordered (a :: ranges)) : ∀ b ∈ ranges, a.stop ≤ b.start :=
  (pairwise_cons.1 h.pairwise).1

theorem Ordered.of_append {left : List AddressRange} (h : Ordered (left ++ ranges)) :
    Ordered ranges :=
  ⟨(pairwise_append.1 h.pairwise).2.1, fun r hr => h.proper r (mem_append_right _ hr)⟩

end Ordered

/-! ## One element -/

/-- Fills of an element from `start` on. -/
structure FillsOf (element : RemovableBytes) (start : ℕ) (cuts : List AddressRange)
    (fills : List Fill) : Prop where
  canBeFilled : ∀ fill ∈ fills, element.canBeFilled = true ∧ fill.isCode = element.isCode
  within : ∀ fill ∈ fills, start ≤ fill.range.start ∧ fill.range.stop ≤ element.range.stop
  ordered : Ordered (fills.map Fill.range)
  apart : ∀ fill ∈ fills, ∀ cut ∈ cuts, Apart fill.range cut
  covers : element.canBeFilled = true → ∀ x, start ≤ x → x < element.range.stop →
    (∃ cut ∈ cuts, cut.Has x) ∨ ∃ fill ∈ fills, fill.range.Has x

section Element

variable {element : RemovableBytes} {start stop : ℕ} {cuts : List AddressRange}

theorem mem_pushFill {fill : Fill} (h : fill ∈ pushFill element start stop) :
    element.canBeFilled = true ∧ fill = ⟨⟨start, stop⟩, element.isCode⟩ ∧ start < stop := by
  rw [pushFill] at h
  split at h
  next hcond =>
    exact ⟨hcond.1, mem_singleton.1 h, hcond.2⟩
  · cases h

theorem pushFill_covers (hfill : element.canBeFilled = true) {x : ℕ} (hx : start ≤ x)
    (hstop : x < stop) : ∃ fill ∈ pushFill element start stop, fill.range.Has x := by
  rw [pushFill, if_pos ⟨hfill, lt_of_le_of_lt hx hstop⟩]
  exact ⟨_, mem_singleton_self _, hx, hstop⟩

theorem ordered_pushFill : Ordered ((pushFill element start stop).map Fill.range) := by
  refine ⟨?_, fun range hrange => ?_⟩
  · rw [pushFill]
    split <;> simp
  · obtain ⟨fill, hfill, rfl⟩ := mem_map.1 hrange
    obtain ⟨-, rfl, hlt⟩ := mem_pushFill hfill
    exact hlt

/-- No cut is left in the element. -/
theorem fillsOf_rest (hcuts : ∀ cut ∈ cuts, element.range.stop ≤ cut.start) :
    FillsOf element start cuts (pushFill element start element.range.stop) := by
  refine ⟨fun fill h => ?_, fun fill h => ?_, ordered_pushFill, fun fill h cut hcut => ?_,
    fun hfill x hx hstop => .inr (pushFill_covers hfill hx hstop)⟩
  all_goals obtain ⟨hcan, rfl, -⟩ := mem_pushFill h
  · exact ⟨hcan, rfl⟩
  · exact ⟨le_rfl, le_rfl⟩
  · exact .inl (hcuts cut hcut)

theorem fillElement_spec : ∀ (cuts : List AddressRange) (start : ℕ), Ordered cuts →
    FillsOf element start cuts (fillElement element start cuts).1 ∧
      ∃ dropped, cuts = dropped ++ (fillElement element start cuts).2 ∧
        ∀ cut ∈ dropped, cut.stop ≤ element.range.stop
  | [], start, _ => ⟨fillsOf_rest (by simp), [], rfl, by simp⟩
  | cut :: cuts, start, h => by
    have hproper := h.proper cut mem_cons_self
    rw [fillElement]
    by_cases hpast : cut.start ≥ element.range.stop
    · rw [if_pos hpast]
      refine ⟨fillsOf_rest fun other hother => ?_, [], rfl, by simp⟩
      rcases mem_cons.1 hother with rfl | hother
      · exact hpast
      · have := h.before other hother
        omega
    rw [if_neg hpast]
    -- what is pushed before the cut, and behind it
    have hboth : ∀ {fills : List Fill}, FillsOf element (max start cut.stop) cuts fills →
        FillsOf element start (cut :: cuts) (pushFill element start cut.start ++ fills) := by
      intro fills hfills
      refine ⟨fun fill hmem => ?_, fun fill hmem => ?_, ⟨?_, ?_⟩, fun fill hmem other hother => ?_,
        fun hfill x hx hstop => ?_⟩
      · rcases mem_append.1 hmem with hmem | hmem
        · obtain ⟨hcan, rfl, -⟩ := mem_pushFill hmem
          exact ⟨hcan, rfl⟩
        · exact hfills.canBeFilled fill hmem
      · rcases mem_append.1 hmem with hmem | hmem
        · obtain ⟨-, rfl, -⟩ := mem_pushFill hmem
          exact ⟨le_rfl, by dsimp only; omega⟩
        · have := hfills.within fill hmem
          omega
      · rw [map_append, pairwise_append]
        refine ⟨ordered_pushFill.pairwise, hfills.ordered.pairwise, fun a ha b hb => ?_⟩
        obtain ⟨fill, hmem, rfl⟩ := mem_map.1 ha
        obtain ⟨-, rfl, -⟩ := mem_pushFill hmem
        obtain ⟨other, hother, rfl⟩ := mem_map.1 hb
        have := (hfills.within other hother).1
        show cut.start ≤ other.range.start
        omega
      · intro range hrange
        rw [map_append] at hrange
        rcases mem_append.1 hrange with hrange | hrange
        · exact ordered_pushFill.proper range hrange
        · exact hfills.ordered.proper range hrange
      · rcases mem_append.1 hmem with hpushed | hlater
        · obtain ⟨-, rfl, -⟩ := mem_pushFill hpushed
          refine .inl ?_
          rcases mem_cons.1 hother with rfl | hother
          · exact le_rfl
          · have := h.before other hother
            show cut.start ≤ other.start
            omega
        · rcases mem_cons.1 hother with rfl | hother
          · have := (hfills.within fill hlater).1
            exact .inr (show other.stop ≤ fill.range.start by omega)
          · exact hfills.apart fill hlater other hother
      · rcases lt_or_ge x cut.start with hlt | hge
        · obtain ⟨fill, hmem, hhas⟩ := pushFill_covers hfill hx hlt
          exact .inr ⟨fill, mem_append_left _ hmem, hhas⟩
        · rcases lt_or_ge x cut.stop with hlt' | hge'
          · exact .inl ⟨cut, mem_cons_self, hge, hlt'⟩
          · rcases hfills.covers hfill x (by omega) hstop with ⟨other, hother, hhas⟩
              | ⟨fill, hmem, hhas⟩
            · exact .inl ⟨other, mem_cons_of_mem _ hother, hhas⟩
            · exact .inr ⟨fill, mem_append_right _ hmem, hhas⟩
    by_cases hlonger : cut.stop > element.range.stop
    · rw [if_pos hlonger]
      refine ⟨hboth (fillsOf_rest fun other hother => ?_), [], rfl, by simp⟩
      have := h.before other hother
      omega
    · rw [if_neg hlonger]
      obtain ⟨hfills, dropped, hdropped, hstops⟩ :=
        fillElement_spec cuts (max start cut.stop) h.tail
      refine ⟨hboth hfills, cut :: dropped, congrArg (cut :: ·) hdropped, fun other hother => ?_⟩
      rcases mem_cons.1 hother with rfl | hother
      · exact not_lt.1 hlonger
      · exact hstops other hother

end Element

/-! ## All elements -/

/-- Elements in order. -/
def OrderedElements (removable : List RemovableBytes) : Prop :=
  Ordered (removable.map RemovableBytes.range)

variable {rest : List RemovableBytes} {element : RemovableBytes}

theorem OrderedElements.tail
    (h : OrderedElements (element :: rest)) : OrderedElements rest := Ordered.tail h

theorem OrderedElements.before (h : OrderedElements (element :: rest)) :
    ∀ other ∈ rest, element.range.stop ≤ other.range.start := fun _ hother =>
  Ordered.before h _ (mem_map_of_mem hother)

/-- Fills of some elements. -/
structure FillsOfAll (removable : List RemovableBytes) (cuts : List AddressRange)
    (fills : List Fill) : Prop where
  within : ∀ fill ∈ fills, ∃ element ∈ removable, element.canBeFilled = true ∧
    fill.isCode = element.isCode ∧ element.range.start ≤ fill.range.start ∧
      fill.range.stop ≤ element.range.stop
  ordered : Ordered (fills.map Fill.range)
  apart : ∀ fill ∈ fills, ∀ cut ∈ cuts, Apart fill.range cut
  covers : ∀ element ∈ removable, element.canBeFilled = true → ∀ x, element.range.Has x →
    (∃ cut ∈ cuts, cut.Has x) ∨ ∃ fill ∈ fills, fill.isCode = element.isCode ∧ fill.range.Has x

theorem computeFills_spec : ∀ (removable : List RemovableBytes) (cuts : List AddressRange),
    OrderedElements removable → Ordered cuts →
      FillsOfAll removable cuts (computeFills removable cuts)
  | [], _, _, _ => ⟨by simp [computeFills], ⟨by simp [computeFills], by simp [computeFills]⟩,
      by simp [computeFills], by simp⟩
  | element :: rest, cuts, hremovable, hcuts => by
    obtain ⟨hfills, dropped, hdropped, hstops⟩ :=
      @fillElement_spec element cuts element.range.start hcuts
    rw [computeFills]
    generalize fillElement element element.range.start cuts = result at hfills hdropped
    obtain ⟨fills, left⟩ := result
    have hrest := computeFills_spec rest left hremovable.tail (hdropped ▸ hcuts).of_append
    have hlater : ∀ fill ∈ computeFills rest left, element.range.stop ≤ fill.range.start := by
      intro fill hmem
      obtain ⟨other, hother, -, -, hstart, -⟩ := hrest.within fill hmem
      exact (hremovable.before other hother).trans hstart
    refine ⟨fun fill hmem => ?_, ⟨?_, fun range hrange => ?_⟩, fun fill hmem cut hcut => ?_,
      fun other hother hfill x hx => ?_⟩
    · rcases mem_append.1 hmem with hmem | hmem
      · obtain ⟨hcan, hcode⟩ := hfills.canBeFilled fill hmem
        exact ⟨element, mem_cons_self, hcan, hcode, hfills.within fill hmem⟩
      · obtain ⟨other, hother, hspec⟩ := hrest.within fill hmem
        exact ⟨other, mem_cons_of_mem _ hother, hspec⟩
    · rw [map_append, pairwise_append]
      refine ⟨hfills.ordered.pairwise, hrest.ordered.pairwise, fun a ha b hb => ?_⟩
      obtain ⟨fill, hmem, rfl⟩ := mem_map.1 ha
      obtain ⟨other, hother, rfl⟩ := mem_map.1 hb
      exact (hfills.within fill hmem).2.trans (hlater other hother)
    · rw [map_append] at hrange
      rcases mem_append.1 hrange with hrange | hrange
      · exact hfills.ordered.proper range hrange
      · exact hrest.ordered.proper range hrange
    · rcases mem_append.1 hmem with hmem | hmem
      · exact hfills.apart fill hmem cut hcut
      · rw [hdropped] at hcut
        rcases mem_append.1 hcut with hcut | hcut
        · exact .inr ((hstops cut hcut).trans (hlater fill hmem))
        · exact hrest.apart fill hmem cut hcut
    · rcases mem_cons.1 hother with rfl | hother
      · rcases hfills.covers hfill x hx.1 hx.2 with hcut | ⟨fill, hmem, hhas⟩
        · exact .inl hcut
        · exact .inr ⟨fill, mem_append_left _ hmem, (hfills.canBeFilled fill hmem).2, hhas⟩
      · rcases hrest.covers other hother hfill x hx with ⟨cut, hcut, hhas⟩ | ⟨fill, hmem, hspec⟩
        · exact .inl ⟨cut, hdropped ▸ mem_append_right _ hcut, hhas⟩
        · exact .inr ⟨fill, mem_append_right _ hmem, hspec⟩

end Soup.ExeFormat
