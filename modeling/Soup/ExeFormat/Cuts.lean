import Mathlib.Algebra.Order.BigOperators.Group.List
import Soup.ExeFormat.Runs
import Soup.Lib.SortByKey

/-!
# Cuts and fills tile what is removable

`chooseCuts_tiles`: a byte that may be filled is in one cut or in one fill of its kind, and the
bytes of the cuts with those that are not cut are the bytes of the candidates. A cut may take no
slot of a table with savings, so that there is no bound on the number of the cuts
(`chooseCuts_past_capacity`).
-/

namespace Soup.ExeFormat

open List

/-! ## The budget -/

section Budget

variable {model : CutModel}

theorem payFor_perm : ∀ (priced : List (AddressRange × ℤ)) (freeSlots : ℤ),
    ((payFor freeSlots priced).1 ++ (payFor freeSlots priced).2).Perm (priced.map Prod.fst)
  | [], _ => List.Perm.refl _
  | (cut, slots) :: rest, freeSlots => by
    rw [payFor]
    split
    · exact (payFor_perm rest (freeSlots - slots)).cons cut
    · exact perm_middle.trans ((payFor_perm rest freeSlots).cons cut)

theorem payFor_slots : ∀ (priced : List (AddressRange × ℤ)) (freeSlots : ℤ), 0 ≤ freeSlots →
    (∀ entry ∈ priced, entry.2 = model.slotsFor entry.1) →
    ((payFor freeSlots priced).1.map model.slotsFor).sum ≤ freeSlots
  | [], _, hfree, _ => hfree
  | (cut, slots) :: rest, freeSlots, hfree, hpriced => by
    have hslots : slots = model.slotsFor cut := hpriced (cut, slots) mem_cons_self
    have hrest : ∀ entry ∈ rest, entry.2 = model.slotsFor entry.1 := fun entry hentry =>
      hpriced entry (mem_cons_of_mem _ hentry)
    rw [payFor]
    split
    · have := payFor_slots rest (freeSlots - slots) (by omega) hrest
      simp only [map_cons, sum_cons]
      omega
    · exact payFor_slots rest freeSlots hfree hrest

theorem takeWhatSlotsPayFor_perm (candidates : List AddressRange) :
    ((takeWhatSlotsPayFor model candidates).1 ++ (takeWhatSlotsPayFor model candidates).2).Perm
      candidates := by
  rw [takeWhatSlotsPayFor]
  generalize hpriced : (candidates.map fun cut => (cut, model.slotsFor cut)) = priced
  have hfst : priced.map Prod.fst = candidates := by
    rw [← hpriced, map_map]
    exact map_id _
  have hsplit : (priced.filter (fun entry => decide (entry.2 ≤ 0)) ++
      priced.filter fun entry => decide (0 < entry.2)).Perm priced := by
    have := filter_append_perm (fun entry : AddressRange × ℤ => decide (entry.2 ≤ 0)) priced
    simpa only [← decide_not, Int.not_le] using this
  rw [List.append_assoc]
  refine List.Perm.trans (((payFor_perm _ _).trans ((mergeSort_perm _ _).map _)).append_left _) ?_
  rw [← map_append]
  exact (hsplit.map _).trans (by rw [hfst])

theorem takeWhatSlotsPayFor_slots (candidates : List AddressRange) :
    ((takeWhatSlotsPayFor model candidates).1.map model.slotsFor).sum ≤ model.freeSlots := by
  have hfree : 0 ≤ model.freeSlots := by
    rw [CutModel.freeSlots]
    split <;> exact Int.natCast_nonneg _
  rw [takeWhatSlotsPayFor]
  generalize hpriced : (candidates.map fun cut => (cut, model.slotsFor cut)) = priced
  have hslots : ∀ entry ∈ priced, entry.2 = model.slotsFor entry.1 := by
    intro entry hentry
    rw [← hpriced] at hentry
    obtain ⟨cut, -, rfl⟩ := mem_map.1 hentry
    rfl
  generalize hgiven : priced.filter (fun entry => decide (entry.2 ≤ 0)) = given
  have hsum : (given.map Prod.fst).map model.slotsFor = given.map Prod.snd := by
    rw [map_map]
    refine map_congr_left fun entry hentry => ?_
    rw [← hgiven] at hentry
    exact (hslots entry (mem_of_mem_filter hentry)).symm
  have hnonpos : (given.map Prod.snd).sum ≤ 0 := by
    refine (sum_le_card_nsmul _ 0 fun slots hmem => ?_).trans (by simp)
    obtain ⟨entry, hentry, rfl⟩ := mem_map.1 hmem
    rw [← hgiven] at hentry
    exact of_decide_eq_true (mem_filter.1 hentry).2
  have hpaid := @payFor_slots model
    ((priced.filter fun entry => decide (0 < entry.2)).mergeSort mostForASlot)
    (model.freeSlots - (given.map Prod.snd).sum) (by omega) (fun entry hentry =>
      hslots entry (mem_of_mem_filter (mem_mergeSort.1 hentry)))
  rw [map_append, sum_append, hsum]
  omega

theorem chooseWithin_perm {maxCuts : ℕ} (candidates : List AddressRange) :
    ((chooseWithin model maxCuts candidates).1 ++ (chooseWithin model maxCuts candidates).2).Perm
      candidates := by
  rw [chooseWithin]
  split
  · dsimp only
    rw [take_append_drop]
    exact mergeSort_perm _ _
  · exact takeWhatSlotsPayFor_perm candidates

theorem chooseWithin_slots {maxCuts : ℕ} (hmax : model.capacity = .cuts maxCuts)
    (candidates : List AddressRange) :
    ((chooseWithin model maxCuts candidates).1.map model.slotsFor).sum ≤ model.freeSlots := by
  rw [chooseWithin]
  split
  next hcosts =>
    have hone : model.slotsFor = fun _ => 1 := by
      funext cut
      rw [CutModel.slotsFor, hcosts]
    have hfree : model.freeSlots = maxCuts := by
      rw [CutModel.freeSlots, hcosts, CutModel.maxCuts, hmax]
    rw [hone, hfree, map_const', sum_replicate_int, mul_one, length_take]
    exact Int.ofNat_le.2 ((Nat.min_le_left _ _).trans (Nat.min_le_left _ _))
  · exact takeWhatSlotsPayFor_slots candidates

end Budget

/-! ## Candidates -/

/-- What could be cut if every cut were paid for: the aligned ranges in the runs and spans. Without
cuts there are no spans. -/
def candidates (model : CutModel) (removable : List RemovableBytes) : List AddressRange :=
  match model.capacity with
  | .noCuts _ => (findRuns removable).filterMap (alignInward · model.alignment)
  | .cuts _ =>
    (((findRuns removable).flatMap fun run => model.cuttableSpans.filterMap run.meet).filterMap
      (alignInward · model.alignment)).filter (leavesOnePiece · model.spansCutOnlyAtEnd)

/-- What is said of a cut. -/
structure IsCut (model : CutModel) (removable : List RemovableBytes) (cut : AddressRange) :
    Prop where
  aligned : model.alignment ∣ cut.start ∧ model.alignment ∣ cut.stop
  in_span : ∃ span ∈ model.cuttableSpans, PartOf cut span
  canBeCut : ∀ x, cut.Has x →
    ∃ element ∈ removable, element.canBeCut = true ∧ element.range.Has x
  at_end : ∀ span ∈ model.spansCutOnlyAtEnd, span.contains cut → cut.stop = span.stop

/-- An aligned range of bytes that may be cut, in one span where cuts are made. -/
structure MayCut (model : CutModel) (removable : List RemovableBytes) (range : AddressRange) :
    Prop where
  proper : range.start < range.stop
  aligned : model.alignment ∣ range.start ∧ model.alignment ∣ range.stop
  canBeCut : ∀ x, range.Has x →
    ∃ element ∈ removable, element.canBeCut = true ∧ element.range.Has x
  in_span : ∀ maxCuts, model.capacity = .cuts maxCuts → ∃ span ∈ model.cuttableSpans,
    PartOf range span

/-- A candidate is such a range that is as long as it can be, and that ends where a span ends that
is cut only at its end. -/
structure IsCandidate (model : CutModel) (removable : List RemovableBytes) (range : AddressRange) :
    Prop where
  mayCut : MayCut model removable range
  maximal : ∀ longer, MayCut model removable longer → PartOf range longer → longer = range
  at_end : ∀ maxCuts, model.capacity = .cuts maxCuts →
    ∀ span ∈ model.spansCutOnlyAtEnd, span.contains range → range.stop = span.stop

/-- Cuts and fills tile what may be filled, and no byte of a candidate is lost. -/
structure Tiles (model : CutModel) (removable : List RemovableBytes) (plan : CutPlan) : Prop where
  cuts_ordered : Ordered plan.cuts
  isCut : ∀ cut ∈ plan.cuts, IsCut model removable cut
  slots : (plan.cuts.map model.slotsFor).sum ≤ model.freeSlots
  count : model.slotCosts = none → plan.cuts.length ≤ model.maxCuts
  fills_ordered : Ordered (plan.fills.map Fill.range)
  tiles : ∀ element ∈ removable, element.canBeFilled = true → ∀ x, element.range.Has x →
    ((∃! cut, cut ∈ plan.cuts ∧ cut.Has x) ∧ ∀ fill ∈ plan.fills, ¬fill.range.Has x) ∨
    ((∀ cut ∈ plan.cuts, ¬cut.Has x) ∧
      ∃! fill, fill ∈ plan.fills ∧ fill.range.Has x ∧ fill.isCode = element.isCode)
  fills_only : ∀ fill ∈ plan.fills, ∀ x, fill.range.Has x → ∃ element ∈ removable,
    element.canBeFilled = true ∧ element.isCode = fill.isCode ∧ element.range.Has x
  accounted : ∃ candidates, Ordered candidates ∧
    (∀ range, range ∈ candidates ↔ IsCandidate model removable range) ∧
    bytesOf plan.cuts + (plan.uncut.map Uncut.bytes).getD 0 = bytesOf candidates

section Tiles

variable {model : CutModel} {removable : List RemovableBytes} {cuts : List AddressRange}

/-- Ranges that are apart are in order when they are sorted by where they start. -/
theorem pairwise_before_mergeSort
    (hproper : ∀ cut ∈ cuts, cut.start < cut.stop) (hapart : cuts.Pairwise Apart) :
    (cuts.mergeSort fun a b => decide (a.start ≤ b.start)).Pairwise AddressRange.Before := by
  refine (Lib.pairwise_mergeSort_key (fun h => h.symm) hapart).imp_of_mem ?_
  rintro a b - hb ⟨hle, hbefore | hbefore⟩
  · exact hbefore
  · have hb := hproper b (mem_mergeSort.1 hb)
    have hba : b.stop ≤ a.start := hbefore
    omega

variable {runs : List AddressRange}

theorem RunsOf.canBeCut (h : RunsOf none removable runs)
    {run : AddressRange} (hrun : run ∈ runs) {x : ℕ} (hx : run.Has x) :
    ∃ element ∈ removable, element.canBeCut = true ∧ element.range.Has x := by
  rcases (h.has_iff x).1 ⟨run, hrun, hx⟩ with ⟨-, ⟨⟩, -⟩ | hhas
  exact hhas

theorem RunsOf.stop_lt (h : RunsOf none removable runs)
    (hstops : ∀ element ∈ removable, element.range.stop < 2 ^ 64) {run : AddressRange}
    (hrun : run ∈ runs) : run.stop < 2 ^ 64 := by
  have hproper := h.proper run hrun
  have hlast : run.Has (run.stop - 1) := ⟨by omega, by omega⟩
  obtain ⟨element, hmem, -, hhas⟩ := h.canBeCut hrun hlast
  have := hstops element hmem
  have := hhas.2
  omega

section Aligned

variable (hremovable : OrderedElements removable)
  (hstops : ∀ element ∈ removable, element.range.stop < 2 ^ 64)
  (halignment : model.alignment.isPowerOfTwo)

include hremovable hstops halignment

variable {reason : NoCutReason} {range : AddressRange}

/-- Without cuts the pieces are the runs. -/
theorem mem_candidates_runs (hreason : model.capacity = .noCuts reason) :
    range ∈ candidates model removable ↔ IsCandidate model removable range := by
  have hruns := findRuns_spec hremovable
  have hmay : ∀ r, MayCut model removable r ↔
    (model.alignment ∣ r.start ∧ model.alignment ∣ r.stop) ∧
      ∃ piece ∈ findRuns removable, PartOf r piece := by
    refine fun r => ⟨fun h => ⟨h.aligned, ?_⟩, ?_⟩
    · obtain ⟨run, hrun, hstart, hstop⟩ := hruns.exists_run h.proper h.canBeCut
      exact ⟨run, hrun, hstart, h.proper, hstop⟩
    · rintro ⟨haligned, run, hrun, hpart⟩
      refine ⟨hpart.proper, haligned, fun x hx => ?_, fun _ hmax => ?_⟩
      · exact hruns.canBeCut hrun (hpart.has hx)
      · rw [hreason] at hmax
        cases hmax
  rw [candidates, hreason]
  refine (mem_filterMap_alignInward halignment hruns.ordered.pairwise
    (fun run hrun => hruns.stop_lt hstops hrun) hmay).trans ⟨fun h => ⟨h.1, h.2, fun _ hmax => ?_⟩,
      fun h => ⟨h.mayCut, h.maximal⟩⟩
  rw [hreason] at hmax
  cases hmax

theorem ordered_candidates_runs (hreason : model.capacity = .noCuts reason) :
    Ordered (candidates model removable) := by
  have hruns := findRuns_spec hremovable
  rw [candidates, hreason]
  exact hruns.ordered.inOrder.filterMap fun run hrun part hpart =>
    (alignInward_spec halignment (hruns.stop_lt hstops hrun) hpart).1

variable {maxCuts : ℕ} (hmax : model.capacity = .cuts maxCuts)

include hmax

section

variable (hspans : InOrder model.cuttableSpans)
include hspans

theorem mem_candidates :
    range ∈ candidates model removable ↔ IsCandidate model removable range := by
  have hruns := findRuns_spec hremovable
  have hmay : ∀ r, MayCut model removable r ↔
    (model.alignment ∣ r.start ∧ model.alignment ∣ r.stop) ∧
      ∃ piece ∈ (findRuns removable).flatMap fun run => model.cuttableSpans.filterMap run.meet,
        PartOf r piece := by
    refine fun r => ⟨fun h => ⟨h.aligned, ?_⟩, ?_⟩
    · obtain ⟨run, hrun, hstart, hstop⟩ := hruns.exists_run h.proper h.canBeCut
      obtain ⟨span, hspan, hin⟩ := h.in_span maxCuts hmax
      obtain ⟨piece, hmeet, hpart⟩ := exists_meet ⟨hstart, h.proper, hstop⟩ hin
      exact ⟨piece, mem_flatMap.2 ⟨run, hrun, mem_filterMap.2 ⟨span, hspan, hmeet⟩⟩, hpart⟩
    · rintro ⟨haligned, piece, hpiece, hpart⟩
      obtain ⟨run, hrun, hmem⟩ := mem_flatMap.1 hpiece
      obtain ⟨span, hspan, hmeet⟩ := mem_filterMap.1 hmem
      obtain ⟨hinRun, hinSpan⟩ := partOf_meet hmeet
      exact ⟨hpart.proper, haligned, fun x hx => hruns.canBeCut hrun ((hpart.trans hinRun).has hx),
        fun _ _ => ⟨span, hspan, hpart.trans hinSpan⟩⟩
  have hstop : ∀ piece ∈ (findRuns removable).flatMap fun run =>
    model.cuttableSpans.filterMap run.meet, piece.stop < 2 ^ 64 := fun piece hpiece => by
    obtain ⟨run, hrun, hmem⟩ := mem_flatMap.1 hpiece
    obtain ⟨_, -, hmeet⟩ := mem_filterMap.1 hmem
    exact (partOf_meet hmeet).1.stop_le.trans_lt (hruns.stop_lt hstops hrun)
  rw [candidates, hmax]
  rw [mem_filter, mem_filterMap_alignInward halignment
    (ordered_flatMap_meet hruns.ordered hspans).pairwise hstop hmay, leavesOnePiece, all_eq_true]
  have hend : ∀ span : AddressRange, (!span.contains range || range.stop == span.stop) = true ↔
      (span.contains range = true → range.stop = span.stop) := fun span => by
    cases span.contains range <;> simp
  simp only [hend]
  exact ⟨fun h => ⟨h.1.1, h.1.2, fun _ _ => h.2⟩,
    fun h => ⟨⟨h.mayCut, h.maximal⟩, h.at_end maxCuts hmax⟩⟩

theorem candidates_ordered : Ordered (candidates model removable) := by
  have hruns := findRuns_spec hremovable
  have hpieces := ordered_flatMap_meet hruns.ordered hspans
  rw [candidates, hmax]
  have haligned := hpieces.inOrder.filterMap (f := (alignInward · model.alignment))
    fun piece hpiece part hpart => by
      obtain ⟨run, hrun, hpiece⟩ := mem_flatMap.1 hpiece
      obtain ⟨_, -, hmeet⟩ := mem_filterMap.1 hpiece
      exact (alignInward_spec halignment
        ((partOf_meet hmeet).1.stop_le.trans_lt (hruns.stop_lt hstops hrun)) hpart).1
  exact ⟨haligned.pairwise.filter _, fun r hr => haligned.proper r (mem_of_mem_filter hr)⟩

theorem isCut_of_mem_candidates {cut : AddressRange}
    (h : cut ∈ candidates model removable) : IsCut model removable cut := by
  have hcandidate := (mem_candidates hremovable hstops halignment hmax hspans).1 h
  exact ⟨hcandidate.mayCut.aligned, hcandidate.mayCut.in_span maxCuts hmax,
    hcandidate.mayCut.canBeCut, hcandidate.at_end maxCuts hmax⟩

end

end Aligned

/-- What the plan says of its fills follows from what it says of its cuts. -/
theorem Tiles.of_cuts {uncut : Option Uncut}
    (hremovable : OrderedElements removable) (hcuts : Ordered cuts)
    (hisCut : ∀ cut ∈ cuts, IsCut model removable cut)
    (hslots : (cuts.map model.slotsFor).sum ≤ model.freeSlots)
    (hordered : Ordered (candidates model removable))
    (hmem : ∀ range, range ∈ candidates model removable ↔ IsCandidate model removable range)
    (haccounted : bytesOf cuts + (uncut.map Uncut.bytes).getD 0 =
      bytesOf (candidates model removable)) :
    Tiles model removable ⟨cuts, computeFills removable cuts, uncut⟩ := by
  have hfills := computeFills_spec removable cuts hremovable hcuts
  have hnot : ∀ cut ∈ cuts, ∀ fill ∈ computeFills removable cuts, ∀ x, cut.Has x →
      ¬fill.range.Has x := by
    intro cut hcut fill hfill x hx hfx
    rcases hfills.apart fill hfill cut hcut with hlt | hlt
    · exact absurd (hfx.2.trans_le (hlt.trans hx.1)) (lt_irrefl _)
    · exact absurd (hx.2.trans_le (hlt.trans hfx.1)) (lt_irrefl _)
  refine ⟨hcuts, hisCut, hslots, fun hcosts => ?_, hfills.ordered, fun element hmem hcan x hx => ?_,
    fun fill hfill x hx => ?_, _, hordered, hmem, haccounted⟩
  · have hone : model.slotsFor = fun _ => 1 := by
      funext cut
      rw [CutModel.slotsFor, hcosts]
    have hfree : model.freeSlots = model.maxCuts := by
      rw [CutModel.freeSlots, hcosts]
    rw [hone, hfree, map_const', sum_replicate_int, mul_one] at hslots
    exact Int.ofNat_le.1 hslots
  · rcases hfills.covers element hmem hcan x hx with ⟨cut, hcut, hhas⟩ | ⟨fill, hfill, hkind, hhas⟩
    · refine .inl ⟨⟨cut, ⟨hcut, hhas⟩, fun other hother => ?_⟩, fun fill hfill =>
        hnot cut hcut fill hfill x hhas⟩
      have hpairwise := hcuts.pairwise
      rw [← map_id cuts] at hpairwise
      exact eq_of_has hpairwise hother.1 hcut hother.2 hhas
    · refine .inr ⟨fun cut hcut hcx => hnot cut hcut fill hfill x hcx hhas,
        ⟨fill, ⟨hfill, hhas, hkind⟩, fun other hother => ?_⟩⟩
      exact eq_of_has hfills.ordered.pairwise hother.1 hfill hother.2.1 hhas
  · obtain ⟨element, hmem, hcan, hkind, hstart, hstop⟩ := hfills.within fill hfill
    exact ⟨element, hmem, hcan, hkind.symm, hstart.trans hx.1, hx.2.trans_le hstop⟩

theorem chooseCuts_tiles (hremovable : OrderedElements removable)
    (hstops : ∀ element ∈ removable, element.range.stop < 2 ^ 64)
    (hspans : InOrder model.cuttableSpans) (halignment : model.alignment.isPowerOfTwo) :
    Tiles model removable (chooseCuts model removable) := by
  rw [chooseCuts]
  rw [if_neg (not_not_intro halignment)]
  have hfree : 0 ≤ model.freeSlots := by
    rw [CutModel.freeSlots]
    split <;> exact Int.natCast_nonneg _
  split
  next reason hreason =>
    refine .of_cuts hremovable ⟨List.Pairwise.nil, by simp⟩ (by simp) hfree
      (ordered_candidates_runs hremovable hstops halignment hreason)
      (fun range => mem_candidates_runs hremovable hstops halignment hreason) ?_
    rw [candidates, hreason]
    split
    · exact zero_add _
    next hzero =>
      rw [Nat.eq_zero_of_not_pos hzero]
      rfl
  next maxCuts hmax =>
    have hordered := candidates_ordered hremovable hstops halignment hmax hspans
    have hcandidates : candidatesOf model (findRuns removable) = candidates model removable := by
      rw [candidatesOf, clipToSpans_eq _ _ (findRuns_spec hremovable).ordered hspans, candidates,
        hmax]
    have hperm := @chooseWithin_perm model maxCuts (candidates model removable)
    have hslots := chooseWithin_slots hmax (candidates model removable)
    rw [hcandidates]
    generalize chooseWithin model maxCuts (candidates model removable) = chosen at hperm hslots
    obtain ⟨cuts, overBudget⟩ := chosen
    have hsorted := mergeSort_perm cuts fun a b => decide (a.start ≤ b.start)
    have hmem : ∀ cut ∈ cuts, cut ∈ candidates model removable := fun cut hcut =>
      hperm.mem_iff.1 (mem_append_left _ hcut)
    refine .of_cuts hremovable ⟨?_, fun cut hcut => ?_⟩ (fun cut hcut => ?_) ?_ hordered
      (fun range => mem_candidates hremovable hstops halignment hmax hspans) ?_
    · exact pairwise_before_mergeSort (fun cut hcut => hordered.proper cut (hmem cut hcut))
        (pairwise_append.1 ((hperm.pairwise_iff fun h => h.symm).2
          (hordered.pairwise.imp Or.inl))).1
    · exact hordered.proper cut (hmem cut (hsorted.mem_iff.1 hcut))
    · exact isCut_of_mem_candidates hremovable hstops halignment hmax hspans
        (hmem cut (hsorted.mem_iff.1 hcut))
    · rw [(hsorted.map _).sum_eq]
      exact hslots
    · have hbytes : bytesOf cuts + bytesOf overBudget = bytesOf (candidates model removable) := by
        rw [bytesOf, bytesOf, bytesOf, ← sum_append, ← map_append]
        exact (hperm.map _).sum_eq
      rw [← hbytes, bytesOf, (hsorted.map _).sum_eq]
      split
      · rfl
      next hempty =>
        rw [not_not.1 hempty]
        rfl

/-- A run through two elements, of which the second one is filled at its end. -/
theorem chooseCuts_tiles_two :
    Tiles ⟨4, .cuts 1, [⟨0, 100⟩], [], none⟩ [⟨⟨2, 9⟩, true, true, true⟩,
      ⟨⟨9, 15⟩, false, true, true⟩] (chooseCuts ⟨4, .cuts 1, [⟨0, 100⟩], [], none⟩
        [⟨⟨2, 9⟩, true, true, true⟩, ⟨⟨9, 15⟩, false, true, true⟩]) :=
  chooseCuts_tiles ⟨by simp [AddressRange.Before], by simp⟩ (by simp)
    ⟨by simp, by simp⟩ ⟨2, rfl⟩

/-- A cut that touches both ends of its span costs no slot, and the capacity is not asked. -/
theorem chooseCuts_past_capacity :
    ¬(chooseCuts ⟨4, .cuts 0, [⟨0, 8⟩], [], some ⟨1, 2, [(1, 1)]⟩⟩
        [⟨⟨0, 8⟩, true, true, true⟩]).cuts.length ≤ 0 := by
  have hcandidates : candidatesOf ⟨4, .cuts 0, [⟨0, 8⟩], [], some ⟨1, 2, [(1, 1)]⟩⟩
      (findRuns [⟨⟨0, 8⟩, true, true, true⟩]) = [⟨0, 8⟩] := by decide
  rw [chooseCuts]
  rw [if_neg (not_not_intro ⟨2, rfl⟩), hcandidates, length_mergeSort, chooseWithin]
  rw [takeWhatSlotsPayFor]
  rw [length_append, length_map]
  exact fun hle => absurd (Nat.le_zero.1 hle) (ne_of_gt (Nat.add_pos_left (by decide) _))

end Tiles

end Soup.ExeFormat
