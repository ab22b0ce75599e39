import Mathlib.Data.List.Pairwise
import Soup.ExeFormat.Fills

/-!
# Runs and pieces

The runs are the bytes that may be cut (`findRuns_spec`). A piece is what a run and a span share
(`clipToSpans_eq`): the sweep drops a span once it ends before the run does, and no later run
touches it.
-/

namespace Soup.ExeFormat

open List Nat

/-! ## Runs -/

/-- The runs of some elements: two are never next to each other. -/
structure RunsOf (openRun : Option AddressRange) (removable : List RemovableBytes)
    (runs : List AddressRange) : Prop where
  pairwise : runs.Pairwise fun a b => a.stop < b.start
  proper : ∀ run ∈ runs, run.start < run.stop
  has_iff : ∀ x, (∃ run ∈ runs, run.Has x) ↔ (∃ run ∈ openRun, run.Has x) ∨
    ∃ element ∈ removable, element.canBeCut = true ∧ element.range.Has x

namespace RunsOf

variable {openRun : Option AddressRange} {element : RemovableBytes}
  {removable : List RemovableBytes} {runs : List AddressRange}

theorem ordered (h : RunsOf openRun removable runs) : Ordered runs :=
  ⟨h.pairwise.imp le_of_lt, h.proper⟩

variable {run : AddressRange}

/-- A run starts where the open run or an element has a byte. -/
theorem start_has (h : RunsOf openRun removable runs) (hrun : run ∈ runs) :
    (∃ run' ∈ openRun, run'.Has run.start) ∨
      ∃ element ∈ removable, element.canBeCut = true ∧ element.range.Has run.start :=
  (h.has_iff _).1 ⟨run, hrun, le_rfl, h.proper run hrun⟩

/-- The open run is closed in front of what starts behind it. -/
theorem close (hproper : run.start < run.stop)
    (h : RunsOf openRun removable runs) (hopen : ∀ other ∈ openRun, run.stop < other.start)
    (hbehind : ∀ element ∈ removable, run.stop < element.range.start) :
    (run :: runs).Pairwise (fun a b => a.stop < b.start) ∧
      ∀ other ∈ run :: runs, other.start < other.stop := by
  refine ⟨pairwise_cons.2 ⟨fun other hother => ?_, h.pairwise⟩, fun other hother => ?_⟩
  · rcases h.start_has hother with ⟨first, hfirst, hhas⟩ | ⟨element, hmem, -, hhas⟩
    · exact lt_of_lt_of_le (hopen first hfirst) hhas.1
    · exact lt_of_lt_of_le (hbehind element hmem) hhas.1
  · rcases mem_cons.1 hother with rfl | hother
    · exact hproper
    · exact h.proper other hother

end RunsOf

theorem runsFrom_spec : ∀ (removable : List RemovableBytes) (openRun : Option AddressRange),
    OrderedElements removable →
    (∀ run ∈ openRun, run.start < run.stop ∧ ∀ element ∈ removable,
      run.stop ≤ element.range.start) →
    RunsOf openRun removable (runsFrom openRun removable)
  | [], none, _, _ => ⟨by simp [runsFrom], by simp [runsFrom], by simp [runsFrom]⟩
  | [], some run, _, hopen => ⟨by simp [runsFrom], by simpa [runsFrom] using (hopen run rfl).1,
      by simp [runsFrom]⟩
  | element :: rest, openRun, h, hopen => by
    have hproper : element.range.start < element.range.stop :=
      Ordered.proper h _ (mem_map_of_mem mem_cons_self)
    have hbefore := h.before
    rw [runsFrom.eq_def]
    dsimp only
    by_cases hcut : element.canBeCut = true
    · rw [if_neg (by simp [hcut])]
      have hstart := runsFrom_spec rest (some element.range) h.tail
        (by rintro _ ⟨rfl⟩; exact ⟨hproper, hbefore⟩)
      cases openRun with
      | none =>
        refine ⟨hstart.pairwise, hstart.proper, fun x => (hstart.has_iff x).trans ?_⟩
        simp [hcut]
      | some run =>
        obtain ⟨hrun, hbehind⟩ := hopen run rfl
        have hnext := hbehind element mem_cons_self
        dsimp only
        split
        next htouch =>
          -- the run goes on through the element
          have hlonger := runsFrom_spec rest (some ⟨run.start, element.range.stop⟩) h.tail (by
            rintro _ ⟨rfl⟩
            exact ⟨by dsimp only; omega, hbefore⟩)
          refine ⟨hlonger.pairwise, hlonger.proper, fun x => (hlonger.has_iff x).trans ?_⟩
          simp only [Option.mem_def, Option.some.injEq, exists_eq_left', mem_cons,
            exists_eq_or_imp, hcut, true_and, AddressRange.Has]
          rw [← or_assoc]
          refine or_congr_left ?_
          omega
        next hgap =>
          obtain ⟨hpairwise, hall⟩ := hstart.close hrun
            (by rintro _ ⟨rfl⟩; omega) (fun other hother => by have := hbefore other hother; omega)
          refine ⟨hpairwise, hall, fun x => ?_⟩
          simp only [mem_cons, exists_eq_or_imp, hstart.has_iff x, Option.mem_def,
            Option.some.injEq, exists_eq_left', hcut, true_and]
    · rw [if_pos (by simp [hcut])]
      have hrest := runsFrom_spec rest none h.tail (by rintro _ ⟨⟩)
      cases openRun with
      | none =>
        refine ⟨hrest.pairwise, hrest.proper, fun x => (hrest.has_iff x).trans ?_⟩
        simp [hcut]
      | some run =>
        obtain ⟨hrun, hbehind⟩ := hopen run rfl
        have hnext := hbehind element mem_cons_self
        obtain ⟨hpairwise, hall⟩ := hrest.close hrun (by rintro _ ⟨⟩)
          (fun other hother => by have := hbefore other hother; omega)
        refine ⟨hpairwise, hall, fun x => ?_⟩
        simp only [Option.toList_some, singleton_append, mem_cons, exists_eq_or_imp,
          hrest.has_iff x, Option.mem_def, Option.some.injEq, exists_eq_left', hcut,
          Bool.false_eq_true, false_and, false_or, reduceCtorEq, exists_false]

variable {removable : List RemovableBytes}

theorem findRuns_spec (h : OrderedElements removable) :
    RunsOf none removable (findRuns removable) := runsFrom_spec removable none h (by rintro _ ⟨⟩)

variable {range : AddressRange}

/-- A range of bytes that are all in runs is in one of them. -/
theorem RunsOf.exists_run {runs : List AddressRange}
    (h : RunsOf none removable runs) (hproper : range.start < range.stop)
    (hall : ∀ x, range.Has x →
      ∃ element ∈ removable, element.canBeCut = true ∧ element.range.Has x) :
    ∃ run ∈ runs, run.start ≤ range.start ∧ range.stop ≤ run.stop := by
  obtain ⟨run, hrun, hstart⟩ :=
    (h.has_iff range.start).2 (.inr (hall _ ⟨le_rfl, hproper⟩))
  refine ⟨run, hrun, hstart.1, not_lt.1 fun hlt => ?_⟩
  -- The byte behind the run would be in another one, which does not touch it.
  obtain ⟨other, hother, hhas⟩ :=
    (h.has_iff run.stop).2 (.inr (hall _ ⟨le_of_lt hstart.2, hlt⟩))
  have hne : run ≠ other := fun heq => absurd (heq ▸ hhas.2) (lt_irrefl _)
  have : Std.Symm fun a b : AddressRange => a.stop < b.start ∨ b.stop < a.start :=
    ⟨fun _ _ hab => hab.symm⟩
  have hpairwise : runs.Pairwise fun a b => a.stop < b.start ∨ b.stop < a.start :=
    h.pairwise.imp Or.inl
  have hapart := hpairwise.forall hrun hother hne
  rcases hapart with hapart | hapart
  · exact absurd hhas.1 (not_le.2 hapart)
  · have := hhas.2
    have := h.proper run hrun
    omega

/-! ## Pieces -/

/-- What two ranges share. -/
def AddressRange.meet (run span : AddressRange) : Option AddressRange :=
  if max run.start span.start < min run.stop span.stop then
    some ⟨max run.start span.start, min run.stop span.stop⟩
  else none

/-- Ranges in order, with or without bytes. -/
structure InOrder (ranges : List AddressRange) : Prop where
  pairwise : ranges.Pairwise AddressRange.Before
  forward : ∀ range ∈ ranges, range.start ≤ range.stop

variable {ranges : List AddressRange}

theorem Ordered.inOrder (h : Ordered ranges) : InOrder ranges :=
  ⟨h.pairwise, fun range hrange => le_of_lt (h.proper range hrange)⟩

theorem InOrder.tail (h : InOrder (range :: ranges)) : InOrder ranges :=
  ⟨(pairwise_cons.1 h.pairwise).2, fun r hr => h.forward r (mem_cons_of_mem _ hr)⟩

theorem InOrder.of_append {left right : List AddressRange} (h : InOrder (left ++ right)) :
    InOrder right :=
  ⟨(pairwise_append.1 h.pairwise).2.1, fun r hr => h.forward r (mem_append_right _ hr)⟩

/-- A part with bytes. -/
structure PartOf (part range : AddressRange) : Prop where
  start_le : range.start ≤ part.start
  proper : part.start < part.stop
  stop_le : part.stop ≤ range.stop

theorem PartOf.trans {a b c : AddressRange} (h : PartOf a b) (h' : PartOf b c) : PartOf a c :=
  ⟨h'.start_le.trans h.start_le, h.proper, h.stop_le.trans h'.stop_le⟩

theorem PartOf.has {part range : AddressRange} (h : PartOf part range) {x : ℕ} (hx : part.Has x) :
    range.Has x := ⟨h.start_le.trans hx.1, lt_of_lt_of_le hx.2 h.stop_le⟩

theorem PartOf.antisymm {a b : AddressRange} (h : PartOf a b) (h' : PartOf b a) : a = b := by
  obtain ⟨hstart, -, hstop⟩ := h
  obtain ⟨hstart', -, hstop'⟩ := h'
  obtain ⟨_, _⟩ := a
  obtain rfl := le_antisymm hstart' hstart
  obtain rfl := le_antisymm hstop hstop'
  rfl

theorem PartOf.before {a b a' b' : AddressRange} (h : a.Before b) (ha : PartOf a' a)
    (hb : PartOf b' b) : a'.Before b' := (ha.stop_le.trans h).trans hb.start_le

/-- Parts of ranges that are in order are in order. -/
theorem InOrder.filterMap (h : InOrder ranges) {f : AddressRange → Option AddressRange}
    (hf : ∀ range ∈ ranges, ∀ part, f range = some part → PartOf part range) :
    Ordered (ranges.filterMap f) := by
  refine ⟨pairwise_filterMap.2 (h.pairwise.imp_of_mem fun hr hs hab a ha b hb => ?_),
    fun part hpart => ?_⟩
  · exact PartOf.before hab (hf _ hr a ha) (hf _ hs b hb)
  · obtain ⟨range, hrange, hsome⟩ := mem_filterMap.1 hpart
    exact (hf range hrange part hsome).proper

/-- A byte is in one range at most. -/
theorem eq_of_has {α : Type*} {f : α → AddressRange} {xs : List α}
    (h : (xs.map f).Pairwise AddressRange.Before) {a b : α} (ha : a ∈ xs) (hb : b ∈ xs) {x : ℕ}
    (hax : (f a).Has x) (hbx : (f b).Has x) : a = b := by
  have hnot : ∀ r s : AddressRange, r.Before s → r.Has x → ¬s.Has x := fun r s hrs hr hs =>
    absurd (hr.2.trans_le (hrs.trans hs.1)) (lt_irrefl _)
  induction xs with
  | nil => cases ha
  | cons first xs ih =>
    obtain ⟨hfirst, hrest⟩ := pairwise_cons.1 h
    rcases mem_cons.1 ha with rfl | hain <;> rcases mem_cons.1 hb with rfl | hbin
    · rfl
    · exact absurd hbx (hnot _ _ (hfirst _ (mem_map_of_mem hbin)) hax)
    · exact absurd hax (hnot _ _ (hfirst _ (mem_map_of_mem hain)) hbx)
    · exact ih hrest hain hbin

section Meet

variable {run span part : AddressRange}

theorem partOf_meet (h : run.meet span = some part) : PartOf part run ∧ PartOf part span := by
  rw [AddressRange.meet] at h
  split at h
  next hlt =>
    cases h
    exact ⟨⟨le_max_left _ _, hlt, min_le_left _ _⟩,
      ⟨le_max_right _ _, hlt, min_le_right _ _⟩⟩
  · cases h

theorem exists_meet (hrun : PartOf part run) (hspan : PartOf part span) :
    ∃ piece, run.meet span = some piece ∧ PartOf part piece := by
  obtain ⟨hstart, hproper, hstop⟩ := hrun
  obtain ⟨hstart', -, hstop'⟩ := hspan
  rw [AddressRange.meet, if_pos (by omega)]
  exact ⟨_, rfl, Nat.max_le.2 ⟨hstart, hstart'⟩, hproper, Nat.le_min.2 ⟨hstop, hstop'⟩⟩

theorem meet_eq_none_of_before (h : span.Before run) : run.meet span = none := by
  rw [AddressRange.meet, if_neg]
  have : span.stop ≤ run.start := h
  omega

theorem meet_eq_none_of_after (h : run.Before span) : run.meet span = none := by
  rw [AddressRange.meet, if_neg]
  have : run.stop ≤ span.start := h
  omega

end Meet

theorem filterMap_meet_nil {run : AddressRange} {spans : List AddressRange}
    (h : ∀ span ∈ spans, run.meet span = none) : spans.filterMap run.meet = [] :=
  filterMap_eq_nil_iff.2 h

theorem clipRun_spec {run : AddressRange} : ∀ (spans : List AddressRange), InOrder spans →
    (clipRun run spans).1 = spans.filterMap run.meet ∧
      ∃ dropped, spans = dropped ++ (clipRun run spans).2 ∧
        ∀ span ∈ dropped, span.stop ≤ run.stop
  | [], _ => ⟨rfl, [], rfl, by simp⟩
  | span :: spans, h => by
    have hforward := h.forward span mem_cons_self
    have hbefore : ∀ other ∈ spans, span.stop ≤ other.start := (pairwise_cons.1 h.pairwise).1
    rw [clipRun]
    by_cases hpast : span.start ≥ run.stop
    · rw [if_pos hpast]
      refine ⟨(filterMap_meet_nil fun other hother => meet_eq_none_of_after ?_).symm, [], rfl,
        by simp⟩
      rcases mem_cons.1 hother with rfl | hother
      · exact hpast
      · exact hpast.le.trans (hforward.trans (hbefore other hother))
    rw [if_neg hpast]
    have hmeet : (if max run.start span.start < min run.stop span.stop then
        [AddressRange.mk (max run.start span.start) (min run.stop span.stop)] else []) =
          (run.meet span).toList := by
      rw [AddressRange.meet]
      split <;> rfl
    have hcons : (span :: spans).filterMap run.meet =
        (run.meet span).toList ++ spans.filterMap run.meet := by
      rw [filterMap_cons]
      cases run.meet span <;> rfl
    dsimp only
    rw [hmeet, hcons]
    by_cases hlonger : span.stop > run.stop
    · rw [if_pos hlonger, filterMap_meet_nil fun other hother =>
        meet_eq_none_of_after (hlonger.le.trans (hbefore other hother)), append_nil]
      exact ⟨rfl, [], rfl, by simp⟩
    · rw [if_neg hlonger]
      obtain ⟨hpieces, dropped, hdropped, hstops⟩ := clipRun_spec spans h.tail
      refine ⟨congrArg ((run.meet span).toList ++ ·) hpieces, span :: dropped,
        congrArg (span :: ·) hdropped, fun other hother => ?_⟩
      rcases mem_cons.1 hother with rfl | hother
      · exact not_lt.1 hlonger
      · exact hstops other hother

theorem clipToSpans_eq : ∀ (runs spans : List AddressRange), Ordered runs → InOrder spans →
    clipToSpans runs spans = runs.flatMap fun run => spans.filterMap run.meet
  | [], _, _, _ => rfl
  | run :: runs, spans, hruns, hspans => by
    obtain ⟨hpieces, dropped, hdropped, hstops⟩ := @clipRun_spec run spans hspans
    rw [clipToSpans, flatMap_cons]
    generalize clipRun run spans = result at hpieces hdropped
    obtain ⟨pieces, left⟩ := result
    dsimp only at hpieces hdropped ⊢
    rw [hpieces, clipToSpans_eq runs left hruns.tail (hdropped ▸ hspans).of_append]
    refine congrArg (spans.filterMap run.meet ++ ·) (flatMap_congr fun other hother => ?_)
    rw [hdropped, filterMap_append, filterMap_meet_nil fun span hspan =>
      meet_eq_none_of_before ((hstops span hspan).trans (hruns.before other hother)), nil_append]

theorem ordered_flatMap_meet {runs spans : List AddressRange} (hruns : Ordered runs)
    (hspans : InOrder spans) : Ordered (runs.flatMap fun run => spans.filterMap run.meet) := by
  have hordered : ∀ run : AddressRange, Ordered (spans.filterMap run.meet) := fun run =>
    hspans.filterMap fun _ _ _ h => (partOf_meet h).2
  refine ⟨pairwise_flatMap.2 ⟨fun run _ => (hordered run).pairwise,
    hruns.pairwise.imp fun hab a ha b hb => ?_⟩, fun piece hpiece => ?_⟩
  · obtain ⟨_, -, ha⟩ := mem_filterMap.1 ha
    obtain ⟨_, -, hb⟩ := mem_filterMap.1 hb
    exact PartOf.before hab (partOf_meet ha).1 (partOf_meet hb).1
  · obtain ⟨run, -, hpiece⟩ := mem_flatMap.1 hpiece
    exact (hordered run).proper piece hpiece

/-! ## Alignment -/

theorem and_not64 {k x : ℕ} (hx : x < 2 ^ 64) : x &&& not64 (2 ^ k - 1) = x / 2 ^ k * 2 ^ k := by
  rw [not64]
  by_cases hk : 2 ^ k - 1 < 2 ^ 64
  · refine eq_of_testBit_eq fun i => ?_
    rw [testBit_and, testBit_two_pow_sub_succ hk, testBit_two_pow_sub_one,
      testBit_mul_two_pow]
    by_cases hi : k ≤ i
    · rw [Nat.testBit_div_two_pow, Nat.sub_add_cancel hi]
      by_cases hbit : i < 64
      · simp [hi, hbit]
      · rw [Nat.testBit_lt_two_pow (hx.trans_le (Nat.pow_le_pow_right (by omega) (by omega)))]
        simp
    · simp only [hi, not_le.1 hi, decide_true, decide_false, Bool.not_true, Bool.and_false,
        Bool.false_and]
  · rw [Nat.div_eq_of_lt (by omega), zero_mul, Nat.sub_eq_zero_of_le (by omega), Nat.and_zero]

variable {alignment : ℕ} {run part : AddressRange}

/-- Rounding up and down by a multiple. -/
theorem alignInward_spec
    (halignment : alignment.isPowerOfTwo) (hstop : run.stop < 2 ^ 64)
    (h : alignInward run alignment = some part) :
    PartOf part run ∧ alignment ∣ part.start ∧ alignment ∣ part.stop := by
  obtain ⟨k, rfl⟩ := halignment
  rw [alignInward] at h
  split at h
  next hstart =>
    rw [and_not64 hstart, and_not64 hstop] at h
    dsimp only at h
    split at h
    next hlt =>
      cases h
      have hpos := Nat.two_pow_pos k
      refine ⟨⟨?_, hlt, div_mul_le_self _ _⟩, dvd_mul_left _ _, dvd_mul_left _ _⟩
      have hdiv := div_add_mod' (run.start + (2 ^ k - 1)) (2 ^ k)
      have hmod := mod_lt (run.start + (2 ^ k - 1)) hpos
      dsimp only
      omega
    · cases h
  · cases h

/-- What is left has every aligned part. -/
theorem alignInward_complete
    (halignment : alignment.isPowerOfTwo) (hstop : run.stop < 2 ^ 64) (hpart : PartOf part run)
    (hstart : alignment ∣ part.start) (hend : alignment ∣ part.stop) :
    ∃ inward, alignInward run alignment = some inward ∧ PartOf part inward := by
  obtain ⟨k, rfl⟩ := halignment
  obtain ⟨hrun, hproper, hle⟩ := hpart
  obtain ⟨m, hm⟩ := hstart
  obtain ⟨n, hn⟩ := hend
  have hpos := Nat.two_pow_pos k
  have hmn : m < n := Nat.lt_of_mul_lt_mul_left (hm ▸ hn ▸ hproper)
  have hnext : 2 ^ k * m + 2 ^ k ≤ 2 ^ k * n := by
    rw [← mul_succ]
    exact mul_le_mul_left _ hmn
  have hfits : run.start + (2 ^ k - 1) < 2 ^ 64 := by omega
  have hfirst : (run.start + (2 ^ k - 1)) / 2 ^ k ≤ m := by
    rw [div_le_iff_le_mul_add_pred hpos]
    omega
  have hlast : n ≤ run.stop / 2 ^ k := (le_div_iff_mul_le hpos).2 (by rw [mul_comm]; omega)
  have hstart : (run.start + (2 ^ k - 1)) / 2 ^ k * 2 ^ k ≤ part.start := by
    rw [hm, mul_comm]
    exact mul_le_mul_left _ hfirst
  have hend : part.stop ≤ run.stop / 2 ^ k * 2 ^ k := by
    rw [hn, mul_comm]
    exact mul_le_mul_right _ hlast
  rw [alignInward]
  rw [if_pos hfits, and_not64 hfits, and_not64 hstop, if_pos (by omega)]
  exact ⟨_, rfl, hstart, hproper, hend⟩

/-- The aligned ranges in some pieces that are as long as they can be. -/
theorem mem_filterMap_alignInward {pieces : List AddressRange}
    (halignment : alignment.isPowerOfTwo) (hordered : pieces.Pairwise AddressRange.Before)
    (hstops : ∀ piece ∈ pieces, piece.stop < 2 ^ 64) {May : AddressRange → Prop}
    (hmay : ∀ r, May r ↔ (alignment ∣ r.start ∧ alignment ∣ r.stop) ∧ ∃ piece ∈ pieces,
      PartOf r piece) :
    range ∈ pieces.filterMap (alignInward · alignment) ↔
      May range ∧ ∀ longer, May longer → PartOf range longer → longer = range := by
  have hinward : ∀ piece ∈ pieces, ∀ part, alignInward piece alignment = some part → May part :=
    fun piece hpiece part hpart => by
      obtain ⟨hpart, haligned⟩ := alignInward_spec halignment (hstops piece hpiece) hpart
      exact (hmay part).2 ⟨haligned, piece, hpiece, hpart⟩
  rw [mem_filterMap]
  constructor
  · rintro ⟨piece, hpiece, hrange⟩
    refine ⟨hinward piece hpiece range hrange, fun longer hlonger hpart => ?_⟩
    obtain ⟨⟨hstart, hend⟩, other, hother, hin⟩ := (hmay longer).1 hlonger
    have hrangePart := (alignInward_spec halignment (hstops piece hpiece) hrange).1
    have hfirst : range.Has range.start := ⟨le_rfl, hrangePart.proper⟩
    -- The two pieces share a byte, so that they are the same.
    obtain rfl : other = piece := by
      rw [← map_id pieces] at hordered
      exact eq_of_has hordered hother hpiece ((hpart.trans hin).has hfirst) (hrangePart.has hfirst)
    obtain ⟨inward, hinward, hlongest⟩ :=
      alignInward_complete halignment (hstops other hother) hin hstart hend
    obtain rfl := Option.some.inj (hrange.symm.trans hinward)
    exact PartOf.antisymm hlongest hpart
  · rintro ⟨hrange, hmaximal⟩
    obtain ⟨⟨hstart, hend⟩, piece, hpiece, hin⟩ := (hmay range).1 hrange
    obtain ⟨inward, heq, hpart⟩ :=
      alignInward_complete halignment (hstops piece hpiece) hin hstart hend
    exact ⟨piece, hpiece,
      heq.trans (congrArg some (hmaximal inward (hinward piece hpiece _ heq) hpart))⟩

end Soup.ExeFormat
