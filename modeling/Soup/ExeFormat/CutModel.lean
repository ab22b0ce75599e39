import Mathlib.Algebra.Order.Ring.Int
import Mathlib.Data.List.Basic
import Mathlib.Order.Nat

/-!
# Cuts

`cut_model.rs` with the address ranges of `image.rs`. An address is a number below `2 ^ 64`.
-/

namespace Soup.ExeFormat

structure AddressRange where
  start : ℕ
  stop : ℕ
  deriving DecidableEq, Repr

namespace AddressRange

def len (range : AddressRange) : ℕ := range.stop - range.start

def contains (range other : AddressRange) : Bool :=
  range.start ≤ other.start && other.stop ≤ range.stop

end AddressRange

structure RemovableBytes where
  range : AddressRange
  isCode : Bool
  canBeCut : Bool
  canBeFilled : Bool
  deriving DecidableEq, Repr

structure Fill where
  range : AddressRange
  isCode : Bool
  deriving DecidableEq, Repr

inductive NoCutReason where
  | headersUnreadable
  | headerRoomExhausted
  | sectionHeadersMissing
  | segmentsNotCongruent
  deriving DecidableEq, Repr

inductive CutCapacity where
  | cuts (count : ℕ)
  | noCuts (reason : NoCutReason)
  deriving DecidableEq, Repr

/-- A table in which a cut takes more than one slot, and fewer where it touches the end of a piece
or what is cut already. -/
structure SlotCosts where
  freeSlots : ℕ
  slotsForACut : ℕ
  /-- For each of the cuttable spans: what a cut saves that begins where the span begins, and one
  that ends where it ends. -/
  savedAtEnds : List (ℕ × ℕ)
  deriving DecidableEq, Repr

structure CutModel where
  alignment : ℕ
  capacity : CutCapacity
  cuttableSpans : List AddressRange
  /-- What is left of each stays one piece: a cut inside it reaches its end. -/
  spansCutOnlyAtEnd : List AddressRange
  /-- `none`: every cut takes one of `capacity`. -/
  slotCosts : Option SlotCosts
  deriving DecidableEq, Repr

namespace CutModel

def maxCuts (model : CutModel) : ℕ :=
  match model.capacity with
  | .cuts count => count
  | .noCuts _ => 0

def freeSlots (model : CutModel) : ℤ :=
  match model.slotCosts with
  | some costs => costs.freeSlots
  | none => model.maxCuts

/-- Below zero: the cut gives slots back. A span that has no savings counts as one that saves
nothing. -/
def slotsFor (model : CutModel) (cut : AddressRange) : ℤ :=
  match model.slotCosts with
  | none => 1
  | some costs =>
    let saved := match model.cuttableSpans.findIdx? (·.contains cut) with
      | none => 0
      | some i =>
        let (atStart, atEnd) := costs.savedAtEnds.getD i (0, 0)
        let span := model.cuttableSpans.getD i ⟨0, 0⟩
        (decide (cut.start = span.start)).toNat * atStart +
          (decide (cut.stop = span.stop)).toNat * atEnd
    (costs.slotsForACut : ℤ) - saved

end CutModel

inductive UncutReason where
  | noCuts (reason : NoCutReason)
  | budgetSpent
  deriving DecidableEq, Repr

structure Uncut where
  reason : UncutReason
  bytes : ℕ
  deriving DecidableEq, Repr

structure CutPlan where
  cuts : List AddressRange
  fills : List Fill
  uncut : Option Uncut
  deriving DecidableEq, Repr

/-!
## Choosing cuts

`cut_choice.rs`.
-/

/-- The number of bytes of some ranges. -/
def bytesOf (ranges : List AddressRange) : ℕ := (ranges.map AddressRange.len).sum

/-! ### Candidates -/

/-- The loop over the elements, with the open run. -/
def runsFrom : Option AddressRange → List RemovableBytes → List AddressRange
  | openRun, [] => openRun.toList
  | openRun, element :: rest =>
    if !element.canBeCut then openRun.toList ++ runsFrom none rest
    else
      match openRun with
      | none => runsFrom (some element.range) rest
      | some run =>
        if run.stop = element.range.start then
          runsFrom (some ⟨run.start, element.range.stop⟩) rest
        else run :: runsFrom (some element.range) rest

def findRuns (removable : List RemovableBytes) : List AddressRange := runsFrom none removable

/-- The loop over the spans for one run, with the spans that are left for the next. -/
def clipRun (run : AddressRange) : List AddressRange → List AddressRange × List AddressRange
  | [] => ([], [])
  | span :: spans =>
    if span.start ≥ run.stop then ([], span :: spans)
    else
      let start := max run.start span.start
      let stop := min run.stop span.stop
      let piece : List AddressRange := if start < stop then [⟨start, stop⟩] else []
      if span.stop > run.stop then (piece, span :: spans)
      else
        let (pieces, left) := clipRun run spans
        (piece ++ pieces, left)

def clipToSpans : List AddressRange → List AddressRange → List AddressRange
  | [], _ => []
  | run :: runs, spans =>
    let (pieces, left) := clipRun run spans
    pieces ++ clipToSpans runs left

def leavesOnePiece (candidate : AddressRange) (spansCutOnlyAtEnd : List AddressRange) : Bool :=
  spansCutOnlyAtEnd.all fun span => !span.contains candidate || candidate.stop == span.stop

/-- `!mask` of 64 bits. -/
def not64 (mask : ℕ) : ℕ := 2 ^ 64 - (mask + 1)

def alignInward (run : AddressRange) (alignment : ℕ) : Option AddressRange :=
  let mask := alignment - 1
  if run.start + mask < 2 ^ 64 then
    let start := (run.start + mask) &&& not64 mask
    let stop := run.stop &&& not64 mask
    if start < stop then some ⟨start, stop⟩ else none
  else none

/-! ### Fills -/

def pushFill (element : RemovableBytes) (start stop : ℕ) : List Fill :=
  if element.canBeFilled ∧ start < stop then [⟨⟨start, stop⟩, element.isCode⟩] else []

/-- The loop over the cuts for one element, with the cuts that are left for the next. -/
def fillElement (element : RemovableBytes) (start : ℕ) :
    List AddressRange → List Fill × List AddressRange
  | [] => (pushFill element start element.range.stop, [])
  | cut :: cuts =>
    if cut.start ≥ element.range.stop then
      (pushFill element start element.range.stop, cut :: cuts)
    else
      let before := pushFill element start cut.start
      let start := max start cut.stop
      if cut.stop > element.range.stop then
        (before ++ pushFill element start element.range.stop, cut :: cuts)
      else
        let (fills, left) := fillElement element start cuts
        (before ++ fills, left)

def computeFills : List RemovableBytes → List AddressRange → List Fill
  | [], _ => []
  | element :: rest, cuts =>
    let (fills, left) := fillElement element element.range.start cuts
    fills ++ computeFills rest left

/-! ### The budget -/

/-- The longest first, then the lower. -/
def longestFirst (a b : AddressRange) : Bool :=
  decide (b.len < a.len) || decide (a.len = b.len ∧ a.start ≤ b.start)

/-- The most bytes for a slot first, then the lower. -/
def mostForASlot (a b : AddressRange × ℤ) : Bool :=
  decide (b.1.len * a.2.toNat < a.1.len * b.2.toNat) ||
    decide (a.1.len * b.2.toNat = b.1.len * a.2.toNat ∧ a.1.start ≤ b.1.start)

/-- The last loop: the cuts that are paid for, and the rest. -/
def payFor : ℤ → List (AddressRange × ℤ) → List AddressRange × List AddressRange
  | _, [] => ([], [])
  | freeSlots, (cut, slots) :: rest =>
    if slots ≤ freeSlots then
      let (cuts, overBudget) := payFor (freeSlots - slots) rest
      (cut :: cuts, overBudget)
    else
      let (cuts, overBudget) := payFor freeSlots rest
      (cuts, cut :: overBudget)

/-- What the free slots pay for, and the rest. -/
def takeWhatSlotsPayFor (model : CutModel) (candidates : List AddressRange) :
    List AddressRange × List AddressRange :=
  let priced := candidates.map fun cut => (cut, model.slotsFor cut)
  let free := priced.filter fun entry => entry.2 ≤ 0
  let freeSlots := model.freeSlots - (free.map Prod.snd).sum
  let (cuts, overBudget) :=
    payFor freeSlots ((priced.filter fun entry => 0 < entry.2).mergeSort mostForASlot)
  (free.map Prod.fst ++ cuts, overBudget)

/-! ### The plan -/

def planWithoutCuts (removable : List RemovableBytes) (reason : NoCutReason) (bytes : ℕ) :
    CutPlan :=
  ⟨[], computeFills removable [], if bytes > 0 then some ⟨.noCuts reason, bytes⟩ else none⟩

def candidatesOf (model : CutModel) (runs : List AddressRange) : List AddressRange :=
  ((clipToSpans runs model.cuttableSpans).filterMap (alignInward · model.alignment)).filter
    (leavesOnePiece · model.spansCutOnlyAtEnd)

/-- The cuts, and what is over the budget. -/
def chooseWithin (model : CutModel) (maxCuts : ℕ) (candidates : List AddressRange) :
    List AddressRange × List AddressRange :=
  match model.slotCosts with
  | none =>
    let sorted := candidates.mergeSort longestFirst
    (sorted.take (min maxCuts sorted.length), sorted.drop (min maxCuts sorted.length))
  | some _ => takeWhatSlotsPayFor model candidates

def chooseCuts (model : CutModel) (removable : List RemovableBytes) : CutPlan :=
  let runs := findRuns removable
  if ¬model.alignment.isPowerOfTwo then
    planWithoutCuts removable .headersUnreadable (bytesOf runs)
  else
    match model.capacity with
    | .noCuts reason =>
      planWithoutCuts removable reason (bytesOf (runs.filterMap (alignInward · model.alignment)))
    | .cuts maxCuts =>
      let (cuts, overBudget) := chooseWithin model maxCuts (candidatesOf model runs)
      let uncut := if overBudget ≠ [] then some ⟨.budgetSpent, bytesOf overBudget⟩ else none
      let cuts := cuts.mergeSort fun a b => decide (a.start ≤ b.start)
      ⟨cuts, computeFills removable cuts, uncut⟩

end Soup.ExeFormat
