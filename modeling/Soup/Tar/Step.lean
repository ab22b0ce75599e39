import Soup.Tar.Pax

/-!
# The steps of the reader

`Reader::step` and the calls around it, from `tar/reader.rs`. A step gives how much of the input it
took, what it says, and the next reader, or an error. The loop of `Reader::poll` runs with fuel
here.

`feed` and `Fed` are the callers: they hand an archive over in pieces, and what a call did not take
comes first in the next one.
-/

namespace Soup.Tar

/-- `reader::Step`, where `proceed` is its `Continue`. -/
inductive Step
  | proceed
  | needInput
  | entry
  | data (offset : ℤ) (len : ℕ)
  | endOfEntry
  | endOfArchive
  deriving DecidableEq, Repr

/-- `reader::Poll`. -/
inductive Poll
  | needInput
  | entry
  | data (offset : ℤ) (start len : ℕ)
  | endOfEntry (size : ℤ)
  | endOfArchive
  deriving DecidableEq, Repr

/-- `reader::Event`. -/
inductive Event
  | needInput
  | entry (entry : Entry)
  | data (offset : ℤ) (bytes : Bytes)
  | endOfEntry (size : ℤ)
  | endOfArchive
  deriving DecidableEq, Repr

/-- `Poll::event`. -/
def Poll.event (entry : Entry) (input : Bytes) : Poll → Event
  | .needInput => .needInput
  | .entry => .entry entry
  | .data offset start len =>
    .data offset (if start + len ≤ input.length then (input.drop start).take len else [])
  | .endOfEntry size => .endOfEntry size
  | .endOfArchive => .endOfArchive

namespace Reader

/-! ## Blocks -/

/-- `Reader::fill_block`: how much it took, and the reader. -/
def fillBlock (r : Reader) (input : Bytes) : ℕ × Reader :=
  let take := min (blockSize - r.block.length) input.length
  (take, { r with block := r.block ++ input.take take })

/-- `Reader::take_block`: how much it took, the block unless `input` ran out first, and the reader.
-/
def takeBlock (r : Reader) (input : Bytes) : ℕ × Option Block × Reader :=
  if r.block = [] ∧ blockSize ≤ input.length then (blockSize, some (input.take blockSize), r)
  else
    let (used, r) := r.fillBlock input
    if r.block.length = blockSize then (used, some r.block, { r with block := [] })
    else (used, none, r)

/-- `Reader::detect`: refuses input that does not start like tar. -/
def detect (r : Reader) (start : Bytes) : Except Error ℕ × Reader :=
  let (used, r) := r.fillBlock start
  if r.block.length = blockSize ∧ (Header.isNull r.block ∨ Header.isPlausible r.block) then
    (.ok used, r)
  else (.error .unrecognizedFormat, { r with state := .failed .unrecognizedFormat })

/-! ## The loops over the input -/

/-- The loop of `State::PaxLength`: how much it took, the reader, and whether the loop gave
`Continue`. -/
def paxLengthLoop (r : Reader) (used : ℕ) : Bytes → ℕ × Reader × Bool
  | [] => (used, r, false)
  | c :: cs =>
    if r.paxLeft ≤ r.paxLinePos then (used, r, false)
    else
      let used := used + 1
      let r := { r with paxLinePos := r.paxLinePos + 1 }
      if c = b ' ' then
        (used, if r.paxLeft < r.paxLineLength then r.ignoreRestOfPax
          else { r with paxKey := [], paxKeyEnded := false, state := .paxKey }, true)
      else if isAsciiDigit c then
        let r := { r with paxLineLength := r.paxLineLength * 10 + (c - b '0').toNat }
        if paxLineLimit < r.paxLineLength then (used, r.ignoreRestOfPax, true)
        else r.paxLengthLoop used cs
      else (used, r.ignoreRestOfPax, true)

/-- What the loop of `State::PaxKey` does at a byte other than `=`. -/
def pushPaxKey (r : Reader) (c : UInt8) : Reader :=
  let ended := r.paxKeyEnded || c = 0
  -- A key that starts with a NUL is still a key.
  { r with
    paxKeyEnded := ended, paxKey := if ended then r.paxKey else r.paxKey ++ [c]
    paxKeyStarted := true }

/-- The loop of `State::PaxKey` up to the `=`: how much it took, the reader, and whether there was
one. -/
def paxKeyLoop (r : Reader) (used : ℕ) : Bytes → ℕ × Reader × Bool
  | [] => (used, r, false)
  | c :: cs =>
    if r.paxLeft ≤ r.paxLinePos ∨ r.paxLineLength ≤ r.paxLinePos then (used, r, false)
    else
      let used := used + 1
      let r := { r with paxLinePos := r.paxLinePos + 1 }
      if c = b '=' then (used, r, true) else (r.pushPaxKey c).paxKeyLoop used cs

/-- The loop of `State::SparseMapLine`: how much it took, the line, and whether the line is all
there. -/
def sparseLineLoop (limit : ℕ) (line : Bytes) (used : ℕ) : Bytes → Except Error (ℕ × Bytes × Bool)
  | [] => .ok (used, line, false)
  | c :: cs =>
    if limit ≤ line.length then .error .lineTooLong
    else if c = b '\n' then .ok (used + 1, line ++ [c], true)
    else sparseLineLoop limit (line ++ [c]) (used + 1) cs

/-! ## One step -/

/-- `Reader::pax_prologue_ran_out`. -/
def paxPrologueRanOut (r : Reader) (used : ℕ) (eof : Bool) : Except Error (ℕ × Step × Reader) :=
  if r.paxPrologueAtEnd then .ok (used, .proceed, r.ignoreRestOfPax)
  else if eof then .error .truncatedPaxName
  else .ok (used, .needInput, r)

/-- `Reader::after_skip`. -/
def afterSkip (r : Reader) (after : AfterSkip) : Step × Reader :=
  match after with
  | .betweenHeaders status => (.proceed, r.betweenHeaders status)
  | .paxNewline status => (.proceed, { r with state := .paxNewline status })
  | .macMetadata =>
    (.proceed, betweenHeaders (resetHeaderState { r with entry := {}, seen := Seen.macMetadata })
      .ok)
  | .sparseMap => (.proceed, r.finishHeader r.status)
  | .endOfEntry => (.endOfEntry, { r with state := .nextEntry })
  | .nextEntry =>
    (.proceed, { resetHeaderState { r with
      entry := {}, sparse := [], sparseHead := 0, sizeFields := 0, status := .ok
      eofIsFatal := false, seen := 0 } with state := .header })

/-- The error of `State::Skip` at the end of the input. -/
def skipError (r : Reader) (left : ℤ) : AfterSkip → Error
  | .endOfEntry | .nextEntry => .truncatedSkip
  | .macMetadata => .truncatedMacMetadata
  | _ => .truncatedInput (left + r.skipped) r.skipped

/-- `State::Skip` of `Reader::step`. -/
def stepSkip (r : Reader) (left : ℤ) (after : AfterSkip) (input : Bytes) (eof : Bool) :
    Except Error (ℕ × Step × Reader) :=
  let take := if left < 0 then input.length else min left.toNat input.length
  let left := left - take
  let r := { r with skipped := r.skipped + take }
  if 0 < left then
    if eof then .error (r.skipError left after)
    else .ok (take, .needInput, { r with state := .skip left after })
  else .ok (take, { r with skipped := 0 }.afterSkip after)

/-- `State::Collect` of `Reader::step`. -/
def stepCollect (composes : Bytes → Bool) (r : Reader) (left : ℕ) (what : Collect) (input : Bytes)
    (eof : Bool) : Except Error (ℕ × Step × Reader) :=
  let take := min left input.length
  let r := { r with collected := r.collected ++ input.take take }
  let left := left - take
  if 0 < left then
    if eof then .error .truncatedMetadata
    else .ok (take, .needInput, { r with state := .collect left what })
  else (r.useCollected composes what r.collected).map fun r => (take, .proceed, r)

/-- `State::Header` of `Reader::step`. -/
def stepHeader (r : Reader) (input : Bytes) (eof : Bool) : Except Error (ℕ × Step × Reader) :=
  match r.takeBlock input with
  | (used, some block, r) => (r.onHeader block).map fun r => (used, .proceed, r)
  | (used, none, r) =>
    if ¬ eof then .ok (used, .needInput, r)
    else if r.block ≠ [] then .error .truncatedHeader
    else if r.eofIsFatal ∧ ¬ r.isNpm then .error .endWithinHeaders
    else .ok (used, .endOfArchive, { r with state := .done })

/-- `State::PaxNewline` of `Reader::step`. -/
def stepPaxNewline (composes : Bytes → Bool) (r : Reader) (status : Status) (input : Bytes)
    (eof : Bool) : Except Error (ℕ × Step × Reader) :=
  let r := { r with paxLinePos := 0 }
  if status = .failed then .ok (0, .proceed, r.skipRestOfPax .failed)
  else
    match input with
    | [] => if eof then .error .truncatedMetadata else .ok (0, .needInput, r)
    | c :: _ =>
      let r := { r with paxStatus := r.paxStatus.worse status }
      if c ≠ b '\n' then .ok (0, .proceed, r.ignoreRestOfPax)
      else
        let r := { r with paxLeft := r.paxLeft - 1 }
        .ok (1, .proceed, if (0 : ℤ) < r.paxLeft then r.beginPaxLine else r.finishPax composes)

/-- `State::OldSparseExtension` of `Reader::step`. -/
def stepOldSparse (r : Reader) (input : Bytes) (eof : Bool) : Except Error (ℕ × Step × Reader) :=
  match r.takeBlock input with
  | (used, some block, r) =>
    (r.addOldSparseEntries (Header.extensionSparse block)).bind fun r =>
      if Header.extensionIsExtended block then .ok (used, .proceed, r)
      else (r.headerCommon r.mainHeader).map fun r => (used, .proceed, r)
  | (used, none, r) => if eof then .error .truncatedSparse else .ok (used, .needInput, r)

/-- `State::SparseMapLine` of `Reader::step`. -/
def stepSparseMapLine (r : Reader) (field : SparseMapField) (input : Bytes) (eof : Bool) :
    Except Error (ℕ × Step × Reader) :=
  let limit := (min r.sparseMapLeft sparseMapLineLimit).toNat
  (sparseLineLoop limit r.line 0 input).bind fun (used, line, whole) =>
    let r := { r with line }
    if whole then (r.onSparseMapLine field).map fun r => (used, .proceed, r)
    else if eof then .error .malformedSparseMap
    else .ok (used, .needInput, r)

/-- The head of the sparse blocks, behind those that are used up. -/
def advanceSparse (r : Reader) : Reader :=
  { r with sparseHead :=
      r.sparseHead + ((r.sparse.drop r.sparseHead).takeWhile fun block => block.remaining =
      0).length }

/-- `State::Data` of `Reader::step`. -/
def stepData (r : Reader) (input : Bytes) (eof : Bool) : Except Error (ℕ × Step × Reader) :=
  let r := r.advanceSparse
  match if r.bytesRemaining ≠ 0 then r.sparse[r.sparseHead]? else none with
  | none =>
    let left := r.bytesRemaining + r.padding
    .ok (0, .proceed, { r with bytesRemaining := 0, padding := 0, state := .skip left .endOfEntry })
  | some block =>
    if input = [] then if eof then .error .truncatedData else .ok (0, .needInput, r)
    else
      let len := min (min (input.length : ℤ) r.bytesRemaining) block.remaining
      let r := { r with
        sparse := r.sparse.set r.sparseHead
          { block with remaining := block.remaining - len, offset := block.offset + len }
        bytesRemaining := r.bytesRemaining - len }
      .ok (len.toNat, if block.hole then .proceed else .data block.offset len.toNat, r)

/-- `Reader::step`. -/
def step (composes : Bytes → Bool) (r : Reader) (input : Bytes) (eof : Bool) :
    Except Error (ℕ × Step × Reader) :=
  match r.state with
  | .failed error => .error error
  | .done => .ok (0, .endOfArchive, r)
  | .nextEntry =>
    let left := r.bytesRemaining + r.padding
    .ok (0, .proceed, { r with bytesRemaining := 0, padding := 0, state := .skip left .nextEntry })
  | .header => r.stepHeader input eof
  | .skip left after => r.stepSkip left after input eof
  | .collect left what => r.stepCollect composes left what input eof
  | .paxLength =>
    match r.paxLengthLoop 0 input with
    | (used, r, true) => .ok (used, .proceed, r)
    | (used, r, false) => r.paxPrologueRanOut used eof
  | .paxKey =>
    match r.paxKeyLoop 0 input with
    | (used, r, true) =>
      if r.paxKeyStarted then r.onPaxKey.map fun r => (used, .proceed, r)
      else .ok (used, .proceed, r.ignoreRestOfPax)
    | (used, r, false) => r.paxPrologueRanOut used eof
  | .paxNewline status => r.stepPaxNewline composes status input eof
  | .oldSparseExtension => r.stepOldSparse input eof
  | .sparseMapLine field => r.stepSparseMapLine field input eof
  | .emit => .ok (0, .entry, { r with state := .data })
  | .data => r.stepData input eof
  | .drain =>
    if eof then .ok (input.length, .endOfArchive, { r with state := .done })
    else .ok (input.length, .needInput, r)

/-! ## Calls -/

/-- The reader behind an error, which is final. -/
def fail (r : Reader) (error : Error) : Reader := { r with state := .failed error }

/-- The loop of `Reader::poll`, from the position `pos` of the input on. -/
def pollFrom (composes : Bytes → Bool) (input : Bytes) (eof : Bool) :
    ℕ → ℕ → Reader → Option (Except Error (ℕ × Poll) × Reader)
  | 0, _, _ => none
  | fuel + 1, pos, r =>
    match r.step composes (input.drop pos) eof with
    | .error error => some (.error error, r.fail error)
    | .ok (used, step, r) =>
      match step with
      | .proceed => pollFrom composes input eof fuel (pos + used) r
      | .needInput => some (.ok (pos + used, .needInput), r)
      | .entry => some (.ok (pos + used, .entry), r)
      | .data offset len => some (.ok (pos + used, .data offset pos len), r)
      | .endOfEntry => some (.ok (pos + used, .endOfEntry r.diskSize), r)
      | .endOfArchive => some (.ok (pos + used, .endOfArchive), r)

/-- `Reader::poll`. -/
def poll (composes : Bytes → Bool) (fuel : ℕ) (r : Reader) (input : Bytes) (eof : Bool) :
    Option (Except Error (ℕ × Poll) × Reader) :=
  pollFrom composes input eof fuel 0 r

/-- `Reader::next`. -/
def next (composes : Bytes → Bool) (fuel : ℕ) (r : Reader) (input : Bytes) (eof : Bool) :
    Option (Except Error (ℕ × Event) × Reader) :=
  (r.poll composes fuel input eof).map fun (result, r) =>
    (result.map fun (used, poll) => (used, poll.event r.entry input), r)

/-! ## Callers -/

/-- A caller that hands the pieces over one at a time, each when the reader asks for it, and says
with the last one that nothing follows. `input` is what the reader has not taken yet. The result are
the events other than `NeedInput` and how it ended. -/
def feed (composes : Bytes → Bool) :
    ℕ → Reader → Bytes → List Bytes → Option (List Event × Except Error Unit)
  | 0, _, _, _ => none
  | fuel + 1, r, input, pieces =>
    match r.next composes (fuel + 1) input pieces.isEmpty with
    | none => none
    | some (.error error, _) => some ([], .error error)
    | some (.ok (used, event), r) =>
      match event, pieces with
      | .endOfArchive, _ => some ([], .ok ())
      | .needInput, [] => none
      | .needInput, piece :: pieces => feed composes fuel r (input.drop used ++ piece) pieces
      | event, pieces =>
        (feed composes fuel r (input.drop used) pieces).map fun (events, ending) =>
          (event :: events, ending)

/-- What any caller may see that hands the pieces over in order: it may add the next pieces before
any call, and `eof` is set in no call with pieces left. -/
inductive Fed (composes : Bytes → Bool) :
    Reader → Bytes → List Bytes → List Event → Except Error Unit → Prop
  | more {r input piece pieces events ending} :
    Fed composes r (input ++ piece) pieces events ending →
    Fed composes r input (piece :: pieces) events ending
  | failed {fuel r input pieces eof error r'} : (eof = true → pieces = []) →
    next composes fuel r input eof = some (.error error, r') →
    Fed composes r input pieces [] (.error error)
  | ended {fuel r input pieces eof used r'} : (eof = true → pieces = []) →
    next composes fuel r input eof = some (.ok (used, .endOfArchive), r') →
    Fed composes r input pieces [] (.ok ())
  | needInput {fuel r input pieces eof used r' events ending} : (eof = true → pieces = []) →
    next composes fuel r input eof = some (.ok (used, .needInput), r') →
    Fed composes r' (input.drop used) pieces events ending →
    Fed composes r input pieces events ending
  | event {fuel r input pieces eof used event r' events ending} : (eof = true → pieces = []) →
    next composes fuel r input eof = some (.ok (used, event), r') →
    event ≠ .needInput → event ≠ .endOfArchive →
    Fed composes r' (input.drop used) pieces events ending →
    Fed composes r input pieces (event :: events) ending

end Reader

end Soup.Tar
