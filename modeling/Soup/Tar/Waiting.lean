import Soup.Tar.Progress

/-!
# A reader that waits for more

What a step does to a part of the input is what it does to the whole of it, or the first part of
that: where it asks for more, the next step goes on as if there had been no end between (`Waits`),
and data that end with the part go on behind it.
-/

namespace Soup.Tar

open Lib List

variable {composes : Bytes → Bool} {taken : ℤ} {r r' : Reader}

namespace Reader

/-! ## The state does not matter -/

/-- What a record sets does not depend on the state. -/
theorem onPaxNumber_state (r : Reader) (state : State) (which : Number) (value : ℤ) :
    ({ r with state } : Reader).onPaxNumber which value =
      (r.onPaxNumber which value).map fun r => { r with state } := by
  cases which with
  | sparseOffset | sparseNumBytes =>
    simp only [onPaxNumber, addPendingSparseBlock]
    repeat' split
    all_goals rfl
  | sparseMajor | sparseMinor =>
    simp only [onPaxNumber]
    split <;> rfl
  | sparseSize | sparseRealSize | schilyRealSize | size | unused => rfl

theorem sparseMapFields_state (r : Reader) (state : State) (offset : Option ℤ)
    (fields : List Bytes) : ({ r with state } : Reader).sparseMapFields offset fields =
      ({ (r.sparseMapFields offset fields).1 with state },
        (r.sparseMapFields offset fields).2) := by
  induction fields generalizing r offset with
  | nil => rfl
  | cons field fields ih =>
    rw [sparseMapFields.eq_def, sparseMapFields.eq_def]
    dsimp only
    split
    · rfl
    · cases offset with
      | none => exact ih r _
      | some offset =>
        dsimp only
        split
        · exact ih (r.addSparseBlock offset _ false) none
        · rfl

theorem holesFields_state (r : Reader) (state : State) (stop : ℤ) (hole : Bool)
    (fields : List Bytes) : ({ r with state } : Reader).holesFields stop hole fields =
      (r.holesFields stop hole fields).map fun (r, parses) => ({ r with state }, parses) := by
  induction fields generalizing r stop hole with
  | nil => rfl
  | cons field fields ih =>
    rw [holesFields, holesFields]
    dsimp only
    split
    · rfl
    · split
      · split
        · exact ih (r.addSparseBlock _ _ hole) _ _
        · rfl
      · exact ih r _ _

theorem usePaxValue_state (r : Reader) (state : State) (what : Collect) (value : Bytes) :
    ({ r with state } : Reader).usePaxValue composes what value =
      (r.usePaxValue composes what value).map fun (r, status) => ({ r with state }, status) := by
  cases what with
  | longName | longLink | symlinkType | headerCharset => rfl
  | number which =>
    simp only [usePaxValue, onPaxNumber_state]
    split
    · cases r.onPaxNumber which (parseDecimal value) <;> rfl
    · split <;> rfl
  | time isMtime =>
    simp only [usePaxValue]
    split <;> rfl
  | paxText which => cases which <;> rfl
  | sparseMap =>
    simp only [usePaxValue, parseSparseMap01, sparseMapFields_state]
    rfl
  | holesData =>
    cases value with
    | nil => rfl
    | cons first rest =>
      simp only [usePaxValue, parseHolesData]
      split
      · rw [holesFields_state]
        cases r.holesFields 0 true (rest.splitOn (b ' ')) <;> rfl
      · rfl

theorem useCollected_state (r : Reader) (state : State) (what : Collect) (value : Bytes) :
    ({ r with state } : Reader).useCollected composes what value =
      r.useCollected composes what value := by
  by_cases hwhat : what = .longName ∨ what = .longLink
  · rcases hwhat with rfl | rfl <;> rfl
  · rw [useCollected_eq hwhat, useCollected_eq hwhat, usePaxValue_state]
    cases r.usePaxValue composes what value <;> rfl

theorem ensureSparse_state (r : Reader) (state : State) :
    ({ r with state } : Reader).ensureSparse = { r.ensureSparse with state } := by
  rw [ensureSparse, ensureSparse]
  split <;> rfl

theorem makeDirectory_state (r : Reader) (state : State) (status : Status) :
    ({ r with state } : Reader).makeDirectory status = { r.makeDirectory status with state } := by
  by_cases h : (if r.isNpm then r.plainFile else decide (status = .ok)) = true ∧
      r.entry.filetype = ifreg ∧ r.entry.path.getLast? = some (b '/')
  · have hr : r.makeDirectory status =
        { r with entry := r.entry.setFiletype ifdir, bytesRemaining := 0, padding := 0 } := if_pos h
    rw [hr]
    exact if_pos h
  · have hr : r.makeDirectory status = r := if_neg h
    rw [hr]
    exact if_neg h

theorem refuseFile_state (r : Reader) (state : State) :
    ({ r with state } : Reader).refuseFile = { r.refuseFile with state } := by
  by_cases h : r.isNpm ∧ r.entry.filetype = ifreg ∧
      (¬ (r.plainFile ∨ r.typeflag = b '7') ∨ 0 ∈ r.paxPath)
  · have hr : r.refuseFile = { r with entry := r.entry.setFiletype 0 } := if_pos h
    rw [hr]
    exact if_pos h
  · have hr : r.refuseFile = r := if_neg h
    rw [hr]
    exact if_neg h

/-- The header sets the state whatever it was before. -/
theorem finishHeader_setState (r : Reader) (state : State) (status : Status) :
    ({ r with state } : Reader).finishHeader status = r.finishHeader status := by
  rw [finishHeader, ensureSparse_state, makeDirectory_state, refuseFile_state]
  rfl

theorem afterSkip_setState (r : Reader) (state : State) (after : AfterSkip) :
    ({ r with state } : Reader).afterSkip after = r.afterSkip after := by
  cases after with
  | sparseMap =>
    rw [afterSkip, afterSkip]
    rw [finishHeader_setState]
  | betweenHeaders _ | paxNewline _ | macMetadata | endOfEntry | nextEntry => rfl

/-! ## Steps on a part of the input -/

/-- The same outcome, behind `n` bytes more. -/
def shift (n : ℕ) (out : Except Error (ℕ × Step × Reader)) : Except Error (ℕ × Step × Reader) :=
  out.map fun (used, st, r) => (n + used, st, r)

/-- The bytes that were used before count as well. -/
theorem shift_ok (n used : ℕ) (st : Step) (r : Reader) :
    shift n (.ok (used, st, r)) = .ok (n + used, st, r) := rfl

theorem shift_map (n used : ℕ) (st : Step) (x : Except Error Reader) :
    shift n (x.map fun r => (used, st, r)) = x.map fun r => (n + used, st, r) := by
  cases x <;> rfl

/-- The step on `a` and what follows it did what the step on `a` did, or the step on `a` waited and
the next one goes on with `rest`. -/
def Agrees (composes : Bytes → Bool) (a rest : Bytes)
    (part whole : Except Error (ℕ × Step × Reader)) :
    Prop :=
  whole = part ∨ ∃ r', part = .ok (a.length, .needInput, r') ∧
    whole = shift a.length (r'.step composes rest true)

theorem step_header (hstate : r.state = .header) (input : Bytes) (eof : Bool) :
    r.step composes input eof = r.stepHeader input eof := by
  rw [step, hstate]

/-- There is enough for the block. -/
theorem takeBlock_full {input : Bytes} (hblock : r.block.length ≤ 512)
    (hfull : 512 ≤ r.block.length + input.length) : r.takeBlock input =
      (512 - r.block.length, some (r.block ++ input.take (512 - r.block.length)),
        { r with block := [] }) := by
  rw [takeBlock_eq hblock, if_pos hfull]

/-- All of the input goes into the block. -/
theorem takeBlock_short {input : Bytes} (hblock : r.block.length ≤ 512)
    (hshort : ¬ 512 ≤ r.block.length + input.length) : r.takeBlock input =
      (input.length, none, { r with block := r.block ++ input }) := by
  rw [takeBlock_eq hblock, if_neg hshort]

/-- A block that comes in two parts. -/
theorem takeBlock_append {a rest : Bytes} (hblock : r.block.length ≤ 512)
    (hshort : ¬ 512 ≤ r.block.length + a.length) : r.takeBlock (a ++ rest) =
      (a.length + (({ r with block := r.block ++ a } : Reader).takeBlock rest).1,
        (({ r with block := r.block ++ a } : Reader).takeBlock rest).2) := by
  have hblock' : ({ r with block := r.block ++ a } : Reader).block.length ≤ 512 := by
    rw [length_append]
    omega
  have hlen : ({ r with block := r.block ++ a } : Reader).block.length =
      r.block.length + a.length :=
    length_append
  by_cases hfull : 512 ≤ r.block.length + (a ++ rest).length
  · rw [length_append] at hfull
    rw [takeBlock_full hblock (by rw [length_append]; exact hfull),
      takeBlock_full hblock' (by rw [hlen]; omega), hlen]
    rw [take_append, take_of_length_le (by omega : a.length ≤ 512 - r.block.length),
      append_assoc, show 512 - r.block.length = a.length + (512 - (r.block.length + a.length)) by
        omega, Nat.add_sub_cancel_left]
  · rw [length_append] at hfull
    rw [takeBlock_short hblock (by rw [length_append]; exact hfull),
      takeBlock_short hblock' (by rw [hlen]; omega), length_append, append_assoc]

variable (a rest : Bytes)

/-- A header that comes in two pieces. -/
theorem stepHeader_agrees (hblock : r.block.length ≤ 512) (hstate : r.state = .header) :
    Agrees composes a rest (r.stepHeader a false) (r.stepHeader (a ++ rest) true) := by
  by_cases hfull : 512 ≤ r.block.length + a.length
  · left
    rw [stepHeader, stepHeader, takeBlock_full hblock hfull, takeBlock_full hblock (by
      rw [length_append]
      omega), take_append_of_le_length (by omega)]
  · right
    refine ⟨{ r with block := r.block ++ a }, ?_, ?_⟩
    · rw [stepHeader, takeBlock_short hblock hfull]
      rfl
    · rw [step_header (by exact hstate), stepHeader, stepHeader, takeBlock_append hblock hfull]
      rcases ({ r with block := r.block ++ a } : Reader).takeBlock rest with ⟨used, _ | block, s⟩
      · dsimp only
        rw [if_neg (not_not.2 rfl), if_neg (not_not.2 rfl)]
        split
        · rfl
        · split <;> rfl
      · dsimp only
        rw [shift_map]

theorem step_oldSparse (hstate : r.state = .oldSparseExtension) (input : Bytes) (eof : Bool) :
    r.step composes input eof = r.stepOldSparse input eof := by
  rw [step, hstate]

theorem stepOldSparse_agrees (hblock : r.block.length ≤ 512)
    (hstate : r.state = .oldSparseExtension) :
    Agrees composes a rest (r.stepOldSparse a false) (r.stepOldSparse (a ++ rest) true) := by
  by_cases hfull : 512 ≤ r.block.length + a.length
  · left
    rw [stepOldSparse, stepOldSparse, takeBlock_full hblock hfull, takeBlock_full hblock (by
      rw [length_append]
      omega), take_append_of_le_length (by omega)]
  · right
    refine ⟨{ r with block := r.block ++ a }, ?_, ?_⟩
    · rw [stepOldSparse, takeBlock_short hblock hfull]
      rfl
    · rw [step_oldSparse (by exact hstate), stepOldSparse, stepOldSparse,
        takeBlock_append hblock hfull]
      rcases ({ r with block := r.block ++ a } : Reader).takeBlock rest with ⟨used, _ | block, s⟩
      · rfl
      · dsimp only
        cases s.addOldSparseEntries (Header.extensionSparse block) with
        | error error => rfl
        | ok s =>
          dsimp only [Except.bind]
          split
          · rfl
          · rw [shift_map]

theorem step_skip {left : ℤ} {after : AfterSkip} (hstate : r.state = .skip left after)
    (input : Bytes) (eof : Bool) : r.step composes input eof = r.stepSkip left after input eof := by
  rw [step, hstate]

/-- The bytes are skipped in two steps. -/
theorem stepSkip_agrees {left : ℤ} {after : AfterSkip} (a rest : Bytes) (hleft : 0 ≤ left) :
    Agrees composes a rest (r.stepSkip left after a false)
      (r.stepSkip left after (a ++ rest) true) := by
  by_cases hdone : left ≤ a.length
  · left
    have htake : min left.toNat (a ++ rest).length = min left.toNat a.length := by
      rw [length_append]
      omega
    have hmore : ¬ 0 < left - ((min left.toNat a.length : ℕ) : ℤ) := by omega
    rw [stepSkip, stepSkip]
    rw [if_neg (not_lt.2 hleft), if_neg (not_lt.2 hleft), htake, if_neg hmore, if_neg hmore]
  · right
    have htake : min left.toNat a.length = a.length := by omega
    refine ⟨{ r with skipped := r.skipped + a.length, state := .skip (left - a.length) after }, ?_,
      ?_⟩
    · rw [stepSkip]
      rw [if_neg (not_lt.2 hleft), htake, if_pos (by omega)]
      rfl
    · have hleft' : ¬ left - (a.length : ℤ) < 0 := by omega
      rw [step_skip (by rfl), stepSkip, stepSkip]
      rw [if_neg (not_lt.2 hleft), if_neg hleft']
      have htotal : min left.toNat (a ++ rest).length =
          a.length + min (left - a.length).toNat rest.length := by
        rw [length_append]
        omega
      rw [htotal]
      generalize min (left - a.length).toNat rest.length = n
      have hsum : left - ((a.length + n : ℕ) : ℤ) = left - a.length - n := by
        push_cast
        omega
      have hskipped : r.skipped + ((a.length + n : ℕ) : ℤ) = r.skipped + a.length + n := by
        push_cast
        omega
      rw [hsum, hskipped]
      split
      · cases after <;> rfl
      · rw [shift_ok]
        refine congrArg (fun out => Except.ok (a.length + n, out)) ?_
        exact (afterSkip_setState { r with skipped := 0 }
          (.skip (left - a.length) after) after).symm

theorem step_collect {left : ℕ} {what : Collect} (hstate : r.state = .collect left what)
    (input : Bytes) (eof : Bool) :
    r.step composes input eof = r.stepCollect composes left what input eof := by
  rw [step, hstate]

/-- The bytes are collected in two steps. -/
theorem stepCollect_agrees {left : ℕ} {what : Collect} (a rest : Bytes) :
    Agrees composes a rest (r.stepCollect composes left what a false)
      (r.stepCollect composes left what (a ++ rest) true) := by
  by_cases hdone : left ≤ a.length
  · left
    have htake : min left (a ++ rest).length = min left a.length := by
      rw [length_append]
      omega
    rw [stepCollect, stepCollect]
    rw [htake, if_neg (by omega), if_neg (by omega), take_append_of_le_length (by omega)]
  · right
    have htake : min left a.length = a.length := by omega
    refine ⟨{ r with collected := r.collected ++ a, state := .collect (left - a.length) what }, ?_,
      ?_⟩
    · rw [stepCollect]
      rw [htake, if_pos (by omega), take_length]
      rfl
    · rw [step_collect (by rfl), stepCollect, stepCollect]
      have htotal : min left (a ++ rest).length = a.length + min (left - a.length) rest.length := by
        rw [length_append]
        omega
      have hbytes : (a ++ rest).take (min left (a ++ rest).length) =
          a ++ rest.take (min (left - a.length) rest.length) := by
        rw [htotal, take_append, take_of_length_le (by omega), Nat.add_sub_cancel_left]
      rw [hbytes, htotal, ← append_assoc,
        show left - (a.length + min (left - a.length) rest.length) =
        left - a.length - min (left - a.length) rest.length by omega]
      split
      · rfl
      · rw [shift_map]
        exact congrArg (Except.map _) (useCollected_state
          { r with collected := r.collected ++ a ++ rest.take (min (left - a.length) rest.length) }
          (.collect (left - a.length) what) what _).symm

/-! ## The prologue of a record -/

/-- The digits of a length that come in two pieces. -/
theorem paxLengthLoop_append (r : Reader) (used : ℕ) (a rest : Bytes) :
    r.paxLengthLoop used (a ++ rest) = match r.paxLengthLoop used a with
      | (used, r, true) => (used, r, true)
      | (used, r, false) => r.paxLengthLoop used rest := by
  induction a generalizing r used with
  | nil => rfl
  | cons c cs ih =>
    rw [cons_append, paxLengthLoop, paxLengthLoop]
    split
    next hend =>
      cases rest with
      | nil => rfl
      | cons c' rest =>
        dsimp only
        rw [paxLengthLoop, if_pos hend]
    · dsimp only
      split
      · rfl
      · split
        · split
          · rfl
          · exact ih _ _
        · rfl

/-- The count is only added to. -/
theorem paxLengthLoop_add (r : Reader) (n used : ℕ) (input : Bytes) :
    r.paxLengthLoop (n + used) input =
      (n + (r.paxLengthLoop used input).1, (r.paxLengthLoop used input).2) := by
  induction input generalizing r used with
  | nil => rfl
  | cons c cs ih =>
    rw [paxLengthLoop, paxLengthLoop]
    split
    · rfl
    · dsimp only
      split
      · rfl
      · split
        · split
          · rfl
          · exact ih _ (used + 1)
        · rfl

/-- The bytes of a key that come in two pieces. -/
theorem paxKeyLoop_append (r : Reader) (used : ℕ) (a rest : Bytes) :
    r.paxKeyLoop used (a ++ rest) = match r.paxKeyLoop used a with
      | (used, r, true) => (used, r, true)
      | (used, r, false) => r.paxKeyLoop used rest := by
  induction a generalizing r used with
  | nil => rfl
  | cons c cs ih =>
    rw [cons_append, paxKeyLoop, paxKeyLoop]
    split
    next hend =>
      cases rest with
      | nil => rfl
      | cons c' rest =>
        dsimp only
        rw [paxKeyLoop, if_pos hend]
    · dsimp only
      split
      · rfl
      · exact ih _ _

theorem paxKeyLoop_add (r : Reader) (n used : ℕ) (input : Bytes) :
    r.paxKeyLoop (n + used) input =
      (n + (r.paxKeyLoop used input).1, (r.paxKeyLoop used input).2) := by
  induction input generalizing r used with
  | nil => rfl
  | cons c cs ih =>
    rw [paxKeyLoop, paxKeyLoop]
    split
    · rfl
    · dsimp only
      split
      · rfl
      · exact ih _ (used + 1)

theorem shift_ranOut (r : Reader) (n used : ℕ) (eof : Bool) :
    shift n (r.paxPrologueRanOut used eof) = r.paxPrologueRanOut (n + used) eof := by
  rw [paxPrologueRanOut, paxPrologueRanOut]
  split
  · rfl
  · split <;> rfl

/-- `State::PaxLength` of `Reader::step`. -/
theorem step_paxLength (hstate : r.state = .paxLength) (input : Bytes) (eof : Bool) :
    r.step composes input eof = match r.paxLengthLoop 0 input with
      | (used, r, true) => .ok (used, .proceed, r)
      | (used, r, false) => r.paxPrologueRanOut used eof := by
  rcases hloop : r.paxLengthLoop 0 input with ⟨used, s, _ | _⟩ <;> simp only [step, hstate, hloop]

theorem paxLength_agrees (hstate : r.state = .paxLength) :
    Agrees composes a rest (r.step composes a false) (r.step composes (a ++ rest) true) := by
  rw [step_paxLength hstate, step_paxLength hstate, paxLengthLoop_append]
  rcases hloop : r.paxLengthLoop 0 a with ⟨used, s, whole⟩
  obtain ⟨-, -, -, -, hrest⟩ := paxLengthLoop_used hloop
  cases whole with
  | true => exact .inl rfl
  | false =>
    obtain ⟨hs, hall⟩ := hrest rfl
    rw [hstate] at hs
    dsimp only
    by_cases hend : s.paxLeft ≤ s.paxLinePos
    · left
      have hstop : s.paxLengthLoop used rest = (used, s, false) := by
        cases rest with
        | nil => rfl
        | cons c rest => rw [paxLengthLoop, if_pos hend]
      have hatEnd : s.paxPrologueAtEnd = true := by simp [paxPrologueAtEnd, hend]
      rw [hstop]
      dsimp only
      rw [paxPrologueRanOut, paxPrologueRanOut, if_pos hatEnd, if_pos hatEnd]
    · right
      have hatEnd : ¬ s.paxPrologueAtEnd = true := by simp [paxPrologueAtEnd, hend, hs]
      have hused : used = a.length := by
        have := hall (not_le.1 hend)
        omega
      refine ⟨s, ?_, ?_⟩
      · rw [paxPrologueRanOut, if_neg hatEnd, hused]
        rfl
      · rw [step_paxLength hs, hused, ← add_zero a.length, paxLengthLoop_add, add_zero]
        rcases s.paxLengthLoop 0 rest with ⟨used', s', whole⟩
        cases whole with
        | true => rfl
        | false => exact (shift_ranOut s' a.length used' true).symm

/-- `State::PaxKey` of `Reader::step`, behind its loop. -/
def stepPaxKey (used : ℕ) (r : Reader) (eof : Bool) : Bool → Except Error (ℕ × Step × Reader)
  | true =>
    if r.paxKeyStarted then r.onPaxKey.map fun r => (used, .proceed, r)
    else .ok (used, .proceed, r.ignoreRestOfPax)
  | false => r.paxPrologueRanOut used eof

theorem step_paxKey (hstate : r.state = .paxKey) (input : Bytes) (eof : Bool) :
    r.step composes input eof =
      stepPaxKey (r.paxKeyLoop 0 input).1 (r.paxKeyLoop 0 input).2.1
        eof (r.paxKeyLoop 0 input).2.2 := by
  rw [step, hstate]
  rcases r.paxKeyLoop 0 input with ⟨used, s, whole⟩
  cases whole <;> rfl

theorem shift_stepPaxKey (n used : ℕ) (r : Reader) (eof whole : Bool) :
    shift n (stepPaxKey used r eof whole) = stepPaxKey (n + used) r eof whole := by
  cases whole with
  | true =>
    rw [stepPaxKey, stepPaxKey]
    split
    · rw [shift_map]
    · rfl
  | false => exact shift_ranOut r n used eof

theorem paxKey_agrees (hstate : r.state = .paxKey) :
    Agrees composes a rest (r.step composes a false) (r.step composes (a ++ rest) true) := by
  rw [step_paxKey hstate, step_paxKey hstate, paxKeyLoop_append]
  rcases hloop : r.paxKeyLoop 0 a with ⟨used, s, whole⟩
  obtain ⟨-, -, -, hs, -, hrest⟩ := paxKeyLoop_used hloop
  rw [hstate] at hs
  cases whole with
  | true => exact .inl rfl
  | false =>
    dsimp only
    by_cases hend : s.paxLeft ≤ s.paxLinePos ∨ s.paxLineLength ≤ s.paxLinePos
    · left
      have hstop : s.paxKeyLoop used rest = (used, s, false) := by
        cases rest with
        | nil => rfl
        | cons c rest => rw [paxKeyLoop, if_pos hend]
      have hatEnd : s.paxPrologueAtEnd = true := by simpa [paxPrologueAtEnd, hs] using hend
      rw [hstop]
      dsimp only [stepPaxKey]
      rw [paxPrologueRanOut, paxPrologueRanOut, if_pos hatEnd, if_pos hatEnd]
    · right
      have hatEnd : ¬ s.paxPrologueAtEnd = true := by simpa [paxPrologueAtEnd, hs] using hend
      rw [not_or, not_le, not_le] at hend
      have hused : used = a.length := by
        have := hrest rfl hend.1 hend.2
        omega
      refine ⟨s, ?_, ?_⟩
      · rw [stepPaxKey, paxPrologueRanOut, if_neg hatEnd, hused]
        rfl
      · rw [step_paxKey hs, shift_stepPaxKey, hused, ← add_zero a.length, paxKeyLoop_add,
          add_zero]

/-! ## The other states -/

/-- A line that comes in two pieces. -/
theorem sparseLineLoop_append (limit used : ℕ) (line a rest : Bytes) :
    sparseLineLoop limit line used (a ++ rest) =
      (sparseLineLoop limit line used a).bind fun (used, line, whole) =>
        if whole then .ok (used, line, true) else sparseLineLoop limit line used rest := by
  induction a generalizing line used with
  | nil => rfl
  | cons c cs ih =>
    rw [cons_append, sparseLineLoop, sparseLineLoop]
    split
    · rfl
    · split
      · rfl
      · exact ih _ _

theorem sparseLineLoop_add (limit n used : ℕ) (line input : Bytes) :
    sparseLineLoop limit line (n + used) input =
      (sparseLineLoop limit line used input).map fun (used, line, whole) =>
        (n + used, line, whole) := by
  induction input generalizing line used with
  | nil => rfl
  | cons c cs ih =>
    rw [sparseLineLoop, sparseLineLoop]
    split
    · rfl
    · split
      · rfl
      · exact ih (used + 1) _

variable {field : SparseMapField}

theorem step_sparseMapLine (hstate : r.state = .sparseMapLine field)
    (input : Bytes) (eof : Bool) :
    r.step composes input eof = r.stepSparseMapLine field input eof := by
  rw [step, hstate]

theorem stepSparseMapLine_agrees (a rest : Bytes)
    (hstate : r.state = .sparseMapLine field) :
    Agrees composes a rest (r.stepSparseMapLine field a false)
      (r.stepSparseMapLine field (a ++ rest) true) := by
  rw [stepSparseMapLine, stepSparseMapLine]
  rw [sparseLineLoop_append]
  cases hloop : sparseLineLoop (min r.sparseMapLeft sparseMapLineLimit).toNat r.line 0 a with
  | error error => exact .inl rfl
  | ok out =>
    obtain ⟨used, line, whole⟩ := out
    obtain ⟨-, -, -, -, hall, -⟩ := sparseLineLoop_length hloop
    cases whole with
    | true => exact .inl rfl
    | false =>
      have hused : used = a.length := by
        have := hall rfl
        omega
      refine .inr ⟨{ r with line }, ?_, ?_⟩
      · rw [hused]
        rfl
      · rw [step_sparseMapLine (by exact hstate), stepSparseMapLine]
        dsimp only [Except.bind]
        rw [hused, if_neg Bool.false_ne_true, ← add_zero a.length, sparseLineLoop_add,
          add_zero]
        cases sparseLineLoop (min r.sparseMapLeft sparseMapLineLimit).toNat line 0 rest with
        | error error => rfl
        | ok out =>
          obtain ⟨used', line', whole⟩ := out
          cases whole with
          | true =>
            exact (shift_map a.length used' .proceed
              (({ r with line := line' } : Reader).onSparseMapLine field)).symm
          | false => rfl

theorem step_paxNewline {status : Status} (hstate : r.state = .paxNewline status) (input : Bytes)
    (eof : Bool) : r.step composes input eof = r.stepPaxNewline composes status input eof := by
  rw [step, hstate]

theorem stepPaxNewline_agrees {status : Status} (a rest : Bytes)
    (hstate : r.state = .paxNewline status) :
    Agrees composes a rest (r.stepPaxNewline composes status a false)
      (r.stepPaxNewline composes status (a ++ rest) true) := by
  by_cases hfailed : status = .failed
  · left
    rw [stepPaxNewline.eq_def, stepPaxNewline.eq_def]
    rw [if_pos hfailed, if_pos hfailed]
  · cases a with
    | nil =>
      right
      refine ⟨{ r with paxLinePos := 0 }, ?_, ?_⟩
      · rw [stepPaxNewline.eq_def]
        rw [if_neg hfailed]
        rfl
      · rw [step_paxNewline (by exact hstate), nil_append, length_nil]
        rw [stepPaxNewline.eq_def, stepPaxNewline.eq_def]
        rw [if_neg hfailed]
        cases rest with
        | nil => rfl
        | cons c rest =>
          dsimp only
          split <;> rfl
    | cons c cs =>
      left
      rw [stepPaxNewline.eq_def, stepPaxNewline.eq_def]
      rfl

/-- Every state but the one for data. -/
theorem step_agrees (h : Sound taken r) (hdata : r.state ≠ .data) (a rest : Bytes) :
    Agrees composes a rest (r.step composes a false) (r.step composes (a ++ rest) true) := by
  cases hstate : r.state with
  | failed error | done | nextEntry | emit =>
    left
    rw [step, step, hstate]
  | header =>
    rw [step_header hstate, step_header hstate]
    exact stepHeader_agrees a rest h.block hstate
  | skip left after =>
    have hat := h.place
    simp only [At, hstate] at hat
    rw [step_skip hstate, step_skip hstate]
    exact stepSkip_agrees a rest hat.2.2.1
  | collect left what =>
    rw [step_collect hstate, step_collect hstate]
    exact stepCollect_agrees a rest
  | paxLength => exact paxLength_agrees a rest hstate
  | paxKey => exact paxKey_agrees a rest hstate
  | paxNewline status =>
    rw [step_paxNewline hstate, step_paxNewline hstate]
    exact stepPaxNewline_agrees a rest hstate
  | oldSparseExtension =>
    rw [step_oldSparse hstate, step_oldSparse hstate]
    exact stepOldSparse_agrees a rest h.block hstate
  | sparseMapLine field =>
    rw [step_sparseMapLine hstate, step_sparseMapLine hstate]
    exact stepSparseMapLine_agrees a rest hstate
  | data => exact absurd hstate hdata
  | drain =>
    right
    refine ⟨r, ?_, ?_⟩
    · rw [step, hstate]
      rfl
    · rw [step, step, hstate]
      rw [if_pos rfl, if_pos rfl, shift_ok, length_append]

end Reader

end Soup.Tar
