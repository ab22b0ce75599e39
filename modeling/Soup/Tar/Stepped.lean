import Soup.Tar.Kept

/-!
# What a step can do

`Stepped` has a case for each way in which `Reader::step` comes to its end without an error
(`step_cases`). What holds of every step is shown by its cases.
-/

namespace Soup.Tar

open Lib List

variable {composes : Bytes → Bool} {r r' : Reader} {input : Bytes} {eof : Bool} {used : ℕ}
  {st : Step}

namespace Reader

/-- The block is filled, or all of the input is added to it. -/
theorem takeBlock_eq (h : r.block.length ≤ 512) (input : Bytes) : r.takeBlock input =
    if 512 ≤ r.block.length + input.length then
      (512 - r.block.length, some (r.block ++ input.take (512 - r.block.length)),
        { r with block := [] })
    else (input.length, none, { r with block := r.block ++ input }) := by
  rw [takeBlock, fillBlock]
  by_cases hempty : r.block = [] ∧ blockSize ≤ input.length
  · rw [if_pos hempty, if_pos (by
      rw [hempty.1]
      exact le_of_le_of_eq hempty.2 (zero_add _).symm)]
    have hr : ({ r with block := [] } : Reader) = r := by
      rw [← hempty.1]
    rw [hr, hempty.1]
    rfl
  · rw [if_neg hempty]
    dsimp only
    by_cases hfull : 512 ≤ r.block.length + input.length
    · have htake : min (blockSize - r.block.length) input.length = 512 - r.block.length := by
        rw [blockSize]
        omega
      have hlen : (r.block ++ input.take (512 - r.block.length)).length = blockSize := by
        rw [length_append, length_take, blockSize]
        omega
      rw [if_pos hfull, htake, if_pos hlen]
    · have htake : min (blockSize - r.block.length) input.length = input.length := by
        rw [blockSize]
        omega
      have hlen : (r.block ++ input).length ≠ blockSize := by
        rw [length_append, blockSize]
        omega
      rw [if_neg hfull, htake, take_length, if_neg hlen]

/-- The loop over the prologue of a pax record ran out of input, or of the record. -/
def RanOut (r : Reader) (input : Bytes) (used : ℕ) (s : Reader) : Prop :=
  r.state = .paxLength ∧ r.paxLengthLoop 0 input = (used, s, false) ∨
    r.state = .paxKey ∧ r.paxKeyLoop 0 input = (used, s, false)

/-- A step of a reader that has no more than a block in front of it. -/
inductive Stepped (composes : Bytes → Bool) (r : Reader) (input : Bytes) (eof : Bool) :
    ℕ → Step → Reader → Prop
  | done : r.state = .done → Stepped composes r input eof 0 .endOfArchive r
  | nextEntry : r.state = .nextEntry → Stepped composes r input eof 0 .proceed
      { r with
        bytesRemaining := 0, padding := 0
        state := .skip (r.bytesRemaining + r.padding) .nextEntry }
  | blockWait : r.state = .header ∨ r.state = .oldSparseExtension →
      r.block.length + input.length < 512 → eof = false →
      Stepped composes r input eof input.length .needInput { r with block := r.block ++ input }
  | header {block : Block} {r' : Reader} : r.state = .header → 512 ≤ r.block.length + input.length →
      (r.takeBlock input).2.1 = some block → onHeader { r with block := [] } block = .ok r' →
      Stepped composes r input eof (512 - r.block.length) .proceed r'
  | headerEnd : r.state = .header → r.block ++ input = [] →
      Stepped composes r input eof input.length .endOfArchive
        { r with block := [], state := .done }
  | oldSparseMore {entries : Bytes} {r' : Reader} : r.state = .oldSparseExtension →
      512 ≤ r.block.length + input.length →
      addOldSparseEntries { r with block := [] } entries = .ok r' →
      Stepped composes r input eof (512 - r.block.length) .proceed r'
  | oldSparseLast {entries : Bytes} {s r' : Reader} : r.state = .oldSparseExtension →
      512 ≤ r.block.length + input.length →
      addOldSparseEntries { r with block := [] } entries = .ok s →
      s.headerCommon s.mainHeader = .ok r' →
      Stepped composes r input eof (512 - r.block.length) .proceed r'
  | skipWait {left : ℤ} {after : AfterSkip} {take : ℕ} : r.state = .skip left after →
      (0 ≤ left → take = min left.toNat input.length) → 0 < left - take → eof = false →
      Stepped composes r input eof take .needInput
        { r with skipped := r.skipped + take, state := .skip (left - take) after }
  | skipped {left : ℤ} {after : AfterSkip} {take : ℕ} : r.state = .skip left after →
      (0 ≤ left → take = min left.toNat input.length) → ¬0 < left - take →
      Stepped composes r input eof take ({ r with skipped := 0 }.afterSkip after).1
        ({ r with skipped := 0 }.afterSkip after).2
  | collectWait {left : ℕ} {what : Collect} : r.state = .collect left what →
      input.length < left → eof = false →
      Stepped composes r input eof input.length .needInput
        { r with
          collected := r.collected ++ input, state := .collect (left - input.length) what }
  | collected {left : ℕ} {what : Collect} {r' : Reader} : r.state = .collect left what →
      left ≤ input.length →
      useCollected composes { r with collected := r.collected ++ input.take left } what
        (r.collected ++ input.take left) = .ok r' →
      Stepped composes r input eof left .proceed r'
  | paxLength {used : ℕ} {r' : Reader} : r.state = .paxLength →
      r.paxLengthLoop 0 input = (used, r', true) → Stepped composes r input eof used .proceed r'
  | prologueEnd {used : ℕ} {s : Reader} : r.RanOut input used s →
      Stepped composes r input eof used .proceed s.ignoreRestOfPax
  | prologueWait {used : ℕ} {s : Reader} : r.RanOut input used s → s.paxPrologueAtEnd = false →
      eof = false → Stepped composes r input eof used .needInput s
  | paxKey {used : ℕ} {s r' : Reader} : r.state = .paxKey → r.paxKeyLoop 0 input = (used, s, true) →
      s.onPaxKey = .ok r' → Stepped composes r input eof used .proceed r'
  | paxNoKey {used : ℕ} {s : Reader} : r.state = .paxKey →
      r.paxKeyLoop 0 input = (used, s, true) →
      Stepped composes r input eof used .proceed s.ignoreRestOfPax
  | newlineIgnored {status paxStatus after : Status} : r.state = .paxNewline status →
      Stepped composes r input eof 0 .proceed
        (skipRestOfPax { r with paxLinePos := 0, paxStatus } after)
  | newlineWait {status : Status} : r.state = .paxNewline status → input = [] → eof = false →
      Stepped composes r input eof 0 .needInput { r with paxLinePos := 0 }
  | newline {status paxStatus : Status} : r.state = .paxNewline status → 0 < input.length →
      Stepped composes r input eof 1 .proceed
        (if (0 : ℤ) < r.paxLeft - 1 then
          beginPaxLine { r with paxLinePos := 0, paxStatus, paxLeft := r.paxLeft - 1 }
        else finishPax composes { r with paxLinePos := 0, paxStatus, paxLeft := r.paxLeft - 1 })
  | sparseLine {field : SparseMapField} {used : ℕ} {line : Bytes} {r' : Reader} :
      r.state = .sparseMapLine field →
      sparseLineLoop (min r.sparseMapLeft sparseMapLineLimit).toNat r.line 0 input =
        .ok (used, line, true) →
      onSparseMapLine { r with line } field = .ok r' → Stepped composes r input eof used .proceed r'
  | sparseLineWait {field : SparseMapField} {used : ℕ} {line : Bytes} :
      r.state = .sparseMapLine field →
      sparseLineLoop (min r.sparseMapLeft sparseMapLineLimit).toNat r.line 0 input =
        .ok (used, line, false) →
      eof = false → Stepped composes r input eof used .needInput { r with line }
  | emit : r.state = .emit → Stepped composes r input eof 0 .entry { r with state := .data }
  | dataEnd : r.state = .data → Stepped composes r input eof 0 .proceed
      { r.advanceSparse with
        bytesRemaining := 0, padding := 0
        state := .skip (r.bytesRemaining + r.padding) .endOfEntry }
  | dataWait : r.state = .data → input = [] → eof = false →
      Stepped composes r input eof 0 .needInput r.advanceSparse
  | data {block : SparseBlock} {len : ℤ} : r.state = .data → r.bytesRemaining ≠ 0 →
      r.advanceSparse.sparse[r.advanceSparse.sparseHead]? = some block → input ≠ [] →
      len = min (min (input.length : ℤ) r.bytesRemaining) block.remaining →
      Stepped composes r input eof len.toNat
        (if block.hole then .proceed else .data block.offset len.toNat) { r.advanceSparse with
          sparse := r.advanceSparse.sparse.set r.advanceSparse.sparseHead
            { block with remaining := block.remaining - len, offset := block.offset + len }
          bytesRemaining := r.bytesRemaining - len }
  | drain : r.state = .drain → eof = false →
      Stepped composes r input eof input.length .needInput r
  | drained : r.state = .drain →
      Stepped composes r input eof input.length .endOfArchive { r with state := .done }

theorem stepHeader_cases (hblock : r.block.length ≤ 512) (hstate : r.state = .header)
    (hstep : r.stepHeader input eof = .ok (used, st, r')) :
    Stepped composes r input eof used st r' := by
  have htake := takeBlock_eq hblock input
  rw [stepHeader] at hstep
  by_cases hfull : 512 ≤ r.block.length + input.length
  · rw [if_pos hfull] at htake
    rw [htake] at hstep
    obtain ⟨s, hon, hs⟩ := map_eq_ok hstep
    cases hs
    exact .header hstate hfull (by rw [htake]) hon
  · rw [htake, if_neg hfull] at hstep
    dsimp only at hstep
    split at hstep
    next heof =>
      cases hstep
      exact .blockWait (.inl hstate) (not_le.1 hfull) (by simpa using heof)
    split at hstep
    · cases hstep
    next hempty =>
      rw [not_not] at hempty
      split at hstep
      · cases hstep
      · cases hstep
        rw [hempty]
        exact .headerEnd hstate hempty

theorem stepOldSparse_cases (hblock : r.block.length ≤ 512) (hstate : r.state = .oldSparseExtension)
    (hstep : r.stepOldSparse input eof = .ok (used, st, r')) :
    Stepped composes r input eof used st r' := by
  rw [stepOldSparse, takeBlock_eq hblock] at hstep
  by_cases hfull : 512 ≤ r.block.length + input.length
  · rw [if_pos hfull] at hstep
    obtain ⟨s, hentries, hstep⟩ := bind_eq_ok hstep
    split at hstep
    · cases hstep
      exact .oldSparseMore hstate hfull hentries
    · obtain ⟨t, hcommon, ht⟩ := map_eq_ok hstep
      cases ht
      exact .oldSparseLast hstate hfull hentries hcommon
  · rw [if_neg hfull] at hstep
    dsimp only at hstep
    split at hstep
    · cases hstep
    next heof =>
      cases hstep
      exact .blockWait (.inr hstate) (not_le.1 hfull) (by simpa using heof)

theorem stepSkip_cases {left : ℤ} {after : AfterSkip} (hstate : r.state = .skip left after)
    (hstep : r.stepSkip left after input eof = .ok (used, st, r')) :
    Stepped composes r input eof used st r' := by
  have htake : 0 ≤ left → (if left < 0 then input.length else min left.toNat input.length) =
      min left.toNat input.length := fun hleft => if_neg (not_lt.2 hleft)
  rw [stepSkip] at hstep
  generalize (if left < 0 then input.length else min left.toNat input.length) = take at hstep htake
  split at hstep
  next hmore =>
    split at hstep
    · cases hstep
    next heof =>
      cases hstep
      exact .skipWait hstate htake hmore (by simpa using heof)
  next hdone =>
    have hpair := Except.ok.inj hstep
    obtain rfl : take = used := congrArg Prod.fst hpair
    obtain rfl : (({ r with skipped := 0 } : Reader).afterSkip after).1 = st :=
      congrArg (fun p => p.2.1) hpair
    obtain rfl : (({ r with skipped := 0 } : Reader).afterSkip after).2 = r' :=
      congrArg (fun p => p.2.2) hpair
    exact .skipped hstate htake hdone

/-- The bytes that are collected are used when they are complete. -/
theorem stepCollect_cases {left : ℕ} {what : Collect} (hstate : r.state = .collect left what)
    (hstep : r.stepCollect composes left what input eof = .ok (used, st, r')) :
    Stepped composes r input eof used st r' := by
  rw [stepCollect] at hstep
  split at hstep
  next hmore =>
    have hmin : min left input.length = input.length := by omega
    rw [hmin, take_length] at hstep
    split at hstep
    · cases hstep
    next heof =>
      cases hstep
      exact .collectWait hstate (by omega) (by simpa using heof)
  next hdone =>
    have hmin : min left input.length = left := by omega
    rw [hmin] at hstep
    obtain ⟨s, huse, hs⟩ := map_eq_ok hstep
    cases hs
    exact .collected hstate (by omega) huse

/-- The input may end inside the length or the key of a record. -/
theorem paxPrologueRanOut_cases {n : ℕ} {s : Reader} (h : r.RanOut input n s)
    (hran : s.paxPrologueRanOut n eof = .ok (used, st, r')) :
    Stepped composes r input eof used st r' := by
  rw [paxPrologueRanOut] at hran
  split at hran
  · cases hran
    exact .prologueEnd h
  next hend =>
    split at hran
    · cases hran
    next heof =>
      cases hran
      exact .prologueWait h (by simpa using hend) (by simpa using heof)

theorem stepPaxNewline_cases {status : Status} (hstate : r.state = .paxNewline status)
    (hstep : r.stepPaxNewline composes status input eof = .ok (used, st, r')) :
    Stepped composes r input eof used st r' := by
  rw [stepPaxNewline.eq_def] at hstep
  split at hstep
  · cases hstep
    exact .newlineIgnored hstate
  cases input with
  | nil =>
    dsimp only at hstep
    split at hstep
    · cases hstep
    next heof =>
      cases hstep
      exact .newlineWait hstate rfl (by simpa using heof)
  | cons c rest =>
    dsimp only at hstep
    split at hstep
    · cases hstep
      exact .newlineIgnored hstate
    · cases hstep
      exact .newline hstate (Nat.succ_pos _)

theorem stepSparseMapLine_cases {field : SparseMapField} (hstate : r.state = .sparseMapLine field)
    (hstep : r.stepSparseMapLine field input eof = .ok (used, st, r')) :
    Stepped composes r input eof used st r' := by
  rw [stepSparseMapLine] at hstep
  obtain ⟨⟨n, line, whole⟩, hloop, hstep⟩ := bind_eq_ok hstep
  cases whole with
  | true =>
    obtain ⟨s, hon, hs⟩ := map_eq_ok hstep
    cases hs
    exact .sparseLine hstate hloop hon
  | false =>
    simp only [Bool.false_eq_true, if_false] at hstep
    split at hstep
    · cases hstep
    next heof =>
      cases hstep
      exact .sparseLineWait hstate hloop (by simpa using heof)

theorem stepData_cases (hstate : r.state = .data)
    (hstep : r.stepData input eof = .ok (used, st, r')) :
    Stepped composes r input eof used st r' := by
  rw [stepData] at hstep
  split at hstep
  · cases hstep
    exact .dataEnd hstate
  next block hblock =>
    split at hstep
    next hinput =>
      split at hstep
      · cases hstep
      next heof =>
        cases hstep
        exact .dataWait hstate hinput (by simpa using heof)
    next hinput =>
      cases hstep
      split at hblock
      next hbytes => exact .data hstate hbytes hblock hinput rfl
      next => cases hblock

/-- Every step is one of `Stepped`. -/
theorem step_cases (hblock : r.block.length ≤ 512)
    (hstep : r.step composes input eof = .ok (used, st, r')) :
    Stepped composes r input eof used st r' := by
  rw [step] at hstep
  split at hstep
  · cases hstep
  next hstate =>
    cases hstep
    exact .done hstate
  next hstate =>
    cases hstep
    exact .nextEntry hstate
  next hstate => exact stepHeader_cases hblock hstate hstep
  next hstate => exact stepSkip_cases hstate hstep
  next hstate => exact stepCollect_cases hstate hstep
  next hstate =>
    split at hstep
    next heq =>
      cases hstep
      exact .paxLength hstate heq
    next heq => exact paxPrologueRanOut_cases (.inl ⟨hstate, heq⟩) hstep
  next hstate =>
    split at hstep
    next heq =>
      split at hstep
      · obtain ⟨t, hkey, ht⟩ := map_eq_ok hstep
        cases ht
        exact .paxKey hstate heq hkey
      · cases hstep
        exact .paxNoKey hstate heq
    next heq => exact paxPrologueRanOut_cases (.inr ⟨hstate, heq⟩) hstep
  next hstate => exact stepPaxNewline_cases hstate hstep
  next hstate => exact stepOldSparse_cases hblock hstate hstep
  next hstate => exact stepSparseMapLine_cases hstate hstep
  next hstate =>
    cases hstep
    exact .emit hstate
  next hstate => exact stepData_cases hstate hstep
  next hstate =>
    split at hstep
    · cases hstep
      exact .drained hstate
    next heof =>
      cases hstep
      exact .drain hstate (by simpa using heof)

end Reader

end Soup.Tar
