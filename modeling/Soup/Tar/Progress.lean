import Soup.Tar.StepSound

/-!
# The reader makes progress

A step takes something of the input, gives up a block that it kept, or goes on to a state of a lower
rank (`step_progress`). So the loop of `Reader::poll` comes to its end.
-/

namespace Soup.Tar

open Lib List Nat

variable {composes : Bytes → Bool} {taken : ℤ} {r r' : Reader}

namespace Reader

/-! ## What keeps the block -/

theorem onSpecialHeader_block {flag : UInt8} {size : ℤ} (h : r.onSpecialHeader flag size = .ok r') :
    r'.block = r.block := by
  obtain ⟨seen, status, format, hbody⟩ := onSpecialHeader_cases _ h
  cases hbody <;> rfl

theorem afterMainHeader_block (h : r.afterMainHeader = .ok r') : r'.block = r.block := by
  rw [afterMainHeader] at h
  dsimp only at h
  repeat' split at h
  all_goals cases h
  all_goals first | rfl | exact finishHeader_block _ _

theorem headerCommon_block {header : Block} (h : r.headerCommon header = .ok r') :
    r'.block = r.block := by
  obtain ⟨s, hblock, -, -, -, -, -, -, hafter⟩ := headerCommon_spec h
  exact (afterMainHeader_block hafter).trans hblock

theorem takePath_block (r : Reader) (path : Bytes) : (r.takePath path).block = r.block := by
  rw [takePath]
  split <;> rfl

theorem onMainHeader_block {header : Block} (h : r.onMainHeader header = .ok r') :
    r'.block = r.block := by
  rw [onMainHeader] at h
  dsimp only at h
  split at h
  · split at h
    · exact (headerCommon_block h).trans (takePath_block _ _)
    split at h
    · obtain ⟨s, hentries, h⟩ := bind_eq_ok h
      have hs := (kept_oldSparseEntries hentries).block
      have hr : s.block = r.block := by
        rw [hs]
        split
        · exact takePath_block _ _
        · exact takePath_block _ _
      split at h
      · cases h
        exact hr
      · exact (headerCommon_block h).trans hr
    · refine (headerCommon_block h).trans ?_
      split
      · exact takePath_block _ _
      · exact takePath_block _ _
  split at h
  · exact (headerCommon_block h).trans (takePath_block _ _)
  · exact (headerCommon_block h).trans (takePath_block _ _)

theorem onHeader_block {block : Block} (h : r.onHeader block = .ok r') : r'.block = r.block := by
  rw [onHeader] at h
  split at h
  · split at h <;>
    · cases h
      rfl
  dsimp only at h
  split at h
  · split at h
    · cases h
    · cases h
      rfl
  split at h
  · exact (onSpecialHeader_block h).trans rfl
  · exact (onMainHeader_block h).trans rfl

theorem nextSparseMapLine_block (h : r.nextSparseMapLine = .ok r') : r'.block = r.block := by
  rw [nextSparseMapLine] at h
  split at h
  · cases h
    rfl
  · rw [finishSparseMap] at h
    split at h
    · cases h
    · cases h
      rfl

theorem onSparseMapLine_block {field : SparseMapField} (h : r.onSparseMapLine field = .ok r') :
    r'.block = r.block := by
  rw [onSparseMapLine] at h
  split at h
  · cases h
    rfl
  dsimp only at h
  generalize (if r.line.getLast? = some (b '\n') then r.line.dropLast else r.line) = digits at h
  split at h
  · cases h
  cases field with
  | count =>
    exact (nextSparseMapLine_block h).trans rfl
  | offset =>
    cases h
    rfl
  | size =>
    dsimp only at h
    split at h
    · exact (nextSparseMapLine_block h).trans rfl
    · cases h

variable {what : Collect}

theorem useCollected_block {value : Bytes} (h : r.useCollected composes what value = .ok r') :
    r'.block = r.block := by
  by_cases hwhat : what = .longName ∨ what = .longLink
  · rcases hwhat with rfl | rfl <;>
    · cases h
      rfl
  · rw [useCollected_eq hwhat] at h
    obtain ⟨⟨s, status⟩, hs, hr'⟩ := map_eq_ok h
    cases hr'
    exact (kept_usePaxValue hs).block

theorem onPaxKey_block (h : r.onPaxKey = .ok r') : r'.block = r.block := by
  rw [onPaxKey] at h
  split at h
  · cases h
    rfl
  · obtain ⟨⟨s, value⟩, hvalue, h⟩ := map_eq_ok h
    have hs := (kept_paxValue hvalue).block
    cases value <;>
    · cases h
      exact hs

/-! ## What the loops take -/

variable {input : Bytes} {used : ℕ}

theorem paxLengthLoop_used {used' : ℕ} {whole : Bool}
    (h : r.paxLengthLoop used input = (used', r', whole)) :
    r'.block = r.block ∧ used ≤ used' ∧ used' ≤ used + input.length ∧
      (whole = true → used < used') ∧
      (whole = false → r'.state = r.state ∧
        (r'.paxLinePos < r'.paxLeft → used' = used + input.length)) := by
  induction input generalizing r used with
  | nil =>
    cases h
    exact ⟨rfl, le_rfl, le_rfl, (fun h => by cases h), fun _ => ⟨rfl, fun _ => rfl⟩⟩
  | cons c cs ih =>
    have hcons : (c :: cs).length = cs.length + 1 := rfl
    rw [paxLengthLoop] at h
    split at h
    next hle =>
      cases h
      exact ⟨rfl, le_rfl, by omega, (fun h => by cases h), fun _ => ⟨rfl, fun hlt => by omega⟩⟩
    dsimp only at h
    split at h
    · cases h
      refine ⟨?_, by omega, by omega, fun _ => by omega, fun h => by cases h⟩
      split <;> rfl
    split at h
    · split at h
      · cases h
        exact ⟨rfl, by omega, by omega, fun _ => by omega, fun h => by cases h⟩
      · obtain ⟨hblock, hle, hle', hwhole, hrest⟩ := ih h
        refine ⟨hblock, by omega, by omega, fun hw => ?_, fun hw => ⟨(hrest hw).1, fun hlt => ?_⟩⟩
        · have := hwhole hw
          omega
        · have := (hrest hw).2 hlt
          omega
    · cases h
      exact ⟨rfl, by omega, by omega, fun _ => by omega, fun h => by cases h⟩

theorem paxKeyLoop_used {used' : ℕ} {whole : Bool}
    (h : r.paxKeyLoop used input = (used', r', whole)) :
    r'.block = r.block ∧ used ≤ used' ∧ used' ≤ used + input.length ∧ r'.state = r.state ∧
      (whole = true → used < used') ∧
      (whole = false → r'.paxLinePos < r'.paxLeft → r'.paxLinePos < r'.paxLineLength →
        used' = used + input.length) := by
  induction input generalizing r used with
  | nil =>
    cases h
    exact ⟨rfl, le_rfl, le_rfl, rfl, (fun h => by cases h), fun _ _ _ => rfl⟩
  | cons c cs ih =>
    have hcons : (c :: cs).length = cs.length + 1 := rfl
    rw [paxKeyLoop] at h
    split at h
    next hle =>
      cases h
      exact ⟨rfl, le_rfl, by omega, rfl, (fun h => by cases h), fun _ hlt hlt' => by omega⟩
    split at h
    · cases h
      exact ⟨rfl, by omega, by omega, rfl, fun _ => by omega, fun h => by cases h⟩
    · obtain ⟨hblock, hle, hle', hstate, hwhole, hrest⟩ := ih h
      refine ⟨hblock, by omega, by omega, hstate, fun hw => ?_, fun hw hlt hlt' => ?_⟩
      · have := hwhole hw
        omega
      · have := hrest hw hlt hlt'
        omega

/-! ## Ranks -/

/-- The rank of a state: the steps that take nothing go down in it. -/
def rank : State → ℕ
  | .header | .oldSparseExtension | .sparseMapLine _ | .drain | .done | .failed _ => 0
  | .skip _ (.betweenHeaders _) | .skip _ .macMetadata | .skip _ .nextEntry => 1
  | .nextEntry | .paxLength | .paxKey | .paxNewline _ => 2
  | .skip _ .endOfEntry | .skip _ (.paxNewline _) | .collect _ _ => 3
  | .data => 4
  | .emit => 5
  | .skip _ .sparseMap => 6

theorem rank_lt (state : State) : rank state < 8 := by
  rw [rank.eq_def]
  split <;> decide

/-- What every step but the ones that wait makes less, with `left` bytes of input to come. -/
def weight (r : Reader) (left : ℕ) : ℕ := 8 * (left + r.block.length) + rank r.state

/-- What a step that gave `st` did to a reader with `given` bytes of input. -/
def Progress (r : Reader) (given : ℕ) (eof : Bool) (used : ℕ) (st : Step) (r' : Reader) : Prop :=
  used ≤ given ∧
    match st with
    | .endOfArchive => True
    | .needInput => used = given ∧ eof = false ∧ r'.weight 0 ≤ r.weight given
    | .proceed | .entry | .data _ _ | .endOfEntry => r'.weight (given - used) < r.weight given

variable {given : ℕ}

/-- A step that took something and kept the block. -/
theorem weight_lt_of_used (hused : 0 < used) (hle : used ≤ given) (hblock : r'.block = r.block) :
    r'.weight (given - used) < r.weight given := by
  have hrank := rank_lt r'.state
  rw [weight, weight, hblock]
  omega

/-- A step that went down in rank and kept the block. -/
theorem weight_lt_of_rank (hrank : rank r'.state < rank r.state) (hblock : r'.block = r.block) :
    r'.weight (given - used) < r.weight given := by
  rw [weight, weight, hblock]
  omega

/-- A step that waits for more. -/
theorem weight_le_of_wait (hrank : rank r'.state = rank r.state) (hblock : r'.block = r.block) :
    r'.weight 0 ≤ r.weight given := by
  rw [weight, weight, hblock, hrank]
  omega

/-- A step that took a block. -/
theorem weight_lt_of_block (hfull : 512 ≤ r.block.length + given) (hblock : r'.block = []) :
    r'.weight (given - (512 - r.block.length)) < r.weight given := by
  have hrank := rank_lt r'.state
  rw [weight, weight, hblock, length_nil]
  omega

/-! ## The states -/

variable {eof : Bool} {st : Step}

theorem afterSkip_progress (r : Reader) (left : ℤ) (after : AfterSkip) :
    (r.afterSkip after).2.block = r.block ∧
      rank (r.afterSkip after).2.state < rank (.skip left after) ∧
      (r.afterSkip after).1 ∈ [Step.proceed, .endOfEntry] := by
  cases after with
  | sparseMap =>
    refine ⟨finishHeader_block r r.status, ?_, mem_cons_self⟩
    exact (by decide : (5 : ℕ) < 6)
  | endOfEntry => exact ⟨rfl, lt_succ_self 2, mem_cons_of_mem _ mem_cons_self⟩
  | betweenHeaders _ | paxNewline _ | macMetadata | nextEntry =>
    exact ⟨rfl, lt_succ_self _, mem_cons_self⟩

theorem useCollected_rank {value : Bytes} (h : r.useCollected composes what value = .ok r') :
    rank r'.state ≤ 2 := by
  by_cases hwhat : what = .longName ∨ what = .longLink
  · rcases hwhat with rfl | rfl <;>
    · cases h
      exact le_succ 1
  · rw [useCollected_eq hwhat] at h
    obtain ⟨⟨s, status⟩, hs, hr'⟩ := map_eq_ok h
    cases hr'
    exact le_rfl

/-- The loop over the prologue of a pax record took all, or came to the end of the prologue. -/
theorem RanOut.progress {s : Reader} (h : r.RanOut input used s) :
    s.block = r.block ∧ s.state = r.state ∧ rank r.state = 2 ∧ used ≤ input.length ∧
      (s.paxPrologueAtEnd = false → used = input.length) := by
  rcases h with ⟨hstate, hloop⟩ | ⟨hstate, hloop⟩
  · obtain ⟨hblock, -, hle, -, hrest⟩ := paxLengthLoop_used hloop
    obtain ⟨hs, hall⟩ := hrest rfl
    refine ⟨hblock, hs, by rw [hstate]; rfl, by omega, fun hend => ?_⟩
    rw [paxPrologueAtEnd, Bool.or_eq_false_iff] at hend
    have := hall (by simpa using hend.1)
    omega
  · obtain ⟨hblock, -, hle, hs, -, hrest⟩ := paxKeyLoop_used hloop
    refine ⟨hblock, hs, by rw [hstate]; rfl, by omega, fun hend => ?_⟩
    rw [paxPrologueAtEnd, hs, hstate, Bool.or_eq_false_iff] at hend
    have := hrest rfl (by simpa using hend.1) (by simpa using hend.2)
    omega

theorem getElem?_length_takeWhile {α : Type} (p : α → Bool) (xs : List α) :
    xs[(xs.takeWhile p).length]? = (xs.dropWhile p).head? := by
  induction xs with
  | nil => rfl
  | cons x xs ih =>
    by_cases hx : p x
    · rw [takeWhile_cons_of_pos hx, dropWhile_cons_of_pos hx]
      exact ih
    · rw [takeWhile_cons_of_neg hx, dropWhile_cons_of_neg hx]
      rfl

/-- The block that comes next holds something. -/
theorem advanceSparse_remaining {block : SparseBlock}
    (h : r.advanceSparse.sparse[r.advanceSparse.sparseHead]? = some block) :
    block.remaining ≠ 0 := by
  let used : SparseBlock → Bool := fun block => block.remaining = 0
  have hget : (r.sparse.drop r.sparseHead)[((r.sparse.drop r.sparseHead).takeWhile used).length]? =
      some block := by
    rw [getElem?_drop]
    exact h
  rw [getElem?_length_takeWhile] at hget
  have hnot := head?_dropWhile_not used (r.sparse.drop r.sparseHead)
  rw [hget] at hnot
  simpa [used] using hnot

/-- The step lemma. -/
theorem step_progress (h : Sound taken r) (hstep : r.step composes input eof = .ok (used, st, r')) :
    Progress r input.length eof used st r' := by
  have hat := h.place
  cases step_cases h.block hstep with
  | done => exact ⟨zero_le _, trivial⟩
  | nextEntry hstate =>
    exact ⟨zero_le _, weight_lt_of_rank (by rw [hstate]; exact lt_succ_self 1) rfl⟩
  | blockWait hstate hshort heof =>
    refine ⟨le_rfl, rfl, heof, ?_⟩
    rw [weight, weight]
    simp only [length_append]
    omega
  | header hstate hfull htake hon =>
    exact ⟨by omega, weight_lt_of_block hfull (onHeader_block hon)⟩
  | headerEnd => exact ⟨le_rfl, trivial⟩
  | oldSparseMore hstate hfull hentries =>
    exact ⟨by omega, weight_lt_of_block hfull (kept_oldSparseEntries hentries).block⟩
  | oldSparseLast hstate hfull hentries hcommon =>
    have hs := (kept_oldSparseEntries hentries).block
    exact ⟨by omega, weight_lt_of_block hfull ((headerCommon_block hcommon).trans hs)⟩
  | @skipWait left after _ hstate htake hmore heof =>
    simp only [At, hstate] at hat
    have htake := htake hat.2.2.1
    refine ⟨by omega, by omega, heof, weight_le_of_wait ?_ rfl⟩
    rw [hstate]
    cases after <;> rfl
  | @skipped left after _ hstate htake hdone =>
    simp only [At, hstate] at hat
    have htake := htake hat.2.2.1
    obtain ⟨hblock, hrank, hst⟩ := afterSkip_progress { r with skipped := 0 } left after
    rw [← hstate] at hrank
    have hweight : (({ r with skipped := 0 } : Reader).afterSkip after).2.weight
        (input.length - used) < r.weight input.length := weight_lt_of_rank hrank hblock
    refine ⟨by omega, ?_⟩
    rcases mem_cons.1 hst with hst | hst
    · rw [hst]
      exact hweight
    · rw [mem_singleton.1 hst]
      exact hweight
  | collectWait hstate hmore heof =>
    exact ⟨le_rfl, rfl, heof, weight_le_of_wait (by rw [hstate]; rfl) rfl⟩
  | collected hstate hall huse =>
    refine ⟨hall, weight_lt_of_rank ?_ ((useCollected_block huse).trans rfl)⟩
    rw [hstate]
    exact lt_succ_of_le (useCollected_rank huse)
  | paxLength hstate hloop =>
    obtain ⟨hblock, -, hle, hwhole, -⟩ := paxLengthLoop_used hloop
    exact ⟨by omega, weight_lt_of_used (hwhole rfl) (by omega) hblock⟩
  | prologueEnd hran =>
    obtain ⟨hblock, -, hrank, hle, -⟩ := hran.progress
    exact ⟨hle, weight_lt_of_rank (by rw [hrank]; exact lt_succ_self 1) hblock⟩
  | prologueWait hran hend heof =>
    obtain ⟨hblock, hs, -, hle, hall⟩ := hran.progress
    exact ⟨hle, hall hend, heof, weight_le_of_wait (by rw [hs]) hblock⟩
  | paxKey hstate hloop hkey =>
    obtain ⟨hblock, -, hle, -, hwhole, -⟩ := paxKeyLoop_used hloop
    exact ⟨by omega, weight_lt_of_used (hwhole rfl) (by omega) ((onPaxKey_block hkey).trans hblock)⟩
  | paxNoKey hstate hloop =>
    obtain ⟨hblock, -, hle, -, hwhole, -⟩ := paxKeyLoop_used hloop
    exact ⟨by omega, weight_lt_of_used (hwhole rfl) (by omega) hblock⟩
  | newlineIgnored hstate =>
    exact ⟨zero_le _, weight_lt_of_rank (by rw [hstate]; exact lt_succ_self 1) rfl⟩
  | newlineWait hstate hinput heof =>
    rw [hinput]
    exact ⟨le_rfl, rfl, heof, weight_le_of_wait rfl rfl⟩
  | newline hstate hinput =>
    refine ⟨hinput, weight_lt_of_used zero_lt_one hinput ?_⟩
    split <;> rfl
  | sparseLine hstate hloop hon =>
    obtain ⟨-, -, -, hle, -, hwhole⟩ := sparseLineLoop_length hloop
    exact ⟨hle, weight_lt_of_used (hwhole rfl) hle ((onSparseMapLine_block hon).trans rfl)⟩
  | sparseLineWait hstate hloop heof =>
    obtain ⟨-, -, -, hle, hrest, -⟩ := sparseLineLoop_length hloop
    exact ⟨hle, hrest rfl, heof, weight_le_of_wait rfl rfl⟩
  | emit hstate =>
    exact ⟨zero_le _, weight_lt_of_rank (by rw [hstate]; exact lt_succ_self 4) rfl⟩
  | dataEnd hstate =>
    exact ⟨zero_le _, weight_lt_of_rank (by rw [hstate]; exact lt_succ_self 3) rfl⟩
  | dataWait hstate hinput heof =>
    rw [hinput]
    exact ⟨le_rfl, rfl, heof, weight_le_of_wait rfl rfl⟩
  | @data block len hstate hbytes hblock hinput hlen =>
    have hremaining := advanceSparse_remaining hblock
    have hmem := h.sparse block (mem_of_getElem? hblock)
    have hpos := h.bytesRemaining
    have hinput := length_pos_iff.2 hinput
    have hused : 0 < len.toNat ∧ len.toNat ≤ input.length := by omega
    refine ⟨hused.2, ?_⟩
    cases block.hole with
    | true => exact weight_lt_of_used hused.1 hused.2 rfl
    | false => exact weight_lt_of_used hused.1 hused.2 rfl
  | drain hstate heof => exact ⟨le_rfl, rfl, heof, weight_le_of_wait rfl rfl⟩
  | drained => exact ⟨le_rfl, trivial⟩

/-- Neither an entry nor data. -/
def Quiet : Step → Prop
  | .entry | .data _ _ => False
  | .proceed | .needInput | .endOfEntry | .endOfArchive => True

/-- Entries and data come from states of their own. -/
theorem step_says (h : Sound taken r) (hstep : r.step composes input eof = .ok (used, st, r')) :
    Quiet st ∨ (st = .entry ∧ r'.state = .data) ∨
      ∃ offset, st = .data offset used ∧ r.state = .data ∧ 0 < used := by
  cases step_cases h.block hstep with
  | emit => exact .inr (.inl ⟨rfl, rfl⟩)
  | @skipped left after =>
    refine .inl ?_
    cases after <;> trivial
  | data hstate hbytes hblock hinput hlen =>
    have hremaining := advanceSparse_remaining hblock
    have hmem := h.sparse _ (mem_of_getElem? hblock)
    have hpos := h.bytesRemaining
    have hinput := length_pos_iff.2 hinput
    split
    · exact .inl trivial
    · exact .inr (.inr ⟨_, rfl, hstate, by omega⟩)
  | _ => exact .inl trivial

/-- Data are bytes that the step took, in the state for data. -/
theorem step_data {len : ℕ} {offset : ℤ} (h : Sound taken r)
    (hstep : r.step composes input eof = .ok (used, .data offset len, r')) :
    r.state = .data ∧ used = len ∧ 0 < len := by
  rcases step_says h hstep with hquiet | ⟨hentry, -⟩ | ⟨offset', hdata, hstate, hused⟩
  · exact hquiet.elim
  · cases hentry
  · cases hdata
    exact ⟨hstate, rfl, hused⟩

theorem step_entry (h : Sound taken r)
    (hstep : r.step composes input eof = .ok (used, .entry, r')) :
    r'.state = .data := by
  rcases step_says h hstep with hquiet | ⟨-, hstate⟩ | ⟨offset', hdata, -⟩
  · exact hquiet.elim
  · exact hstate
  · cases hdata

/-! ## The loop of a call -/

/-- With enough fuel the loop comes to its end, where it took no more than there was. -/
theorem exists_pollFrom (input : Bytes) (eof : Bool) {fuel pos : ℕ} (h : Sound taken r)
    (hpos : pos ≤ input.length) (hfuel : r.weight (input.length - pos) < fuel) :
    ∃ out, pollFrom composes input eof fuel pos r = some out := by
  induction fuel generalizing r taken pos with
  | zero => omega
  | succ fuel ih =>
    rw [pollFrom]
    cases hstep : r.step composes (input.drop pos) eof with
    | error error => exact ⟨_, rfl⟩
    | ok out =>
      obtain ⟨used, st, s⟩ := out
      obtain ⟨hused, hst⟩ := step_progress h hstep
      rw [length_drop] at hused
      cases st with
      | proceed =>
        refine ih (step_sound h hstep) (by omega) ?_
        rw [length_drop] at hst
        rw [show input.length - (pos + used) = input.length - pos - used by omega]
        omega
      | needInput | entry | data _ _ | endOfEntry | endOfArchive => exact ⟨_, rfl⟩

end Reader

end Soup.Tar
