import Soup.Tar.Calls
import Soup.Tar.Waiting

/-!
# The pieces do not matter

A caller hands an archive over in pieces. `Reads` is what a reader makes of all that is left of an
archive, with one `Mark` for each entry, each byte of data at its offset, and each end of an entry.
What any caller sees, whatever the pieces are, has the same marks and the same ending
(`fed_pieces`).
-/

namespace Soup.Tar

open Lib List Nat

variable {composes : Bytes → Bool} {taken : ℤ} {r r' : Reader}

/-- What a caller learns of an archive, with the data byte by byte. -/
inductive Mark
  | entry (entry : Entry)
  | byte (offset : ℤ) (c : UInt8)
  | endOfEntry (size : ℤ)
  deriving DecidableEq, Repr

/-- Contiguous data from an offset on. -/
def bytesAt (offset : ℤ) : Bytes → List Mark
  | [] => []
  | c :: cs => .byte offset c :: bytesAt (offset + 1) cs

theorem bytesAt_append (offset : ℤ) (a rest : Bytes) :
    bytesAt offset (a ++ rest) = bytesAt offset a ++ bytesAt (offset + a.length) rest := by
  induction a generalizing offset with
  | nil => rw [length_nil, cast_zero, add_zero]; rfl
  | cons c cs ih =>
    rw [cons_append, bytesAt, bytesAt, cons_append, ih, length_cons, cast_succ,
      add_assoc, add_comm (1 : ℤ)]

/-- The marks of an event. -/
def Event.marks : Event → List Mark
  | .entry e => [.entry e]
  | .data offset bytes => bytesAt offset bytes
  | .endOfEntry size => [.endOfEntry size]
  | .needInput | .endOfArchive => []

/-- The marks of some events: the data of two events are one run where the second goes on at the
offset where the first ends. -/
def marks (events : List Event) : List Mark := events.flatMap Event.marks

namespace Reader

/-- The marks of a step on `input` that left the reader `r`. -/
def stepMarks (r : Reader) (input : Bytes) : Step → List Mark
  | .entry => [.entry r.entry]
  | .data offset len => bytesAt offset (input.take len)
  | .endOfEntry => [.endOfEntry r.diskSize]
  | .proceed | .needInput | .endOfArchive => []

/-- What the reader makes of `input` and nothing behind it. -/
inductive Reads (composes : Bytes → Bool) :
    Reader → Bytes → List Mark → Except Error Unit → Prop
  | failed {r : Reader} {input : Bytes} {error : Error} :
    r.step composes input true = .error error → Reads composes r input [] (.error error)
  | ended {r : Reader} {input : Bytes} {used : ℕ} {r' : Reader} :
    r.step composes input true = .ok (used, .endOfArchive, r') → Reads composes r input [] (.ok ())
  | again {r : Reader} {input : Bytes} {used : ℕ} {st : Step} {r' : Reader} {marks : List Mark}
    {ending : Except Error Unit} : r.step composes input true = .ok (used, st, r') →
    st ≠ .endOfArchive → Reads composes r' (input.drop used) marks ending →
    Reads composes r input (r'.stepMarks input st ++ marks) ending

variable {input : Bytes} {ending : Except Error Unit}

theorem Reads.unique {marks marks' : List Mark} {ending' : Except Error Unit}
    (h : Reads composes r input marks ending) (h' : Reads composes r input marks' ending') :
    marks = marks' ∧ ending = ending' := by
  induction h generalizing marks' ending' with
  | failed hstep =>
    cases h' with
    | failed hstep' =>
      rw [hstep] at hstep'
      cases hstep'
      exact ⟨rfl, rfl⟩
    | ended hstep' | again hstep' _ _ =>
      rw [hstep] at hstep'
      cases hstep'
  | ended hstep =>
    cases h' with
    | ended _ => exact ⟨rfl, rfl⟩
    | failed hstep' =>
      rw [hstep] at hstep'
      cases hstep'
    | again hstep' hst _ =>
      rw [hstep] at hstep'
      cases hstep'
      exact absurd rfl hst
  | again hstep hst _ ih =>
    cases h' with
    | failed hstep' =>
      rw [hstep] at hstep'
      cases hstep'
    | ended hstep' =>
      rw [hstep] at hstep'
      cases hstep'
      exact absurd rfl hst
    | again hstep' _ hrest =>
      rw [hstep] at hstep'
      cases hstep'
      obtain ⟨hmarks, hending⟩ := ih hrest
      exact ⟨congrArg _ hmarks, hending⟩

/-- Readers that take the same step. -/
theorem Reads.congr {s : Reader} {marks : List Mark}
    (hsame : r.step composes input true = s.step composes input true)
    (h : Reads composes s input marks ending) : Reads composes r input marks ending := by
  cases h with
  | failed hstep => exact .failed (hsame.trans hstep)
  | ended hstep => exact .ended (hsame.trans hstep)
  | again hstep hst hrest => exact .again (hsame.trans hstep) hst hrest

variable {rest : Bytes} {a : Bytes}

/-- A reader that goes on behind `a`, where it gives no data in one step. -/
theorem Reads.of_shift {s : Reader} {marks : List Mark}
    (hsame : r.step composes (a ++ rest) true = shift a.length (s.step composes rest true))
    (hdata : ∀ used offset len s', s.step composes rest true ≠ .ok (used, .data offset len, s'))
    (h : Reads composes s rest marks ending) : Reads composes r (a ++ rest) marks ending := by
  cases h with
  | failed hstep =>
    rw [hstep] at hsame
    exact .failed hsame
  | ended hstep =>
    rw [hstep] at hsame
    exact .ended hsame
  | @again _ _ used st s' marks _ hstep hst hrest =>
    have hmarks : s'.stepMarks rest st = s'.stepMarks (a ++ rest) st := by
      cases st with
      | data offset len => exact absurd hstep (hdata _ _ _ _)
      | proceed | needInput | entry | endOfEntry | endOfArchive => rfl
    rw [hstep] at hsame
    rw [hmarks]
    refine .again hsame hst ?_
    rw [← drop_drop, drop_left]
    exact hrest

/-! ## Data in two parts -/

/-- `len` bytes of the block at the head are behind. -/
def takeData (r : Reader) (block : SparseBlock) (len : ℤ) : Reader :=
  { r with
    sparse := r.sparse.set r.sparseHead
      { block with remaining := block.remaining - len, offset := block.offset + len }
    bytesRemaining := r.bytesRemaining - len }

/-- How much of the input goes to a block. -/
def dataShare (r : Reader) (block : SparseBlock) (input : Bytes) : ℤ :=
  min (min (input.length : ℤ) r.bytesRemaining) block.remaining

theorem takeWhile_eq_nil {α : Type} {p : α → Bool} {xs : List α} (h : ∀ x ∈ xs.head?, p x = false) :
    xs.takeWhile p = [] := by
  cases xs with
  | nil => rfl
  | cons x xs => rw [takeWhile_cons_of_neg (by simp [h x rfl])]

/-- Where the block at the head is not used up, nothing is passed over. -/
theorem advanceSparse_self (h : ∀ block ∈ r.sparse[r.sparseHead]?, block.remaining ≠ 0) :
    r.advanceSparse = r := by
  have hnil : (r.sparse.drop r.sparseHead).takeWhile (fun block => block.remaining = 0) = [] := by
    refine takeWhile_eq_nil fun block hblock => ?_
    rw [head?_drop] at hblock
    simpa using h block hblock
  rw [advanceSparse, hnil]
  rfl

theorem advanceSparse_advanceSparse (r : Reader) :
    r.advanceSparse.advanceSparse = r.advanceSparse :=
  advanceSparse_self fun _ h => advanceSparse_remaining h

theorem step_of_data (hstate : r.state = .data) (input : Bytes) (eof : Bool) :
    r.step composes input eof = r.stepData input eof := by
  rw [step, hstate]

theorem stepData_advanceSparse (r : Reader) (input : Bytes) (eof : Bool) :
    r.advanceSparse.stepData input eof = r.stepData input eof := by
  rw [stepData, stepData, advanceSparse_advanceSparse]

variable {block : SparseBlock}

/-- A step that finds a block and some input. -/
theorem stepData_block (hblock : r.advanceSparse.sparse[r.advanceSparse.sparseHead]? = some block)
    (hbytes : r.bytesRemaining ≠ 0) (hinput : input ≠ []) (eof : Bool) :
    r.stepData input eof = .ok ((r.dataShare block input).toNat,
      if block.hole then .proceed else .data block.offset (r.dataShare block input).toNat,
      r.advanceSparse.takeData block (r.dataShare block input)) := by
  have hbytes' : r.advanceSparse.bytesRemaining ≠ 0 := hbytes
  rw [stepData]
  rw [if_pos hbytes', hblock]
  dsimp only
  rw [if_neg hinput]
  rfl

theorem step_block (composes : Bytes → Bool) (hstate : r.state = .data)
    (hblock : r.advanceSparse.sparse[r.advanceSparse.sparseHead]? = some block)
    (hbytes : r.bytesRemaining ≠ 0) (hinput : input ≠ []) :
    r.step composes input true = .ok ((r.dataShare block input).toNat,
      if block.hole then .proceed else .data block.offset (r.dataShare block input).toNat,
      r.advanceSparse.takeData block (r.dataShare block input)) := by
  rw [step_of_data hstate, stepData_block hblock hbytes hinput]

theorem takeData_takeData (r : Reader) (block : SparseBlock) (n m : ℤ) :
    (r.takeData block n).takeData
        { block with remaining := block.remaining - n, offset := block.offset + n } m =
      r.takeData block (n + m) := by
  rw [takeData, takeData, takeData]
  rw [set_set, sub_sub, sub_sub, add_assoc]

/-- What a block takes of `a` and what follows it, where `a` alone does not fill it up. -/
theorem dataShare_append (hmore : r.dataShare block (a ++ rest) ≠ r.dataShare block a) :
    r.dataShare block a = a.length ∧ (a.length : ℤ) < r.bytesRemaining ∧
      (a.length : ℤ) < block.remaining ∧ rest ≠ [] ∧
      r.dataShare block (a ++ rest) = a.length + (r.takeData block a.length).dataShare
        { block with remaining := block.remaining - a.length, offset := block.offset + a.length }
        rest := by
  simp only [dataShare, takeData, length_append, cast_add] at hmore ⊢
  have hrest : rest ≠ [] := by
    rintro rfl
    rw [length_nil, cast_zero, add_zero] at hmore
    exact hmore rfl
  refine ⟨?_, ?_, ?_, hrest, ?_⟩ <;> omega

/-- The head of the sparse blocks behind data that did not use it up. -/
theorem takeData_block (hblock : r.sparse[r.sparseHead]? = some block) (n : ℤ) :
    (r.takeData block n).sparse[(r.takeData block n).sparseHead]? =
      some { block with remaining := block.remaining - n, offset := block.offset + n } := by
  obtain ⟨hlt, -⟩ := List.getElem?_eq_some_iff.1 hblock
  rw [takeData]
  rw [getElem?_set_self hlt]

theorem takeData_advanceSparse (hblock : r.sparse[r.sparseHead]? = some block) {n : ℤ}
    (hn : n < block.remaining) : (r.takeData block n).advanceSparse = r.takeData block n := by
  refine advanceSparse_self fun block' hblock' => ?_
  rw [takeData_block hblock] at hblock'
  cases hblock'
  dsimp only
  omega

/-- The marks of the data of a block. -/
def dataMarks (block : SparseBlock) (bytes : Bytes) : List Mark :=
  if block.hole then [] else bytesAt block.offset bytes

theorem stepMarks_data (s : Reader) (block : SparseBlock) (input : Bytes) (len : ℕ) :
    s.stepMarks input (if block.hole then .proceed else .data block.offset len) =
      dataMarks block (input.take len) := by
  rw [dataMarks]
  split <;> rfl

theorem dataMarks_append (block : SparseBlock) (a rest : Bytes) (remaining : ℤ) :
    dataMarks block (a ++ rest) = dataMarks block a ++
      dataMarks { block with remaining, offset := block.offset + a.length } rest := by
  rw [dataMarks, dataMarks, dataMarks]
  split
  · rfl
  · exact bytesAt_append _ _ _

/-- A step on data that gives what it takes of the block at the head. -/
theorem Reads.data {marks : List Mark} (hstate : r.state = .data)
    (hblock : r.advanceSparse.sparse[r.advanceSparse.sparseHead]? = some block)
    (hbytes : r.bytesRemaining ≠ 0) (hinput : input ≠ [])
    (h : Reads composes (r.advanceSparse.takeData block (r.dataShare block input))
      (input.drop (r.dataShare block input).toNat) marks ending) :
    Reads composes r input
      (dataMarks block (input.take (r.dataShare block input).toNat) ++ marks) ending := by
  have hstep := step_block composes hstate hblock hbytes hinput
  rw [← stepMarks_data (r.advanceSparse.takeData block (r.dataShare block input))]
  refine .again hstep ?_ h
  split
  · exact fun h => by cases h
  · exact fun h => by cases h

/-- What follows the data of a block, where there is input and the block wants more of it. -/
theorem Reads.of_data {marks : List Mark} (hstate : r.state = .data)
    (hblock : r.advanceSparse.sparse[r.advanceSparse.sparseHead]? = some block)
    (hbytes : r.bytesRemaining ≠ 0) (hinput : input ≠ [])
    (h : Reads composes r input marks ending) :
    ∃ marks', marks = dataMarks block (input.take (r.dataShare block input).toNat) ++ marks' ∧
      Reads composes (r.advanceSparse.takeData block (r.dataShare block input))
        (input.drop (r.dataShare block input).toNat) marks' ending := by
  have hstep := step_block composes hstate hblock hbytes hinput
  cases h with
  | failed hstep' =>
    rw [hstep] at hstep'
    cases hstep'
  | ended hstep' =>
    rw [hstep] at hstep'
    split at hstep' <;> cases hstep'
  | @again _ _ used st s marks' _ hstep' hst hrest =>
    rw [hstep] at hstep'
    obtain ⟨rfl, rfl, rfl⟩ : _ = used ∧ _ = st ∧ _ = s := by simpa using hstep'
    exact ⟨marks', by rw [stepMarks_data], hrest⟩

variable {used : ℕ} {st : Step}

/-- The step lemma for data: what a part of the input gives comes first in what the whole of it
gives. -/
theorem reads_of_stepData {marks : List Mark} (h : Core r) (hstate : r.state = .data)
    (hstep : r.step composes a false = .ok (used, st, r'))
    (hreads : Reads composes r' ((a ++ rest).drop used) marks ending) :
    Reads composes r (a ++ rest) (r'.stepMarks a st ++ marks) ending := by
  rw [step_of_data hstate] at hstep
  by_cases hnext : r.bytesRemaining ≠ 0 ∧
      ∃ block, r.advanceSparse.sparse[r.advanceSparse.sparseHead]? = some block
  · obtain ⟨hbytes, block, hblock⟩ := hnext
    have hmem := h.sparse block (mem_of_getElem? hblock)
    have hpos := h.bytesRemaining
    have hremaining := advanceSparse_remaining hblock
    by_cases ha : a = []
    · -- The reader only passed over the blocks that are used up.
      subst ha
      have hwait : r.stepData [] false = .ok (0, .needInput, r.advanceSparse) := by
        have hbytes' : r.advanceSparse.bytesRemaining ≠ 0 := hbytes
        rw [stepData]
        rw [if_pos hbytes', hblock]
        rfl
      rw [hwait] at hstep
      cases hstep
      rw [drop_zero] at hreads
      refine Reads.congr ?_ hreads
      rw [step_of_data hstate, step_of_data (by exact hstate), stepData_advanceSparse]
    · rw [stepData_block hblock hbytes ha] at hstep
      obtain ⟨rfl, rfl, rfl⟩ : _ = used ∧ _ = st ∧ _ = r' := by simpa using hstep
      rw [stepMarks_data]
      have happend : a ++ rest ≠ [] := by simp [ha]
      by_cases hsame : r.dataShare block (a ++ rest) = r.dataShare block a
      · have hle : (r.dataShare block a).toNat ≤ a.length := by
          rw [dataShare]
          omega
        rw [← take_append_of_le_length hle, ← hsame]
        rw [← hsame] at hreads
        exact Reads.data hstate hblock hbytes happend hreads
      · -- The part is too short for the block, which takes the rest of what it wants behind it.
        obtain ⟨hall, hltBytes, hlt, hrest, hshare⟩ := dataShare_append hsame
        rw [hall] at hreads ⊢
        rw [Int.toNat_natCast, drop_left] at hreads
        rw [Int.toNat_natCast, take_length]
        have hblock' := takeData_block hblock (a.length : ℤ)
        have hadvance := takeData_advanceSparse hblock hlt
        rw [← hadvance] at hblock'
        obtain ⟨marks', rfl, hreads'⟩ := Reads.of_data (by exact hstate) hblock'
          (by change r.bytesRemaining - a.length ≠ 0; omega) hrest hreads
        rw [hadvance, takeData_takeData] at hreads'
        have hcount : (r.dataShare block (a ++ rest)).toNat = a.length +
            ((r.takeData block a.length).dataShare { block with
              remaining := block.remaining - a.length, offset := block.offset + a.length }
              rest).toNat := by
          have hpos' : 0 ≤ (r.takeData block a.length).dataShare { block with
              remaining := block.remaining - a.length, offset :=
              block.offset + a.length } rest := by
            rw [dataShare, takeData]
            dsimp only
            omega
          omega
        have hbehind : Reads composes
          (r.advanceSparse.takeData block (r.dataShare block (a ++ rest)))
            ((a ++ rest).drop (r.dataShare block (a ++ rest)).toNat) marks' ending := by
          rw [hcount, ← drop_drop, drop_left, hshare]
          exact hreads'
        have hwhole := Reads.data hstate hblock hbytes happend hbehind
        rw [hcount, take_append, take_of_length_le (le_add_right _ _),
          Nat.add_sub_cancel_left, dataMarks_append, append_assoc] at hwhole
        exact hwhole
  · -- No data are left, whatever the input is.
    have hnone : ∀ input eof, r.stepData input eof = .ok (0, .proceed, { r.advanceSparse with
        bytesRemaining := 0, padding := 0
        state := .skip (r.bytesRemaining + r.padding) .endOfEntry }) := by
      intro input eof
      rw [stepData]
      split
      · rfl
      next block hblock =>
        split at hblock
        next hbytes => exact absurd ⟨hbytes, block, hblock⟩ hnext
        next => cases hblock
    rw [hnone] at hstep
    cases hstep
    have hst : Step.proceed ≠ .endOfArchive := fun h => by cases h
    refine .again ?_ hst hreads
    rw [step_of_data hstate, hnone]

/-! ## Calls -/

variable {eof : Bool}

/-- No step but one on data gives data. -/
theorem stepMarks_append (h : Sound taken r) (hdata : r.state ≠ .data)
    (hstep : r.step composes a eof = .ok (used, st, r')) (rest : Bytes) :
    r'.stepMarks (a ++ rest) st = r'.stepMarks a st := by
  cases st with
  | data offset len => exact absurd (step_data h hstep).1 hdata
  | proceed | needInput | entry | endOfEntry | endOfArchive => rfl

/-- Where more may follow, a step on data neither fails nor ends the archive. -/
theorem step_data_ok (composes : Bytes → Bool) (hdata : r.state = .data) (a : Bytes) :
    ∃ used st s, r.step composes a false = .ok (used, st, s) ∧ st ≠ .endOfArchive := by
  rw [step_of_data hdata, stepData]
  split
  · exact ⟨_, _, _, rfl, fun h => by cases h⟩
  · split
    · exact ⟨_, _, _, rfl, fun h => by cases h⟩
    · refine ⟨_, _, _, rfl, ?_⟩
      split <;> exact fun h => by cases h

/-- The step lemma: what a call did on a part of the input is what the reader makes of the whole of
it. -/
theorem reads_of_step {marks : List Mark} (h : Sound taken r)
    (heof : eof = true → rest = []) (hstep : r.step composes a eof = .ok (used, st, r'))
    (hst : st ≠ .endOfArchive) (hreads : Reads composes r' ((a ++ rest).drop used) marks ending) :
    Reads composes r (a ++ rest) (r'.stepMarks a st ++ marks) ending := by
  cases eof with
  | true =>
    obtain rfl := heof rfl
    rw [append_nil] at hreads ⊢
    exact .again hstep hst hreads
  | false =>
    by_cases hdata : r.state = .data
    · exact reads_of_stepData h.toCore hdata hstep hreads
    · rcases step_agrees h hdata a rest with hsame | ⟨s, hwait, hrest⟩
      · rw [← stepMarks_append h hdata hstep rest]
        exact .again (hsame.trans hstep) hst hreads
      · rw [hstep] at hwait
        cases hwait
        rw [drop_left] at hreads
        refine Reads.of_shift hrest ?_ hreads
        intro used offset len s' hs
        have hne : Step.needInput ≠ .entry := fun h => by cases h
        exact step_ne_data h.block hdata hne hstep (step_data (step_sound h hstep) hs).1

theorem reads_of_step_error {error : Error} (h : Sound taken r)
    (heof : eof = true → rest = []) (hstep : r.step composes a eof = .error error) :
    Reads composes r (a ++ rest) [] (.error error) := by
  cases eof with
  | true =>
    obtain rfl := heof rfl
    rw [append_nil]
    exact .failed hstep
  | false =>
    by_cases hdata : r.state = .data
    · obtain ⟨used, st, s, hok, -⟩ := step_data_ok composes hdata a
      rw [hstep] at hok
      cases hok
    · rcases step_agrees h hdata a rest with hsame | ⟨s, hwait, -⟩
      · exact .failed (hsame.trans hstep)
      · rw [hstep] at hwait
        cases hwait

theorem reads_of_step_ended (h : Sound taken r) (heof : eof = true → rest = [])
    (hstep : r.step composes a eof = .ok (used, .endOfArchive, r')) :
    Reads composes r (a ++ rest) [] (.ok ()) := by
  cases eof with
  | true =>
    obtain rfl := heof rfl
    rw [append_nil]
    exact .ended hstep
  | false =>
    by_cases hdata : r.state = .data
    · obtain ⟨used, st, s, hok, hst⟩ := step_data_ok composes hdata a
      rw [hstep] at hok
      cases hok
      exact absurd rfl hst
    · rcases step_agrees h hdata a rest with hsame | ⟨s, hwait, -⟩
      · exact .ended (hsame.trans hstep)
      · rw [hstep] at hwait
        cases hwait

variable {fuel : ℕ}

/-- What a call did to a reader that goes on with what is left. -/
theorem pollFrom_progress {pos : ℕ} {poll : Poll} (h : Sound taken r) (hpos : pos ≤ input.length)
    (hpoll : pollFrom composes input eof fuel pos r = some (.ok (used, poll), r')) :
    used ≤ input.length ∧
      match poll with
      | .endOfArchive => True
      | .needInput => used = input.length ∧ eof = false ∧
          r'.weight 0 ≤ r.weight (input.length - pos)
      | .entry | .data _ _ _ | .endOfEntry _ =>
        r'.weight (input.length - used) < r.weight (input.length - pos) := by
  refine pollFrom_induction (motive := fun pos r => used ≤ input.length ∧ match poll with
    | .endOfArchive => True
    | .needInput => used = input.length ∧ eof = false ∧ r'.weight 0 ≤ r.weight (input.length - pos)
    | .entry | .data _ _ _ | .endOfEntry _ =>
      r'.weight (input.length - used) < r.weight (input.length - pos))
    (fun _ _ _ _ _ _ _ hout => by cases hout) ?_ ?_ h hpos hpoll
  · rintro _ pos r used' s h _ hstep ⟨hle, hs⟩
    obtain ⟨-, hst⟩ := step_progress h hstep
    rw [length_drop] at hst
    rw [Nat.sub_sub] at hst
    refine ⟨hle, ?_⟩
    cases poll with
    | endOfArchive => trivial
    | needInput => exact ⟨hs.1, hs.2.1, hs.2.2.trans hst.le⟩
    | entry | data _ _ _ | endOfEntry _ => exact lt_trans hs hst
  · intro _ pos r used' st _ h hle hstep hpoll hout
    obtain ⟨-, hst⟩ := step_progress h hstep
    rw [length_drop] at hst
    cases hout
    cases st with
    | proceed => cases hpoll
    | needInput =>
      cases hpoll
      exact ⟨hle, by have := hst.1; omega, hst.2.1, hst.2.2⟩
    | entry | data _ _ | endOfEntry =>
      cases hpoll
      refine ⟨hle, ?_⟩
      rw [← Nat.sub_sub]
      exact hst
    | endOfArchive =>
      cases hpoll
      exact ⟨hle, trivial⟩

/-- What a call gives is read before what is left. -/
theorem reads_of_pollFrom {marks : List Mark} {out : Except Error (ℕ × Poll)} (h : Sound taken r)
    (heof : eof = true → rest = []) (hpoll : pollFrom composes input eof fuel 0 r = some (out, r'))
    (hreads : match out with
      | .error error => marks = [] ∧ ending = .error error
      | .ok (_, .endOfArchive) => marks = [] ∧ ending = .ok ()
      | .ok (used, poll) => ∃ left, marks = (poll.event r'.entry input).marks ++ left ∧
        Reads composes r' ((input ++ rest).drop used) left ending) :
    Reads composes r (input ++ rest) marks ending := by
  have hgoes {taken : ℤ} {pos used : ℕ} {r s : Reader} {st : Step} {marks : List Mark}
      (h : Sound taken r) (hpos : pos ≤ input.length)
      (hstep : r.step composes (input.drop pos) eof = .ok (used, st, s)) (hst : st ≠ .endOfArchive)
      (hs : Reads composes s ((input ++ rest).drop (pos + used)) marks ending) :
      Reads composes r ((input ++ rest).drop pos) (s.stepMarks (input.drop pos) st ++ marks)
        ending := by
    rw [drop_append_of_le_length hpos]
    refine reads_of_step h heof hstep hst ?_
    rw [← drop_append_of_le_length hpos, drop_drop]
    exact hs
  refine pollFrom_induction
    (motive := fun pos r => Reads composes r ((input ++ rest).drop pos) marks ending) ?_ ?_ ?_ h
    (zero_le _) hpoll
  · rintro _ pos r error h hpos hstep rfl -
    obtain ⟨rfl, rfl⟩ := hreads
    rw [drop_append_of_le_length hpos]
    exact reads_of_step_error h heof hstep
  · intro _ pos r used s h hpos hstep ih
    exact hgoes h hpos hstep (fun h => by cases h) ih
  · rintro _ pos r used st poll h hle hstep hst rfl
    have hpos := le_of_add_right_le hle
    cases st with
    | proceed => cases hst
    | endOfArchive =>
      cases hst
      obtain ⟨rfl, rfl⟩ := hreads
      rw [drop_append_of_le_length hpos]
      exact reads_of_step_ended h heof hstep
    | data offset len =>
      cases hst
      obtain ⟨left, rfl, hreads⟩ := hreads
      obtain ⟨-, rfl, -⟩ := step_data h hstep
      have hbytes : (Poll.data offset pos used).event r'.entry input =
          .data offset ((input.drop pos).take used) := by
        rw [Poll.event, if_pos hle]
      rw [hbytes]
      exact hgoes h hpos hstep (fun h => by cases h) hreads
    | needInput | entry | endOfEntry =>
      cases hst
      obtain ⟨left, rfl, hreads⟩ := hreads
      exact hgoes h hpos hstep (fun h => by cases h) hreads

variable {pieces : List Bytes} {events : List Event}

/-- The run lemma: what any caller sees is what the reader makes of the whole. -/
theorem reads_of_fed (hfed : Fed composes r input pieces events ending)
    {taken : ℤ} (h : Sound taken r) :
    Reads composes r (input ++ pieces.flatten) (marks events) ending := by
  have hflat {pieces : List Bytes} (h : pieces = []) : pieces.flatten = [] := by rw [h]; rfl
  induction hfed generalizing taken with
  | more _ ih =>
    rw [flatten_cons, ← append_assoc]
    exact ih h
  | failed heof hnext =>
    exact reads_of_pollFrom h (fun h => hflat (heof h)) (exists_poll_of_next_error hnext) ⟨rfl, rfl⟩
  | ended heof hnext =>
    obtain ⟨poll, hpoll, hevent⟩ := exists_poll_of_next hnext
    cases poll with
    | endOfArchive => exact reads_of_pollFrom h (fun h => hflat (heof h)) hpoll ⟨rfl, rfl⟩
    | needInput | entry | data _ _ _ | endOfEntry _ => cases hevent
  | @needInput _ _ input pieces _ used _ _ _ heof hnext _ ih =>
    obtain ⟨poll, hpoll, hevent⟩ := exists_poll_of_next hnext
    obtain ⟨taken', hs⟩ := pollFrom_sound h hpoll
    cases poll with
    | needInput =>
      have hused := (pollFrom_progress h (zero_le _) hpoll).1
      have hrest := ih hs
      rw [← drop_append_of_le_length hused] at hrest
      exact reads_of_pollFrom h (fun h => hflat (heof h)) hpoll ⟨_, rfl, hrest⟩
    | entry | data _ _ _ | endOfEntry _ | endOfArchive => cases hevent
  | @event _ _ input pieces _ used event s events ending heof hnext _ hend _ ih =>
    obtain ⟨poll, hpoll, rfl⟩ := exists_poll_of_next hnext
    obtain ⟨taken', hs⟩ := pollFrom_sound h hpoll
    have hused := (pollFrom_progress h (zero_le _) hpoll).1
    have hrest := ih hs
    rw [← drop_append_of_le_length hused] at hrest
    cases poll with
    | endOfArchive => exact absurd rfl hend
    | needInput | entry | data _ _ _ | endOfEntry _ =>
      exact reads_of_pollFrom h (fun h => hflat (heof h)) hpoll ⟨_, rfl, hrest⟩

/-! ## Callers -/

theorem weight_add (r : Reader) (left more : ℕ) :
    r.weight (left + more) = r.weight left + 8 * more := by
  rw [weight, weight]
  omega

/-- The caller that waits comes to an end. -/
theorem exists_feed (h : Sound taken r)
    (hfuel : r.weight (input.length + pieces.flatten.length) + pieces.length < fuel) :
    ∃ out, feed composes fuel r input pieces = some out := by
  induction fuel generalizing r taken input pieces with
  | zero => omega
  | succ fuel ih =>
    rw [weight_add] at hfuel
    have hcall : ∃ out, pollFrom composes input pieces.isEmpty (fuel + 1) 0 r = some out :=
      exists_pollFrom input _ h (Nat.zero_le _) (by rw [Nat.sub_zero]; omega)
    obtain ⟨⟨out, s⟩, hpoll⟩ := hcall
    rw [feed.eq_def]
    dsimp only
    rw [next, poll, hpoll]
    cases out with
    | error error => exact ⟨_, rfl⟩
    | ok out =>
      obtain ⟨used, poll⟩ := out
      obtain ⟨taken', hs⟩ := pollFrom_sound h hpoll
      obtain ⟨hused, hprogress⟩ := pollFrom_progress h (zero_le _) hpoll
      have hevent (hless : s.weight (input.length - used) < r.weight (input.length - 0)) :
          ∃ out, feed composes fuel s (input.drop used) pieces = some out := by
        refine ih hs ?_
        rw [length_drop, weight_add]
        rw [Nat.sub_zero] at hless
        omega
      cases poll with
      | endOfArchive => exact ⟨_, rfl⟩
      | needInput =>
        obtain ⟨rfl, heof, hless⟩ := hprogress
        cases pieces with
        | nil => cases heof
        | cons piece pieces =>
          refine ih hs ?_
          rw [flatten_cons, length_append, length_cons] at hfuel
          rw [drop_length, nil_append, ← zero_add (piece.length + _), weight_add]
          rw [Nat.sub_zero] at hless
          omega
      | entry | data _ _ _ | endOfEntry _ =>
        obtain ⟨out, hout⟩ := hevent hprogress
        exact ⟨_, congrArg (Option.map _) hout⟩

theorem fed_of_feed
    (hfeed : feed composes fuel r input pieces = some (events, ending)) :
    Fed composes r input pieces events ending := by
  induction fuel generalizing r input pieces events with
  | zero => cases hfeed
  | succ fuel ih =>
    have heof : pieces.isEmpty = true → pieces = [] := isEmpty_iff.1
    rw [feed.eq_def] at hfeed
    dsimp only at hfeed
    split at hfeed
    · cases hfeed
    next error s hnext =>
      cases hfeed
      exact .failed heof hnext
    next used event s hnext =>
      split at hfeed
      next =>
        cases hfeed
        exact .ended heof hnext
      next => cases hfeed
      next piece pieces => exact .needInput heof hnext (.more (ih hfeed))
      next hend hwait hmore =>
        obtain ⟨⟨events', ending'⟩, hrest, hout⟩ := Option.map_eq_some_iff.1 hfeed
        cases hout
        refine .event heof hnext ?_ hend (ih hrest)
        intro hevent
        cases pieces with
        | nil => exact hwait hevent rfl
        | cons piece pieces => exact hmore piece pieces hevent rfl

/-- What a caller learns of an archive does not depend on the pieces in which it hands the archive
over: the caller that waits for each piece comes to an end, with the marks and the ending of the one
that hands over the whole at once, and so does every caller that comes to an end. -/
theorem fed_pieces (composes : Bytes → Bool) (options : Options) (pieces : List Bytes) :
    ∃ events ending,
      (∃ fuel, feed composes fuel (new options) pieces.flatten [] = some (events, ending)) ∧
      (∃ fuel events', feed composes fuel (new options) [] pieces = some (events', ending) ∧
        marks events' = marks events) ∧
      ∀ events' ending', Fed composes (new options) [] pieces events' ending' →
        marks events' = marks events ∧ ending' = ending := by
  have hnew := sound_new options
  have hfeed (input : Bytes) (pieces : List Bytes) :
      ∃ fuel out, feed composes fuel (new options) input pieces = some out :=
    ⟨_, exists_feed hnew (lt_succ_self _)⟩
  obtain ⟨fuel, ⟨events, ending⟩, hwhole⟩ := hfeed pieces.flatten []
  obtain ⟨fuel', ⟨events', ending'⟩, hparts⟩ := hfeed [] pieces
  have hreads := reads_of_fed (fed_of_feed hwhole) hnew
  rw [flatten_nil, append_nil] at hreads
  have hall {events' : List Event} {ending' : Except Error Unit}
      (hfed : Fed composes (new options) [] pieces events' ending') :
      marks events' = marks events ∧ ending' = ending := by
    have hreads' := reads_of_fed hfed hnew
    rw [nil_append] at hreads'
    exact hreads'.unique hreads
  obtain ⟨hmarks, rfl⟩ := hall (fed_of_feed hparts)
  exact ⟨events, ending', ⟨_, hwhole⟩, ⟨_, events', hparts, hmarks⟩, fun _ _ hfed => hall hfed⟩

end Reader

end Soup.Tar
