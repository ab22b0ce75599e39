import Soup.Tar.Progress

/-!
# Runs of the reader

A run is what any caller may do to a reader: steps on any input, errors, and `skip_entry`. A `Tally`
goes along and counts what the archive gave. The bytes that the archive stores of an entry are its
body; they are known when the entry's own header is read (`bodySizeOf`).

`reader_progress` says of every run that the next call comes to its end, that headers stand at
multiples of 512 bytes, that the data of an entry is no more than its body, and that its path holds
no NUL.
-/

namespace Soup.Tar

open Lib List Option Nat

variable {composes : Bytes → Bool} {options : Options} {taken : ℤ} {r r' : Reader}

/-- What a run took of the archive, and the body of the last entry whose header it read. -/
structure Tally where
  taken : ℕ := 0
  body : ℤ := 0

namespace Reader

/-- The entry's own header, at the step that reads it or that reads the sparse blocks behind it. -/
def ownHeader (r : Reader) (input : Bytes) : Option Block :=
  match r.state with
  | .header => (r.takeBlock input).2.1.filter fun h =>
      ¬ Header.isNull h ∧ Header.checksumOk h ∧ ¬ isSpecial (Header.typeflag h)
  | .oldSparseExtension => some r.mainHeader
  | _ => none

end Reader

/-- The tally behind a step. -/
def Tally.after (t : Tally) (r : Reader) (input : Bytes) (used : ℕ) : Tally :=
  { taken := t.taken + used
    body := match r.ownHeader input with
      | some h => r.bodySizeOf (Header.size h)
      | none => t.body }

/-- The readers that runs start from: a new one, also behind `detect`. -/
inductive Starts (options : Options) : Tally × Reader → Prop
  | new : Starts options ({}, .new options)
  | detected {start : Bytes} {used : ℕ} {r : Reader} :
    (Reader.new options).detect start = (.ok used, r) → Starts options ({ taken := used }, r)
  | refused {start : Bytes} {error : Error} {r : Reader} :
    (Reader.new options).detect start = (.error error, r) → Starts options ({}, r)

/-- What a caller may do. -/
inductive Move (composes : Bytes → Bool) : Tally × Reader → Tally × Reader → Prop
  | step {t : Tally} {r : Reader} {input : Bytes} {eof : Bool} {used : ℕ} {st : Step}
      {r' : Reader} : r.step composes input eof = .ok (used, st, r') →
    Move composes (t, r) (t.after r input used, r')
  | failed {t : Tally} {r : Reader} {input : Bytes} {eof : Bool} {error : Error} :
    r.step composes input eof = .error error → Move composes (t, r) (t, r.fail error)
  | skipEntry {t : Tally} {r : Reader} : Move composes (t, r) (t, r.skipEntry)

/-- A run. -/
abbrev Run (composes : Bytes → Bool) : Tally × Reader → Tally × Reader → Prop :=
  Relation.ReflTransGen (Move composes)

/-- The reader stands in front of a header block. -/
def AtHeader (r : Reader) : Prop := r.state = .header ∧ r.block = []

namespace Reader

/-! ## The body of an entry -/

/-- The states from the entry's own header to the end of its data. -/
def Inside : State → Prop
  | .emit | .data | .sparseMapLine _ | .skip _ .sparseMap => True
  | _ => False

/-- What is left of the body of the entry is no more than the body. -/
def Within (t : Tally) (r : Reader) : Prop := Inside r.state → r.bytesRemaining ≤ t.body

theorem finishHeader_le (h : 0 ≤ r.bytesRemaining) (status : Status) :
    (r.finishHeader status).bytesRemaining ≤ r.bytesRemaining := by
  rcases finishHeader_body r status with ⟨hb, -⟩ | ⟨hb, -⟩ <;> omega

theorem afterMainHeader_le (hbytes : 0 ≤ r.bytesRemaining) (h : r.afterMainHeader = .ok r') :
    r'.bytesRemaining ≤ r.bytesRemaining := by
  rw [afterMainHeader] at h
  dsimp only at h
  repeat' split at h
  all_goals cases h
  all_goals first | exact le_rfl | exact finishHeader_le hbytes _

variable {header : Block}

/-- What is counted down is no more than the body that the header gives. -/
theorem headerCommon_le (h : r.headerCommon header = .ok r') :
    r'.bytesRemaining ≤ r.bodySizeOf (Header.size header) := by
  obtain ⟨s, -, -, -, hbytes, hle, -, -, hafter⟩ := headerCommon_spec h
  exact (afterMainHeader_le hbytes hafter).trans hle

theorem and_or_of_and_eq_zero {x bit bit' : UInt8} (h : bit &&& bit' = 0) :
    (x ||| bit) &&& bit' = x &&& bit' := by
  apply UInt8.eq_of_toBitVec_eq
  rw [UInt8.toBitVec_and, UInt8.toBitVec_or, UInt8.toBitVec_and, BitVec.and_or_distrib_right,
    ← UInt8.toBitVec_and bit, h]
  exact BitVec.or_zero

/-- The real size in a GNU header says nothing about the body. -/
theorem bodySizeOf_realSize (r : Reader) (gnuSparseRealSize size : ℤ) :
    bodySizeOf { r with
      gnuSparseRealSize
      sizeFields := r.sizeFields ||| SizeField.gnuSparseRealsize } size = r.bodySizeOf size := by
  rw [bodySizeOf, bodySizeOf, hasSize, hasSize, hasSize, hasSize]
  rw [and_or_of_and_eq_zero (by decide), and_or_of_and_eq_zero (by decide)]

theorem bodySizeOf_takePath (r : Reader) (path : Bytes) (size : ℤ) :
    (r.takePath path).bodySizeOf size = r.bodySizeOf size := by
  rw [takePath]
  split <;> rfl

/-- Old sparse entries change the sparse blocks and nothing else. -/
theorem oldSparseEntries_eq {entries : List Bytes} (h : r.oldSparseEntries entries = .ok r') :
    r' = { r with sparse := r'.sparse } := by
  induction entries generalizing r with
  | nil =>
    cases h
    rfl
  | cons entry entries ih =>
    rw [oldSparseEntries] at h
    split at h
    · cases h
      rfl
    · split at h
      · exact (ih h).trans rfl
      · cases h

theorem bodySizeOf_oldSparse {entries : Bytes} (h : r.addOldSparseEntries entries = .ok r')
    (size : ℤ) : r'.bodySizeOf size = r.bodySizeOf size := by
  rw [oldSparseEntries_eq h]
  rfl

theorem onMainHeader_le (h : r.onMainHeader header = .ok r') (hinside : Inside r'.state) :
    r'.bytesRemaining ≤ r.bodySizeOf (Header.size header) := by
  rw [onMainHeader] at h
  dsimp only at h
  split at h
  · have hgnu : ∀ size, (({ r with format := .gnu } : Reader).takePath
        (sliceToNul (Header.name header))).bodySizeOf size = r.bodySizeOf size :=
      fun size => (bodySizeOf_takePath _ _ size).trans rfl
    generalize ({ r with format := .gnu } : Reader).takePath (sliceToNul (Header.name header)) = s
      at h hgnu
    split at h
    · rw [← hgnu]
      exact headerCommon_le h
    have hreal : ∀ size, (if (Header.gnuRealSize header).head? ≠ some 0 then
        { s with
          gnuSparseRealSize := parseField (Header.gnuRealSize header)
          sizeFields := s.sizeFields ||| SizeField.gnuSparseRealsize } else s).bodySizeOf size =
        r.bodySizeOf size := by
      intro size
      split
      · rw [bodySizeOf_realSize, hgnu]
      · exact hgnu size
    generalize (if (Header.gnuRealSize header).head? ≠ some 0 then
        { s with
          gnuSparseRealSize := parseField (Header.gnuRealSize header)
          sizeFields := s.sizeFields ||| SizeField.gnuSparseRealsize } else s) = t at h hreal
    split at h
    · obtain ⟨u, hentries, h⟩ := bind_eq_ok h
      split at h
      · cases h
        exact hinside.elim
      · rw [← hreal, ← bodySizeOf_oldSparse hentries]
        exact headerCommon_le h
    · rw [← hreal]
      exact headerCommon_le h
  split at h
  · refine (headerCommon_le h).trans_eq ?_
    exact (bodySizeOf_takePath _ _ _).trans rfl
  · refine (headerCommon_le h).trans_eq ?_
    exact (bodySizeOf_takePath _ _ _).trans rfl

/-! ## Steps outside the data -/

theorem onSpecialHeader_outside {flag : UInt8} {size : ℤ}
    (h : r.onSpecialHeader flag size = .ok r') : ¬ Inside r'.state := by
  obtain ⟨seen, status, format, hbody⟩ := onSpecialHeader_cases _ h
  cases hbody <;> exact id

theorem onPaxKey_outside (h : r.onPaxKey = .ok r') : ¬ Inside r'.state := by
  rw [onPaxKey] at h
  split at h
  · cases h
    exact id
  · obtain ⟨⟨s, value⟩, hvalue, h⟩ := map_eq_ok h
    cases value <;>
    · cases h
      exact id

theorem useCollected_outside {what : Collect} {value : Bytes}
    (h : r.useCollected composes what value = .ok r') : ¬ Inside r'.state := by
  by_cases hwhat : what = .longName ∨ what = .longLink
  · rcases hwhat with rfl | rfl <;>
    · cases h
      exact id
  · rw [useCollected_eq hwhat] at h
    obtain ⟨⟨s, status⟩, hs, hr'⟩ := map_eq_ok h
    cases hr'
    exact id

variable {input : Bytes} {used : ℕ}

theorem paxLengthLoop_outside {used' : ℕ} {whole : Bool}
    (h : r.paxLengthLoop used input = (used', r', whole)) (hstate : ¬ Inside r.state) :
    ¬ Inside r'.state := by
  induction input generalizing r used with
  | nil =>
    cases h
    exact hstate
  | cons c cs ih =>
    rw [paxLengthLoop] at h
    split at h
    · cases h
      exact hstate
    dsimp only at h
    split at h
    · cases h
      split <;> exact id
    split at h
    · split at h
      · cases h
        exact id
      · exact ih h hstate
    · cases h
      exact id

/-! ## The tally -/

variable {t : Tally}

theorem within_of_outside (h : ¬ Inside r.state) : r.Within t := fun hinside =>
  absurd hinside h

/-- A step behind the headers, with what it left of the body. -/
theorem within_of_le (h : r.Within t) (hinside : Inside r.state) (hown : r.ownHeader input = none)
    (hle : r'.bytesRemaining ≤ r.bytesRemaining) : r'.Within (t.after r input used) := by
  intro _
  rw [Tally.after, hown]
  exact hle.trans (h hinside)

variable {eof : Bool} {st : Step}

theorem onHeader_within {block : Block} (hstate : r.state = .header)
    (htake : (r.takeBlock input).2.1 = some block)
    (hon : onHeader { r with block := [] } block = .ok r') : r'.Within (t.after r input used) := by
  rw [onHeader] at hon
  split at hon
  · refine within_of_outside ?_
    split at hon
    · cases hon
      split
      · exact id
      · rw [hstate]
        exact id
    · cases hon
      rw [hstate]
      exact id
  next hnull =>
    dsimp only at hon
    split at hon
    · refine within_of_outside ?_
      split at hon
      · cases hon
      · cases hon
        exact id
    next hsum =>
      split at hon
      · exact within_of_outside (onSpecialHeader_outside hon)
      next hspecial =>
        intro hinside
        have hown : r.ownHeader input = some block := by
          rw [ownHeader, hstate]
          rw [htake, filter_some]
          rw [if_pos (by simpa using ⟨by simpa using hnull, by simpa using hsum,
            by simpa using hspecial⟩)]
        rw [Tally.after, hown]
        have hle := onMainHeader_le hon hinside
        exact hle.trans_eq rfl

variable {field : SparseMapField}

theorem onSparseMapLine_le (hle : r.sparseMapLeft ≤ r.bytesRemaining)
    (h : r.onSparseMapLine field = .ok r') : r'.bytesRemaining ≤ r.bytesRemaining := by
  have hnext : ∀ s : Reader, s.bytesRemaining = r.bytesRemaining →
      s.sparseMapLeft = r.sparseMapLeft - r.line.length → s.nextSparseMapLine = .ok r' →
      r'.bytesRemaining ≤ r.bytesRemaining := by
    intro s hbytes hleft hnext
    rw [nextSparseMapLine] at hnext
    split at hnext
    · cases hnext
      exact hbytes.le
    · rw [finishSparseMap] at hnext
      split at hnext
      · cases hnext
      · cases hnext
        have hpad := paddingFor_nonneg (s.bytesRemaining - s.sparseMapLeft)
        dsimp only
        omega
  rw [onSparseMapLine] at h
  split at h
  · cases h
    exact le_rfl
  dsimp only at h
  generalize (if r.line.getLast? = some (b '\n') then r.line.dropLast else r.line) = digits at h
  split at h
  · cases h
  cases field with
  | count => exact hnext _ (by rfl) (by rfl) h
  | offset =>
    cases h
    exact le_rfl
  | size =>
    dsimp only at h
    split at h
    · exact hnext _ (by rfl) (by rfl) h
    · cases h

/-- The step lemma of the tally. -/
theorem step_within (hsound : Sound taken r) (h : r.Within t)
    (hstep : r.step composes input eof = .ok (used, st, r')) :
    r'.Within (t.after r input used) := by
  have hat := hsound.place
  cases step_cases hsound.block hstep with
  | done hstate | drain hstate => exact within_of_outside (by rw [hstate]; exact id)
  | blockWait hstate =>
    refine within_of_outside ?_
    rcases hstate with hstate | hstate <;>
    · rw [hstate]
      exact id
  | header hstate hfull htake hon => exact onHeader_within hstate htake hon
  | oldSparseMore hstate hfull hentries =>
    refine within_of_outside ?_
    rw [(kept_oldSparseEntries hentries).state]
    rw [hstate]
    exact id
  | oldSparseLast hstate hfull hentries hcommon =>
    intro _
    have hown : r.ownHeader input = some r.mainHeader := by rw [ownHeader, hstate]
    rw [Tally.after, hown]
    refine (headerCommon_le hcommon).trans_eq ?_
    rw [oldSparseEntries_eq hentries]
    rfl
  | @skipWait left after take hstate =>
    have hown : r.ownHeader input = none := by rw [ownHeader, hstate]
    cases after with
    | sparseMap => exact within_of_le h (by rw [hstate]; trivial) hown le_rfl
    | _ => exact within_of_outside id
  | @skipped left after take hstate =>
    have hown : r.ownHeader input = none := by rw [ownHeader, hstate]
    cases after with
    | sparseMap =>
      refine within_of_le h (by rw [hstate]; trivial) hown ?_
      exact finishHeader_le (r := { r with skipped := 0 }) hsound.bytesRemaining r.status
    | _ => exact within_of_outside id
  | collected hstate hall huse => exact within_of_outside (useCollected_outside huse)
  | paxLength hstate hloop =>
    exact within_of_outside (paxLengthLoop_outside hloop (by rw [hstate]; exact id))
  | prologueWait hran =>
    refine within_of_outside ?_
    rw [(RanOut.progress hran).2.1]
    rcases hran with ⟨hstate, -⟩ | ⟨hstate, -⟩ <;>
    · rw [hstate]
      exact id
  | paxKey hstate hloop hkey => exact within_of_outside (onPaxKey_outside hkey)
  | newlineWait hstate =>
    refine within_of_outside ?_
    rw [hstate]
    exact id
  | newline => exact within_of_outside (by split <;> exact id)
  | @sparseLine field used line r' hstate hloop hon =>
    simp only [At, hstate] at hat
    refine within_of_le h (by rw [hstate]; trivial) (by rw [ownHeader, hstate]) ?_
    exact onSparseMapLine_le (r := { r with line }) hat.2.2.left_le hon
  | sparseLineWait hstate | emit hstate | dataWait hstate =>
    exact within_of_le h (by rw [hstate]; trivial) (by rw [ownHeader, hstate]) le_rfl
  | data hstate hbytes hblock hinput hlen =>
    have hremaining := hsound.sparse _ (mem_of_getElem? hblock)
    have hpos := hsound.bytesRemaining
    refine within_of_le h (by rw [hstate]; trivial) (by rw [ownHeader, hstate]) ?_
    dsimp only
    omega
  | _ => exact within_of_outside id

theorem Sound.skipEntry (h : Sound taken r) : Sound taken r.skipEntry := by
  rw [Reader.skipEntry]
  split
  next hstate =>
    obtain ⟨hcore, hat⟩ := h
    simp only [At, hstate] at hat
    exact ⟨{ hcore with }, hat⟩
  next => exact h

theorem Within.skipEntry (h : r.Within t) : r.skipEntry.Within t := by
  rw [Reader.skipEntry]
  split
  · exact within_of_outside id
  · exact h

/-! ## Runs -/

variable {s : Tally × Reader}

theorem starts_sound (h : Starts options s) :
    Sound s.1.taken s.2 ∧ s.2.Within s.1 := by
  cases h with
  | new => exact ⟨sound_new options, within_of_outside id⟩
  | @detected start used r hdetect =>
    rw [detect, fillBlock] at hdetect
    dsimp only at hdetect
    split at hdetect
    next hfull =>
      cases hdetect
      have hlen : (new options).block ++ start.take (min (blockSize - (new options).block.length)
          start.length) = start.take (min blockSize start.length) := rfl
      have hused : min (blockSize - (new options).block.length) start.length = 512 := by
        have := hfull.1
        rw [hlen, length_take, blockSize] at this
        rw [show (new options).block.length = 0 from rfl, blockSize]
        omega
      refine ⟨⟨⟨le_rfl, le_rfl, fun _ h => (not_mem_nil h).elim, not_mem_nil, hfull.1.le⟩, ?_,
        ?_⟩, within_of_outside id⟩
      · rw [Whole, hfull.1]
        exact Int.dvd_refl _
      · dsimp only
        rw [hused]
        exact (by decide : (512 : ℤ) ∣ (512 : ℕ) + (0 + 0))
    next => cases hdetect
  | @refused start error r hdetect =>
    rw [detect, fillBlock] at hdetect
    dsimp only at hdetect
    split at hdetect
    · cases hdetect
    · cases hdetect
      refine ⟨⟨⟨le_rfl, le_rfl, fun _ h => (not_mem_nil h).elim, not_mem_nil, ?_⟩, trivial⟩,
        within_of_outside id⟩
      rw [show (new options).block = [] from rfl, nil_append, length_take, blockSize]
      omega

variable {s s' : Tally × Reader}

theorem move_sound (h : Sound s.1.taken s.2 ∧ s.2.Within s.1)
    (hmove : Move composes s s') : Sound s'.1.taken s'.2 ∧ s'.2.Within s'.1 := by
  cases hmove with
  | step hstep =>
    refine ⟨?_, step_within h.1 h.2 hstep⟩
    rw [Tally.after, cast_add]
    exact step_sound h.1 hstep
  | failed hstep => exact ⟨h.1.fail _, within_of_outside id⟩
  | skipEntry => exact ⟨h.1.skipEntry, h.2.skipEntry⟩

/-- The run lemma. -/
theorem run_sound (hstart : Starts options s) (hrun : Run composes s s') :
    Sound s'.1.taken s'.2 ∧ s'.2.Within s'.1 := by
  induction hrun with
  | refl => exact starts_sound hstart
  | tail _ hmove ih => exact move_sound ih hmove

variable {fuel : ℕ} {out : Except Error (ℕ × Poll)} {pos : ℕ}

/-- A call is a run, and takes what it says that it took. -/
theorem pollFrom_run (h : pollFrom composes input eof fuel pos r = some (out, r')) :
    ∃ t', Run composes (t, r) (t', r') ∧
      ∀ used poll, out = .ok (used, poll) → t'.taken + pos = t.taken + used := by
  induction fuel generalizing r t pos with
  | zero => cases h
  | succ fuel ih =>
    rw [pollFrom] at h
    cases hstep : r.step composes (input.drop pos) eof with
    | error error =>
      rw [hstep] at h
      cases h
      exact ⟨t, .single (.failed hstep), fun _ _ h => by cases h⟩
    | ok out' =>
      obtain ⟨used, st, s⟩ := out'
      rw [hstep] at h
      have hmove : Run composes (t, r) (t.after r (input.drop pos) used, s) :=
        .single (.step hstep)
      have htaken : (t.after r (input.drop pos) used).taken = t.taken + used := rfl
      cases st with
      | proceed =>
        obtain ⟨t', hrun, hused⟩ := ih h
        refine ⟨t', hmove.trans hrun, fun used' poll hout => ?_⟩
        have := hused used' poll hout
        omega
      | needInput | entry | data _ _ | endOfEntry | endOfArchive =>
        cases h
        refine ⟨_, hmove, fun used' poll hout => ?_⟩
        cases hout
        omega

/-- The poll that a step ends a call with. -/
def pollOf (pos : ℕ) (r : Reader) : Step → Option Poll
  | .proceed => none
  | .needInput => some .needInput
  | .entry => some .entry
  | .data offset len => some (.data offset pos len)
  | .endOfEntry => some (.endOfEntry r.diskSize)
  | .endOfArchive => some .endOfArchive

/-- The induction over the steps of a call, from the one that ends it. -/
theorem pollFrom_induction {motive : ℕ → Reader → Prop}
    (failed : ∀ taken pos r error, Sound taken r → pos ≤ input.length →
      r.step composes (input.drop pos) eof = .error error → out = .error error → r' = r.fail error →
      motive pos r)
    (proceed : ∀ taken pos r used s, Sound taken r → pos ≤ input.length →
      r.step composes (input.drop pos) eof = .ok (used, .proceed, s) →
      motive (pos + used) s → motive pos r)
    (ended : ∀ taken pos r used st poll, Sound taken r → pos + used ≤ input.length →
      r.step composes (input.drop pos) eof = .ok (used, st, r') → pollOf pos r' st = some poll →
      out = .ok (pos + used, poll) → motive pos r) (h : Sound taken r) (hpos : pos ≤ input.length)
    (hpoll : pollFrom composes input eof fuel pos r = some (out, r')) : motive pos r := by
  induction fuel generalizing r taken pos with
  | zero => cases hpoll
  | succ fuel ih =>
    rw [pollFrom] at hpoll
    cases hstep : r.step composes (input.drop pos) eof with
    | error error =>
      rw [hstep] at hpoll
      cases hpoll
      exact failed _ _ _ error h hpos hstep rfl rfl
    | ok out' =>
      obtain ⟨used, st, s⟩ := out'
      rw [hstep] at hpoll
      have hused := (step_progress h hstep).1
      rw [length_drop] at hused
      cases st with
      | proceed =>
        exact proceed _ _ _ _ _ h hpos hstep (ih (step_sound h hstep) (by omega) hpoll)
      | needInput | entry | data _ _ | endOfEntry | endOfArchive =>
        cases hpoll
        exact ended _ _ _ _ _ _ h (by omega) hstep rfl rfl

/-- The data of a call are bytes of its input, the last that it took. -/
theorem pollFrom_data {pos start len : ℕ} {offset : ℤ} (h : Sound taken r)
    (hpos : pos ≤ input.length)
    (hpoll : pollFrom composes input eof fuel pos r =
      some (.ok (used, .data offset start len), r')) :
    0 < len ∧ start + len = used ∧ used ≤ input.length := by
  refine pollFrom_induction (motive := fun _ _ => 0 < len ∧ start + len = used ∧
    used ≤ input.length)
    (fun _ _ _ _ _ _ _ hout => by cases hout) (fun _ _ _ _ _ _ _ _ ih => ih) ?_ h hpos hpoll
  intro _ pos r used' st poll h hle hstep hst hout
  cases hout
  cases st <;> cases hst
  obtain ⟨-, rfl, hlen⟩ := step_data h hstep
  omega

/-! ## The data of one entry -/

theorem headerCommon_ne_data (h : r.headerCommon header = .ok r') : r'.state ≠ .data := by
  have hafter : ∀ s : Reader, s.afterMainHeader = .ok r' → r'.state ≠ .data := by
    intro s hs
    rw [afterMainHeader] at hs
    dsimp only at hs
    repeat' split at hs
    all_goals cases hs
    all_goals exact fun h => by cases h
  obtain ⟨s, -, -, -, -, -, -, -, hs⟩ := headerCommon_spec h
  exact hafter s hs

theorem onMainHeader_ne_data (h : r.onMainHeader header = .ok r') : r'.state ≠ .data := by
  rw [onMainHeader] at h
  dsimp only at h
  split at h
  · split at h
    · exact headerCommon_ne_data h
    split at h
    · obtain ⟨s, -, h⟩ := bind_eq_ok h
      split at h
      · cases h
        exact fun h => by cases h
      · exact headerCommon_ne_data h
    · exact headerCommon_ne_data h
  split at h
  · exact headerCommon_ne_data h
  · exact headerCommon_ne_data h

theorem ne_data_of_outside (h : ¬ Inside r.state) : r.state ≠ .data := fun hstate =>
  h (hstate ▸ trivial)

theorem onHeader_ne_data {block : Block} (hstate : r.state ≠ .data)
    (h : r.onHeader block = .ok r') : r'.state ≠ .data := by
  rw [onHeader] at h
  split at h
  · split at h
    · cases h
      split
      · exact fun h => by cases h
      · exact hstate
    · cases h
      exact hstate
  dsimp only at h
  split at h
  · split at h
    · cases h
    · cases h
      exact fun h => by cases h
  split at h
  · exact ne_data_of_outside (onSpecialHeader_outside h)
  · exact onMainHeader_ne_data h

theorem onSparseMapLine_ne_data (hstate : r.state ≠ .data)
    (h : r.onSparseMapLine field = .ok r') : r'.state ≠ .data := by
  have hnext : ∀ s : Reader, s.nextSparseMapLine = .ok r' → r'.state ≠ .data := by
    intro s hs
    rw [nextSparseMapLine] at hs
    split at hs
    · cases hs
      exact fun h => by cases h
    · rw [finishSparseMap] at hs
      split at hs
      · cases hs
      · cases hs
        exact fun h => by cases h
  rw [onSparseMapLine] at h
  split at h
  · cases h
    exact hstate
  dsimp only at h
  generalize (if r.line.getLast? = some (b '\n') then r.line.dropLast else r.line) = digits at h
  split at h
  · cases h
  cases field with
  | count => exact hnext _ h
  | offset =>
    cases h
    exact fun h => by cases h
  | size =>
    dsimp only at h
    split at h
    · exact hnext _ h
    · cases h

/-- Only an entry leads to data. -/
theorem step_ne_data (hblock : r.block.length ≤ 512) (hstate : r.state ≠ .data) (hst : st ≠ .entry)
    (hstep : r.step composes input eof = .ok (used, st, r')) : r'.state ≠ .data := by
  cases step_cases hblock hstep with
  | done | blockWait | newlineWait | sparseLineWait | drain => exact hstate
  | header hheader hfull htake hon =>
    refine onHeader_ne_data ?_ hon
    exact hstate
  | oldSparseMore hold hfull hentries =>
    rw [(kept_oldSparseEntries hentries).state]
    exact hstate
  | oldSparseLast hold hfull hentries hcommon => exact headerCommon_ne_data hcommon
  | @skipped left after => cases after <;> exact fun h => by cases h
  | collected hcollect hall huse => exact ne_data_of_outside (useCollected_outside huse)
  | paxLength hlength hloop =>
    exact ne_data_of_outside (paxLengthLoop_outside hloop (by rw [hlength]; exact id))
  | prologueWait hran =>
    rw [(RanOut.progress hran).2.1]
    exact hstate
  | paxKey hkey hloop hon => exact ne_data_of_outside (onPaxKey_outside hon)
  | newline => split <;> exact fun h => by cases h
  | @sparseLine field used line r' hline hloop hon =>
    exact onSparseMapLine_ne_data (r := { r with line }) hstate hon
  | emit => exact absurd rfl hst
  | dataEnd hdata | dataWait hdata | data hdata => exact absurd hdata hstate
  | _ => exact fun h => by cases h

/-- How much data an event holds. -/
def dataLen : Event → ℕ
  | .data _ bytes => bytes.length
  | _ => 0

/-- What the archive may still give of the entry. -/
def budget (r : Reader) : ℤ := if r.state = .data then r.bytesRemaining else 0

theorem budget_nonneg (h : Core r) : 0 ≤ r.budget := by
  rw [budget]
  split
  · exact h.bytesRemaining
  · exact le_rfl

/-- How much data a step gives. -/
def stepLen : Step → ℕ
  | .data _ len => len
  | _ => 0

/-- Data come off what was left. -/
theorem step_budget (h : Sound taken r) (hst : st ≠ .entry)
    (hstep : r.step composes input eof = .ok (used, st, r')) :
    r'.budget + stepLen st ≤ r.budget := by
  by_cases hstate : r.state = .data
  · have hbytes := h.bytesRemaining
    rw [budget, budget, if_pos hstate]
    cases step_cases h.block hstep with
    | dataEnd =>
      rw [if_neg fun h => by cases h]
      exact (add_zero (0 : ℤ)).trans_le hbytes
    | dataWait =>
      rw [if_pos (show r.advanceSparse.state = .data from hstate)]
      exact (add_zero r.bytesRemaining).le
    | @data block len _ _ hblock =>
      have hremaining := h.sparse block (mem_of_getElem? hblock)
      rw [if_pos (show r.advanceSparse.state = .data from hstate)]
      cases block.hole with
      | true =>
        simp only [if_true, stepLen]
        omega
      | false =>
        simp only [Bool.false_eq_true, if_false, stepLen]
        omega
    | emit => exact absurd rfl hst
    | blockWait hother | prologueEnd hother | prologueWait hother =>
      rcases hother with hother | hother <;> simp [hstate] at hother
    | _ => simp_all
  · have hlen : stepLen st = 0 := by
      cases st with
      | data offset len => exact absurd (step_data h hstep).1 hstate
      | proceed | needInput | entry | endOfEntry | endOfArchive => rfl
    rw [budget, if_neg (step_ne_data h.block hstate hst hstep), budget, if_neg hstate, hlen]
    exact le_rfl

/-- How much data a call gives. -/
def pollLen : Poll → ℕ
  | .data _ _ len => len
  | _ => 0

theorem pollFrom_sound (h : Sound taken r)
    (hpoll : pollFrom composes input eof fuel 0 r = some (out, r')) :
    ∃ taken', Sound taken' r' := by
  refine pollFrom_induction (motive := fun _ _ => ∃ taken', Sound taken' r')
    (fun taken _ _ error h _ _ _ hr' => ⟨taken, by rw [hr']; exact h.fail error⟩)
      (fun _ _ _ _ _ _ _ _ ih => ih)
    (fun _ _ _ _ _ _ h _ hstep _ _ => ⟨_, step_sound h hstep⟩) h (zero_le _) hpoll

theorem pollFrom_budget {poll : Poll} (h : Sound taken r) (hentry : poll ≠ .entry)
    (hpoll : pollFrom composes input eof fuel 0 r = some (.ok (used, poll), r')) :
    r'.budget + pollLen poll ≤ r.budget := by
  refine pollFrom_induction (motive := fun _ r => r'.budget + pollLen poll ≤ r.budget)
    (fun _ _ _ _ _ _ _ hout => by cases hout) ?_ ?_ h (zero_le _) hpoll
  · intro _ _ r _ s h _ hstep ih
    exact ih.trans ((add_zero s.budget).ge.trans (step_budget h (fun h => by cases h) hstep))
  · intro _ _ r _ st _ h _ hstep hst hout
    cases hout
    have hbudget := step_budget h (fun heq => hentry (by subst heq; cases hst; rfl)) hstep
    cases st <;> cases hst <;> exact hbudget

theorem pollFrom_entry (h : Sound taken r)
    (hpoll : pollFrom composes input eof fuel 0 r = some (.ok (used, .entry), r')) :
    r'.state = .data := by
  refine pollFrom_induction (motive := fun _ _ => r'.state = .data)
    (fun _ _ _ _ _ _ _ hout => by cases hout) (fun _ _ _ _ _ _ _ _ ih => ih) ?_ h (zero_le _) hpoll
  intro _ _ _ _ st _ h _ hstep hst hout
  cases hout
  cases st <;> cases hst
  exact step_entry h hstep

/-- What a caller sees: the events of some calls, between which it may skip entries. -/
inductive Calls (composes : Bytes → Bool) : Reader → List Event → Reader → Prop
  | done {r : Reader} : Calls composes r [] r
  | next {fuel : ℕ} {input : Bytes} {eof : Bool} {used : ℕ} {event : Event} {events : List Event}
    {r r' r'' : Reader} : r.next composes fuel input eof = some (.ok (used, event), r') →
    Calls composes r' events r'' → Calls composes r (event :: events) r''
  | failed {fuel : ℕ} {input : Bytes} {eof : Bool} {error : Error} {events : List Event}
    {r r' r'' : Reader} : r.next composes fuel input eof = some (.error error, r') →
    Calls composes r' events r'' → Calls composes r events r''
  | skipEntry {events : List Event} {r r' : Reader} :
    Calls composes r.skipEntry events r' → Calls composes r events r'

/-- A call that gave an event, with the poll behind it. -/
theorem exists_poll_of_next {event : Event}
    (h : r.next composes fuel input eof = some (.ok (used, event), r')) :
    ∃ poll, pollFrom composes input eof fuel 0 r = some (.ok (used, poll), r') ∧
      poll.event r'.entry input = event := by
  rw [next, Reader.poll, map_eq_some_iff] at h
  obtain ⟨⟨out, s⟩, hpoll, h⟩ := h
  cases out with
  | error error => cases h
  | ok out =>
    obtain ⟨used', poll⟩ := out
    cases h
    exact ⟨poll, hpoll, rfl⟩

theorem exists_poll_of_next_error {error : Error}
    (h : r.next composes fuel input eof = some (.error error, r')) :
    pollFrom composes input eof fuel 0 r = some (.error error, r') := by
  rw [next, Reader.poll, map_eq_some_iff] at h
  obtain ⟨⟨out, s⟩, hpoll, h⟩ := h
  cases out with
  | error error =>
    cases h
    exact hpoll
  | ok out => cases h

theorem pollFrom_error {error : Error}
    (h : pollFrom composes input eof fuel pos r = some (.error error, r')) :
    r'.state = .failed error := by
  induction fuel generalizing r pos with
  | zero => cases h
  | succ fuel ih =>
    rw [pollFrom] at h
    cases hstep : r.step composes (input.drop pos) eof with
    | error error' =>
      rw [hstep] at h
      cases h
      rfl
    | ok out =>
      obtain ⟨used, st, s⟩ := out
      rw [hstep] at h
      cases st with
      | proceed => exact ih h
      | needInput | entry | data _ _ | endOfEntry | endOfArchive => cases h

/-- The data of a call are a part of the input that it took. -/
theorem next_data {offset : ℤ} {bytes : Bytes} (h : Sound taken r)
    (hnext : r.next composes fuel input eof = some (.ok (used, .data offset bytes), r')) :
    bytes ≠ [] ∧ bytes <:+ input.take used ∧
      ∃ start, pollFrom composes input eof fuel 0 r =
        some (.ok (used, .data offset start bytes.length), r') := by
  obtain ⟨poll, hpoll, hevent⟩ := exists_poll_of_next hnext
  cases poll with
  | data offset' start len =>
    obtain ⟨hlen, hused, hle⟩ := pollFrom_data h (zero_le _) hpoll
    rw [Poll.event, if_pos (hused.trans_le hle)] at hevent
    cases hevent
    have hlength : ((input.drop start).take len).length = len := by
      rw [length_take, length_drop]
      omega
    refine ⟨ne_nil_of_length_pos (by omega), ⟨input.take start, ?_⟩, start, ?_⟩
    · rw [← hused, take_add]
    · rw [hlength]
      exact hpoll
  | needInput | entry | endOfEntry _ | endOfArchive => cases hevent

theorem calls_budget {events : List Event} (hcalls : Calls composes r events r') {taken : ℤ}
    (h : Sound taken r) (hentry : ∀ e, Event.entry e ∉ events) :
    ((events.map dataLen).sum : ℤ) ≤ r.budget := by
  induction hcalls generalizing taken with
  | done => exact budget_nonneg h.toCore
  | @next fuel input eof used event events r s r' hnext _ ih =>
    obtain ⟨poll, hpoll, hevent⟩ := exists_poll_of_next hnext
    obtain ⟨taken', hs⟩ := pollFrom_sound h hpoll
    have hrest := ih hs fun e he => hentry e (mem_cons_of_mem _ he)
    have hne : poll ≠ .entry := by
      rintro rfl
      subst hevent
      exact hentry _ mem_cons_self
    have hstep := pollFrom_budget h hne hpoll
    have hlen : dataLen event = pollLen poll := by
      cases event with
      | data offset bytes =>
        obtain ⟨-, -, start, hpoll'⟩ := next_data h hnext
        rw [hpoll] at hpoll'
        cases hpoll'
        rfl
      | needInput | entry _ | endOfEntry _ | endOfArchive =>
        cases poll <;> cases hevent
        all_goals rfl
    rw [map_cons, sum_cons, hlen, cast_add]
    omega
  | @failed fuel input eof error events r s r' hnext _ ih =>
    have hpoll := exists_poll_of_next_error hnext
    obtain ⟨taken', hs⟩ := pollFrom_sound h hpoll
    have hzero : s.budget = 0 := by
      rw [budget, pollFrom_error hpoll, if_neg fun h => by cases h]
    exact (ih hs hentry).trans (hzero.le.trans (budget_nonneg h.toCore))
  | @skipEntry events r r' _ ih =>
    have hzero : r.skipEntry.budget = 0 := by
      rw [Reader.skipEntry]
      split
      · rfl
      next hstate => rw [budget, if_neg hstate]
    exact (ih h.skipEntry hentry).trans (hzero.le.trans (budget_nonneg h.toCore))

/-- A call comes to its end. The bytes between the header block of one entry and the next header
block are a multiple of 512. The data that calls give of an entry, whatever they are given and
however much they skip, are pieces of what they take, and together no more than what is left of the
body of the entry, which its header gave. The path of an entry holds no NUL. -/
theorem reader_progress (hstart : Starts options s) {t : Tally} {r : Reader}
    (hrun : Run composes s (t, r)) :
    (∀ input eof, ∃ fuel out r' t', r.poll composes fuel input eof = some (out, r') ∧
      Run composes (t, r) (t', r') ∧
      ∀ used poll, out = .ok (used, poll) → t'.taken = t.taken + used) ∧
    (∀ t' r', Run composes (t, r) (t', r') → AtHeader r → AtHeader r' →
      (512 : ℤ) ∣ t'.taken - (t.taken + 512)) ∧
    (∀ fuel input eof used offset bytes r',
      r.next composes fuel input eof = some (.ok (used, .data offset bytes), r') →
      bytes ≠ [] ∧ bytes <:+ input.take used) ∧
    (r.state = .data → ∀ events r', Calls composes r events r' → (∀ e, Event.entry e ∉ events) →
      ((events.map dataLen).sum : ℤ) ≤ r.bytesRemaining ∧ r.bytesRemaining ≤ t.body) ∧
    (∀ fuel input eof used e r',
      r.next composes fuel input eof = some (.ok (used, .entry e), r') →
      r'.state = .data ∧ 0 ∉ e.path) := by
  obtain ⟨hsound, hwithin⟩ := run_sound hstart hrun
  have haligned : ∀ t' r', Run composes s (t', r') → AtHeader r' → (512 : ℤ) ∣ t'.taken := by
    intro t' r' hrun' hheader
    have hat := (run_sound hstart hrun').1.place
    simp only [At, hheader.1] at hat
    have htaken := hat.2
    rw [hheader.2, length_nil, cast_zero, sub_zero] at htaken
    exact htaken
  refine ⟨fun input eof => ?_, fun t' r' hrun' hr hr' => ?_,
    fun fuel input eof used offset bytes r' h => ?_,
    fun hstate events r' hcalls hentry => ⟨?_, ?_⟩, fun fuel input eof used e r' h => ?_⟩
  · have hcall : ∃ fuel out, pollFrom composes input eof fuel 0 r = some out :=
      ⟨_, exists_pollFrom input eof hsound (zero_le _) (lt_succ_self _)⟩
    obtain ⟨fuel, ⟨out, r'⟩, hpoll⟩ := hcall
    obtain ⟨t', hrun', htaken⟩ := pollFrom_run (t := t) hpoll
    exact ⟨_, out, r', t', hpoll, hrun', htaken⟩
  · have h := haligned t r hrun hr
    have h' := haligned t' r' (hrun.trans hrun') hr'
    exact dvd_sub h' (dvd_add h (Int.dvd_refl _))
  · obtain ⟨hne, hsuffix, -⟩ := next_data hsound h
    exact ⟨hne, hsuffix⟩
  · have hle := calls_budget hcalls hsound hentry
    rwa [budget, if_pos hstate] at hle
  · exact hwithin (by rw [hstate]; trivial)
  · obtain ⟨poll, hpoll, hevent⟩ := exists_poll_of_next h
    obtain ⟨taken', hs⟩ := pollFrom_sound hsound hpoll
    cases poll with
    | entry =>
      cases hevent
      exact ⟨pollFrom_entry hsound hpoll, hs.path⟩
    | needInput | data _ _ _ | endOfEntry _ | endOfArchive => cases hevent

/-- An archive with one file of one byte. -/
def oneFile : Bytes :=
  text "a" ++ replicate 123 0 ++ text "00000000001" ++ replicate 13 0 ++ text "001642" ++ [0] ++
    text " 0" ++ replicate 355 0 ++ [7] ++ replicate 511 0

/-- The reader behind a call. -/
def called (r : Reader) (input : Bytes) : Reader :=
  ((r.poll (fun _ => false) 9 input false).map Prod.snd).getD r

theorem called_run {input : Bytes} (t : Tally)
    (h : (r.poll (fun _ => false) 9 input false).isSome = true) :
    ∃ t', Run (fun _ => false) (t, r) (t', r.called input) := by
  obtain ⟨⟨out, r'⟩, hpoll⟩ := isSome_iff_exists.1 h
  obtain ⟨t', hrun, -⟩ := pollFrom_run (t := t) hpoll
  exact ⟨t', by rw [called, hpoll]; exact hrun⟩

/-- The readers in front of the header, of the data and behind it, at the end of the entry, and in
front of the next header. -/
def atFirst : Reader := called (.new ⟨.npm, .ascii, false⟩) []

def atData : Reader := atFirst.called oneFile

def behindData : Reader := atData.called (oneFile.drop 512)

def atEnd : Reader := behindData.called (oneFile.drop 513)

def atNext : Reader := atEnd.called []

/-- The file is read to its end. -/
theorem reader_progress_file : ∃ s t t',
    Run (fun _ => false) ({}, .new ⟨.npm, .ascii, false⟩) (s, atFirst) ∧
    Run (fun _ => false) (s, atFirst) (t, atData) ∧ Run (fun _ => false) (t, atData) (t', atNext) ∧
    (512 : ℤ) ∣ t'.taken - (s.taken + 512) ∧
    (([Event.data 0 [7], .endOfEntry 1].map dataLen).sum : ℤ) ≤ atData.bytesRemaining ∧
    atData.bytesRemaining ≤ t.body := by
  obtain ⟨s, hfirst⟩ : ∃ s, Run (fun _ => false) ({}, .new ⟨.npm, .ascii, false⟩) (s, atFirst) :=
    called_run {} (by decide +kernel)
  obtain ⟨t, hentry⟩ : ∃ t, Run (fun _ => false) (s, atFirst) (t, atData) :=
    called_run s (by decide +kernel)
  obtain ⟨u, hdata⟩ : ∃ u, Run (fun _ => false) (t, atData) (u, behindData) :=
    called_run t (by decide +kernel)
  obtain ⟨v, hend⟩ : ∃ v, Run (fun _ => false) (u, behindData) (v, atEnd) :=
    called_run u (by decide +kernel)
  obtain ⟨t', hnext⟩ : ∃ t', Run (fun _ => false) (v, atEnd) (t', atNext) :=
    called_run v (by decide +kernel)
  have hrest := hdata.trans (hend.trans hnext)
  have hread : atData.next (fun _ => false) 9 (oneFile.drop 512) false =
      some (.ok (1, .data 0 [7]), behindData) := by decide +kernel
  have hended : behindData.next (fun _ => false) 9 (oneFile.drop 513) false =
      some (.ok (511, .endOfEntry 1), atEnd) := by decide +kernel
  obtain ⟨-, haligned, -⟩ := reader_progress .new hfirst
  obtain ⟨-, -, -, hsizes, -⟩ := reader_progress .new (hfirst.trans hentry)
  exact ⟨s, t, t', hfirst, hentry, hrest,
    haligned t' _ (hentry.trans hrest) ⟨by decide +kernel, by decide +kernel⟩
      ⟨by decide +kernel, by decide +kernel⟩,
    hsizes (by decide +kernel) _ _ (.next hread (.next hended .done)) (by simp)⟩

end Reader

end Soup.Tar
