import Mathlib.Algebra.Ring.Divisibility.Basic
import Mathlib.Data.List.TakeWhile
import Soup.Tar.Kept

/-!
# Where the reader stands in the archive

`Sound taken r` says of a reader that took `taken` bytes of the archive what holds in each of its
states: the sizes that it counts down are not negative, and what it still owes to the state brings
it to a multiple of 512 bytes, where the next header is. `step_sound` is the step lemma.
-/

namespace Soup.Tar

open Lib List

variable {composes : Bytes → Bool} {taken : ℤ} {r r' : Reader}

theorem zero_notMem_sliceToNul (buf : Bytes) : 0 ∉ sliceToNul buf := by
  intro h
  rw [sliceToNul] at h
  exact absurd (mem_takeWhile_imp h) (by simp)

theorem paddingFor_nonneg (size : ℤ) : 0 ≤ paddingFor size := by
  rw [paddingFor]
  omega

theorem dvd_add_paddingFor (size : ℤ) : 512 ∣ size + paddingFor size := by
  rw [paddingFor]
  omega

namespace Reader

/-- What holds in every state. -/
structure Core (r : Reader) : Prop where
  bytesRemaining : 0 ≤ r.bytesRemaining
  padding : 0 ≤ r.padding
  sparse : SparseFits r.sparse
  path : 0 ∉ r.entry.path
  block : r.block.length ≤ 512

/-- The body that the reader counts fills its last block up. -/
def Settled (r : Reader) : Prop := 512 ∣ r.bytesRemaining + r.padding

/-- No part of a header is kept. -/
def Whole (r : Reader) : Prop := (512 : ℤ) ∣ r.block.length

/-- Inside the body of a pax header, in a record with `left` bytes to come in front of its newline.
-/
structure InRecord (taken : ℤ) (r : Reader) (left : ℤ) : Prop where
  newline : 1 ≤ r.paxLeft
  padding : 0 ≤ r.paxPadding
  aligned : 512 ∣ taken + left + r.paxLeft + r.paxPadding

/-- In front of the value of a record, or in the length that precedes it. -/
structure InPrologue (taken : ℤ) (r : Reader) : Prop where
  pos : 0 ≤ r.paxLinePos
  pos_le : r.paxLinePos ≤ r.paxLeft
  padding : 0 ≤ r.paxPadding
  aligned : 512 ∣ taken + (r.paxLeft - r.paxLinePos) + r.paxPadding

/-- In the sparse map in front of the data, which is a part of the body. -/
structure InMap (taken : ℤ) (r : Reader) : Prop where
  line : (r.line.length : ℤ) ≤ r.sparseMapLeft
  left_le : r.sparseMapLeft ≤ r.bytesRemaining
  aligned : 512 ∣ taken + (r.sparseMapLeft - r.line.length) + r.padding

/-- What holds in the state that the reader is in. -/
def At (taken : ℤ) (r : Reader) : Prop :=
  match r.state with
  | .nextEntry | .emit | .data => r.Whole ∧ 512 ∣ taken + (r.bytesRemaining + r.padding)
  | .header | .oldSparseExtension => r.Settled ∧ 512 ∣ taken - r.block.length
  | .skip left after => r.Whole ∧ r.Settled ∧ 0 ≤ left ∧
    match after with
    | .paxNewline _ => r.InRecord taken left
    | _ => 512 ∣ taken + left
  | .collect left what => r.Whole ∧ r.Settled ∧
    if what = .longName ∨ what = .longLink then
      512 ∣ taken + left + paddingFor (r.collected.length + left)
    else r.InRecord taken left
  | .paxLength => r.Whole ∧ r.Settled ∧ r.InPrologue taken
  | .paxKey => r.Whole ∧ r.Settled ∧ r.InPrologue taken ∧ r.paxLineLength ≤ r.paxLeft
  | .paxNewline _ => r.Whole ∧ r.Settled ∧ r.InRecord taken 0
  | .sparseMapLine _ => r.Whole ∧ r.Settled ∧ r.InMap taken
  | .drain | .done | .failed _ => True

/-- What holds of a reader that took `taken` bytes. -/
structure Sound (taken : ℤ) (r : Reader) : Prop extends Core r where
  place : r.At taken

theorem sound_new (options : Options) : Sound 0 (new options) :=
  ⟨⟨le_rfl, le_rfl, fun _ h => (not_mem_nil h).elim, not_mem_nil, Nat.zero_le _⟩,
    Int.dvd_zero _, Int.dvd_zero _⟩

theorem Sound.fail (h : Sound taken r) (error : Error) : Sound taken (r.fail error) :=
  ⟨{ h with }, trivial⟩

/-- At the end of a header block, with everything of the blocks before it behind. -/
structure Boundary (taken : ℤ) (r : Reader) : Prop extends Core r where
  whole : r.Whole
  settled : r.Settled
  aligned : 512 ∣ taken

/-! ## Headers -/

theorem Boundary.skipBody (h : Boundary taken r) {size : ℤ} (hsize : 0 ≤ size) (status : Status) :
    Sound taken (r.skipBody size status) := by
  have hpad := paddingFor_nonneg size
  exact ⟨{ h with }, h.whole, h.settled, by omega,
    (dvd_add h.aligned (dvd_add_paddingFor size))⟩

theorem Boundary.onSpecialHeader (h : Boundary taken r) {flag : UInt8} {size : ℤ}
    (hspecial : r.onSpecialHeader flag size = .ok r') : Sound taken r' := by
  obtain ⟨seen, status, format, hbody⟩ := onSpecialHeader_cases _ hspecial
  have h : Boundary taken { r with seen, status, format } :=
    ⟨{ h with }, h.whole, h.settled, h.aligned⟩
  have hdvd := dvd_add_paddingFor size
  have htaken := h.aligned
  cases hbody with
  | skip status hsize => exact h.skipBody hsize status
  | collect what hsize hwhat =>
    have haligned : 512 ∣ taken + (size.toNat : ℤ) + paddingFor ((0 : ℕ) + (size.toNat : ℤ)) := by
      rw [Int.toNat_of_nonneg hsize]
      simp only [Int.natCast_zero, zero_add]
      omega
    refine ⟨{ h with }, h.whole, h.settled, ?_⟩
    rw [if_pos hwhat]
    exact haligned
  | pax hsize =>
    have haligned : 512 ∣ taken + (size - 0) + paddingFor size := by
      omega
    exact ⟨{ h with }, h.whole, h.settled, le_rfl, hsize, paddingFor_nonneg size, haligned⟩

/-! ## The entry's own header -/

theorem ensureSparse_fields (r : Reader) : r.ensureSparse.block = r.block ∧
    r.ensureSparse.entry = r.entry ∧ r.ensureSparse.bytesRemaining = r.bytesRemaining ∧
    r.ensureSparse.padding = r.padding := by
  rw [ensureSparse]
  split <;> exact ⟨rfl, rfl, rfl, rfl⟩

/-- A directory has no body, and other entries keep theirs. -/
theorem makeDirectory_fields (r : Reader) (status : Status) :
    (r.makeDirectory status).block = r.block ∧ (r.makeDirectory status).sparse = r.sparse ∧
    (r.makeDirectory status).entry.path = r.entry.path ∧
    ((r.makeDirectory status).bytesRemaining = r.bytesRemaining ∧
        (r.makeDirectory status).padding = r.padding ∨
      (r.makeDirectory status).bytesRemaining = 0 ∧ (r.makeDirectory status).padding = 0) := by
  rw [makeDirectory]
  generalize (if r.isNpm then r.plainFile else decide (status = .ok)) = mayBeDirectory
  split
  · exact ⟨rfl, rfl, rfl, .inr ⟨rfl, rfl⟩⟩
  · exact ⟨rfl, rfl, rfl, .inl ⟨rfl, rfl⟩⟩

theorem refuseFile_fields (r : Reader) : r.refuseFile.block = r.block ∧
    r.refuseFile.sparse = r.sparse ∧ r.refuseFile.entry.path = r.entry.path ∧
    r.refuseFile.bytesRemaining = r.bytesRemaining ∧ r.refuseFile.padding = r.padding := by
  rw [refuseFile]
  split <;> exact ⟨rfl, rfl, rfl, rfl, rfl⟩

theorem finishHeader_block (r : Reader) (status : Status) :
    (r.finishHeader status).block = r.block :=
  (refuseFile_fields _).1.trans ((makeDirectory_fields _ status).1.trans (ensureSparse_fields r).1)

theorem finishHeader_path (r : Reader) (status : Status) :
    (r.finishHeader status).entry.path = r.entry.path :=
  (refuseFile_fields _).2.2.1.trans ((makeDirectory_fields _ status).2.2.1.trans
    (congrArg Entry.path (ensureSparse_fields r).2.1))

theorem finishHeader_sparse (r : Reader) (status : Status) :
    (r.finishHeader status).sparse = r.ensureSparse.sparse :=
  (refuseFile_fields _).2.1.trans (makeDirectory_fields _ status).2.1

theorem finishHeader_body (r : Reader) (status : Status) :
    (r.finishHeader status).bytesRemaining = r.bytesRemaining ∧
        (r.finishHeader status).padding = r.padding ∨
      (r.finishHeader status).bytesRemaining = 0 ∧ (r.finishHeader status).padding = 0 := by
  obtain ⟨-, -, hbytes, hpadding⟩ := ensureSparse_fields r
  obtain ⟨-, -, -, hbytes', hpadding'⟩ := refuseFile_fields (r.ensureSparse.makeDirectory status)
  have hbody := (makeDirectory_fields r.ensureSparse status).2.2.2
  rw [hbytes, hpadding] at hbody
  rw [← hbytes', ← hpadding'] at hbody
  exact hbody

/-- The header is done with: what is owed now is the body. -/
theorem Boundary.finishHeader (h : Boundary taken r) (status : Status) :
    Sound taken (r.finishHeader status) := by
  have hbytes := h.bytesRemaining
  have hpadding := h.padding
  have hbody := finishHeader_body r status
  refine ⟨⟨by omega, by omega, ?_, ?_, ?_⟩, ?_, ?_⟩
  · rw [finishHeader_sparse, ensureSparse]
    split
    · exact (kept_addSparseBlock r 0 r.bytesRemaining false).sparse h.sparse
    · exact h.sparse
  · rw [finishHeader_path]
    exact h.path
  · rw [finishHeader_block]
    exact h.block
  · rw [Whole, finishHeader_block]
    exact h.whole
  · have hsettled := h.settled
    have htaken := h.aligned
    rw [Settled] at hsettled
    rcases hbody with ⟨hb, hp⟩ | ⟨hb, hp⟩
    · rw [hb, hp]
      exact dvd_add htaken hsettled
    · rw [hb, hp]
      omega

theorem Boundary.afterMainHeader (h : Boundary taken r) (hsize : 0 ≤ r.entry.size)
    (hafter : r.afterMainHeader = .ok r') : Sound taken r' := by
  rw [Reader.afterMainHeader] at hafter
  split at hafter
  · cases hafter
  split at hafter
  · dsimp only at hafter
    split at hafter
    · cases hafter
    · cases hafter
      have hpad := paddingFor_nonneg r.entry.size
      exact ⟨{ h with }, h.whole, h.settled, by omega,
        dvd_add h.aligned (dvd_add_paddingFor r.entry.size)⟩
  split at hafter
  · split at hafter
    · cases hafter
      exact h.finishHeader .warn
    split at hafter
    · cases hafter
      exact h.finishHeader r.status
    split at hafter
    · cases hafter
      have hsettled := h.settled
      have htaken := h.aligned
      have halign : 512 ∣ taken + (r.bytesRemaining - ((0 : ℕ) : ℤ)) + r.padding := by
        rw [Settled] at hsettled
        omega
      exact ⟨⟨h.bytesRemaining, h.padding, fun _ h => (not_mem_nil h).elim, h.path, h.block⟩,
        h.whole, h.settled, ⟨h.bytesRemaining, le_rfl, halign⟩⟩
    · cases hafter
      exact h.finishHeader .warn
  · cases hafter
    exact h.finishHeader r.status

/-- What an entry's type changes: the size of its body, if anything, to nothing. -/
structure Typed (r s : Reader) : Prop where
  block : s.block = r.block
  sparse : s.sparse = r.sparse
  path : s.entry.path = r.entry.path
  bytesRemaining : s.bytesRemaining = r.bytesRemaining ∨ s.bytesRemaining = 0
  size : s.entry.size = r.entry.size ∨ s.entry.size = 0

theorem typed_ite {p : Prop} [Decidable p] {s s' : Reader} (h : Typed r s) (h' : Typed r s') :
    Typed r (if p then s else s') := by
  split
  · exact h
  · exact h'

theorem applyTypeflag_fields (r : Reader) (h : Block) : Typed r (r.applyTypeflag h) := by
  have hnone : ∀ {s : Reader} mode, Typed r s → Typed r (s.noBody mode) := fun _ hs =>
    ⟨hs.block, hs.sparse, hs.path, .inr rfl, .inr rfl⟩
  have hsame : Typed r r := ⟨rfl, rfl, rfl, .inl rfl, .inl rfl⟩
  refine typed_ite (typed_ite (typed_ite ?_ ?_) hsame) <| typed_ite (hnone _ ?_) <|
    typed_ite (hnone _ hsame) <| typed_ite (hnone _ hsame) <| typed_ite (hnone _ hsame) <|
    typed_ite (hnone _ hsame) <| typed_ite ?_ <| typed_ite hsame ?_
  · exact ⟨rfl, rfl, rfl, .inr rfl, .inr rfl⟩
  all_goals exact ⟨rfl, rfl, rfl, .inl rfl, .inl rfl⟩

variable {header : Block}

/-- `header_common` goes on with the sizes of the header, and the bytes behind the body. -/
theorem headerCommon_spec (h : r.headerCommon header = .ok r') :
    ∃ s : Reader, s.block = r.block ∧ s.sparse = r.sparse ∧ s.entry.path = r.entry.path ∧
      0 ≤ s.bytesRemaining ∧ s.bytesRemaining ≤ r.bodySizeOf (Header.size header) ∧
        0 ≤ s.entry.size ∧
      s.padding = paddingFor s.bytesRemaining ∧ s.afterMainHeader = .ok r' := by
  rw [Reader.headerCommon] at h
  split at h
  · cases h
  next hdisk =>
  split at h
  · cases h
  split at h
  · cases h
  next hbytes =>
  split at h
  · cases h
  refine ⟨_, ?_, ?_, ?_, ?_, ?_, ?_, rfl, h⟩
  all_goals
    dsimp only
    obtain ⟨hblock, hsparse, hpath, hbody, hsize⟩ := applyTypeflag_fields { r with
      entry := { r.entry with
        mode := UInt32.ofInt (Header.mode header)
        mtime := r.entry.mtime.or (some (Header.mtime header))
        size := r.diskSizeOf (Header.size header) }
      diskSize := r.diskSizeOf (Header.size header)
      bytesRemaining := r.bodySizeOf (Header.size header)
      typeflag := Header.typeflag header } header
    first | assumption | (dsimp only at hbody hsize; omega)

theorem Boundary.headerCommon (h : Boundary taken r)
    (hcommon : r.headerCommon header = .ok r') : Sound taken r' := by
  obtain ⟨s, hblock, hsparse, hpath, hbytes, -, hsize, hpadding, hafter⟩ :=
    headerCommon_spec hcommon
  have hcore : Core s := by
    refine ⟨hbytes, hpadding ▸ paddingFor_nonneg _, ?_, ?_, ?_⟩
    · rw [hsparse]
      exact h.sparse
    · rw [hpath]
      exact h.path
    · rw [hblock]
      exact h.block
  have hwhole : s.Whole := by
    rw [Whole, hblock]
    exact h.whole
  have hsettled : s.Settled := by
    rw [Settled, hpadding]
    exact dvd_add_paddingFor _
  have hboundary : Boundary taken s := ⟨hcore, hwhole, hsettled, h.aligned⟩
  exact hboundary.afterMainHeader hsize hafter

theorem Core.of_kept (h : Core r) (hkept : Kept r r') : Core r' where
  bytesRemaining := hkept.bytesRemaining ▸ h.bytesRemaining
  padding := hkept.padding ▸ h.padding
  sparse := hkept.sparse h.sparse
  path := hkept.path ▸ h.path
  block := hkept.block ▸ h.block

theorem Boundary.of_kept (h : Boundary taken r) (hkept : Kept r r') : Boundary taken r' where
  toCore := h.toCore.of_kept hkept
  whole := by
    rw [Whole, hkept.block]
    exact h.whole
  settled := by
    rw [Settled, hkept.bytesRemaining, hkept.padding]
    exact h.settled
  aligned := h.aligned

theorem Boundary.takePath (h : Boundary taken r) {path : Bytes} (hpath : 0 ∉ path) :
    Boundary taken (r.takePath path) := by
  rw [Reader.takePath]
  split
  · exact ⟨⟨h.bytesRemaining, h.padding, h.sparse, hpath, h.block⟩, h.whole, h.settled, h.aligned⟩
  · exact h

theorem zero_notMem_ustarPath (h : Block) : 0 ∉ ustarPath h := by
  rw [ustarPath]
  intro hmem
  rcases mem_append.1 hmem with hmem | hmem
  · rcases mem_append.1 hmem with hmem | hmem
    · exact zero_notMem_sliceToNul _ hmem
    · split at hmem
      · exact absurd (mem_singleton.1 hmem) (by decide)
      · exact not_mem_nil hmem
  · exact zero_notMem_sliceToNul _ hmem

theorem Boundary.onMainHeader (h : Boundary taken r)
    (hmain : r.onMainHeader header = .ok r') : Sound taken r' := by
  have hformat : ∀ format : Format, Boundary taken { r with format } := fun _ =>
    ⟨{ h with }, h.whole, h.settled, h.aligned⟩
  rw [Reader.onMainHeader] at hmain
  dsimp only at hmain
  split at hmain
  · have hgnu := (hformat .gnu).takePath (zero_notMem_sliceToNul (Header.name header))
    generalize ({ r with format := .gnu } : Reader).takePath (sliceToNul (Header.name header)) = s
      at hmain hgnu
    split at hmain
    · exact hgnu.headerCommon hmain
    have hreal : Boundary taken (if (Header.gnuRealSize header).head? ≠ some 0 then
        { s with
          gnuSparseRealSize := parseField (Header.gnuRealSize header)
          sizeFields := s.sizeFields ||| SizeField.gnuSparseRealsize } else s) := by
      split
      · exact ⟨⟨hgnu.bytesRemaining, hgnu.padding, hgnu.sparse, hgnu.path, hgnu.block⟩, hgnu.whole,
          hgnu.settled, hgnu.aligned⟩
      · exact hgnu
    generalize (if (Header.gnuRealSize header).head? ≠ some 0 then
        { s with
          gnuSparseRealSize := parseField (Header.gnuRealSize header)
          sizeFields := s.sizeFields ||| SizeField.gnuSparseRealsize } else s) = t at hmain hreal
    split at hmain
    · obtain ⟨u, hentries, hmain⟩ := bind_eq_ok hmain
      have hu := hreal.of_kept (kept_oldSparseEntries hentries)
      split at hmain
      · cases hmain
        exact ⟨⟨hu.bytesRemaining, hu.padding, hu.sparse, hu.path, hu.block⟩, hu.settled,
          dvd_sub hu.aligned hu.whole⟩
      · exact hu.headerCommon hmain
    · exact hreal.headerCommon hmain
  split at hmain
  · exact ((hformat _).takePath (zero_notMem_ustarPath header)).headerCommon hmain
  · exact ((hformat .old).takePath (zero_notMem_sliceToNul _)).headerCommon hmain

theorem Boundary.onHeader (h : Boundary taken r) (hstate : r.state = .header) {block : Block}
    (hon : r.onHeader block = .ok r') : Sound taken r' := by
  have haligned : 512 ∣ taken - (r.block.length : ℤ) := dvd_sub h.aligned h.whole
  rw [Reader.onHeader] at hon
  split at hon
  · split at hon
    · cases hon
      refine ⟨{ h with }, ?_⟩
      by_cases htwo : r.nullBlocks + 1 = 2
      · simp only [At, if_pos htwo]
      · simp only [At, if_neg htwo, hstate]
        exact ⟨h.settled, haligned⟩
    · cases hon
      refine ⟨h.toCore, ?_⟩
      simp only [At, hstate]
      exact ⟨h.settled, haligned⟩
  have hnull : Boundary taken { r with nullBlocks := 0 } :=
    ⟨{ h with }, h.whole, h.settled, h.aligned⟩
  dsimp only at hon
  split at hon
  · split at hon
    · cases hon
    · cases hon
      exact ⟨{ h with }, h.whole, dvd_add h.aligned h.settled⟩
  split at hon
  · exact hnull.onSpecialHeader hon
  · exact hnull.onMainHeader hon

/-! ## The sparse map in front of the data -/

theorem InMap.finishSparseMap (h : r.InMap taken) (hcore : Core r) (hwhole : r.Whole)
    (hsettled : r.Settled) (hline : r.line = []) (hfinish : r.finishSparseMap = .ok r') :
    Sound taken r' := by
  rw [Reader.finishSparseMap] at hfinish
  split at hfinish
  · cases hfinish
  next hfits =>
    cases hfinish
    obtain ⟨hleft, hle, haligned⟩ := h
    have hdvd := dvd_add_paddingFor (r.bytesRemaining - r.sparseMapLeft)
    rw [hline, length_nil] at haligned
    rw [Settled] at hsettled
    have hsettled' : 512 ∣ r.bytesRemaining - (r.bytesRemaining - r.sparseMapLeft +
        paddingFor (r.bytesRemaining - r.sparseMapLeft)) + r.padding := by omega
    have haligned' : 512 ∣ taken + paddingFor (r.bytesRemaining - r.sparseMapLeft) := by omega
    refine ⟨⟨?_, hcore.padding, hcore.sparse, hcore.path, hcore.block⟩, hwhole, hsettled',
      paddingFor_nonneg _, haligned'⟩
    dsimp only
    omega

theorem InMap.nextSparseMapLine (h : r.InMap taken) (hcore : Core r) (hwhole : r.Whole)
    (hsettled : r.Settled) (hline : r.line = []) (hnext : r.nextSparseMapLine = .ok r') :
    Sound taken r' := by
  rw [Reader.nextSparseMapLine] at hnext
  split at hnext
  · cases hnext
    exact ⟨{ hcore with }, hwhole, hsettled, ⟨h.line, h.left_le, h.aligned⟩⟩
  · exact h.finishSparseMap hcore hwhole hsettled hline hnext

theorem InMap.onSparseMapLine (h : r.InMap taken) (hcore : Core r) (hwhole : r.Whole)
    (hsettled : r.Settled) {field : SparseMapField} (hstate : r.state = .sparseMapLine field)
    (hon : r.onSparseMapLine field = .ok r') : Sound taken r' := by
  rw [Reader.onSparseMapLine] at hon
  generalize hs :
    ({ r with sparseMapLeft := r.sparseMapLeft - r.line.length, line := [] } : Reader) = s
    at hon
  have hmap : s.InMap taken ∧ Core s ∧ s.Whole ∧ s.Settled ∧ s.line = [] ∧ s.state = r.state := by
    subst hs
    refine ⟨⟨?_, ?_, ?_⟩, { hcore with }, hwhole, hsettled, rfl, rfl⟩
    · have hline := h.line
      dsimp only [length_nil]
      omega
    · have hle := h.left_le
      dsimp only
      omega
    · have haligned := h.aligned
      dsimp only [length_nil]
      rw [Int.natCast_zero, sub_zero]
      exact haligned
  clear hs
  obtain ⟨hmap, hcore, hwhole, hsettled, hline, hstate'⟩ := hmap
  rw [hstate] at hstate'
  split at hon
  · cases hon
    refine ⟨hcore, ?_⟩
    simp only [At, hstate']
    exact ⟨hwhole, hsettled, hmap⟩
  dsimp only at hon
  generalize (if r.line.getLast? = some (b '\n') then r.line.dropLast else r.line) = digits at hon
  split at hon
  · cases hon
  cases field with
  | count =>
    refine InMap.nextSparseMapLine (r := { s with sparseMapEntries := parseDecimal digits })
      ⟨hmap.line, hmap.left_le, hmap.aligned⟩
      { hcore with } hwhole hsettled
      hline hon
  | offset =>
    cases hon
    exact ⟨{ hcore with }, hwhole, hsettled, ⟨hmap.line, hmap.left_le, hmap.aligned⟩⟩
  | size =>
    dsimp only at hon
    split at hon
    · refine InMap.nextSparseMapLine (r := s.addSparseBlock _ _ _)
        ⟨hmap.line, hmap.left_le, hmap.aligned⟩
        (hcore.of_kept (kept_addSparseBlock s _ _ _)) hwhole hsettled hline hon
    · cases hon

end Reader

end Soup.Tar
