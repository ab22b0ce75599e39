import Soup.Tar.PaxSound
import Soup.Tar.Stepped

/-!
# A step keeps its place in the archive

`Sound` is an invariant of `Reader::step`: a step that took `used` bytes moves the place by as many.
-/

namespace Soup.Tar

open Lib List Nat

variable {composes : Bytes → Bool} {taken : ℤ} {r r' : Reader}

namespace Reader

/-! ## The states -/

variable {used : ℕ} {eof : Bool} {st : Step} {input : Bytes}

theorem afterSkip_sound {after : AfterSkip} (hcore : Core r) (hwhole : r.Whole)
    (hsettled : r.Settled) (haligned : match after with
      | .paxNewline _ => r.InRecord taken 0
      | _ => 512 ∣ taken) : Sound taken (r.afterSkip after).2 := by
  have haligned' : 512 ∣ taken → 512 ∣ taken - (r.block.length : ℤ) := fun h => dvd_sub h hwhole
  cases after with
  | betweenHeaders status =>
    exact ⟨{ hcore with }, hsettled, haligned' haligned⟩
  | paxNewline status =>
    exact ⟨{ hcore with }, hwhole, hsettled, ⟨haligned.newline, haligned.padding, haligned.aligned⟩⟩
  | macMetadata =>
    exact ⟨⟨hcore.bytesRemaining, hcore.padding, hcore.sparse, not_mem_nil, hcore.block⟩,
      hsettled, haligned' haligned⟩
  | sparseMap => exact Boundary.finishHeader ⟨hcore, hwhole, hsettled, haligned⟩ r.status
  | endOfEntry =>
    exact ⟨{ hcore with }, hwhole, dvd_add haligned hsettled⟩
  | nextEntry =>
    exact ⟨⟨hcore.bytesRemaining, hcore.padding, fun _ h => (not_mem_nil h).elim,
      not_mem_nil, hcore.block⟩, hsettled, haligned' haligned⟩

section

variable (h : Sound taken r)
include h

/-- The loop over the prologue of a pax record ran out. -/
theorem RanOut.sound {s : Reader} (hran : r.RanOut input used s) :
    Sound (taken + used) s ∧ s.Whole ∧ s.Settled ∧ s.InPrologue (taken + used) := by
  have hzero : Sound (taken + (0 : ℕ)) r := by rwa [cast_zero, add_zero]
  rcases hran with ⟨hstate, hloop⟩ | ⟨hstate, hloop⟩
  · obtain ⟨hsound, hs⟩ := paxLengthLoop_sound hzero hstate hloop
    have hat := hsound.place
    simp only [At, hs rfl] at hat
    exact ⟨hsound, hat⟩
  · obtain ⟨hsound, hs, -⟩ := paxKeyLoop_sound hzero hstate hloop
    have hat := hsound.place
    simp only [At, hs] at hat
    exact ⟨hsound, hat.1, hat.2.1, hat.2.2.1⟩

theorem blockWait_sound (hstate : r.state = .header ∨ r.state = .oldSparseExtension)
    (hshort : r.block.length + input.length < 512) :
    Sound (taken + input.length) { r with block := r.block ++ input } := by
  have hat := h.place
  have hplace : r.Settled ∧ 512 ∣ taken - r.block.length := by
    rcases hstate with hstate | hstate <;>
    · simp only [At, hstate] at hat
      exact hat
  have hafter : r.Settled ∧ 512 ∣ taken + input.length - (r.block ++ input).length := by
    refine ⟨hplace.1, ?_⟩
    rw [length_append]
    push_cast
    omega
  refine ⟨⟨h.bytesRemaining, h.padding, h.sparse, h.path, ?_⟩, ?_⟩
  · rw [length_append]
    omega
  · rcases hstate with hstate | hstate <;>
    · simp only [At, hstate]
      exact hafter

theorem oldSparseMore_sound {entries : Bytes} (hstate : r.state = .oldSparseExtension)
    (hentries : addOldSparseEntries { r with block := [] } entries = .ok r') :
    Sound (taken + (512 - r.block.length : ℕ)) r' := by
  have hat := h.place
  have hblock := h.block
  simp only [At, hstate] at hat
  have hboundary : Boundary (taken + (512 - r.block.length : ℕ)) r' :=
    Boundary.of_kept (r := { r with block := [] })
      ⟨{ h with block := zero_le _ }, Int.dvd_zero _, hat.1, by omega⟩
      (kept_oldSparseEntries hentries)
  refine ⟨hboundary.toCore, ?_⟩
  have hs : r'.state = .oldSparseExtension := (kept_oldSparseEntries hentries).state.trans hstate
  simp only [At, hs]
  exact ⟨hboundary.settled, dvd_sub hboundary.aligned hboundary.whole⟩

section Skip

variable {left : ℤ} {after : AfterSkip} (hstate : r.state = .skip left after)
  (htake : 0 ≤ left → used = min left.toNat input.length)
include hstate htake

theorem skipWait_sound (hmore : 0 < left - used) : Sound (taken + used)
    { r with skipped := r.skipped + used, state := .skip (left - used) after } := by
  have hat := h.place
  simp only [At, hstate] at hat
  obtain ⟨hwhole, hsettled, hleft, haligned⟩ := hat
  have htake := htake hleft
  refine ⟨{ h with }, hwhole, hsettled, hmore.le, ?_⟩
  cases after with
  | paxNewline status =>
    refine ⟨haligned.newline, haligned.padding, ?_⟩
    have := haligned.aligned
    dsimp only
    omega
  | _ =>
    omega

theorem skipped_sound (hdone : ¬0 < left - used) :
    Sound (taken + used) ({ r with skipped := 0 }.afterSkip after).2 := by
  have hat := h.place
  simp only [At, hstate] at hat
  obtain ⟨hwhole, hsettled, hleft, haligned⟩ := hat
  have hall : (used : ℤ) = left := by
    have htake := htake hleft
    omega
  rw [hall]
  refine afterSkip_sound (r := { r with skipped := 0 }) { h with } hwhole hsettled ?_
  cases after with
  | paxNewline status =>
    refine ⟨haligned.newline, haligned.padding, ?_⟩
    have := haligned.aligned
    dsimp only
    omega
  | _ => exact haligned

end Skip

theorem collectWait_sound {left : ℕ} {what : Collect}
    (hstate : r.state = .collect left what) (hmore : input.length < left) :
    Sound (taken + input.length) { r with
      collected := r.collected ++ input, state := .collect (left - input.length) what } := by
  have hat := h.place
  simp only [At, hstate] at hat
  obtain ⟨hwhole, hsettled, haligned⟩ := hat
  refine ⟨{ h with }, hwhole, hsettled, ?_⟩
  split at haligned
  next hwhat =>
    have htotal : ((r.collected ++ input).length : ℤ) + ((left - input.length : ℕ) : ℤ) =
        r.collected.length + left := by
      rw [length_append]
      omega
    rw [if_pos hwhat]
    rw [htotal]
    omega
  next hwhat =>
    rw [if_neg hwhat]
    refine ⟨haligned.newline, haligned.padding, ?_⟩
    have := haligned.aligned
    dsimp only
    omega

theorem collected_sound {left : ℕ} {what : Collect}
    (hstate : r.state = .collect left what) (hall : left ≤ input.length)
    (huse : useCollected composes { r with collected := r.collected ++ input.take left } what
      (r.collected ++ input.take left) = .ok r') : Sound (taken + left) r' := by
  have hat := h.place
  simp only [At, hstate] at hat
  obtain ⟨hwhole, hsettled, haligned⟩ := hat
  refine useCollected_sound (r := { r with collected := r.collected ++ input.take left })
    { h with } hwhole hsettled ?_ huse
  split at haligned
  next hwhat =>
    rw [if_pos hwhat, length_append, length_take, min_eq_left hall, cast_add]
    exact haligned
  next hwhat =>
    rw [if_neg hwhat]
    refine ⟨haligned.newline, haligned.padding, ?_⟩
    have := haligned.aligned
    dsimp only
    omega

theorem newline_sound {status paxStatus : Status}
    (hstate : r.state = .paxNewline status) : Sound (taken + (1 : ℕ))
      (if (0 : ℤ) < r.paxLeft - 1 then
        beginPaxLine { r with paxLinePos := 0, paxStatus, paxLeft := r.paxLeft - 1 }
      else finishPax composes { r with paxLinePos := 0, paxStatus, paxLeft := r.paxLeft - 1 }) := by
  have hat := h.place
  simp only [At, hstate] at hat
  obtain ⟨hwhole, hsettled, hnewline, hpadding, haligned⟩ := hat
  rw [add_zero] at haligned
  split
  next hmore =>
    refine ⟨{ h with }, hwhole, hsettled, ⟨le_rfl, hmore.le, hpadding, ?_⟩⟩
    change 512 ∣ taken + (1 : ℕ) + (r.paxLeft - 1 - 0) + r.paxPadding
    omega
  next =>
    refine finishPax_sound { h with } hwhole hsettled ?_ hpadding ?_
    · change 0 ≤ r.paxLeft - 1
      omega
    · change 512 ∣ taken + (1 : ℕ) + (r.paxLeft - 1) + r.paxPadding
      omega

omit h in
theorem InMap.after_line (hin : r.InMap taken) {line : Bytes} {whole : Bool}
    (hloop : sparseLineLoop (min r.sparseMapLeft sparseMapLineLimit).toNat r.line 0 input =
      .ok (used, line, whole)) : InMap (taken + used) { r with line } := by
  obtain ⟨-, hlen, hle, -⟩ := sparseLineLoop_length hloop
  obtain ⟨hline, hleft, haligned⟩ := hin
  refine ⟨?_, hleft, ?_⟩
  · dsimp only
    omega
  · dsimp only
    omega

theorem data_sound {block : SparseBlock} {len : ℤ} (hstate : r.state = .data)
    (hmem : block ∈ r.sparse)
    (hlen : len = min (min (input.length : ℤ) r.bytesRemaining) block.remaining) :
    Sound (taken + len.toNat) { r.advanceSparse with
      sparse := r.advanceSparse.sparse.set r.advanceSparse.sparseHead
        { block with remaining := block.remaining - len, offset := block.offset + len }
      bytesRemaining := r.bytesRemaining - len } := by
  have hat := h.place
  simp only [At, hstate] at hat
  obtain ⟨hwhole, haligned⟩ := hat
  have hbytes := h.bytesRemaining
  have hremaining := h.sparse block hmem
  refine ⟨⟨?_, h.padding, fun block' hblock' => ?_, h.path, h.block⟩, ?_⟩
  · dsimp only
    omega
  · rcases mem_or_eq_of_mem_set hblock' with hblock' | rfl
    · exact h.sparse block' hblock'
    · dsimp only
      omega
  · have hs : r.advanceSparse.state = .data := hstate
    simp only [At, hs]
    refine ⟨hwhole, ?_⟩
    change 512 ∣ taken + (len.toNat : ℤ) + (r.bytesRemaining - len + r.padding)
    omega

/-- The step lemma. -/
theorem step_sound (hstep : r.step composes input eof = .ok (used, st, r')) :
    Sound (taken + used) r' := by
  have hat := h.place
  have hblock := h.block
  cases step_cases hblock hstep with
  | done => rwa [cast_zero, add_zero]
  | nextEntry hstate =>
    simp only [At, hstate] at hat
    rw [cast_zero, add_zero]
    exact ⟨⟨le_rfl, le_rfl, h.sparse, h.path, h.block⟩, hat.1, Int.dvd_zero _,
      add_nonneg h.bytesRemaining h.padding, hat.2⟩
  | blockWait hstate hshort => exact blockWait_sound h hstate hshort
  | header hstate hfull htake hon =>
    simp only [At, hstate] at hat
    refine Boundary.onHeader (r := { r with block := [] })
      ⟨{ h with block := zero_le _ }, Int.dvd_zero _, hat.1, ?_⟩ hstate hon
    omega
  | headerEnd => exact ⟨{ h with block := zero_le _ }, trivial⟩
  | oldSparseMore hstate hfull hentries => exact oldSparseMore_sound h hstate hentries
  | oldSparseLast hstate hfull hentries hcommon =>
    simp only [At, hstate] at hat
    refine Boundary.headerCommon (Boundary.of_kept (r := { r with block := [] })
      ⟨{ h with block := zero_le _ }, Int.dvd_zero _, hat.1, ?_⟩
      (kept_oldSparseEntries hentries)) hcommon
    omega
  | skipWait hstate htake hmore => exact skipWait_sound h hstate htake hmore
  | skipped hstate htake hdone => exact skipped_sound h hstate htake hdone
  | collectWait hstate hmore => exact collectWait_sound h hstate hmore
  | collected hstate hall huse => exact collected_sound h hstate hall huse
  | paxLength hstate hloop =>
    exact (paxLengthLoop_sound (by rwa [cast_zero, add_zero]) hstate hloop).1
  | prologueEnd hran =>
    obtain ⟨hsound, hwhole, hsettled, hin⟩ := RanOut.sound h hran
    exact hin.skipRest hsound.toCore hwhole hsettled .warn
  | prologueWait hran => exact (RanOut.sound h hran).1
  | paxKey hstate hloop hkey =>
    obtain ⟨⟨hcore, hat⟩, hs, hpos⟩ :=
      paxKeyLoop_sound (by rwa [cast_zero, add_zero]) hstate hloop
    simp only [At, hs] at hat
    obtain ⟨hwhole, hsettled, hin, hlength⟩ := hat
    exact onPaxKey_sound hcore hwhole hsettled hin hlength (hpos rfl) hkey
  | paxNoKey hstate hloop =>
    obtain ⟨⟨hcore, hat⟩, hs, -⟩ :=
      paxKeyLoop_sound (by rwa [cast_zero, add_zero]) hstate hloop
    simp only [At, hs] at hat
    exact hat.2.2.1.skipRest hcore hat.1 hat.2.1 .warn
  | @newlineIgnored status paxStatus after hstate =>
    simp only [At, hstate] at hat
    obtain ⟨hwhole, hsettled, hnewline, hpadding, haligned⟩ := hat
    rw [cast_zero, add_zero]
    refine sound_skipRestOfPax (r := { r with paxLinePos := 0, paxStatus })
      { h with } hwhole hsettled (le_trans zero_le_one hnewline) hpadding ?_ after
    rw [sub_zero]
    rwa [add_zero] at haligned
  | newlineWait hstate =>
    refine ⟨{ h with }, ?_⟩
    rw [cast_zero, add_zero]
    simp only [At, hstate] at hat ⊢
    exact ⟨hat.1, hat.2.1, ⟨hat.2.2.newline, hat.2.2.padding, hat.2.2.aligned⟩⟩
  | newline hstate => exact newline_sound h hstate
  | @sparseLine field used line r' hstate hloop hon =>
    simp only [At, hstate] at hat
    exact (hat.2.2.after_line hloop).onSparseMapLine { h with } hat.1 hat.2.1 hstate hon
  | sparseLineWait hstate hloop =>
    refine ⟨{ h with }, ?_⟩
    simp only [At, hstate] at hat ⊢
    have hin := hat.2.2.after_line hloop
    exact ⟨hat.1, hat.2.1, ⟨hin.line, hin.left_le, hin.aligned⟩⟩
  | emit hstate =>
    simp only [At, hstate] at hat
    rw [cast_zero, add_zero]
    exact ⟨{ h with }, hat⟩
  | dataEnd hstate =>
    simp only [At, hstate] at hat
    rw [cast_zero, add_zero]
    exact ⟨⟨le_rfl, le_rfl, h.sparse, h.path, h.block⟩, hat.1, Int.dvd_zero _,
      add_nonneg h.bytesRemaining h.padding, hat.2⟩
  | dataWait hstate =>
    refine ⟨{ h with }, ?_⟩
    rw [cast_zero, add_zero]
    have hs : r.advanceSparse.state = .data := hstate
    simp only [At, hstate] at hat
    simp only [At, hs]
    exact hat
  | data hstate hbytes hnext hinput hlen => exact data_sound h hstate (mem_of_getElem? hnext) hlen
  | drain hstate =>
    refine ⟨{ h with }, ?_⟩
    simp only [At, hstate]
  | drained => exact ⟨{ h with }, trivial⟩

end

end Reader

end Soup.Tar
