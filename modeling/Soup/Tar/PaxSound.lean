import Soup.Tar.Sound

/-!
# Where the reader stands inside a pax header

The records of a pax header count its body down, whatever they say: in front of a value, in it and
behind it.
-/

namespace Soup.Tar

open Lib List

variable {composes : Bytes → Bool} {taken : ℤ} {r r' : Reader}

namespace Reader

/-! ## Pax headers -/

/-- The rest of a pax header is passed over. -/
theorem sound_skipRestOfPax (hcore : Core r) (hwhole : r.Whole) (hsettled : r.Settled)
    (hpos : r.paxLinePos ≤ r.paxLeft) (hpadding : 0 ≤ r.paxPadding)
    (haligned : 512 ∣ taken + (r.paxLeft - r.paxLinePos) + r.paxPadding) (status : Status) :
    Sound taken (r.skipRestOfPax status) := by
  refine ⟨{ hcore with }, hwhole, hsettled, ?_, ?_⟩
  · omega
  · rw [← add_assoc]
    exact haligned

/-- What collects a GNU header for long names. -/
def LongCollect (what : Collect) : Prop := what = .longName ∨ what = .longLink

/-- The value of a record is not taken for a GNU header. -/
def PaxOnly (value : Value) : Prop := ∀ what, value = .collect what → ¬ LongCollect what

theorem paxOnly_skip (status : Status) : PaxOnly (.skip status) := fun _ h => by cases h

variable {value : Value}

theorem paxOnly_ite {p : Prop} [Decidable p] {value' : Value} (h : PaxOnly value)
    (h' : PaxOnly value') : PaxOnly (if p then value else value') := by
  split
  · exact h
  · exact h'

theorem paxOnly_number (which : Number) : PaxOnly (.collect (.number which)) := by
  rintro _ ⟨⟩ (h | h) <;> cases h

theorem paxOnly_text (which : PaxText) : PaxOnly (.collect (.paxText which)) := by
  rintro _ ⟨⟩ (h | h) <;> cases h

variable {length : ℤ}

theorem paxOnly_numberValue {which : Number} (h : numberValue length which = .ok value) :
    PaxOnly value := by
  rw [numberValue] at h
  split at h
  · cases h
  · cases h
    exact paxOnly_number which

theorem paxOnly_timeValue {isMtime : Bool} (h : timeValue length isMtime = .ok value) :
    PaxOnly value := by
  rw [timeValue] at h
  split at h
  · cases h
  · cases h
    rintro _ ⟨⟩ (h | h) <;> cases h

theorem paxOnly_plainValue (key : Bytes) (keyLen : ℕ) (length : ℤ) (value : Value) :
    plainValue key keyLen length = .ok value → PaxOnly value := by
  have hcollect : ∀ what : Collect, ¬ LongCollect what → PaxOnly (.collect what) := by
    rintro what hwhat _ ⟨⟩
    exact hwhat
  have hok : ∀ {chosen : Value}, PaxOnly chosen →
      ∀ value, (Except.ok chosen : Except Error Value) = .ok value → PaxOnly value := by
    rintro chosen hchosen _ ⟨⟩
    exact hchosen
  revert value
  dsimp only [plainValue]
  refine ok_ite (fun _ => paxOnly_timeValue) (ok_ite (hok ?_) (ok_ite (hok ?_) (ok_ite
    (fun _ => paxOnly_numberValue) (ok_ite (hok ?_) (ok_ite (fun _ => paxOnly_numberValue) (ok_ite
    (hok ?_) (ok_ite (hok ?_) (ok_ite (hok ?_) (ok_ite (hok ?_) (ok_ite (hok ?_) (ok_ite
    (fun _ => paxOnly_timeValue) (ok_ite (fun _ => paxOnly_numberValue) (hok ?_)))))))))))))
  · exact paxOnly_ite (hcollect _ (by rintro (h | h) <;> cases h)) (paxOnly_skip _)
  · exact paxOnly_skip _
  · exact paxOnly_skip _
  · exact paxOnly_skip _
  · exact paxOnly_ite (hcollect _ (by rintro (h | h) <;> cases h)) (paxOnly_skip _)
  · exact paxOnly_ite (paxOnly_skip _) (paxOnly_ite (paxOnly_text _) (paxOnly_text _))
  · exact paxOnly_ite (hcollect _ (by rintro (h | h) <;> cases h)) (paxOnly_skip _)
  · exact paxOnly_ite (paxOnly_skip _) (paxOnly_ite (paxOnly_text _) (paxOnly_text _))
  · exact paxOnly_skip _

variable {whole : Bool}

theorem paxOnly_sparseValue {sparse : Bytes}
    (h : r.sparseValue sparse whole length = .ok (r', value)) : PaxOnly value := by
  obtain ⟨which, hvalue⟩ | ⟨status, rfl⟩ | rfl | rfl := (sparseValue_cases _ h).2
  · exact paxOnly_numberValue hvalue
  · exact paxOnly_skip _
  · rintro _ ⟨⟩ (h | h) <;> cases h
  · exact paxOnly_text _

/-- A record of a pax header is none of the GNU headers for long names. -/
theorem paxOnly_paxValue (h : r.paxValue length = .ok (r', value)) : PaxOnly value := by
  rw [paxValue] at h
  split at h
  · cases h
    exact paxOnly_skip _
  · split at h
    · exact paxOnly_sparseValue h
    · obtain ⟨value', hvalue, hmap⟩ := map_eq_ok h
      cases hmap
      exact paxOnly_plainValue _ _ _ _ hvalue

theorem onPaxKey_sound (hcore : Core r) (hwhole : r.Whole) (hsettled : r.Settled)
    (hin : r.InPrologue taken) (hlength : r.paxLineLength ≤ r.paxLeft)
    (hpos : r.paxLinePos ≤ r.paxLineLength) (hkey : r.onPaxKey = .ok r') : Sound taken r' := by
  obtain ⟨-, hle, hpadding, haligned⟩ := hin
  rw [onPaxKey] at hkey
  split at hkey
  · cases hkey
    refine sound_skipRestOfPax (r := { r with
        paxLeft := r.paxLeft - r.paxLinePos, paxLinePos := 0 })
      { hcore with } hwhole hsettled
      ?_ hpadding ?_ .warn
    · dsimp only
      omega
    · dsimp only
      rw [sub_zero]
      exact haligned
  next hnewline =>
    dsimp only at hkey
    generalize hs : ({ r with
      paxLeft := r.paxLeft - r.paxLinePos - (r.paxLineLength - r.paxLinePos - 1)
      paxLinePos := 0 } : Reader) = s at hkey
    have hfacts : Core s ∧ s.Whole ∧ s.Settled ∧
        s.InRecord taken (r.paxLineLength - r.paxLinePos - 1) := by
      subst hs
      refine ⟨{ hcore with }, hwhole, hsettled, ⟨?_, hpadding, ?_⟩⟩
      · dsimp only
        omega
      · dsimp only
        omega
    obtain ⟨hcore, hwhole, hsettled, hin⟩ := hfacts
    obtain ⟨⟨t, value⟩, hvalue, hkey⟩ := map_eq_ok hkey
    have hkept := kept_paxValue hvalue
    have hcore := hcore.of_kept hkept
    have hwhole : t.Whole := by
      rw [Whole, hkept.block]
      exact hwhole
    have hsettled : t.Settled := by
      rw [Settled, hkept.bytesRemaining, hkept.padding]
      exact hsettled
    have hin : t.InRecord taken (r.paxLineLength - r.paxLinePos - 1) := by
      obtain ⟨hone, hpad, halign⟩ := hin
      refine ⟨?_, ?_, ?_⟩
      · rw [hkept.paxLeft]
        exact hone
      · rw [hkept.paxPadding]
        exact hpad
      · rw [hkept.paxLeft, hkept.paxPadding]
        exact halign
    cases value with
    | skip status =>
      cases hkey
      exact ⟨{ hcore with }, hwhole, hsettled, by omega, ⟨hin.newline, hin.padding, hin.aligned⟩⟩
    | collect what =>
      cases hkey
      have hwhat : ¬ (what = .longName ∨ what = .longLink) := paxOnly_paxValue hvalue what rfl
      refine ⟨{ hcore with }, hwhole, hsettled, ?_⟩
      have hnat : ((r.paxLineLength - r.paxLinePos - 1).toNat : ℤ) =
          r.paxLineLength - r.paxLinePos - 1 := Int.toNat_of_nonneg (by omega)
      rw [if_neg hwhat, hnat]
      exact ⟨hin.newline, hin.padding, hin.aligned⟩

theorem finishPax_sound (hcore : Core r) (hwhole : r.Whole) (hsettled : r.Settled)
    (hleft : 0 ≤ r.paxLeft) (hpadding : 0 ≤ r.paxPadding)
    (haligned : 512 ∣ taken + r.paxLeft + r.paxPadding) : Sound taken (r.finishPax composes) := by
  have hpath : 0 ∉ (r.finishPax composes).entry.path := by
    dsimp only [finishPax]
    repeat' split
    all_goals first | exact zero_notMem_sliceToNul _ | exact hcore.path
  refine ⟨⟨hcore.bytesRemaining, hcore.padding, hcore.sparse, hpath, hcore.block⟩, hwhole, hsettled,
    by omega, ?_⟩
  rw [← add_assoc]
  exact haligned

theorem useCollected_sound (hcore : Core r) (hwhole : r.Whole) (hsettled : r.Settled)
    {what : Collect} {value : Bytes} (haligned : if what = .longName ∨ what = .longLink then
      512 ∣ taken + paddingFor value.length else r.InRecord taken 0)
    (huse : r.useCollected composes what value = .ok r') : Sound taken r' := by
  by_cases hwhat : what = .longName ∨ what = .longLink
  · rw [if_pos hwhat] at haligned
    rcases hwhat with rfl | rfl
    · cases huse
      exact ⟨⟨hcore.bytesRemaining, hcore.padding, hcore.sparse, zero_notMem_sliceToNul _,
        hcore.block⟩, hwhole, hsettled, paddingFor_nonneg _, haligned⟩
    · cases huse
      exact ⟨{ hcore with }, hwhole, hsettled, paddingFor_nonneg _, haligned⟩
  · rw [if_neg hwhat] at haligned
    rw [useCollected_eq hwhat] at huse
    obtain ⟨⟨s, status⟩, hs, hr'⟩ := map_eq_ok huse
    cases hr'
    have hkept := kept_usePaxValue hs
    have hcore := hcore.of_kept hkept
    refine ⟨{ hcore with }, ?_, ?_, ⟨?_, ?_, ?_⟩⟩
    · rw [Whole] at hwhole ⊢
      rw [hkept.block]
      exact hwhole
    · rw [Settled] at hsettled ⊢
      rw [hkept.bytesRemaining, hkept.padding]
      exact hsettled
    · rw [hkept.paxLeft]
      exact haligned.newline
    · rw [hkept.paxPadding]
      exact haligned.padding
    · rw [hkept.paxLeft, hkept.paxPadding]
      exact haligned.aligned

/-! ## Loops over the input -/

/-- One more byte of the prologue of a record is behind. -/
theorem InPrologue.advance (h : r.InPrologue taken) (hlt : r.paxLinePos < r.paxLeft) :
    InPrologue (taken + 1) { r with paxLinePos := r.paxLinePos + 1 } := by
  obtain ⟨hpos, hle, hpadding, haligned⟩ := h
  refine ⟨?_, ?_, hpadding, ?_⟩
  · dsimp only
    omega
  · dsimp only
    omega
  · dsimp only
    omega

theorem InPrologue.skipRest (h : r.InPrologue taken) (hcore : Core r) (hwhole : r.Whole)
    (hsettled : r.Settled) (status : Status) : Sound taken (r.skipRestOfPax status) :=
  sound_skipRestOfPax hcore hwhole hsettled h.pos_le h.padding h.aligned status

variable {input : Bytes}

theorem paxLengthLoop_sound {used used' : ℕ} (h : Sound (taken + used) r)
    (hstate : r.state = .paxLength) (hloop : r.paxLengthLoop used input = (used', r', whole)) :
    Sound (taken + used') r' ∧ (whole = false → r'.state = .paxLength) := by
  induction input generalizing r used with
  | nil =>
    cases hloop
    exact ⟨h, fun _ => hstate⟩
  | cons c cs ih =>
    rw [paxLengthLoop] at hloop
    split at hloop
    · cases hloop
      exact ⟨h, fun _ => hstate⟩
    next hlt =>
      obtain ⟨hcore, hat⟩ := h
      simp only [At, hstate] at hat
      obtain ⟨hwhole, hsettled, hin⟩ := hat
      have hin := hin.advance (not_le.1 hlt)
      have hone : taken + (used : ℤ) + 1 = taken + (used + 1 : ℕ) := by omega
      rw [hone] at hin
      have hcore' : Core { r with paxLinePos := r.paxLinePos + 1 } :=
        { hcore with }
      dsimp only at hloop
      split at hloop
      · cases hloop
        refine ⟨?_, fun h => by cases h⟩
        split
        · exact hin.skipRest hcore' hwhole hsettled .warn
        next hfits =>
          exact ⟨{ hcore with }, hwhole,
            hsettled, ⟨hin.pos, hin.pos_le, hin.padding, hin.aligned⟩, not_lt.1 hfits⟩
      · split at hloop
        · split at hloop
          · cases hloop
            refine ⟨InPrologue.skipRest (r := { r with
              paxLinePos := r.paxLinePos + 1
              paxLineLength := r.paxLineLength * 10 + (c - b '0').toNat })
              ⟨hin.pos, hin.pos_le, hin.padding, hin.aligned⟩
              { hcore with } hwhole
              hsettled .warn, fun h => by cases h⟩
          · refine ih (r := { r with
              paxLinePos := r.paxLinePos + 1
              paxLineLength := r.paxLineLength * 10 + (c - b '0').toNat })
              ⟨{ hcore with }, ?_⟩
              hstate hloop
            simp only [At, hstate]
            exact ⟨hwhole, hsettled, ⟨hin.pos, hin.pos_le, hin.padding, hin.aligned⟩⟩
        · cases hloop
          exact ⟨hin.skipRest hcore' hwhole hsettled .warn, fun h => by cases h⟩

theorem paxKeyLoop_sound {used used' : ℕ} (h : Sound (taken + used) r) (hstate : r.state = .paxKey)
    (hloop : r.paxKeyLoop used input = (used', r', whole)) :
    Sound (taken + used') r' ∧ r'.state = .paxKey ∧
      (whole = true → r'.paxLinePos ≤ r'.paxLineLength) := by
  induction input generalizing r used with
  | nil =>
    cases hloop
    exact ⟨h, hstate, fun h => by cases h⟩
  | cons c cs ih =>
    rw [paxKeyLoop] at hloop
    split at hloop
    · cases hloop
      exact ⟨h, hstate, fun h => by cases h⟩
    next hlt =>
      obtain ⟨hcore, hat⟩ := h
      simp only [At, hstate] at hat
      obtain ⟨hwhole, hsettled, hin, hlength⟩ := hat
      rw [not_or, not_le, not_le] at hlt
      have hin := hin.advance hlt.1
      have hone : taken + (used : ℤ) + 1 = taken + (used + 1 : ℕ) := by omega
      rw [hone] at hin
      split at hloop
      · cases hloop
        refine ⟨⟨{ hcore with }, ?_⟩, hstate, fun _ => ?_⟩
        · simp only [At, hstate]
          exact ⟨hwhole, hsettled, ⟨hin.pos, hin.pos_le, hin.padding, hin.aligned⟩, hlength⟩
        · exact hlt.2
      · refine ih (r := pushPaxKey { r with paxLinePos := r.paxLinePos + 1 } c)
          ⟨{ hcore with }, ?_⟩ hstate
          hloop
        simp only [At, pushPaxKey, hstate]
        exact ⟨hwhole, hsettled, ⟨hin.pos, hin.pos_le, hin.padding, hin.aligned⟩, hlength⟩

theorem sparseLineLoop_length {limit used used' : ℕ} {line line' : Bytes}
    (h : sparseLineLoop limit line used input = .ok (used', line', whole)) :
    used ≤ used' ∧ line'.length = line.length + (used' - used) ∧
      line'.length ≤ max limit line.length ∧
      used' - used ≤ input.length ∧ (whole = false → used' - used = input.length) ∧
      (whole = true → used < used') := by
  induction input generalizing line used with
  | nil =>
    cases h
    exact ⟨le_rfl, by omega, le_max_right _ _, by simp, fun _ => by simp, fun h => by cases h⟩
  | cons c cs ih =>
    rw [sparseLineLoop] at h
    split at h
    · cases h
    · split at h
      · cases h
        have hlen : (line ++ [c]).length = line.length + 1 := by simp
        have hcons : (c :: cs).length = cs.length + 1 := rfl
        exact ⟨by omega, by omega, by omega, by omega, (fun h => by cases h), fun _ => by omega⟩
      · have hlen : (line ++ [c]).length = line.length + 1 := by simp
        obtain ⟨h1, h2, h3, h4, h5, h6⟩ := ih h
        simp only [length_cons]
        refine ⟨by omega, by omega, by omega, by omega, fun hw => ?_, fun hw => by omega⟩
        have := h5 hw
        omega

end Reader

end Soup.Tar
