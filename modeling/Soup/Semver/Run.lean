import Soup.Semver.Satisfies

/-!
# Runs of the range parser

`run` is `scan` with as much fuel as there is input, and `run_cons` unfolds it by one round
whatever the fuel. `run_strip` passes the spaces and bars at the cursor : a bar forgets the pending
operator and starts an alternative.
-/

namespace Soup.Semver

open List

namespace Parser

/-- The loop of `parse_with` from the parser `p` on. -/
def run (p : Parser) (input : Bytes) : Option Group := scan {} input.length p input

/-! ## Fuel -/

theorem skipByte_suffix (c : UInt8) (rest : Bytes) : skipByte c rest <:+ rest :=
  dropWhile_suffix _

section

variable (p : Parser)

theorem angle_suffix (c : UInt8) (cs : Bytes) : (p.angle c cs).rest <:+ cs := by
  unfold angle
  refine (skipByte_suffix _ _).trans ?_
  split
  · exact (drop_suffix _ _).trans (skipByte_suffix _ _)
  · exact skipByte_suffix _ _

/-- A round that goes on in the input, and past a byte of it when it is skipped. -/
def Round.GoesOn (c : UInt8) (cs : Bytes) (r : Round) : Prop :=
  r.rest <:+ cs ∨ r.rest = c :: cs ∧ r.skipRound = false

theorem Round.goesOn_ite {r r' : Round} {d : Prop} [Decidable d] (h : r.GoesOn c cs)
    (h' : r'.GoesOn c cs) : Round.GoesOn c cs (if d then r else r') := by
  split
  · exact h
  · exact h'

/-- The match of a round goes on in the input, and past a byte of it when the round is skipped. -/
theorem round_suffix (c : UInt8) (cs : Bytes) : (p.round c cs).rest <:+ cs ∨
      (p.round c cs).rest = c :: cs ∧ (p.round c cs).skipRound = false := by
  suffices h : (p.round c cs).GoesOn c cs from h
  have hone : skipByte (b ' ') cs <:+ cs := skipByte_suffix _ _
  have htilda : (if cs.head? = some (b '>') then cs.drop 1 else cs) <:+ cs := by
    split
    · exact drop_suffix _ _
    · exact suffix_rfl
  refine Round.goesOn_ite (.inl (angle_suffix p c cs)) <| Round.goesOn_ite (.inl hone) <|
    Round.goesOn_ite (.inl ((skipByte_suffix _ _).trans htilda)) <| Round.goesOn_ite (.inl hone) <|
    Round.goesOn_ite (.inr ⟨rfl, rfl⟩) <|
    Round.goesOn_ite (.inl ((skipByte_suffix _ _).trans (skipByte_suffix _ _))) <|
    Round.goesOn_ite (.inl hone) <| Round.goesOn_ite (.inl hone) (.inl (dropWhile_suffix _))

theorem skipWhitespace_suffix (rest : Bytes) : skipWhitespace rest <:+ rest :=
  dropWhile_suffix _

theorem hyphenateAt_suffix {rest rest' : Bytes} (h : hyphenateAt rest = some rest') :
    rest' <:+ rest := by
  unfold hyphenateAt at h
  split at h
  · cases h
  · split at h
    · cases h
    next e es hes =>
      split at h
      · cases h
        rw [← hes]
        exact skipWhitespace_suffix _
      · cases h

theorem hyphenate_suffix {rest rest' : Bytes} (h : hyphenate rest = some rest') :
    rest' <:+ rest := by
  unfold hyphenate at h
  split at h
  · split at h
    next c cs hcs =>
      split at h
      · cases h
      · split at h
        · cases h
        next d ds hds =>
          have hcs' : cs <:+ rest := by
            refine List.IsSuffix.trans (suffix_cons c cs) ?_
            rw [← hcs]
            exact skipWhitespace_suffix _
          have hds' : d :: ds <:+ cs := by
            rw [← hds]
            exact skipWhitespace_suffix _
          refine (hyphenateAt_suffix h).trans (List.IsSuffix.trans ?_ (hds'.trans hcs'))
          split
          · exact suffix_cons d ds
          · exact suffix_rfl
    · cases h
  · cases h

/-- A round that reads a version takes a byte of what is left, if there is one. -/
theorem comparator_length {r : Round} {p : Parser} {rest : Bytes}
    (h : comparator r {} = some (p, rest)) : rest.length ≤ r.rest.length - 1 := by
  unfold comparator at h
  dsimp only at h
  split at h
  · cases h
  · split at h
    next rest' hhyphen =>
      have hle := (hyphenate_suffix hhyphen).length_le
      split at h
      · cases h
      · cases h
        simp at hle ⊢
        omega
    · split at h <;> cases h <;> simp <;> omega

theorem step_length {p p' : Parser} {c : UInt8} {cs rest : Bytes}
    (h : p.step {} c cs = some (p', rest)) : rest.length ≤ cs.length := by
  unfold step at h
  dsimp only at h
  split at h
  next hskip =>
    cases h
    rcases round_suffix p c cs with hle | ⟨-, hnot⟩
    · exact hle.length_le
    · rw [hskip] at hnot
      cases hnot
  · have hle := comparator_length h
    rcases round_suffix p c cs with hle' | ⟨heq, -⟩
    · have := hle'.length_le
      omega
    · rw [heq] at hle
      simpa using hle

theorem scan_fuel {fuel : ℕ} (input : Bytes) (h : input.length ≤ fuel) :
    scan {} fuel p input = p.run input := by
  induction fuel using Nat.strong_induction_on generalizing p input with
  | _ fuel ih =>
    rcases input with _ | ⟨c, cs⟩
    · cases fuel <;> rfl
    rcases fuel with _ | fuel
    · cases h
    rw [length_cons] at h
    rw [run, length_cons, scan, scan]
    rcases hstep : p.step {} c cs with _ | ⟨p', rest⟩
    · rfl
    · have hle := step_length hstep
      dsimp only
      rw [ih fuel (Nat.lt_succ_self _) p' rest (by omega),
        ih cs.length (by omega) p' rest hle]

theorem run_nil : p.run [] = some p.list := rfl

theorem run_cons (c : UInt8) (cs : Bytes) : p.run (c :: cs) = match p.step {} c cs with
      | none => none
      | some (p', rest) => p'.run rest := by
  rw [run, length_cons, scan]
  rcases hstep : p.step {} c cs with _ | ⟨p', rest⟩
  · rfl
  · exact scan_fuel p' rest (step_length hstep)

theorem parse_of_run {input : Bytes} {g : Group} (h : ({} : Parser).run input = some g) :
    parse input = g := by
  unfold parse parseWith
  rw [← scan_fuel {} input le_rfl] at h
  rw [h]
  rfl

/-! ## Spaces and bars -/

/-- Is `c` a space or a bar? -/
def isSeparator (c : UInt8) : Bool := c == b ' ' || c == b '|'

/-- The input without the spaces and bars at its start. -/
def strip (input : Bytes) : Bytes := input.dropWhile isSeparator

/-- Is there a bar before anything else but spaces? -/
def hasBar (input : Bytes) : Bool := (input.takeWhile isSeparator).contains (b '|')

/-- What a bar makes of the parser. -/
def barred (p : Parser) : Parser := { p with token.tag := .none, isOr := true }

theorem strip_skipByte {c : UInt8} (hc : isSeparator c = true) :
    ∀ input : Bytes, strip (skipByte c input) = strip input
  | [] => rfl
  | d :: ds => by
    by_cases h : d = c
    · subst h
      have hskip : skipByte d (d :: ds) = skipByte d ds := by simp [skipByte]
      rw [hskip, strip_skipByte hc ds, strip, strip, dropWhile_cons, if_pos hc]
    · have hskip : skipByte c (d :: ds) = d :: ds := by simp [skipByte, h]
      rw [hskip]

theorem hasBar_skipByte_space : ∀ input : Bytes, hasBar (skipByte (b ' ') input) = hasBar input
  | [] => rfl
  | d :: ds => by
    by_cases h : d = b ' '
    · subst h
      have hskip : skipByte (b ' ') (b ' ' :: ds) = skipByte (b ' ') ds := by simp [skipByte]
      rw [hskip, hasBar_skipByte_space ds, hasBar, hasBar]
      simp +decide [isSeparator]
    · have hskip : skipByte (b ' ') (d :: ds) = d :: ds := by simp [skipByte, h]
      rw [hskip]

theorem round_space (cs : Bytes) :
    p.round (b ' ') cs = { parser := p, rest := skipByte (b ' ') cs, skipRound := true } := rfl

theorem round_bar (cs : Bytes) : p.round (b '|') cs =
      { parser := p.barred, rest := skipByte (b ' ') (skipByte (b '|') cs), skipRound := true } :=
  rfl

/-- The parser that spaces and bars at the cursor make of `p`. -/
def passed (p : Parser) (input : Bytes) : Parser := if hasBar input then p.barred else p

theorem passed_barred (input : Bytes) : p.barred.passed input = p.barred := by
  unfold passed
  split <;> rfl

theorem run_strip (input : Bytes) : p.run input = (p.passed input).run (strip input) := by
  induction hn : input.length using Nat.strong_induction_on generalizing p input with
  | _ n ih =>
    subst hn
    rcases input with _ | ⟨c, cs⟩
    · rfl
    by_cases hspace : c = b ' '
    · subst hspace
      have hlen := (skipByte_suffix (b ' ') cs).length_le
      have hcons : (b ' ' :: cs).length = cs.length + 1 := rfl
      have hstrip : strip (b ' ' :: cs) = strip (skipByte (b ' ') cs) := by
        rw [strip_skipByte rfl]
        rfl
      have hbar : hasBar (b ' ' :: cs) = hasBar (skipByte (b ' ') cs) :=
        (hasBar_skipByte_space (b ' ' :: cs)).symm
      rw [run_cons, step, round_space]
      simp only [if_true]
      rw [ih _ (by omega) p _ rfl, hstrip]
      unfold passed
      rw [hbar]
    · by_cases hpipe : c = b '|'
      · subst hpipe
        have hlen := ((skipByte_suffix (b ' ') _).trans (skipByte_suffix (b '|') cs)).length_le
        have hcons : (b '|' :: cs).length = cs.length + 1 := rfl
        have hstrip : strip (b '|' :: cs) = strip (skipByte (b ' ') (skipByte (b '|') cs)) := by
          rw [strip_skipByte rfl, strip_skipByte rfl]
          rfl
        have hbar : hasBar (b '|' :: cs) = true := rfl
        rw [run_cons, step, round_bar]
        simp only [if_true]
        rw [ih _ (by omega) p.barred _ rfl, hstrip, passed_barred]
        unfold passed
        rw [hbar]
        rfl
      · have hnot : isSeparator c = false := by simp [isSeparator, hspace, hpipe]
        have hstrip : strip (c :: cs) = c :: cs := by simp [strip, hnot]
        have hbar : hasBar (c :: cs) = false := by simp [hasBar, hnot]
        rw [hstrip, passed, hbar]
        rfl

end

end Parser

end Soup.Semver
