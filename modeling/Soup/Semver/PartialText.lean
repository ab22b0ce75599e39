import Soup.Semver.Query

/-!
# Partial versions as text

The texts `1`, `1.x`, `1.x.x`, `1.2`, `1.2.x` and `1.2.3`, with any numbers of at most `u64::MAX`
in the place of these, and what `Version::parse` reads from them (`parse_text`).
-/

namespace Soup.Semver

open List Scan

/-- The number that a string of digits writes. -/
def decimal (digits : Bytes) : ℕ := digits.foldl (fun n c => n * 10 + digitValue c) 0

/-- A number of at most `u64::MAX` as it is written; zeros may lead. -/
structure Numeral where
  digits : Bytes
  ne_nil : digits ≠ []
  isDigit : ∀ c ∈ digits, isAsciiDigit c = true
  fits : decimal digits ≤ u64Max

namespace Numeral

def number (n : Numeral) : UInt64 := .ofNat (decimal n.digits)

theorem accumulate_digits : ∀ (digits : Bytes) (acc : ℕ),
    (∀ c ∈ digits, isAsciiDigit c = true) →
    accumulate acc digits = some (digits.foldl (fun n c => n * 10 + digitValue c) acc)
  | [], _, _ => rfl
  | c :: cs, acc, h => by
    rw [forall_mem_cons] at h
    have hne : c ≠ b '_' := by
      rintro rfl
      exact absurd h.1 (by decide)
    rw [accumulate, if_neg hne, if_pos h.1, accumulate_digits cs _ h.2]
    rfl

theorem parseUnsigned_digits (n : Numeral) : parseUnsigned n.digits = some n.number := by
  have hnot : ∀ c : UInt8, c ∈ n.digits → c ≠ b '_' := by
    rintro c hc rfl
    exact absurd (n.isDigit _ hc) (by decide)
  have hhead : n.digits.head? ≠ none := by simpa using n.ne_nil
  have hcond : ¬(n.digits.head? = none ∨ n.digits.head? = some (b '_') ∨
      n.digits.getLast? = some (b '_')) := by
    rintro (h | h | h)
    · exact hhead h
    · exact hnot _ (mem_of_head? h) rfl
    · exact hnot _ (mem_of_getLast? h) rfl
  rw [parseUnsigned, if_neg hcond, accumulate_digits _ _ n.isDigit]
  exact if_pos n.fits

theorem takeWhile_digits (n : Numeral) {tail : Bytes}
    (h : ∀ c, tail.head? = some c → isAsciiDigit c = false) :
    (n.digits ++ tail).takeWhile isAsciiDigit = n.digits := by
  rw [takeWhile_append_of_pos n.isDigit]
  cases tail with
  | nil => simp
  | cons c cs => simp [h c rfl]

/-- A numeral starts with a digit. -/
theorem exists_cons (n : Numeral) : ∃ c cs, n.digits = c :: cs ∧ isAsciiDigit c = true := by
  obtain ⟨c, cs, h⟩ := exists_cons_of_ne_nil n.ne_nil
  exact ⟨c, cs, h, n.isDigit c (by rw [h]; exact mem_cons_self)⟩

end Numeral

/-- What stands in the place of the patch : nothing, `.x` or `.3`. -/
inductive PatchText where
  | absent
  | x
  | number (n : Numeral)

/-- What stands in the place of the minor and the patch. -/
inductive MinorText where
  | absent
  | x
  | xx
  | number (n : Numeral) (patch : PatchText)

/-- A partial version as it is written. -/
structure PartialText where
  major : Numeral
  minor : MinorText

def PatchText.text : PatchText → Bytes
  | absent => []
  | x => [b '.', b 'x']
  | number n => b '.' :: n.digits

def MinorText.text : MinorText → Bytes
  | absent => []
  | x => [b '.', b 'x']
  | xx => [b '.', b 'x', b '.', b 'x']
  | number n patch => b '.' :: (n.digits ++ patch.text)

def PartialText.text (p : PartialText) : Bytes := p.major.digits ++ p.minor.text

/-- The version that is read from the text. -/
def PartialText.version (p : PartialText) : Partial :=
  match p.minor with
  | .absent | .x | .xx => { major := p.major.number }
  | .number n .absent | .number n .x => { major := p.major.number, minor := n.number }
  | .number n (.number m) => { major := p.major.number, minor := n.number, patch := m.number }

def PartialText.wildcard (p : PartialText) : Wildcard :=
  match p.minor with
  | .absent | .x | .xx => .minor
  | .number _ .absent | .number _ .x => .patch
  | .number _ (.number _) => .none

/-! ## Reading the parts -/

namespace Scan

variable {s : Scan}

theorem step_digit {c : UInt8} (hc : isAsciiDigit c = true) : s.step c = s.number := by
  have hspace : c ≠ b ' ' := by
    rintro rfl
    exact absurd hc (by decide)
  have hback : isStepBack c = false := by
    simp only [isStepBack, Bool.or_eq_false_iff, beq_eq_false_iff_ne]
    refine ⟨⟨⟨⟨⟨?_, ?_⟩, ?_⟩, ?_⟩, ?_⟩, ?_⟩ <;>
    · rintro rfl
      exact absurd hc (by decide)
  rw [step, if_neg hspace, if_neg (by simp [hback]), if_pos hc]

theorem number_eq {s : Scan} {n : Numeral} {tail : Bytes} (hrest : s.rest = n.digits ++ tail)
    (htail : ∀ c, tail.head? = some c → isAsciiDigit c = false) (hpart : s.partI < 3) :
    s.number =
      (let s' := { s.skip n.digits.length with
        result := s.result.setPart s.partI n.number, partI := s.partI + 1 }
      if tail.head? = some (b '.') ∧ s.partI + 1 ≠ 3 then s'.skip 1 else s', false) := by
  have hdigits : s.rest.takeWhile isAsciiDigit = n.digits := by
    rw [hrest, n.takeWhile_digits htail]
  unfold number
  simp only [hdigits, n.parseUnsigned_digits]
  rw [if_pos (by simpa [skip] using hpart), if_neg (by simp)]
  simp [skip, skipDot, hrest]

variable {fuel : ℕ}

theorem loop_number_dot {n : Numeral} {tail : Bytes} (hrest : s.rest = n.digits ++ b '.' :: tail)
    (hpart : s.partI < 2) :
    loop (fuel + 1) s = loop fuel
      { i := s.i + n.digits.length + 1, prev := some (b '.'), rest := tail, partI := s.partI + 1
        result := s.result.setPart s.partI n.number } := by
  obtain ⟨c, cs, hcons, hc⟩ := n.exists_cons
  have hs : s.rest = c :: (cs ++ b '.' :: tail) := by rw [hrest, hcons]; rfl
  have htail : ∀ d, (b '.' :: tail).head? = some d → isAsciiDigit d = false := by
    intro d hd
    obtain rfl : b '.' = d := by simpa using hd
    decide
  rw [loop, hs]
  simp only [step_digit hc, number_eq hrest htail (by omega)]
  rw [if_pos ⟨rfl, by omega⟩]
  simp [skip, hrest]

theorem loop_nil (h : s.rest = []) : loop fuel s = s := by
  cases fuel with
  | zero => rfl
  | succ fuel => rw [loop, h]

theorem loop_number_end {n : Numeral} (hrest : s.rest = n.digits) (hpart : s.partI < 3) :
    (loop (fuel + 1) s).finish = finish
      { i := s.i + n.digits.length, prev := none, rest := [], partI := s.partI + 1
        result := s.result.setPart s.partI n.number } := by
  obtain ⟨c, cs, hcons, hc⟩ := n.exists_cons
  have hs : s.rest = c :: cs := by rw [hrest, hcons]
  rw [loop, hs]
  simp only [step_digit hc, @number_eq s n [] (by simpa using hrest) (by simp) hpart]
  rw [if_neg (by simp), loop_nil (by simp [skip, hrest])]
  simp [skip, finish]

theorem loop_major (n : Numeral) (tail : Bytes) :
    loop (fuel + 1) { i := 0, prev := none, rest := n.digits ++ b '.' :: tail } = loop fuel
      { i := n.digits.length + 1, prev := some (b '.'), rest := tail, partI := 1
        result := { version := { major := n.number } } } := by
  rw [loop_number_dot rfl (by simp)]
  simp [ParseResult.setPart]

theorem loop_minor {i : ℕ} {prev : Option UInt8} {v : Partial} (n : Numeral) (tail : Bytes) :
    loop (fuel + 1)
        { i, prev, rest := n.digits ++ b '.' :: tail, partI := 1, result := { version := v } } =
      loop fuel
        { i := i + n.digits.length + 1, prev := some (b '.'), rest := tail, partI := 2
          result := { version := { v with minor := n.number } } } :=
  loop_number_dot rfl (by simp)

/-- The wildcard that an `x` in the place `k` makes of a version. -/
def wildcardAt (k : ℕ) : Wildcard := if k = 1 then .minor else .patch

theorem loop_x {i k : ℕ} {v : Partial} (hk : k = 1 ∨ k = 2) (tail : Bytes)
    (htail : tail = [] ∨ tail = [b '.', b 'x']) :
    loop (fuel + 1)
        { i, prev := some (b '.'), rest := b 'x' :: tail, partI := k, result := { version := v } } =
      loop fuel
        { i := i + 1 + (tail.take 1).length, prev := some (if tail = [] then b 'x' else b '.')
          rest := tail.drop 1, partI := k + 1
          result := { version := v, wildcard := wildcardAt k } } := by
  rcases hk with rfl | rfl <;> rcases htail with rfl | rfl <;> rfl

/-- An `x` after another one changes nothing. -/
theorem loop_second_x {fuel i : ℕ} {v : Partial} :
    loop (fuel + 1)
        { i, prev := some (b '.'), rest := [b 'x'], partI := 2
          result := { version := v, wildcard := .minor } } =
      { i := i + 1, prev := some (b 'x'), rest := [], partI := 2
        result := { version := v, wildcard := .minor } } := by
  have hstep : loop (fuel + 1)
        { i, prev := some (b '.'), rest := [b 'x'], partI := 2
          result := { version := v, wildcard := .minor } } =
      loop fuel
        { i := i + 1, prev := some (b 'x'), rest := [], partI := 2
          result := { version := v, wildcard := .minor } } := rfl
  rw [hstep, loop_nil rfl]

end Scan

/-- The first pass over a text that starts with a digit skips nothing. -/
theorem version_parse_eq {input : Bytes} {c : UInt8} {cs : Bytes} (h : input = c :: cs)
    (hc : isAsciiDigit c = true) :
    Version.parse input =
      (loop input.length { i := 0, prev := none, rest := input }).finish := by
  have hleading : isLeading c = false := by
    simp only [isLeading, isWhitespaceChar, Bool.or_eq_false_iff, beq_eq_false_iff_ne]
    refine ⟨⟨⟨⟨⟨⟨⟨?_, ?_⟩, ?_⟩, ?_⟩, ?_⟩, ?_⟩, ?_⟩, ?_⟩ <;>
    · rintro rfl
      exact absurd hc (by decide)
  subst h
  simp [Version.parse, hleading]

/-- What `Version::parse` reads from a partial version. -/
theorem parse_text (p : PartialText) :
    Version.parse p.text =
      { wildcard := p.wildcard, version := p.version, len := p.text.length } := by
  rcases p with ⟨major, minor⟩
  obtain ⟨c, cs, hcons, hc⟩ := major.exists_cons
  have htext : (PartialText.mk major minor).text = c :: (cs ++ minor.text) := by
    simp [PartialText.text, hcons]
  have hlen : major.digits.length = cs.length + 1 := by rw [hcons]; rfl
  rw [version_parse_eq htext hc]
  cases minor with
  | absent =>
    have h : (PartialText.mk major .absent).text = major.digits := append_nil _
    rw [h, hlen, loop_number_end rfl (by simp)]
    simp [finish, ParseResult.setPart, PartialText.wildcard, PartialText.version, hlen]
  | x =>
    have h : (PartialText.mk major .x).text = major.digits ++ b '.' :: [b 'x'] := rfl
    obtain ⟨fuel, hfuel⟩ : ∃ fuel, (PartialText.mk major .x).text.length = fuel + 2 :=
      ⟨cs.length + 1, by simp [h, hlen]⟩
    rw [hfuel, h, loop_major, loop_x (.inl rfl) [] (.inl rfl), loop_nil rfl]
    rw [h] at hfuel
    simp [finish, wildcardAt, PartialText.wildcard, PartialText.version] at hfuel ⊢
    omega
  | xx =>
    have h : (PartialText.mk major .xx).text =
        major.digits ++ b '.' :: b 'x' :: [b '.', b 'x'] := rfl
    obtain ⟨fuel, hfuel⟩ : ∃ fuel, (PartialText.mk major .xx).text.length = fuel + 3 :=
      ⟨cs.length + 2, by simp [h, hlen]⟩
    rw [hfuel, h, loop_major, loop_x (.inl rfl) _ (.inr rfl)]
    have hsecond := @loop_second_x fuel (major.digits.length + 1 + 1 + 1)
      { major := major.number }
    rw [h] at hfuel
    simp [wildcardAt, hsecond, finish, PartialText.wildcard,
      PartialText.version] at hfuel ⊢
    omega
  | number n patch =>
    obtain ⟨d, ds, hcons', -⟩ := n.exists_cons
    have hlen' : n.digits.length = ds.length + 1 := by rw [hcons']; rfl
    cases patch with
    | absent =>
      have h : (PartialText.mk major (.number n .absent)).text =
          major.digits ++ b '.' :: n.digits := by
        simp [PartialText.text, MinorText.text, PatchText.text]
      obtain ⟨fuel, hfuel⟩ : ∃ fuel,
          (PartialText.mk major (.number n .absent)).text.length = fuel + 2 :=
        ⟨cs.length + ds.length + 1, by simp [h, hlen, hlen']; omega⟩
      rw [hfuel, h, loop_major, loop_number_end rfl (by simp)]
      rw [h] at hfuel
      simp [finish, ParseResult.setPart, PartialText.wildcard, PartialText.version] at hfuel ⊢
      omega
    | x =>
      have h : (PartialText.mk major (.number n .x)).text =
          major.digits ++ b '.' :: (n.digits ++ b '.' :: [b 'x']) := rfl
      obtain ⟨fuel, hfuel⟩ : ∃ fuel,
          (PartialText.mk major (.number n .x)).text.length = fuel + 3 :=
        ⟨cs.length + ds.length + 2, by simp [h, hlen, hlen']; omega⟩
      rw [hfuel, h, loop_major, loop_minor, loop_x (.inr rfl) [] (.inl rfl),
        loop_nil rfl]
      rw [h] at hfuel
      simp [finish, wildcardAt, PartialText.wildcard, PartialText.version] at hfuel ⊢
      omega
    | number m =>
      have h : (PartialText.mk major (.number n (.number m))).text =
          major.digits ++ b '.' :: (n.digits ++ b '.' :: m.digits) := rfl
      obtain ⟨fuel, hfuel⟩ : ∃ fuel,
          (PartialText.mk major (.number n (.number m))).text.length = fuel + 3 :=
        ⟨cs.length + ds.length + m.digits.length + 1, by simp [h, hlen, hlen']; omega⟩
      rw [hfuel, h, loop_major, loop_minor, loop_number_end rfl (by simp)]
      rw [h] at hfuel
      simp [finish, ParseResult.setPart, PartialText.wildcard, PartialText.version] at hfuel ⊢
      omega

end Soup.Semver
