import Soup.Shell.Lexed

/-!
# The lexer reads the expansion

What is left of a reading at the end has the results of the text that was read (`tokenize_spec`).
The induction is on the length of the text (`foldl_step`): where a brace closes the level, the level
gets the variants of the text up to it (`Fills`), and where none does, its brace is literal.
-/

namespace Soup.Shell

open Soup.Lib List Option Pieces Reading

/-! ## What an open brace gives -/

theorem eq_of_variants_singleton : ∀ {cs v : List InputChar} {depth},
    variants depth cs = [v] → v = cs
  | [], v, depth, h => by
    rw [variants] at h
    exact (singleton_inj.1 h).symm
  | c :: cs, v, depth, h => by
    rw [variants] at h
    split at h
    · exact absurd (cons.inj h).2 (variants_ne_nil 0 cs)
    · obtain ⟨w, ws, hw⟩ := exists_cons_of_ne_nil (variants_ne_nil (nesting depth c) cs)
      rw [hw, modifyHead_cons] at h
      obtain ⟨rfl, rfl⟩ := cons.inj h
      rw [eq_of_variants_singleton hw]

/-- The results of a brace that is closed. -/
def closed (inner : List InputChar) : List Bytes :=
  if 2 ≤ (variants 0 inner).length then (variants 0 inner).flatMap expansion
  else cross [[b '{']] (cross (expansion inner) [[b '}']])

variable {c : InputChar}

theorem char_of_isOpen (h : c.isOpen = true) : c.char = b '{' :=
  eq_of_beq (Bool.and_eq_true_iff.1 h).2

theorem expansion_open {cs inner rest : List InputChar} (hc : c.isOpen = true)
    (h : closing 0 cs = some (inner, rest)) :
    expansion (c :: cs) = cross (closed inner) (expansion rest) := by
  rw [closed]
  split
  next hv =>
    exact expansion_group hc h hv
  next hv =>
    have hone : (variants 0 inner).length = 1 := by
      have := length_variants_pos 0 inner
      omega
    rw [expansion_literal fun _ i r hi => by cases h.symm.trans hi; exact hone,
      expansion_append cs.length le_rfl h, char_of_isOpen hc]
    simp only [cross_assoc]

/-! ## Results of a reading -/

/-- The results if no open level is closed. -/
def Reading.expand (self : Reading) : List Bytes := (literals self.base self.levels).expand

theorem Level.expand_variants (self : Level) : self.variants.expand =
    ((self.before ++ [self.current]).map Pieces.expand).flatten := by
  obtain ⟨before, current⟩ := self
  rw [variants]
  induction before with
  | nil =>
    rw [foldr_nil, Variants.expand]
    simp
  | cons p before ih =>
    rw [foldr_cons, Variants.expand, ih]
    simp

/-- More results at the end of the row of a level. -/
theorem Level.expand_literal {before : List Pieces} {current current' : Pieces} {xs : List Bytes}
    (h : current'.expand = cross current.expand xs) :
    (Level.mk before current').literal.expand =
      cross (Level.mk before current).literal.expand xs := by
  rw [literal, literal]
  induction before with
  | nil => exact h
  | cons p before ih =>
    rw [foldr_cons, foldr_cons, Pieces.expand_append, Pieces.expand_append, Pieces.expand,
      Pieces.expand, ih]
    simp only [cross_assoc]

theorem Level.expand_comma (self : Level) :
    (Level.mk (self.before ++ [self.current]) .nil).literal.expand =
      cross self.literal.expand [[b ',']] := by
  obtain ⟨before, current⟩ := self
  rw [literal, literal]
  induction before with
  | nil =>
    rw [nil_append, foldr_cons, foldr_nil, foldr_nil, expand_append,
      Pieces.expand, Pieces.expand, cross_one]
  | cons p before ih =>
    rw [cons_append, foldr_cons, foldr_cons, expand_append,
      Pieces.expand_append, Pieces.expand, Pieces.expand, ih]
    simp only [cross_assoc]

variable {self : Reading} {f : Pieces → Pieces}

theorem Reading.expand_modify {xs : List Bytes}
    (hf : ∀ p, (f p).expand = cross p.expand xs) :
    (self.modify f).expand = cross self.expand xs := by
  obtain ⟨base, _ | ⟨level, levels⟩⟩ := self
  · exact hf base
  · obtain ⟨before, current⟩ := level
    rw [modify, expand, expand, literals, literals, expand_append, expand_append,
      Pieces.expand, Pieces.expand, Level.expand_literal (hf current)]
    simp only [cross_assoc]

theorem Reading.levels_modify_eq_nil
    (h : self.levels = []) : (self.modify f).levels = [] := by
  obtain ⟨base, levels⟩ := self
  cases h
  rfl

/-! ## Levels that are closed -/

/-- A level is filled by a text: the first variant goes on its row, and the others follow. -/
def Fills (inner : List InputChar) (level level' : Level) : Prop :=
  ∃ v vs, variants 0 inner = v :: vs ∧
    (level'.before ++ [level'.current]).map Pieces.expand =
      level.before.map Pieces.expand ++
        cross level.current.expand (expansion v) :: vs.map expansion

theorem Fills.expand_closeLevel {inner : List InputChar} {level : Level}
    (h : Fills inner {} level) : (closeLevel level).expand = closed inner := by
  obtain ⟨v, vs, hv, hlevel⟩ := h
  rw [map_nil, nil_append, Pieces.expand, one_cross, ← map_cons, ← hv] at hlevel
  have hlength := congrArg length hlevel
  rw [length_map, length_map, length_append, length_singleton] at hlength
  rw [closeLevel, closed]
  by_cases hbefore : level.before = []
  · have hone : (variants 0 inner).length = 1 := by rw [← hlength, hbefore]; rfl
    rw [if_pos hbefore, if_neg (by omega)]
    rw [hbefore, hv, nil_append, map_singleton, map_cons] at hlevel
    obtain ⟨hcurrent, hvs⟩ := cons.inj hlevel
    rw [nil_eq, map_eq_nil_iff] at hvs
    rw [hvs] at hv
    rw [Pieces.expand, Pieces.expand_append, Pieces.expand, Pieces.expand, cross_one, hcurrent,
      eq_of_variants_singleton hv]
  · have htwo : 2 ≤ (variants 0 inner).length := by
      have := length_pos_of_ne_nil hbefore
      omega
    rw [if_neg hbefore, if_pos htwo, Pieces.expand, Pieces.expand, cross_one, Level.expand_variants,
      hlevel, flatMap_def]

/-! ## Steps -/

section Step

variable {self : Reading} {base : Pieces} {level : Level} {levels : List Level} {c : InputChar}

theorem step_open (h : c.isOpen = true) :
    self.step c = { self with levels := {} :: self.levels } := by
  rw [step, if_pos h]

theorem step_close (h : c.isClose = true) : step ⟨base, level :: levels⟩ c =
    modify ⟨base, levels⟩ (·.append (closeLevel level)) := by
  rw [step, isOpen_of_isClose h, if_neg (by simp), if_pos h]

theorem isOpen_spec (h : c.isOpen = true) : c.isClose = false ∧ c.isComma = false := by
  obtain ⟨char, escaped⟩ := c
  rw [InputChar.isOpen, Bool.and_eq_true, Bool.not_eq_true', beq_iff_eq] at h
  obtain ⟨hescaped, hchar⟩ := h
  cases hescaped
  cases hchar
  decide

theorem isComma_spec (h : c.isComma = true) : c.isOpen = false ∧ c.isClose = false := by
  obtain ⟨char, escaped⟩ := c
  rw [InputChar.isComma, Bool.and_eq_true, Bool.not_eq_true', beq_iff_eq] at h
  obtain ⟨hescaped, hchar⟩ := h
  cases hescaped
  cases hchar
  decide

theorem step_comma (h : c.isComma = true) : step ⟨base, level :: levels⟩ c =
    ⟨base, ⟨level.before ++ [level.current], .nil⟩ :: levels⟩ := by
  obtain ⟨hopen, hclose⟩ := isComma_spec h
  rw [step, hopen, hclose, if_neg (by simp), if_neg (by simp), if_pos h]

theorem step_literal (hopen : c.isOpen = false)
    (h : self.levels = [] ∨ c.isClose = false ∧ c.isComma = false) :
    self.step c = self.modify (·.addText [c.char]) := by
  obtain ⟨base, levels⟩ := self
  rw [step, hopen, if_neg (by simp)]
  rcases h with h | ⟨hclose, hcomma⟩
  · cases h
    simp
  · rw [hclose, hcomma, if_neg (by simp), if_neg (by simp)]

end Step

/-- A character that is not a brace or a comma of a level. -/
theorem expansion_char (h : c.isOpen = false) (cs : List InputChar) :
    expansion (c :: cs) = cross [[c.char]] (expansion cs) :=
  expansion_literal fun hopen => by rw [h] at hopen; cases hopen

/-! ## The induction -/

/-- What a text leaves of a reading where no brace closes the level. -/
def Leaves (cs : List InputChar) : Prop :=
  ∀ self : Reading, self.levels = [] ∨ closing 0 cs = none →
    (cs.foldl step self).expand = cross self.expand (expansion cs)

/-- What a text leaves of a reading where a brace closes the level. -/
def Closes (cs : List InputChar) : Prop :=
  ∀ (base : Pieces) (level : Level) (levels : List Level) (inner rest : List InputChar),
    closing 0 cs = some (inner, rest) → ∃ level', Fills inner level level' ∧
      cs.foldl step ⟨base, level :: levels⟩ = rest.foldl step
        (modify ⟨base, levels⟩ (·.append (closeLevel level')))

section Cons

variable {c : InputChar} {cs : List InputChar}

theorem leaves_literal (hopen : c.isOpen = false)
    (h : self.levels = [] ∨ c.isClose = false ∧ c.isComma = false)
    (hcs : (cs.foldl step (self.modify (·.addText [c.char]))).expand =
      cross (self.modify (·.addText [c.char])).expand (expansion cs)) :
    ((c :: cs).foldl step self).expand = cross self.expand (expansion (c :: cs)) := by
  rw [foldl_cons, step_literal hopen h, hcs, expansion_char hopen,
    expand_modify fun p => p.expand_addText _, cross_assoc]

theorem leaves_cons (hcs : ∀ cs', cs'.length ≤ cs.length → Leaves cs') (hclosed : Closes cs) :
    Leaves (c :: cs) := by
  intro self h
  have hlevels : ∀ {f}, self.levels = [] → (self.modify f).levels = [] :=
    Reading.levels_modify_eq_nil
  cases hopen : c.isOpen with
  | true =>
    obtain ⟨hclose, -⟩ := isOpen_spec hopen
    rw [foldl_cons, step_open hopen]
    obtain ⟨base, levels⟩ := self
    cases hi : closing 0 cs with
    | some split =>
      obtain ⟨inner, rest⟩ := split
      obtain ⟨level, hlevel, hfold⟩ := hclosed base {} levels inner rest hi
      have hle : rest.length ≤ cs.length := by
        have := length_of_closing hi
        omega
      have hrest : levels = [] ∨ closing 0 rest = none := by
        refine h.imp id fun h => ?_
        rw [closing_cons (by rw [hclose]; rfl), nesting, if_pos hopen, zero_add, closing_one,
          hi] at h
        simpa using h
      rw [hfold, hcs rest hle _ (hrest.imp hlevels id), expansion_open hopen hi,
        Reading.expand_modify fun p => p.expand_append _, hlevel.expand_closeLevel, cross_assoc]
    | none =>
      have hnew : Reading.expand ⟨base, {} :: levels⟩ =
          cross (Reading.expand ⟨base, levels⟩) [[b '{']] := by
        rw [Reading.expand, literals, Pieces.expand_append, Pieces.expand]
        show cross _ (cross [[b '{']] (Pieces.expand .nil)) = _
        rw [Pieces.expand, cross_one]
        rfl
      have hliteral : expansion (c :: cs) = cross [[c.char]] (expansion cs) :=
        expansion_literal fun _ i r hi' => by cases hi.symm.trans hi'
      rw [hcs cs le_rfl _ (.inr hi), hnew, hliteral, char_of_isOpen hopen, cross_assoc]
  | false =>
    rcases h with h | h
    · exact leaves_literal hopen (.inl h) (hcs cs le_rfl _ (.inl (hlevels h)))
    · cases hclose : c.isClose with
      | true =>
        rw [closing, hclose] at h
        cases h
      | false =>
        rw [closing_cons (by rw [hclose]; rfl), nesting, hopen, hclose, if_neg (by simp),
          if_neg (by simp), map_eq_none_iff] at h
        cases hcomma : c.isComma with
        | false =>
          exact leaves_literal hopen (.inr ⟨hclose, hcomma⟩) (hcs cs le_rfl _ (.inr h))
        | true =>
          obtain ⟨base, _ | ⟨level, levels⟩⟩ := self
          · exact leaves_literal hopen (.inl rfl) (hcs cs le_rfl _ (.inr h))
          · have hchar : c.char = b ',' := eq_of_beq (Bool.and_eq_true_iff.1 hcomma).2
            have hnew : Reading.expand
                ⟨base, ⟨level.before ++ [level.current], .nil⟩ :: levels⟩ =
                cross (Reading.expand ⟨base, level :: levels⟩) [[b ',']] := by
              rw [Reading.expand, Reading.expand, literals, literals, expand_append,
                Pieces.expand_append, Pieces.expand, Pieces.expand, Level.expand_comma]
              simp only [cross_assoc]
            rw [foldl_cons, step_comma hcomma, hcs cs le_rfl _ (.inr h), hnew,
              expansion_char hopen, hchar, cross_assoc]

theorem closes_cons (hcs : ∀ cs', cs'.length ≤ cs.length → Closes cs') : Closes (c :: cs) := by
  intro base level levels inner rest h
  rw [foldl_cons]
  cases hclose : c.isClose with
  | true =>
    rw [closing, hclose] at h
    cases h
    rw [step_close hclose]
    refine ⟨level, ⟨[], [], rfl, ?_⟩, rfl⟩
    rw [expansion_nil, cross_one, map_append]
    rfl
  | false =>
    rw [closing_cons (by rw [hclose]; rfl)] at h
    obtain ⟨⟨inner', rest'⟩, h', heq⟩ := map_eq_some_iff.1 h
    cases heq
    cases hopen : c.isOpen with
    | true =>
      rw [nesting, if_pos hopen, zero_add, closing_one] at h'
      obtain ⟨⟨i₁, r₁⟩, h₁, h'⟩ := bind_eq_some_iff.1 h'
      obtain ⟨⟨i₂, r₂⟩, h₂, heq⟩ := map_eq_some_iff.1 h'
      cases heq
      have hlength := length_of_closing h₁
      obtain ⟨level₁, hlevel₁, hfold₁⟩ := hcs cs le_rfl base {} (level :: levels) i₁ r₁ h₁
      obtain ⟨level₂, ⟨v, vs, hv, hlevel₂⟩, hfold₂⟩ := hcs r₁ (by omega) base
        { level with current := level.current.append (closeLevel level₁) } levels i₂ _ h₂
      refine ⟨level₂, ⟨c :: (i₁ ++ closeBrace :: v), vs, ?_, ?_⟩, ?_⟩
      · obtain ⟨-, hcomma⟩ := isOpen_spec hopen
        rw [variants_cons (by rw [hcomma]; rfl), nesting, if_pos hopen,
          variants_append 0 i₂ (closing_replace i₂ h₁), hv]
        rfl
      · rw [hlevel₂, expansion_open hopen (closing_replace v h₁), expand_append,
          hlevel₁.expand_closeLevel, cross_assoc]
      · rw [step_open hopen]
        exact hfold₁.trans hfold₂
    | false =>
      rw [nesting, hopen, hclose, if_neg (by simp), if_neg (by simp)] at h'
      cases hcomma : c.isComma with
      | true =>
        obtain ⟨level', ⟨v, vs, hv, hlevel⟩, hfold⟩ := hcs cs le_rfl base
          ⟨level.before ++ [level.current], .nil⟩ levels inner' _ h'
        rw [step_comma hcomma]
        refine ⟨level', ⟨[], v :: vs, ?_, ?_⟩, hfold⟩
        · rw [variants, hcomma, ← hv]
          rfl
        · rw [hlevel, expansion_nil, cross_one, Pieces.expand, one_cross]
          simp
      | false =>
        obtain ⟨level', ⟨v, vs, hv, hlevel⟩, hfold⟩ := hcs cs le_rfl base
          { level with current := level.current.addText [c.char] } levels inner' _ h'
        rw [step_literal hopen (.inr ⟨hclose, hcomma⟩)]
        refine ⟨level', ⟨c :: v, vs, ?_, ?_⟩, hfold⟩
        · rw [variants_cons (by rw [hcomma]; rfl), nesting, hopen, hclose, if_neg (by simp),
            if_neg (by simp), hv]
          rfl
        · rw [hlevel, expansion_char hopen, expand_addText, cross_assoc]

end Cons

/-- The induction is on the length: what follows a level that is closed is read on its own. -/
theorem leaves_and_closes (n : ℕ) : ∀ cs :
    List InputChar, cs.length ≤ n → Leaves cs ∧ Closes cs := by
  induction n with
  | zero =>
    intro cs hn
    obtain rfl := eq_nil_of_length_eq_zero (Nat.le_zero.1 hn)
    refine ⟨fun self _ => ?_, fun base level levels inner rest h => by cases h⟩
    rw [expansion_nil, cross_one]
    rfl
  | succ n ih =>
    rintro (_ | ⟨c, cs⟩) hn
    · refine ⟨fun self _ => ?_, fun base level levels inner rest h => by cases h⟩
      rw [expansion_nil, cross_one]
      rfl
    · have hcs : ∀ cs', cs'.length ≤ cs.length → Leaves cs' ∧ Closes cs' := fun cs' hle =>
        ih cs' (le_trans hle (Nat.le_of_succ_le_succ hn))
      exact ⟨leaves_cons (fun cs' hle => (hcs cs' hle).1) (hcs cs le_rfl).2,
        closes_cons fun cs' hle => (hcs cs' hle).2⟩

/-- The tokens of a text have its results. -/
theorem tokenize_spec (src : Bytes) : ∃ p : Pieces,
    tokenize src = .ok { tokens := p.tokens ++ [Token.eof], containsNested := p.nested 0 } ∧
      p.expand = expansion (chars src) := by
  obtain ⟨p, htokens, hexpand⟩ := tokenize_eq src
  refine ⟨p, htokens, hexpand.trans ?_⟩
  have hleaves := (leaves_and_closes (chars src).length (chars src) le_rfl).1 {} (.inl rfl)
  refine hleaves.trans ?_
  show cross (Pieces.expand .nil) _ = _
  rw [Pieces.expand, one_cross]

end Soup.Shell
