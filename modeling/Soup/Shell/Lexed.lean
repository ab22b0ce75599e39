import Soup.Shell.Expansion
import Soup.Shell.Pieces

/-!
# What the lexer reads

A `Reading` is the row of pieces before the first open brace and the levels that are open, each with
the variants before its last comma. `Lexer.step` is a step of a reading (`step_spec`), rolling back
makes the open levels literal (`rollback_spec`), and flattening joins texts (`flatten_spec`), so
that the tokens are those of a row of pieces.
-/

namespace Soup.Shell

open Soup.Lib List Option

/-! ## Rows -/

/-- A text at the end of a row, joined with a text before it. -/
def Pieces.addText : Pieces → Bytes → Pieces
  | .nil, txt => .text txt .nil
  | .text prev .nil, txt => .text (prev ++ txt) .nil
  | .text prev rest, txt => .text prev (rest.addText txt)
  | .group variants rest, txt => .group variants (rest.addText txt)

theorem Pieces.expand_addText : ∀ (p : Pieces) (txt : Bytes),
    (p.addText txt).expand = cross p.expand [txt]
  | .nil, txt => by simp only [addText, expand, cross_one, one_cross]
  | .text prev .nil, txt => by
    simp only [addText, expand, cross_one, singleton_cross_singleton]
  | .text prev (.text txt' rest), txt => by
    show cross [prev] (addText (.text txt' rest) txt).expand = cross (cross [prev] _) [txt]
    rw [expand_addText, cross_assoc]
  | .text prev (.group variants rest), txt => by
    show cross [prev] (addText (.group variants rest) txt).expand = cross (cross [prev] _) [txt]
    rw [expand_addText, cross_assoc]
  | .group variants rest, txt => by
    rw [addText, expand, expand_addText rest, expand, cross_assoc]

/-- No text ends here, so that one begins. -/
def NoText (tokens : List Token) : Prop := ∀ txt, tokens.getLast? ≠ some (.text txt)

theorem noText_append {tok : Token} (pre : List Token) (h : ∀ txt, tok ≠ .text txt) :
    NoText (pre ++ [tok]) := by
  intro txt
  rw [getLast?_append, getLast?_singleton, some_or]
  exact fun heq => h txt (some.inj heq)

/-- `Token::Text` at the end of the tokens: joined with a text, or a token of its own. -/
def joinText (tokens : List Token) (txt : Bytes) : List Token :=
  match tokens.getLast? with
  | some (.text last) => tokens.dropLast ++ [Token.text (last ++ txt)]
  | _ => tokens ++ [Token.text txt]

theorem joinText_of_noText {tokens : List Token} (h : NoText tokens) (txt : Bytes) :
    joinText tokens txt = tokens ++ [Token.text txt] := by
  rw [joinText]
  split
  next last hlast =>
    exact absurd hlast (h last)
  · rfl

theorem joinText_append (pre : List Token) (last txt : Bytes) :
    joinText (pre ++ [Token.text last]) txt = pre ++ [Token.text (last ++ txt)] := by
  rw [joinText]
  simp

theorem joinText_tokens (txt : Bytes) : ∀ (p : Pieces) (pre : List Token),
    NoText pre ∨ p ≠ .nil → joinText (pre ++ p.tokens) txt = pre ++ (p.addText txt).tokens
  | .nil, pre, h => by
    rw [Pieces.tokens, append_nil, joinText_of_noText (h.resolve_right fun h => h rfl)]
    rfl
  | .text prev .nil, pre, _ => joinText_append pre prev txt
  | .text prev (.text txt' rest), pre, _ => by
    have ih := joinText_tokens txt (.text txt' rest) (pre ++ [Token.text prev]) (.inr (by simp))
    rw [append_assoc, append_assoc] at ih
    exact ih
  | .text prev (.group variants rest), pre, _ => by
    have ih := joinText_tokens txt (.group variants rest) (pre ++ [Token.text prev])
      (.inr (by simp))
    rw [append_assoc, append_assoc] at ih
    exact ih
  | .group variants rest, pre, _ => by
    have hpre : NoText (pre ++ (Token.opening {} :: variants.tokens) ++ [Token.closing]) :=
      noText_append _ fun txt h => by cases h
    have ih := joinText_tokens txt rest _ (.inl hpre)
    simp only [Pieces.tokens, Pieces.addText, append_assoc, cons_append, nil_append] at ih ⊢
    exact ih

variable (tokens : List Token)

theorem appendChar_eq (char : UInt8) :
    appendChar tokens char = joinText tokens [char] := rfl

/-! ## Readings -/

/-- What was read of a level: the variants before its last comma, and the row after it. -/
structure Level where
  before : List Pieces := []
  current : Pieces := .nil

structure Reading where
  base : Pieces := .nil
  levels : List Level := []

namespace Level

variable (self : Level)

def variants : Variants := self.before.foldr .cons (.last self.current)

/-- The level without its braces. -/
def literal : Pieces := self.before.foldr (fun p q => p.append (.text [b ','] q)) self.current

theorem tokens_variants : self.variants.tokens =
    self.before.flatMap (fun p => p.tokens ++ [Token.comma]) ++ self.current.tokens := by
  obtain ⟨before, current⟩ := self
  rw [variants]
  induction before with
  | nil => rfl
  | cons p before ih =>
    rw [foldr_cons, Variants.tokens, ih, flatMap_cons]
    simp

end Level

/-- The tokens of the base and the levels. -/
def levelsTokens (base : Pieces) : List Level → List Token
  | [] => base.tokens
  | level :: levels => levelsTokens base levels ++ Token.opening {} :: level.variants.tokens

def levelsStack (base : Pieces) : List Level → List OpenBrace
  | [] => []
  | level :: levels =>
    { tokIdx := (levelsTokens base levels).length, hasComma := !level.before.isEmpty } ::
      levelsStack base levels

namespace Reading

variable (self : Reading)

/-- The state of the lexer. -/
def toLexer : Lexer where
  tokens := levelsTokens self.base self.levels
  braceStack := levelsStack self.base self.levels

/-- Changes the row at the end. -/
def modify (f : Pieces → Pieces) : Reading :=
  match self.levels with
  | [] => { self with base := f self.base }
  | level :: levels => { self with levels := { level with current := f level.current } :: levels }

/-- The row at the end, and the tokens before it. -/
def row : Pieces :=
  match self.levels with
  | [] => self.base
  | level :: _ => level.current

def before : List Token :=
  match self.levels with
  | [] => []
  | level :: levels => levelsTokens self.base levels ++
    Token.opening {} :: level.before.flatMap fun p => p.tokens ++ [Token.comma]

theorem tokens_eq : self.toLexer.tokens = self.before ++ self.row.tokens := by
  obtain ⟨base, _ | ⟨level, levels⟩⟩ := self
  · rfl
  · rw [toLexer, levelsTokens, before, row, level.tokens_variants]
    simp

variable (f : Pieces → Pieces)

theorem tokens_modify : (self.modify f).toLexer.tokens = self.before ++ (f self.row).tokens := by
  obtain ⟨base, _ | ⟨level, levels⟩⟩ := self
  · rfl
  · rw [modify, toLexer, levelsTokens, before, row, Level.tokens_variants]
    simp

theorem braceStack_modify : (self.modify f).toLexer.braceStack = self.toLexer.braceStack := by
  obtain ⟨base, _ | ⟨level, levels⟩⟩ := self
  · rfl
  · rfl

theorem noText_before : NoText self.before := by
  obtain ⟨base, _ | ⟨level, levels⟩⟩ := self
  · exact fun txt h => by cases h
  · show NoText (levelsTokens base levels ++
      Token.opening {} :: level.before.flatMap fun p => p.tokens ++ [Token.comma])
    rcases eq_nil_or_concat level.before with hnil | ⟨before, p, hp⟩
    · rw [hnil, flatMap_nil]
      exact noText_append _ fun txt h => by cases h
    · rw [hp, concat_eq_append, flatMap_append, flatMap_singleton,
        ← append_assoc, ← cons_append, ← append_assoc]
      exact noText_append _ fun txt h => by cases h

theorem toLexer_modify : (self.modify f).toLexer =
    { self.toLexer with tokens := self.before ++ (f self.row).tokens } := by
  show Lexer.mk (self.modify f).toLexer.tokens (self.modify f).toLexer.braceStack =
    Lexer.mk _ self.toLexer.braceStack
  rw [self.tokens_modify f, self.braceStack_modify f]

/-- What a closing brace makes of its level. -/
def closeLevel (level : Level) : Pieces :=
  if level.before = [] then .text [b '{'] (level.current.append (.text [b '}'] .nil))
  else .group level.variants .nil

def step (c : InputChar) : Reading :=
  let literal := self.modify (·.addText [c.char])
  if c.isOpen then { self with levels := {} :: self.levels }
  else if c.isClose then
    match self.levels with
    | [] => literal
    | level :: levels => { self with levels }.modify (·.append (closeLevel level))
  else if c.isComma then
    match self.levels with
    | [] => literal
    | level :: levels =>
      { self with levels := { before := level.before ++ [level.current] } :: levels }
  else literal

/-! ## The lexer -/

theorem toLexer_addText (txt : Bytes) : (self.modify (·.addText txt)).toLexer =
    { self.toLexer with tokens := joinText self.toLexer.tokens txt } := by
  rw [self.toLexer_modify, self.tokens_eq, joinText_tokens txt _ _ (.inl self.noText_before)]

theorem toLexer_append (p : Pieces) : (self.modify (·.append p)).toLexer =
    { self.toLexer with tokens := self.toLexer.tokens ++ p.tokens } := by
  rw [self.toLexer_modify, self.tokens_eq, Pieces.tokens_append, append_assoc]

end Reading

theorem replaceTokenWithString_append (pre rest : List Token) (tok : Token) :
    replaceTokenWithString (pre ++ tok :: rest) pre.length =
      .ok (pre ++ Token.text tok.toText :: rest) := by
  rw [replaceTokenWithString, index, getElem?_append_right le_rfl, Nat.sub_self,
    getElem?_cons_zero]
  show Except.ok ((pre ++ tok :: rest).set pre.length (.text tok.toText)) = _
  rw [set_append_right _ _ le_rfl, Nat.sub_self, set_cons_zero]

/-- The lexer does not panic, and its state is that of the reading. -/
theorem Reading.step_spec (self : Reading) (c : InputChar) :
    self.toLexer.step c = .ok (self.step c).toLexer := by
  have hliteral := self.toLexer_addText [c.char]
  obtain ⟨char, escaped⟩ := c
  obtain ⟨base, levels⟩ := self
  cases escaped with
  | true =>
    simp only [Lexer.step, Reading.step, InputChar.isOpen, InputChar.isClose, InputChar.isComma,
      Bool.not_true, Bool.false_and, Bool.false_eq_true, if_true, if_false]
    rw [hliteral, appendChar_eq]
  | false =>
    simp only [Lexer.step, Reading.step, InputChar.isOpen, InputChar.isClose, InputChar.isComma,
      Bool.not_false, Bool.true_and, Bool.false_eq_true, if_false, beq_iff_eq]
    by_cases hopen : char = b '{'
    · rw [if_pos hopen, if_pos hopen]
      rfl
    rw [if_neg hopen, if_neg hopen]
    by_cases hclose : char = b '}'
    · rw [if_pos hclose, if_pos hclose]
      cases levels with
      | nil => exact congrArg _ hliteral.symm
      | cons level levels =>
        simp only [Reading.toLexer_append]
        show (if (!level.before.isEmpty) = true then _ else _) = _
        rw [Reading.closeLevel]
        by_cases hbefore : level.before = []
        · rw [if_pos hbefore, hbefore]
          show (replaceTokenWithString (levelsTokens base levels ++ Token.opening {} ::
            level.variants.tokens) (levelsTokens base levels).length >>= _) = _
          rw [replaceTokenWithString_append, level.tokens_variants, hbefore]
          simp [Bind.bind, Except.bind, Pure.pure, Except.pure, Reading.toLexer, Pieces.tokens,
            Pieces.tokens_append, Token.toText]
        · rw [if_neg hbefore, if_pos (by simpa using hbefore)]
          simp [Reading.toLexer, levelsTokens, Pieces.tokens]
    rw [if_neg hclose, if_neg hclose]
    by_cases hcomma : char = b ','
    · rw [if_pos hcomma, if_pos hcomma]
      cases levels with
      | nil => exact congrArg _ hliteral.symm
      | cons level levels =>
        simp [Reading.toLexer, levelsTokens, levelsStack, Level.tokens_variants, Pieces.tokens]
    · rw [if_neg hcomma, if_neg hcomma, hliteral, appendChar_eq]

theorem Reading.foldlM_step (cs : List InputChar) : ∀ self : Reading,
    cs.foldlM Lexer.step self.toLexer = .ok (cs.foldl Reading.step self).toLexer := by
  induction cs with
  | nil => exact fun _ => rfl
  | cons c cs ih =>
    intro self
    rw [foldlM_cons, self.step_spec]
    exact ih _

/-! ## Rolling back -/

mutual

theorem Pieces.rollbackFrom_succ (k : ℕ) : ∀ (p : Pieces) (rest : List Token),
    rollbackFrom (k + 1) (p.tokens ++ rest) = p.tokens ++ rollbackFrom (k + 1) rest
  | .nil, rest => rfl
  | .text txt p, rest => congrArg _ (p.rollbackFrom_succ k rest)
  | .group variants p, rest => by
    rw [Pieces.tokens, append_assoc, cons_append, rollbackFrom, cons_append,
      variants.rollbackFrom_succ (k + 1), cons_append, rollbackFrom, p.rollbackFrom_succ k,
      cons_append, append_assoc, cons_append]

theorem Variants.rollbackFrom_succ (k : ℕ) : ∀ (v : Variants) (rest : List Token),
    rollbackFrom (k + 1) (v.tokens ++ rest) = v.tokens ++ rollbackFrom (k + 1) rest
  | .last p, rest => p.rollbackFrom_succ k rest
  | .cons p v, rest => by
    have hcomma : rollbackFrom (k + 1) (.comma :: (v.tokens ++ rest)) =
        .comma :: rollbackFrom (k + 1) (v.tokens ++ rest) := rfl
    rw [Variants.tokens, append_assoc, p.rollbackFrom_succ k, cons_append, hcomma,
      v.rollbackFrom_succ k, append_assoc, cons_append]

end

theorem Pieces.rollbackFrom_zero : ∀ (p : Pieces) (rest : List Token),
    rollbackFrom 0 (p.tokens ++ rest) = p.tokens ++ rollbackFrom 0 rest
  | .nil, rest => rfl
  | .text txt p, rest => congrArg _ (p.rollbackFrom_zero rest)
  | .group variants p, rest => by
    rw [Pieces.tokens, List.append_assoc, cons_append, rollbackFrom, cons_append,
      variants.rollbackFrom_succ 0, cons_append, rollbackFrom, p.rollbackFrom_zero,
      cons_append, List.append_assoc, cons_append]

/-- The commas of the level become text. -/
theorem Level.rollbackFrom_variants (self : Level) (rest : List Token) :
    rollbackFrom 0 (self.variants.tokens ++ rest) =
      self.literal.tokens ++ rollbackFrom 0 rest := by
  obtain ⟨before, current⟩ := self
  rw [variants, literal]
  induction before with
  | nil => exact current.rollbackFrom_zero rest
  | cons p before ih =>
    rw [foldr_cons, foldr_cons, Variants.tokens, append_assoc, p.rollbackFrom_zero,
      Pieces.tokens_append, Pieces.tokens, append_assoc]
    exact congrArg (p.tokens ++ Token.text [b ','] :: ·) ih

/-- The row that is left when no open level is closed. -/
def literals (base : Pieces) : List Level → Pieces
  | [] => base
  | level :: levels => (literals base levels).append (.text [b '{'] level.literal)

theorem rollbackBraces_append (pre : List Token) (level : Level) (q : Pieces) :
    rollbackBraces (pre ++ Token.opening {} :: level.variants.tokens ++ q.tokens) pre.length =
      .ok (pre ++ (Pieces.text [b '{'] (level.literal.append q)).tokens) := by
  rw [rollbackBraces, append_assoc, cons_append, replaceTokenWithString_append]
  show Except.ok (_ ++ rollbackFrom 0 _) = _
  have hlen : pre.length + 1 = (pre ++ [Token.text (Token.opening {}).toText]).length := by simp
  rw [append_cons, hlen, take_left, drop_left, Level.rollbackFrom_variants]
  have hq := q.rollbackFrom_zero []
  rw [append_nil] at hq
  rw [hq]
  simp [rollbackFrom, Pieces.tokens, Pieces.tokens_append, Token.toText]

theorem rollback_spec (base : Pieces) (levels : List Level) : ∀ q : Pieces,
    (levelsStack base levels).foldlM (fun tokens top => rollbackBraces tokens top.tokIdx)
      (levelsTokens base levels ++ q.tokens) = .ok ((literals base levels).append q).tokens := by
  induction levels with
  | nil =>
    intro q
    rw [levelsStack, levelsTokens, literals, Pieces.tokens_append]
    rfl
  | cons level levels ih =>
    intro q
    rw [levelsStack, levelsTokens, foldlM_cons, rollbackBraces_append]
    refine (ih (.text [b '{'] (level.literal.append q))).trans ?_
    rw [literals, Pieces.append_assoc]
    rfl

/-! ## Flattening -/

mutual

/-- A row with its texts joined, after another row. -/
def Pieces.joined : Pieces → Pieces → Pieces
  | .nil, q => q
  | .text txt rest, q => rest.joined (q.addText txt)
  | .group variants rest, q => rest.joined (q.append (.group variants.joined .nil))

def Variants.joined : Variants → Variants
  | .last p => .last (p.joined .nil)
  | .cons p v => .cons (p.joined .nil) v.joined

end

mutual

theorem Pieces.expand_joined : ∀ p q : Pieces, (p.joined q).expand = cross q.expand p.expand
  | .nil, q => by rw [Pieces.joined, Pieces.expand, cross_one]
  | .text txt p, q => by
    rw [Pieces.joined, p.expand_joined, Pieces.expand_addText, Pieces.expand, cross_assoc]
  | .group variants p, q => by
    rw [Pieces.joined, p.expand_joined, Pieces.expand_append, Pieces.expand, Pieces.expand,
      variants.expand_joined, Pieces.expand, cross_one, cross_assoc]

theorem Variants.expand_joined : ∀ v : Variants, v.joined.expand = v.expand
  | .last p => by
    rw [Variants.joined, Variants.expand, Variants.expand, p.expand_joined, Pieces.expand,
      one_cross]
  | .cons p v => by
    rw [Variants.joined, Variants.expand, Variants.expand, p.expand_joined, Pieces.expand,
      one_cross, v.expand_joined]

end

theorem Flattened.step_text (depth : ℕ) (nested : Bool) (txt : Bytes) :
    Flattened.step ⟨tokens, depth, nested⟩ (.text txt) =
      .ok ⟨joinText tokens txt, depth, nested⟩ := by
  show Except.ok (Flattened.mk _ depth nested) = _
  rw [joinText]
  cases tokens.getLast? with
  | none => rfl
  | some tok => cases tok <;> rfl

theorem Flattened.step_opening (depth : ℕ) (nested : Bool) :
    Flattened.step ⟨tokens, depth, nested⟩ (.opening {}) =
      .ok ⟨tokens ++ [Token.opening {}], depth + 1, nested || decide (depth + 1 > 1)⟩ := by
  show Except.ok (Flattened.mk _ (depth + 1) _) = _
  cases tokens.getLast? with
  | none => rfl
  | some tok => cases tok <;> rfl

theorem Flattened.step_closing (depth : ℕ) (nested : Bool) :
    Flattened.step ⟨tokens, depth + 1, nested⟩ .closing =
      .ok ⟨tokens ++ [Token.closing], depth, nested⟩ := by
  show Except.ok (Flattened.mk _ depth nested) = _
  cases tokens.getLast? with
  | none => rfl
  | some tok => cases tok <;> rfl

theorem Flattened.step_comma (depth : ℕ) (nested : Bool) :
    Flattened.step ⟨tokens, depth, nested⟩ .comma =
      .ok ⟨tokens ++ [Token.comma], depth, nested⟩ := by
  show Except.ok (Flattened.mk _ depth nested) = _
  cases tokens.getLast? with
  | none => rfl
  | some tok => cases tok <;> rfl

mutual

theorem Pieces.foldlM_flatten : ∀ (p q : Pieces) (pre rest : List Token) (depth : ℕ)
    (nested : Bool), NoText pre →
      (p.tokens ++ rest).foldlM Flattened.step ⟨pre ++ q.tokens, depth, nested⟩ =
        rest.foldlM Flattened.step
          ⟨pre ++ (p.joined q).tokens, depth, nested || p.nested depth⟩
  | .nil, q, pre, rest, depth, nested, _ => by
    rw [Pieces.tokens, Pieces.joined, Pieces.nested, Bool.or_false, nil_append]
  | .text txt p, q, pre, rest, depth, nested, hpre => by
    rw [Pieces.tokens, cons_append, foldlM_cons, Flattened.step_text,
      joinText_tokens txt q pre (.inl hpre)]
    exact p.foldlM_flatten (q.addText txt) pre rest depth nested hpre
  | .group variants p, q, pre, rest, depth, nested, hpre => by
    have hopening : NoText (pre ++ q.tokens ++ [Token.opening {}]) :=
      noText_append _ fun txt h => by cases h
    rw [Pieces.tokens, append_assoc, cons_append, foldlM_cons, Flattened.step_opening]
    refine (variants.foldlM_flatten _ (.closing :: p.tokens ++ rest) (depth + 1) _
      hopening).trans ?_
    rw [cons_append, foldlM_cons, Flattened.step_closing]
    have hp := p.foldlM_flatten (q.append (.group variants.joined .nil)) pre rest depth
      (nested || decide (depth + 1 > 1) || variants.nested (depth + 1)) hpre
    rw [Pieces.tokens_append] at hp
    simp only [Pieces.tokens, Pieces.joined, Pieces.nested, append_assoc, cons_append,
      nil_append, Bool.or_assoc] at hp ⊢
    exact hp

theorem Variants.foldlM_flatten : ∀ (v : Variants) (pre rest : List Token) (depth : ℕ)
    (nested : Bool), NoText pre →
      (v.tokens ++ rest).foldlM Flattened.step ⟨pre, depth, nested⟩ =
        rest.foldlM Flattened.step ⟨pre ++ v.joined.tokens, depth, nested || v.nested depth⟩
  | .last p, pre, rest, depth, nested, hpre => by
    have hp := p.foldlM_flatten .nil pre rest depth nested hpre
    rwa [Pieces.tokens, append_nil] at hp
  | .cons p v, pre, rest, depth, nested, hpre => by
    have hp := p.foldlM_flatten .nil pre (.comma :: v.tokens ++ rest) depth nested hpre
    rw [Pieces.tokens, append_nil] at hp
    have hcomma : NoText (pre ++ (p.joined .nil).tokens ++ [Token.comma]) :=
      noText_append _ fun txt h => by cases h
    have hv := v.foldlM_flatten _ rest depth (nested || p.nested depth) hcomma
    rw [Variants.tokens, append_assoc, hp, cons_append, foldlM_cons, Flattened.step_comma]
    refine hv.trans ?_
    simp only [Variants.joined, Variants.tokens, Variants.nested, append_assoc,
      cons_append, nil_append, Bool.or_assoc]

end

theorem Pieces.nested_append (depth : ℕ) : ∀ p q : Pieces,
    (p.append q).nested depth = (p.nested depth || q.nested depth)
  | .nil, q => by rw [Pieces.append, Pieces.nested, Bool.false_or]
  | .text txt p, q => by
    rw [Pieces.append, Pieces.nested, Pieces.nested, p.nested_append]
  | .group variants p, q => by
    simp only [Pieces.append, Pieces.nested, p.nested_append, Bool.or_assoc]

theorem Pieces.nested_addText (depth : ℕ) (txt : Bytes) : ∀ p : Pieces,
    (p.addText txt).nested depth = p.nested depth
  | .nil => rfl
  | .text prev .nil => rfl
  | .text prev (.text txt' p) => Pieces.nested_addText depth txt (.text txt' p)
  | .text prev (.group variants p) => Pieces.nested_addText depth txt (.group variants p)
  | .group variants p => by
    rw [Pieces.addText, Pieces.nested, Pieces.nested, p.nested_addText]

mutual

theorem Pieces.nested_joined (depth : ℕ) : ∀ p q : Pieces,
    (p.joined q).nested depth = (q.nested depth || p.nested depth)
  | .nil, q => by rw [Pieces.joined, Pieces.nested, Bool.or_false]
  | .text txt p, q => by
    rw [Pieces.joined, p.nested_joined, Pieces.nested_addText, Pieces.nested]
  | .group variants p, q => by
    rw [Pieces.joined, p.nested_joined, Pieces.nested_append, Pieces.nested, Pieces.nested,
      variants.nested_joined, Pieces.nested, Bool.or_false, Bool.or_assoc]

theorem Variants.nested_joined (depth : ℕ) : ∀ v : Variants,
    v.joined.nested depth = v.nested depth
  | .last p => by
    rw [Variants.joined, Variants.nested, p.nested_joined, Pieces.nested, Variants.nested,
      Bool.false_or]
  | .cons p v => by
    rw [Variants.joined, Variants.nested, p.nested_joined, Pieces.nested, Variants.nested,
      v.nested_joined, Bool.false_or]

end

/-! ## The tokens -/

/-- The tokens are those of the row that is left at the end, with its texts joined. -/
theorem tokenize_eq (src : Bytes) : ∃ p : Pieces,
    tokenize src = .ok { tokens := p.tokens ++ [Token.eof], containsNested := p.nested 0 } ∧
      p.expand =
        (literals ((chars src).foldl Reading.step {}).base
          ((chars src).foldl Reading.step {}).levels).expand := by
  generalize hread : (chars src).foldl Reading.step {} = read
  have hfold := Reading.foldlM_step (chars src) {}
  rw [hread] at hfold
  have hroll := rollback_spec read.base read.levels .nil
  rw [Pieces.tokens, append_nil] at hroll
  refine ⟨((literals read.base read.levels).append .nil).joined .nil, ?_, ?_⟩
  · have hflat := ((literals read.base read.levels).append .nil).foldlM_flatten .nil [] [] 0 false
      fun txt h => by cases h
    rw [append_nil] at hflat
    rw [tokenize]
    show ((chars src).foldlM Lexer.step (Reading.toLexer {}) >>= _) = _
    rw [hfold]
    show ((levelsStack read.base read.levels).foldlM
      (fun tokens top => rollbackBraces tokens top.tokIdx)
      (levelsTokens read.base read.levels) >>= _) = _
    rw [hroll]
    show (foldlM Flattened.step ⟨[] ++ Pieces.nil.tokens, 0, false⟩ _ >>= _) = _
    rw [hflat, Pieces.nested_joined, Pieces.nested]
    rfl
  · rw [Pieces.expand_joined, Pieces.expand_append, Pieces.expand, cross_one, one_cross]

end Soup.Shell
