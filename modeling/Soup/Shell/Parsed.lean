import Soup.Shell.Pieces

/-!
# The tree of the parser

`Pieces.atoms` is the tree that `Parser` reads from the tokens of a row, where a group is told by
the token that it begins at. The parser reads it back (`parse_tokens`) when its fuel exceeds twice
the number of tokens.
-/

namespace Soup.Shell

open List Nat Token Variants

mutual

/-- The atoms of a row that begins at a token. -/
def Pieces.atoms : ℕ → Pieces → List Atom
  | _, .nil => []
  | pos, .text txt rest => .text txt :: rest.atoms (pos + 1)
  | pos, .group variants rest =>
    .expansion (variants.groups (pos + 1)) :: rest.atoms (pos + variants.tokens.length + 2)

/-- The variants of a group, the first of which begins at a token. -/
def Variants.groups : ℕ → Variants → List Group
  | pos, .last p => [Group.ofList pos (p.atoms pos)]
  | pos, .cons p rest =>
    Group.ofList pos (p.atoms pos) :: rest.groups (pos + p.tokens.length + 1)

end

theorem index_of_lt {α : Type} {xs : List α} {i : ℕ} (h : i < xs.length) :
    index xs i = .ok xs[i] := by
  rw [index, getElem?_eq_getElem h]

namespace Parser

variable {pre post : List Token} {tok : Token}

theorem peek_append : peek (pre ++ tok :: post) pre.length = .ok tok := index_append pre post tok

theorem advance_append (h : tok ≠ .eof) :
    advance (pre ++ tok :: post) pre.length = .ok (tok, pre.length + 1) := by
  have hend : isAtEnd (pre ++ tok :: post) pre.length = .ok false := by
    rw [isAtEnd, peek_append]
    exact congrArg Except.ok (beq_false_of_ne h)
  rw [advance, hend]
  show (index (pre ++ tok :: post) (pre.length + 1 - 1) >>= _) = _
  rw [Nat.add_sub_cancel, index_append]
  rfl

variable {is : Token → Bool}

theorem matchAny_of_not (h : is tok = false) :
    matchAny (pre ++ tok :: post) is pre.length = .ok (false, pre.length) := by
  rw [matchAny, peek_append]
  show (if is tok = true then _ else _) = _
  rw [h]
  rfl

theorem matchAny_append (h : is tok = true) (hne : tok ≠ .eof) :
    matchAny (pre ++ tok :: post) is pre.length = .ok (true, pre.length + 1) := by
  rw [matchAny, peek_append]
  show (if is tok = true then _ else _) = _
  rw [h, if_pos rfl, advance_append hne]
  rfl

/-- The last token is not consumed. -/
theorem matchAny_eof (h : is .eof = true) :
    matchAny (pre ++ [eof]) is pre.length = .ok (true, pre.length) := by
  have hend : isAtEnd (pre ++ [eof]) pre.length = .ok true := by
    rw [isAtEnd, peek_append]
    rfl
  rw [matchAny, peek_append]
  show (if is .eof = true then _ else _) = _
  rw [h, if_pos rfl, advance, hend]
  show ((if pre.length > 0 then index (pre ++ [eof]) (pre.length - 1) >>= _
    else peek (pre ++ [eof]) pre.length >>= _) >>= _) = _
  rw [index_of_lt (by rw [length_append, length_singleton]; omega), peek_append]
  split <;> rfl

/-- What ends a variant. -/
def ends (close : Bool) : Token := if close then .closing else .comma

theorem parseAtom_text {fuel : ℕ} {txt : Bytes} :
    parseAtom (pre ++ Token.text txt :: post) (fuel + 1) pre.length =
      .ok (some (.text txt), pre.length + 1) := by
  rw [parseAtom, advance_append (by simp)]
  rfl

theorem parseAtom_opening {fuel current : ℕ} {opened : ExpansionVariants} {variants : List Group}
    (h : parseExpansion (pre ++ opening opened :: post) fuel (pre.length + 1) =
      .ok (variants, current)) :
    parseAtom (pre ++ opening opened :: post) (fuel + 1) pre.length =
      .ok (some (.expansion variants), current) := by
  rw [parseAtom, advance_append (by simp)]
  show (parseExpansion _ _ _ >>= _) = _
  rw [h]
  rfl

/-- An atom of a variant. -/
theorem parseGroup_atom {fuel current next : ℕ} {atom : Atom} {atoms : List Atom} {close : Bool}
    (hends : isClosingOrEof tok = false) (hcomma : (tok == .comma) = false)
    (hatom : parseAtom (pre ++ tok :: post) fuel pre.length = .ok (some atom, next))
    (hrest : parseGroup (pre ++ tok :: post) fuel next = .ok (atoms, close, current)) :
    parseGroup (pre ++ tok :: post)
      (fuel + 1) pre.length = .ok (atom :: atoms, close, current) := by
  rw [parseGroup, matchAny_of_not hends]
  show (matchAny _ _ _ >>= _) = _
  rw [show matchAny (pre ++ tok :: post) (· == .comma) pre.length = _ from matchAny_of_not hcomma]
  show (parseAtom _ _ _ >>= _) = _
  rw [hatom]
  show (parseGroup _ _ _ >>= _) = _
  rw [hrest]
  rfl

mutual

/-- A variant, up to the token that ends it. -/
theorem parseGroup_tokens : ∀ (p : Pieces) (fuel : ℕ) (pre post : List Token) (close : Bool),
    2 * p.tokens.length < fuel →
    parseGroup (pre ++ (p.tokens ++ ends close :: post)) fuel pre.length =
      .ok (p.atoms pre.length, close, pre.length + p.tokens.length + 1)
  | .nil, fuel + 1, pre, post, close, _ => by
    rw [Pieces.tokens, nil_append, parseGroup]
    cases close with
    | true =>
      rw [matchAny_append rfl (by simp [ends])]
      rfl
    | false =>
      rw [matchAny_of_not rfl]
      show (matchAny _ _ _ >>= _) = _
      rw [matchAny_append rfl (by simp [ends])]
      rfl
  | .text txt rest, fuel + 1, pre, post, close, hfuel => by
    rw [Pieces.tokens, length_cons] at hfuel
    obtain ⟨fuel, rfl⟩ := exists_eq_succ_of_ne_zero (show fuel ≠ 0 by omega)
    have hrest := parseGroup_tokens rest (fuel + 1) (pre ++ [Token.text txt]) post close (by omega)
    rw [length_append, length_singleton, append_assoc, singleton_append,
      add_assoc pre.length, add_comm 1] at hrest
    exact parseGroup_atom rfl rfl parseAtom_text hrest
  | .group variants rest, fuel + 1, pre, post, close, hfuel => by
    have hlength := Pieces.length_tokens_group variants rest
    obtain ⟨fuel, rfl⟩ := exists_eq_succ_of_ne_zero (show fuel ≠ 0 by omega)
    have hvariants := parseExpansion_tokens variants fuel (pre ++ [opening {}])
      (rest.tokens ++ ends close :: post) (by omega)
    have hrest := parseGroup_tokens rest (fuel + 1)
      (pre ++ Token.opening {} :: (variants.tokens ++ [Token.closing])) post close (by omega)
    rw [hlength, Pieces.tokens, Pieces.atoms]
    simp only [length_append, length_cons, length_nil, append_assoc,
      cons_append, nil_append, zero_add] at hvariants hrest ⊢
    rw [show pre.length + (variants.tokens.length + 1 + 1) =
      pre.length + variants.tokens.length + 2 by omega] at hrest
    rw [show pre.length + 1 + variants.tokens.length + 1 =
      pre.length + variants.tokens.length + 2 by omega] at hvariants
    rw [show pre.length + (variants.tokens.length + rest.tokens.length + 2) + 1 =
      pre.length + variants.tokens.length + 2 + rest.tokens.length + 1 by omega]
    exact parseGroup_atom rfl rfl (parseAtom_opening hvariants) hrest

/-- The variants of a group, up to the brace that closes it. -/
theorem parseExpansion_tokens : ∀ (v : Variants) (fuel : ℕ) (pre post : List Token),
    2 * v.tokens.length + 1 < fuel →
    parseExpansion (pre ++ (v.tokens ++ Token.closing :: post)) fuel pre.length =
      .ok (v.groups pre.length, pre.length + v.tokens.length + 1)
  | .last p, fuel + 1, pre, post, hfuel => by
    rw [tokens] at hfuel ⊢
    have hgroup := parseGroup_tokens p fuel pre post true (by omega)
    rw [parseExpansion]
    refine (congrArg (· >>= _) hgroup).trans ?_
    rfl
  | .cons p v, fuel + 1, pre, post, hfuel => by
    rw [tokens, length_append, length_cons] at hfuel
    have hgroup := parseGroup_tokens p fuel pre (v.tokens ++ Token.closing :: post) false (by omega)
    have hv := parseExpansion_tokens v fuel (pre ++ (p.tokens ++ [comma])) post (by omega)
    rw [parseExpansion, tokens, length_append, length_cons, groups]
    simp only [length_append, length_singleton, append_assoc, cons_append,
      nil_append, ← add_assoc] at hv ⊢
    refine (congrArg (· >>= _) hgroup).trans ?_
    show (parseExpansion _ _ (pre.length + p.tokens.length + 1) >>= _) = _
    rw [hv, show pre.length + p.tokens.length + 1 + v.tokens.length + 1 =
      pre.length + p.tokens.length + v.tokens.length + 1 + 1 by omega]
    rfl

end

theorem parseNodes_atom {fuel next : ℕ} {atom : Atom} {atoms : List Atom}
    (heof : (tok == .eof) = false)
    (hatom : parseAtom (pre ++ tok :: post) fuel pre.length = .ok (some atom, next))
    (hrest : parseNodes (pre ++ tok :: post) fuel next = .ok atoms) :
    parseNodes (pre ++ tok :: post) (fuel + 1) pre.length = .ok (atom :: atoms) := by
  rw [parseNodes,
    show matchAny (pre ++ tok :: post) (· == .eof) pre.length = _ from matchAny_of_not heof]
  show (parseAtom _ _ _ >>= _) = _
  rw [hatom]
  show (parseNodes _ _ _ >>= _) = _
  rw [hrest]
  rfl

theorem parseNodes_tokens : ∀ (p : Pieces) (fuel : ℕ) (pre : List Token),
    2 * p.tokens.length < fuel →
    parseNodes (pre ++ (p.tokens ++ [eof])) fuel pre.length = .ok (p.atoms pre.length)
  | .nil, fuel + 1, pre, _ => by
    rw [Pieces.tokens, nil_append, parseNodes, matchAny_eof rfl]
    rfl
  | .text txt rest, fuel + 1, pre, hfuel => by
    rw [Pieces.tokens, length_cons] at hfuel
    obtain ⟨fuel, rfl⟩ := exists_eq_succ_of_ne_zero (show fuel ≠ 0 by omega)
    have hrest := parseNodes_tokens rest (fuel + 1) (pre ++ [Token.text txt]) (by omega)
    rw [length_append, length_singleton, append_assoc, singleton_append]
      at hrest
    exact parseNodes_atom rfl parseAtom_text hrest
  | .group variants rest, fuel + 1, pre, hfuel => by
    have hlength := Pieces.length_tokens_group variants rest
    obtain ⟨fuel, rfl⟩ := exists_eq_succ_of_ne_zero (show fuel ≠ 0 by omega)
    have hvariants := parseExpansion_tokens variants fuel (pre ++ [opening {}])
      (rest.tokens ++ [eof]) (by omega)
    have hrest := parseNodes_tokens rest (fuel + 1)
      (pre ++ Token.opening {} :: (variants.tokens ++ [Token.closing])) (by omega)
    rw [Pieces.tokens, Pieces.atoms]
    simp only [length_append, length_cons, length_nil, append_assoc,
      cons_append, nil_append, zero_add] at hvariants hrest ⊢
    rw [show pre.length + (variants.tokens.length + 1 + 1) =
      pre.length + variants.tokens.length + 2 by omega] at hrest
    rw [show pre.length + 1 + variants.tokens.length + 1 =
      pre.length + variants.tokens.length + 2 by omega] at hvariants
    exact parseNodes_atom rfl (parseAtom_opening hvariants) hrest

/-- The parser reads the tree of a row. -/
theorem parse_tokens (p : Pieces) {fuel : ℕ} (hfuel : 2 * p.tokens.length < fuel)
    (hcount : checkBraceGroupCount (p.tokens ++ [eof]) = .ok ()) :
    parse fuel (p.tokens ++ [eof]) = .ok (Group.ofList 0 (p.atoms 0)) := by
  rw [parse, hcount]
  have h := parseNodes_tokens p fuel [] hfuel
  rw [nil_append, length_nil] at h
  rw [h]
  rfl

end Parser

end Soup.Shell
