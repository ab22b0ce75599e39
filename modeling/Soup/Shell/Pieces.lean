import Soup.Lib.Cross
import Soup.Shell.Braces

/-!
# Trees of groups and the buffers

The tokens of the lexer are those of a sequence of texts and groups (`Pieces.tokens`), whose results
`Pieces.expand` gives. `calculate_expanded_amount` counts these results (`amountWith_tokens`).
-/

namespace Soup.Shell

open Soup.Lib List

mutual

/-- Texts and groups in a row. -/
inductive Pieces
  | nil
  | text (txt : Bytes) (rest : Pieces)
  | group (variants : Variants) (rest : Pieces)

/-- The variants of a group. -/
inductive Variants
  | last (pieces : Pieces)
  | cons (pieces : Pieces) (rest : Variants)

end

mutual

/-- The results, in order. -/
def Pieces.expand : Pieces → List Bytes
  | .nil => [[]]
  | .text txt rest => cross [txt] rest.expand
  | .group variants rest => cross variants.expand rest.expand

def Variants.expand : Variants → List Bytes
  | .last pieces => pieces.expand
  | .cons pieces rest => pieces.expand ++ rest.expand

end

mutual

/-- The tokens that the lexer gives. -/
def Pieces.tokens : Pieces → List Token
  | .nil => []
  | .text txt rest => .text txt :: rest.tokens
  | .group variants rest => .opening {} :: variants.tokens ++ Token.closing :: rest.tokens

def Variants.tokens : Variants → List Token
  | .last pieces => pieces.tokens
  | .cons pieces rest => pieces.tokens ++ Token.comma :: rest.tokens

end

mutual

/-- Whether a group lies inside of one, or of `depth` that are open. -/
def Pieces.nested : ℕ → Pieces → Bool
  | _, .nil => false
  | depth, .text _ rest => rest.nested depth
  | depth, .group variants rest =>
    decide (depth + 1 > 1) || variants.nested (depth + 1) || rest.nested depth

def Variants.nested : ℕ → Variants → Bool
  | depth, .last p => p.nested depth
  | depth, .cons p v => p.nested depth || v.nested depth

end

namespace Pieces

theorem length_tokens_group (variants : Variants) (rest : Pieces) :
    (Pieces.group variants rest).tokens.length = variants.tokens.length + rest.tokens.length +
      2 := by
  simp only [tokens, length_append, length_cons, cons_append]
  omega

def append : Pieces → Pieces → Pieces
  | .nil, q => q
  | .text txt rest, q => .text txt (rest.append q)
  | .group variants rest, q => .group variants (rest.append q)

theorem tokens_append : ∀ p q : Pieces, (p.append q).tokens = p.tokens ++ q.tokens
  | .nil, _ => rfl
  | .text txt rest, q => by rw [append, tokens, tokens, tokens_append rest q, cons_append]
  | .group variants rest, q => by
    rw [append, tokens, tokens, tokens_append rest q]
    simp

theorem expand_append : ∀ p q : Pieces, (p.append q).expand = cross p.expand q.expand
  | .nil, q => by rw [append, expand, one_cross]
  | .text txt rest, q => by rw [append, expand, expand, expand_append rest q, cross_assoc]
  | .group variants rest, q => by rw [append, expand, expand, expand_append rest q, cross_assoc]

theorem append_assoc : ∀ p q r : Pieces, (p.append q).append r = p.append (q.append r)
  | .nil, _, _ => rfl
  | .text txt rest, q, r => by rw [append, append, append, append_assoc rest q r]
  | .group variants rest, q, r => by rw [append, append, append, append_assoc rest q r]

end Pieces

mutual

theorem Pieces.expand_ne_nil : ∀ p : Pieces, p.expand ≠ []
  | .nil => by simp [Pieces.expand]
  | .text txt rest => by
    rw [Pieces.expand]
    exact cross_ne_nil (by simp) rest.expand_ne_nil
  | .group variants rest => by
    rw [Pieces.expand]
    exact cross_ne_nil variants.expand_ne_nil rest.expand_ne_nil

theorem Variants.expand_ne_nil : ∀ v : Variants, v.expand ≠ []
  | .last pieces => by
    rw [Variants.expand]
    exact pieces.expand_ne_nil
  | .cons pieces rest => by
    rw [Variants.expand]
    exact append_ne_nil_of_left_ne_nil pieces.expand_ne_nil _

end

/-! ## Counting -/

mutual

/-- The tokens of a row multiply the product of the segment. -/
theorem Pieces.foldlM_amount : ∀ (p : Pieces) (product acc : ℕ) (stack : List StackEntry) (n : ℕ)
    (rest : List Token),
    (p.tokens ++ rest).foldlM (Amount.step (· + ·) (· * ·)) ⟨⟨product, acc⟩ :: stack, n⟩ =
      rest.foldlM (Amount.step (· + ·) (· * ·))
        ⟨⟨product * p.expand.length, acc⟩ :: stack, n⟩
  | .nil, product, acc, stack, n, rest => by
    rw [Pieces.tokens, Pieces.expand, nil_append, length_singleton, mul_one]
  | .text txt p, product, acc, stack, n, rest => by
    rw [Pieces.tokens, Pieces.expand, cons_append, foldlM_cons, length_cross,
      length_singleton, one_mul]
    exact p.foldlM_amount product acc stack n rest
  | .group variants p, product, acc, stack, n, rest => by
    rw [Pieces.tokens, Pieces.expand, append_assoc, cons_append, foldlM_cons, length_cross]
    obtain ⟨segment, acc', hsum, hfold⟩ :=
      variants.foldlM_amount 0 (⟨product, acc⟩ :: stack) n (.closing :: (p.tokens ++ rest))
    refine hfold.trans ?_
    rw [foldlM_cons]
    refine (p.foldlM_amount (product * (acc' + segment)) acc stack n rest).trans ?_
    rw [hsum, zero_add, mul_assoc]

/-- The tokens of the variants add up what they count. -/
theorem Variants.foldlM_amount : ∀ (v : Variants) (acc : ℕ) (stack : List StackEntry) (n : ℕ)
    (rest : List Token), ∃ segment acc', acc' + segment = acc + v.expand.length ∧
      (v.tokens ++ rest).foldlM (Amount.step (· + ·) (· * ·)) ⟨⟨1, acc⟩ :: stack, n⟩ =
        rest.foldlM (Amount.step (· + ·) (· * ·)) ⟨⟨segment, acc'⟩ :: stack, n⟩
  | .last pieces, acc, stack, n, rest => by
    refine ⟨_, acc, ?_, pieces.foldlM_amount 1 acc stack n rest⟩
    rw [one_mul, Variants.expand]
  | .cons pieces v, acc, stack, n, rest => by
    obtain ⟨segment, acc', hsum, hfold⟩ :=
      v.foldlM_amount (acc + 1 * pieces.expand.length) stack n rest
    refine ⟨segment, acc', ?_, ?_⟩
    · rw [hsum, Variants.expand, length_append]
      omega
    · rw [Variants.tokens, append_assoc, pieces.foldlM_amount, cons_append, foldlM_cons]
      exact hfold

end

/-- The count of a text without groups is `0`, for its one result. -/
theorem Pieces.foldlM_amount_top : ∀ (p : Pieces) (n : ℕ), ∃ n',
    p.tokens.foldlM (Amount.step (· + ·) (· * ·)) ⟨[], n⟩ = .ok ⟨[], n'⟩ ∧
      max n' 1 = max n 1 * p.expand.length
  | .nil, n => ⟨n, rfl, (mul_one _).symm⟩
  | .text txt p, n => by
    obtain ⟨n', hfold, hn'⟩ := p.foldlM_amount_top n
    refine ⟨n', hfold, ?_⟩
    rw [hn', Pieces.expand, length_cross, length_singleton, one_mul]
  | .group variants p, n => by
    obtain ⟨segment, acc', hsum, hfold⟩ :=
      variants.foldlM_amount 0 [] n (.closing :: p.tokens)
    rw [zero_add] at hsum
    obtain ⟨n', hfold', hn'⟩ := p.foldlM_amount_top
      (if n = 0 then acc' + segment else n * (acc' + segment))
    refine ⟨n', ?_, ?_⟩
    · rw [Pieces.tokens, cons_append, foldlM_cons]
      refine hfold.trans ?_
      rw [foldlM_cons]
      exact hfold'
    · have hpos : 0 < variants.expand.length := length_pos_of_ne_nil variants.expand_ne_nil
      rw [hn', Pieces.expand, length_cross, ← mul_assoc, hsum]
      congr 1
      split
      next hn =>
        rw [hn]
        exact (Nat.max_eq_left hpos).trans (one_mul _).symm
      · have hmul := Nat.mul_pos (Nat.pos_of_ne_zero ‹_›) hpos
        rw [Nat.max_eq_left hmul, Nat.max_eq_left (Nat.pos_of_ne_zero ‹_›)]

/-- There is one buffer for each result. -/
theorem Pieces.amountWith_tokens (p : Pieces) : ∃ n,
    amountWith (· + ·) (· * ·) (p.tokens ++ [Token.eof]) = .ok n ∧ max n 1 = p.expand.length := by
  obtain ⟨n, hfold, hn⟩ := p.foldlM_amount_top 0
  refine ⟨n, ?_, by rw [hn]; simp⟩
  rw [amountWith, foldlM_append, hfold]
  rfl

/-!
## Filling the buffers

Both expanders write their results one after the other: while `out_key` is the last key that was
given away, the buffers behind it are empty (`filled`). A call that starts there with a buffer `w`
leaves there and in the next buffers `w` before each of its results (`Writes`), and a new key gets
`w` back from the first of them (`fork_filled`).
-/

/-- Buffers that are done, and `n` empty ones. -/
def filled (done : List Bytes) (n : ℕ) : Buffers where
  out := done ++ replicate n []
  outKeyCounter := done.length

/-- `w` before each of the results. -/
def after (w : Bytes) (results : List Bytes) : List Bytes := results.map (w ++ ·)

variable {pre rs results : List Bytes} {w r txt : Bytes} {n : ℕ}

theorem after_singleton : after w [r] = [w ++ r] := rfl

theorem after_append : after w (rs ++ results) = after w rs ++ after w results := map_append

theorem after_after : after (w ++ r) results = after w (cross [r] results) := by
  rw [after, after, singleton_cross, map_map]
  refine map_congr_left fun s _ => ?_
  exact append_assoc ..

variable {α : Type}

theorem index_append (xs ys : List α) (x : α) :
    index (xs ++ x :: ys) xs.length = .ok x := by
  rw [index, getElem?_append_right le_rfl, Nat.sub_self, getElem?_cons_zero]

theorem set_append (xs ys : List α) (x y : α) :
    (xs ++ x :: ys).set xs.length y = xs ++ y :: ys := by
  rw [set_append_right _ _ le_rfl, Nat.sub_self, set_cons_zero]

theorem slice_append (xs ys zs : List α) :
    slice (xs ++ ys ++ zs) xs.length (xs.length + ys.length) = .ok ys := by
  rw [slice, if_pos (by simp), ← length_append, take_left, drop_left]

theorem out_filled : (filled (pre ++ w :: rs) n).out =
    pre ++ w :: (rs ++ replicate n []) := by
  rw [filled]
  simp

theorem extend_filled : (filled (pre ++ [w]) n).extend pre.length txt =
    .ok (filled (pre ++ [w ++ txt]) n) := by
  rw [Buffers.extend, out_filled, index_append]
  show Except.ok (Buffers.mk ((pre ++ w :: ([] ++ replicate n [])).set _ _) _) = _
  rw [set_append, filled]
  simp [filled]

theorem length_filled : (filled (pre ++ w :: rs) n).length pre.length = .ok w.length := by
  rw [Buffers.length, out_filled, index_append]
  rfl

/-- A new key, with what the buffer had before the results. -/
theorem fork_filled : (filled (pre ++ (w ++ r) :: rs) (n + 1)).fork pre.length w.length =
    .ok ((pre ++ (w ++ r) :: rs).length, filled (pre ++ (w ++ r) :: rs ++ [w]) n) := by
  have hlow : slice (filled (pre ++ (w ++ r) :: rs) (n + 1)).out 0 (pre ++ (w ++ r) :: rs).length =
      .ok (pre ++ (w ++ r) :: rs) := by
    have h := slice_append [] (pre ++ (w ++ r) :: rs) (replicate (n + 1) [])
    rw [nil_append, length_nil, zero_add] at h
    exact h
  have hstart : slice (w ++ r) 0 w.length = .ok w := by
    have h := slice_append [] w r
    rwa [nil_append, length_nil, zero_add] at h
  have hextend : (filled (pre ++ (w ++ r) :: rs) (n + 1)).extend
      (pre ++ (w ++ r) :: rs).length w =
        .ok { filled (pre ++ (w ++ r) :: rs ++ [w]) n with
          outKeyCounter := (pre ++ (w ++ r) :: rs).length } := by
    rw [Buffers.extend, filled, replicate_succ, index_append]
    show Except.ok (Buffers.mk (set _ _ _) _) = _
    rw [set_append, filled]
    simp
  rw [Buffers.fork]
  show (slice _ 0 (pre ++ (w ++ r) :: rs).length >>= _) = _
  rw [hlow]
  show (index (pre ++ (w ++ r) :: rs) pre.length >>= _) = _
  rw [index_append]
  show (slice (w ++ r) 0 w.length >>= _) = _
  rw [hstart]
  show (Buffers.extend _ (pre ++ (w ++ r) :: rs).length w >>= _) = _
  rw [hextend]
  simp [filled, Bind.bind, Except.bind, Pure.pure, Except.pure, add_assoc]

/-- One empty buffer for each of the results. -/
theorem filled_of_ne_nil (h : results ≠ []) :
    ({ out := replicate results.length [] } : Buffers) =
      filled ([] ++ [[]]) (results.length - 1 + 0) := by
  have hpos := length_pos_of_ne_nil h
  rw [filled, nil_append, length_singleton, singleton_append,
    ← replicate_succ, add_zero, Nat.sub_add_cancel hpos]

theorem filled_zero : filled ([] ++ after [] results) 0 =
    { out := results, outKeyCounter := results.length } := by
  simp [filled, after]

/-- What a call writes that gets the last key. -/
def Writes (call : Buffers → ℕ → Except Stop Buffers) (results : List Bytes) : Prop :=
  ∀ (pre : List Bytes) (w : Bytes) (n : ℕ),
    call (filled (pre ++ [w]) (results.length - 1 + n)) pre.length =
      .ok (filled (pre ++ after w results) n)

end Soup.Shell
