import Mathlib.Algebra.Order.Ring.Int
import Mathlib.Data.List.Lex
import Mathlib.Data.Prod.Lex
import Mathlib.Data.Sum.Order

/-!
# Three-way comparison of composite keys

A program that orders records compares their fields one after the other and stops at the first
that differ. The lemmas of this file say of what order that is the comparison :
`Ordering.then` goes with the lexicographic product, the element-wise loop over two lists with
the lexicographic order of lists, and a kind that decides before the contents are looked at with
a lexicographic sum.
-/

namespace Soup.Lib

open List

variable {α β : Type*} [LinearOrder α] [LinearOrder β] {o o' : Ordering} {x y : α}

theorem compares_toLex {u v : β} (h : o.Compares x y) (h' : o'.Compares u v) :
    (o.then o').Compares (toLex (x, u)) (toLex (y, v)) := by
  cases o with
  | lt => exact Prod.Lex.toLex_lt_toLex.2 (.inl h)
  | gt => exact Prod.Lex.toLex_lt_toLex.2 (.inl h)
  | eq =>
    obtain rfl : x = y := h
    cases o' with
    | lt => exact Prod.Lex.toLex_lt_toLex.2 (.inr ⟨rfl, h'⟩)
    | eq => exact congrArg (fun w => toLex (x, w)) h'
    | gt => exact Prod.Lex.toLex_lt_toLex.2 (.inr ⟨rfl, h'⟩)

theorem compares_cons {xs ys : List α} (h : o.Compares x y) (h' : o'.Compares xs ys) :
    (o.then o').Compares (x :: xs) (y :: ys) := by
  cases o with
  | lt => exact cons_lt_cons_iff.2 (.inl h)
  | gt => exact cons_lt_cons_iff.2 (.inl h)
  | eq =>
    obtain rfl : x = y := h
    cases o' with
    | lt => exact cons_lt_cons_iff.2 (.inr ⟨rfl, h'⟩)
    | eq => exact congrArg (x :: ·) h'
    | gt => exact cons_lt_cons_iff.2 (.inr ⟨rfl, h'⟩)

theorem compares_inl (h : o.Compares x y) :
    o.Compares (toLex (Sum.inl x) : α ⊕ₗ β) (toLex (Sum.inl y)) :=
  Sum.Lex.inl_strictMono.compares.2 h

theorem compares_inr {u v : β} (h : o.Compares u v) :
    o.Compares (toLex (Sum.inr u) : α ⊕ₗ β) (toLex (Sum.inr v)) :=
  Sum.Lex.inr_strictMono.compares.2 h

theorem compares_coe (h : o.Compares x y) : o.Compares (x : WithTop α) (y : WithTop α) :=
  WithTop.coe_strictMono.compares.2 h

end Soup.Lib
