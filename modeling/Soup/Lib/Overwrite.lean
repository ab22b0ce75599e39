import Mathlib.Algebra.Order.Ring.Int
import Mathlib.Data.List.Basic

/-!
# Overwriting

A list is overwritten from a position on. What is behind the new elements, and what is in front of
them, stays (`getElem?_overwrite_of_lt`, `getElem?_overwrite_of_le`).
-/

namespace Soup.Lib

open List

variable {α : Type*}

/-- The elements from `position` on are those of `new`. -/
def overwrite (xs : List α) (position : ℕ) (new : List α) : List α :=
  xs.take position ++ (new ++ xs.drop (position + new.length))

variable {xs ys new : List α} {position i n : ℕ}

theorem overwrite_append (xs ys new : List α) :
    overwrite (xs ++ ys) xs.length new = xs ++ new ++ ys.drop new.length := by
  rw [overwrite, take_left, drop_length_add_append, List.append_assoc]

section

variable (h : position + new.length ≤ xs.length)
include h

theorem length_overwrite : (overwrite xs position new).length = xs.length := by
  rw [overwrite, length_append, length_append, length_drop, length_take_of_le (by omega)]
  omega

theorem getElem?_overwrite_of_lt (hi : i < position) :
    (overwrite xs position new)[i]? = xs[i]? := by
  have hlen : (xs.take position).length = position := length_take_of_le (by omega)
  rw [overwrite, getElem?_append_left (by omega), getElem?_take_of_lt hi]

theorem getElem?_overwrite_of_le
    (hi : position + new.length ≤ i) : (overwrite xs position new)[i]? = xs[i]? := by
  have hlen : (xs.take position).length = position := length_take_of_le (by omega)
  rw [overwrite, getElem?_append_right (by omega), hlen, getElem?_append_right (by omega),
    getElem?_drop]
  exact congrArg (xs[·]?) (by omega)

theorem getElem?_overwrite (hi : i < new.length) :
    (overwrite xs position new)[position + i]? = new[i]? := by
  have hlen : (xs.take position).length = position := length_take_of_le (by omega)
  rw [overwrite, getElem?_append_right (by omega), hlen, Nat.add_sub_cancel_left,
    getElem?_append_left hi]

/-- An element is one of the new ones, or the one that was there. -/
theorem getElem?_overwrite_cases (i : ℕ) : (overwrite xs position new)[i]? = xs[i]? ∨
      ∃ j, j < new.length ∧ i = position + j ∧ (overwrite xs position new)[i]? = new[j]? := by
  rcases lt_or_ge i position with hlt | hge
  · exact .inl (getElem?_overwrite_of_lt h hlt)
  rcases lt_or_ge i (position + new.length) with hlt | hge'
  · obtain ⟨j, rfl⟩ := Nat.exists_eq_add_of_le hge
    exact .inr ⟨j, by omega, rfl, getElem?_overwrite h (by omega)⟩
  · exact .inl (getElem?_overwrite_of_le h hge')

/-! ## Windows -/

omit h in
/-- Two lists have the same elements in a window. -/
theorem take_drop_congr {p q : ℕ} (h : ∀ j < n, xs[p + j]? = ys[q + j]?) :
    (xs.drop p).take n = (ys.drop q).take n := by
  refine ext_getElem? fun j => ?_
  rcases lt_or_ge j n with hj | hj
  · rw [getElem?_take_of_lt hj, getElem?_take_of_lt hj, getElem?_drop, getElem?_drop, h j hj]
  · rw [getElem?_take_eq_none hj, getElem?_take_eq_none hj]

theorem take_drop_overwrite :
    ((overwrite xs position new).drop position).take new.length = new := by
  refine ext_getElem? fun j => ?_
  rcases lt_or_ge j new.length with hj | hj
  · rw [getElem?_take_of_lt hj, getElem?_drop, getElem?_overwrite h hj]
  · rw [getElem?_take_eq_none hj, getElem?_eq_none hj]

/-- A window that the new elements are not in. -/
theorem take_drop_overwrite_of_disjoint {p : ℕ}
    (hp : p + n ≤ position ∨ position + new.length ≤ p) :
    ((overwrite xs position new).drop p).take n = (xs.drop p).take n := by
  refine take_drop_congr fun j hj => ?_
  rcases hp with hp | hp
  · exact getElem?_overwrite_of_lt h (by omega)
  · exact getElem?_overwrite_of_le h (by omega)

end

end Soup.Lib
