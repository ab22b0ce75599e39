import Mathlib.Algebra.Order.Ring.Int
import Mathlib.Data.List.Basic

/-!
# Every text before every text

`cross xs ys` puts every text of `xs` before every text of `ys`; the first text varies slowest. With
the empty text alone it is a monoid (`cross_assoc`, `one_cross`, `cross_one`), and it distributes
over the texts on its left (`append_cross`).
-/

namespace Soup.Lib

open List

variable {α : Type} (xs ys zs : List (List α)) (s t : List α)

def cross : List (List α) := xs.flatMap fun x => ys.map (x ++ ·)

theorem append_cross : cross (xs ++ ys) zs = cross xs zs ++ cross ys zs := flatMap_append

theorem singleton_cross : cross [s] ys = ys.map (s ++ ·) := by
  rw [cross, flatMap_cons, flatMap_nil, append_nil]

theorem one_cross : cross [[]] ys = ys := by
  rw [singleton_cross]
  simp

theorem cross_one : cross xs [[]] = xs := by
  rw [cross]
  simp

theorem cross_assoc : cross (cross xs ys) zs = cross xs (cross ys zs) := by
  rw [cross, cross, cross, flatMap_assoc]
  refine flatMap_congr fun x _ => ?_
  rw [cross, flatMap_map, map_flatMap]
  refine flatMap_congr fun y _ => ?_
  simp

theorem singleton_cross_singleton : cross [s] [t] = [s ++ t] := by
  rw [singleton_cross, map_singleton]

theorem length_cross : (cross xs ys).length = xs.length * ys.length := by
  rw [cross, length_flatMap]
  simp

variable {xs ys}

theorem cross_ne_nil (hx : xs ≠ []) (hy : ys ≠ []) : cross xs ys ≠ [] := by
  intro h
  have hlength := length_cross xs ys
  rw [h, length_nil, eq_comm, Nat.mul_eq_zero] at hlength
  rcases hlength with hlength | hlength
  · exact hx (eq_nil_of_length_eq_zero hlength)
  · exact hy (eq_nil_of_length_eq_zero hlength)

end Soup.Lib
