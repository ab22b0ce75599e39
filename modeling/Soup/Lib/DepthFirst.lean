import Mathlib.Algebra.Order.Ring.Int
import Mathlib.Data.List.Basic

/-!
# What a search found

A search has its finds in a list: first the stack from its bottom, then the finished ones, the last
one first. A new find comes in between, behind the one that leads to it, so that every find is
behind one that leads to it (`Led`).
-/

namespace Soup.Lib

open List

variable {α : Type*} {start : α → Prop} {edge : α → α → Prop} {finds : List α}

/-- Every find is a start, or behind one that leads to it. -/
def Led (start : α → Prop) (edge : α → α → Prop) (finds : List α) : Prop :=
  ∀ before v behind, finds = before ++ v :: behind → start v ∨ ∃ u ∈ before, edge u v

variable {v : α}

theorem led_singleton (hv : start v) : Led start edge [v] := by
  rintro before w behind h
  cases before with
  | nil =>
    rw [← (cons.inj h).1]
    exact .inl hv
  | cons u before => simp at h

/-- A new find comes in. -/
theorem Led.insert {before behind : List α} (h : Led start edge (before ++ behind))
    (hv : start v ∨ ∃ u ∈ before, edge u v) : Led start edge (before ++ v :: behind) := by
  intro xs w ys heq
  rcases append_eq_append_iff.1 heq with ⟨c, hxs, hcons⟩ | ⟨c, hbefore, hcons⟩
  · cases c with
    | nil =>
      obtain ⟨rfl, -⟩ := cons.inj hcons
      rw [hxs, append_nil]
      exact hv
    | cons x c =>
      obtain ⟨rfl, hbehind⟩ := cons.inj hcons
      refine (h (before ++ c) w ys (by
        rw [show behind = c ++ w :: ys from hbehind, append_assoc])).imp_right ?_
      rintro ⟨u, hu, hedge⟩
      refine ⟨u, ?_, hedge⟩
      rw [hxs, mem_append, mem_cons]
      exact (mem_append.1 hu).imp_right .inr
  · cases c with
    | nil =>
      obtain ⟨rfl, -⟩ := cons.inj hcons
      rw [append_nil] at hbefore
      exact hbefore ▸ hv
    | cons x c =>
      obtain ⟨rfl, -⟩ := cons.inj hcons
      exact h xs w (c ++ behind) (by rw [hbefore, append_assoc]; rfl)

/-- The first find is a start. -/
theorem Led.head (h : Led start edge (v :: finds)) : start v := by
  rcases h [] v finds rfl with hv | ⟨u, hu, -⟩
  · exact hv
  · exact absurd hu not_mem_nil

/-- A find at a later place has one that leads to it at an earlier place. -/
theorem Led.exists_lt (h : Led start edge finds) {i : ℕ} (hv : finds[i]? = some v) :
    start v ∨ ∃ j < i, ∃ u, finds[j]? = some u ∧ edge u v := by
  obtain ⟨hi, hget⟩ := List.getElem?_eq_some_iff.1 hv
  have hsplit : finds = finds.take i ++ v :: finds.drop (i + 1) := by
    rw [← hget, ← drop_eq_getElem_cons hi, take_append_drop]
  refine (h _ _ _ hsplit).imp_right ?_
  rintro ⟨u, hu, hedge⟩
  obtain ⟨j, hj⟩ := mem_iff_getElem?.1 hu
  have hlt : j < i := by
    have := (List.getElem?_eq_some_iff.1 hj).1
    rw [length_take] at this
    omega
  refine ⟨j, hlt, u, ?_, hedge⟩
  rwa [getElem?_take_of_lt hlt] at hj

end Soup.Lib
