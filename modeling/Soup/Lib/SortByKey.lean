import Mathlib.Algebra.Order.Ring.Int
import Mathlib.Data.List.Perm.Basic

/-!
# Lists sorted by a key

What `List.mergeSort` makes of a list whose elements are compared by a key, and of which any two are
related.
-/

namespace Soup.Lib

variable {α β : Type*} [LinearOrder β] {key : α → β} {xs : List α}

/-- A sorted list keeps what holds of any two of its elements. -/
theorem pairwise_mergeSort_key {R : α → α → Prop} (hsymm : ∀ {a b}, R a b → R b a)
    (h : xs.Pairwise R) :
    (xs.mergeSort fun a b => decide (key a ≤ key b)).Pairwise fun a b => key a ≤ key b ∧ R a b := by
  have hperm := List.mergeSort_perm xs fun a b => decide (key a ≤ key b)
  have hsorted := @List.pairwise_mergeSort α (fun a b => decide (key a ≤ key b))
    (fun a b c hab hbc => by
      rw [decide_eq_true_eq] at hab hbc ⊢
      exact hab.trans hbc)
    (fun a b => by
      rw [Bool.or_eq_true, decide_eq_true_eq, decide_eq_true_eq]
      exact le_total _ _) xs
  exact (hsorted.imp of_decide_eq_true).and (hperm.symm.pairwise h hsymm)

/-- Different keys rise. -/
theorem pairwise_lt_mergeSort_key (h : xs.Pairwise fun a b => key a ≠ key b) :
    (xs.mergeSort fun a b => decide (key a ≤ key b)).Pairwise fun a b => key a < key b :=
  (pairwise_mergeSort_key (fun h => h.symm) h).imp fun h => lt_of_le_of_ne h.1 h.2

theorem pairwise_lt_mergeSort {xs : List ℕ} (h : xs.Nodup) :
    (xs.mergeSort fun a b => decide (a ≤ b)).Pairwise (· < ·) :=
  @pairwise_lt_mergeSort_key ℕ ℕ _ id xs h

end Soup.Lib
