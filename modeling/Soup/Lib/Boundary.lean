import Mathlib.Algebra.Order.Ring.Int
import Mathlib.Data.List.Basic

/-!
# Boundaries

Where a predicate of indices turns from true to false, and the steps of a search for it. `holdsAt`
is the predicate of the indices of a list; at a boundary the list splits into the elements that
satisfy the predicate and the others.
-/

namespace Soup.Lib

open List Option Nat

/-- The boundary of `p` is between `lo` and `hi`. -/
structure Brackets (p : ℕ → Bool) (lo hi : ℕ) : Prop where
  le : lo ≤ hi
  below : ∀ i < lo, p i = true
  above : ∀ i, hi ≤ i → p i = false

namespace Brackets

variable {p : ℕ → Bool} {lo mid hi : ℕ}

theorem right (h : Brackets p lo hi) (hp : Antitone p) (hlt : mid < hi) (hmid : p mid = true) :
    Brackets p (mid + 1) hi where
  le := hlt
  below _ hi' := Bool.le_iff_imp.1 (hp (Nat.lt_succ_iff.1 hi')) hmid
  above := h.above

theorem left (h : Brackets p lo hi) (hp : Antitone p) (hle : lo ≤ mid) (hmid : p mid = false) :
    Brackets p lo mid where
  le := hle
  below := h.below
  above _ hi' := Bool.eq_false_iff.2 fun htrue =>
    Bool.eq_false_iff.1 hmid (Bool.le_iff_imp.1 (hp hi') htrue)

theorem eq_true_iff (h : Brackets p mid mid) (i : ℕ) : p i = true ↔ i < mid :=
  ⟨fun hi => Nat.lt_of_not_le fun hle => Bool.eq_false_iff.1 (h.above i hle) hi, h.below i⟩

end Brackets

variable {α : Type*} {q : α → Bool} {xs : List α} {k : ℕ}

/-- The element at the index satisfies `q`. -/
def holdsAt (q : α → Bool) (xs : List α) (i : ℕ) : Bool := xs[i]?.any q

theorem holdsAt_of_lt {i : ℕ} (h : i < xs.length) : holdsAt q xs i = q xs[i] := by
  rw [holdsAt, getElem?_eq_getElem h, any_some]

theorem holdsAt_of_length_le {i : ℕ} (h : xs.length ≤ i) : holdsAt q xs i = false := by
  rw [holdsAt, getElem?_eq_none h, any_none]

theorem brackets_length (q : α → Bool) (xs : List α) : Brackets (holdsAt q xs) 0 xs.length where
  le := zero_le _
  below i hi := absurd hi (not_lt_zero i)
  above _ hi := holdsAt_of_length_le hi

/-- On a list in order, `q` does not hold again behind an element that does not satisfy it. -/
theorem antitone_holdsAt (h : xs.Pairwise fun x y => q y = true → q x = true) :
    Antitone (holdsAt q xs) := by
  intro i j hij
  rw [Bool.le_iff_imp]
  intro hj
  rcases lt_or_ge j xs.length with hlt | hge
  · rw [holdsAt_of_lt hlt] at hj
    rw [holdsAt_of_lt (lt_of_le_of_lt hij hlt)]
    rcases eq_or_lt_of_le hij with rfl | hij
    · exact hj
    · exact pairwise_iff_getElem.1 h i j _ hlt hij hj
  · rw [holdsAt_of_length_le hge] at hj
    cases hj

/-- The boundary splits the list. -/
theorem Brackets.split (h : Brackets (holdsAt q xs) k k) :
    ∃ ys zs, xs = ys ++ zs ∧ ys.length = k ∧ (∀ y ∈ ys, q y = true) ∧ ∀ z ∈ zs, q z = false := by
  have hlen : k ≤ xs.length := by
    rcases Nat.eq_zero_or_pos k with rfl | hpos
    · exact zero_le _
    · by_contra hlt
      have hlast := h.below (k - 1) (by omega)
      rw [holdsAt_of_length_le (by omega)] at hlast
      cases hlast
  refine ⟨xs.take k, xs.drop k, (take_append_drop k xs).symm, length_take_of_le hlen,
    fun y hy => ?_, fun z hz => ?_⟩
  · obtain ⟨i, hi, rfl⟩ := mem_take_iff_getElem.1 hy
    have hbelow := h.below i (by omega)
    rwa [holdsAt_of_lt (by omega)] at hbelow
  · obtain ⟨i, hi, rfl⟩ := mem_drop_iff_getElem.1 hz
    have habove := h.above (k + i) (le_add_right k i)
    rwa [holdsAt_of_lt (by omega)] at habove

theorem filter_eq_left {ys zs : List α} (hys : ∀ y ∈ ys, q y = true)
    (hzs : ∀ z ∈ zs, q z = false) : (ys ++ zs).filter q = ys := by
  rw [filter_append, filter_eq_self.2 hys,
    filter_eq_nil_iff.2 fun z hz => Bool.eq_false_iff.1 (hzs z hz), append_nil]

end Soup.Lib
