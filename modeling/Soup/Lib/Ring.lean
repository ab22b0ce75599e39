import Mathlib.Algebra.Order.Ring.Int
import Mathlib.Data.List.Rotate

/-!
# Rings

A list laid out in the cells of a buffer, from a head on and past the end around to the front. A
layout says which cell holds which element (`Layout.cell`). Each way to move the head or to write
into the buffer is a lemma on the list that is laid out.
-/

namespace Soup.Lib

open List Nat

variable {α : Type*}

/-! ## Cells -/

/-- The cells from `a` to `b`. -/
def cells (buf : List α) (a b : ℕ) : List α := (buf.take b).drop a

/-- The buffer with `xs` in the cells from `a` on. -/
def writeAt (buf : List α) (a : ℕ) (xs : List α) : List α :=
  buf.take a ++ xs ++ buf.drop (a + xs.length)

@[simp] theorem length_cells (buf : List α) (a b : ℕ) :
    (cells buf a b).length = min b buf.length - a := by
  simp [cells]

variable {buf : List α}

theorem length_writeAt {a : ℕ} {xs : List α} (h : a + xs.length ≤ buf.length) :
    (writeAt buf a xs).length = buf.length := by
  simp only [writeAt, length_append, length_take, length_drop]
  omega

theorem getElem?_cells (buf : List α) (a b i : ℕ) :
    (cells buf a b)[i]? = if a + i < b then buf[a + i]? else none := by
  rw [cells, getElem?_drop, getElem?_take]

theorem getElem?_writeAt {a : ℕ} {xs : List α} (h : a + xs.length ≤ buf.length) (i : ℕ) :
    (writeAt buf a xs)[i]? = if a ≤ i ∧ i < a + xs.length then xs[i - a]? else buf[i]? := by
  have htake : (buf.take a).length = a := by
    rw [length_take]
    omega
  rw [writeAt, List.append_assoc]
  split_ifs with hi
  · rw [getElem?_append_right (by omega), htake, getElem?_append_left (by omega)]
  · rcases lt_or_ge i a with hlt | hge
    · rw [getElem?_append_left (by omega), getElem?_take_of_lt hlt]
    · rw [getElem?_append_right (by omega), htake, getElem?_append_right (by omega),
        getElem?_drop]
      congr 1
      omega

/-- The cells between `a` and `b` one down. The last of them stays as it is. -/
def shiftDown (buf : List α) (a b : ℕ) : List α :=
  if 1 < b - a then writeAt buf a (cells buf (a + 1) b) else buf

variable {a b : ℕ}

theorem getElem?_shiftDown (h : b ≤ buf.length) (i : ℕ) :
    (shiftDown buf a b)[i]? = if a ≤ i ∧ i + 1 < b then buf[i + 1]? else buf[i]? := by
  rw [shiftDown]
  split_ifs with hab hi hi
  · have hlen : (cells buf (a + 1) b).length = b - (a + 1) := by
      rw [length_cells]
      omega
    rw [getElem?_writeAt (by rw [hlen]; omega), if_pos (by rw [hlen]; omega), getElem?_cells,
      if_pos (by omega)]
    congr 1
    omega
  · have hlen : (cells buf (a + 1) b).length = b - (a + 1) := by
      rw [length_cells]
      omega
    rw [getElem?_writeAt (by rw [hlen]; omega), if_neg (by rw [hlen]; omega)]
  · omega
  · rfl

theorem length_shiftDown (h : b ≤ buf.length) :
    (shiftDown buf a b).length = buf.length := by
  rw [shiftDown]
  split_ifs
  · apply length_writeAt
    rw [length_cells]
    omega
  · rfl

/-- Writes into cells apart from each other, in either order. -/
theorem writeAt_comm {xs ys : List α} (ha : a + xs.length ≤ buf.length)
    (hb : b + ys.length ≤ a) :
    writeAt (writeAt buf a xs) b ys = writeAt (writeAt buf b ys) a xs := by
  ext1 i
  rw [getElem?_writeAt (by rw [length_writeAt ha]; omega), getElem?_writeAt ha,
    getElem?_writeAt (by rw [length_writeAt (by omega)]; omega), getElem?_writeAt (by omega)]
  split_ifs with h₁ h₂
  · omega
  all_goals rfl

/-! ## Layouts -/

/-- The cell `i` behind `head`, in a ring of `len` cells. -/
def wrap (head i len : ℕ) : ℕ := if head + i < len then head + i else head + i - len

variable {head i len : ℕ}

theorem wrap_of_lt (h : head + i < len) : wrap head i len = head + i :=
  if_pos h

theorem wrap_of_le (h : len ≤ head + i) : wrap head i len = head + i - len :=
  if_neg (not_lt.2 h)

theorem wrap_eq_mod (h : head + i < 2 * len) : wrap head i len = (head + i) % len := by
  rw [wrap]
  split_ifs with hlt
  · exact (mod_eq_of_lt hlt).symm
  · rw [mod_eq_sub_mod (by omega), mod_eq_of_lt (by omega)]

/-- `xs` is laid out in the buffer from `head` on. The head is a cell, or zero in an empty
buffer. -/
structure Layout (buf : List α) (head : ℕ) (xs : List α) : Prop where
  head_le : head ≤ buf.length - 1
  length_le : xs.length ≤ buf.length
  cell : ∀ i < xs.length, buf[wrap head i buf.length]? = xs[i]?

namespace Layout

variable {buf buf' xs ys : List α} {head n : ℕ}

theorem nil (h : head ≤ buf.length - 1) : Layout buf head [] where
  head_le := h
  length_le := zero_le _
  cell _ hi := absurd hi (not_lt_zero _)

section

variable (h : Layout buf head xs)
include h

/-- The head moves over the elements in front. -/
theorem drop (hn : n ≤ xs.length) : Layout buf (wrap head n buf.length) (xs.drop n) where
  head_le := by
    have := h.head_le
    have := h.length_le
    unfold wrap
    split_ifs <;> omega
  length_le := by
    have := h.length_le
    rw [length_drop]
    omega
  cell i hi := by
    have hhead := h.head_le
    have hlen := h.length_le
    rw [length_drop] at hi
    rw [getElem?_drop, ← h.cell (n + i) (by omega)]
    congr 1
    unfold wrap
    split_ifs <;> omega

/-- The same elements are in a buffer that has the same cells where they are. -/
theorem congr (hlen : buf'.length = buf.length)
    (hcell : ∀ i < xs.length, buf'[wrap head i buf.length]? = buf[wrap head i buf.length]?) :
    Layout buf' head xs where
  head_le := hlen ▸ h.head_le
  length_le := hlen ▸ h.length_le
  cell i hi := by
    rw [hlen, hcell i hi]
    exact h.cell i hi

/-- A write into cells that hold no element. -/
theorem writeAt_free {a : ℕ} (ha : a + ys.length ≤ buf.length)
    (hfree : ∀ i < xs.length, ¬ (a ≤ wrap head i buf.length ∧
      wrap head i buf.length < a + ys.length)) :
    Layout (writeAt buf a ys) head xs := by
  refine h.congr (length_writeAt ha) fun i hi => ?_
  rw [getElem?_writeAt ha, if_neg (hfree i hi)]

/-- A write behind the last element, in cells without the end of the buffer between them. -/
theorem append (ha : wrap head xs.length buf.length + ys.length ≤ buf.length)
    (hroom : xs.length + ys.length ≤ buf.length) :
    Layout (writeAt buf (wrap head xs.length buf.length) ys) head (xs ++ ys) where
  head_le := by
    rw [length_writeAt ha]
    exact h.head_le
  length_le := by
    rw [length_writeAt ha, length_append]
    exact hroom
  cell i hi := by
    have hhead := h.head_le
    rw [length_append] at hi
    rw [length_writeAt ha, getElem?_writeAt ha, getElem?_append]
    have hwrap : (wrap head xs.length buf.length ≤ wrap head i buf.length ∧
        wrap head i buf.length < wrap head xs.length buf.length + ys.length) ↔ xs.length ≤ i := by
      unfold wrap at ha ⊢
      split_ifs at ha ⊢ <;> omega
    by_cases hold : i < xs.length
    · rw [if_neg (by rw [hwrap]; omega), if_pos hold]
      exact h.cell i hold
    · rw [if_pos (hwrap.2 (by omega)), if_neg hold]
      congr 1
      unfold wrap at ha ⊢
      split_ifs at ha ⊢ <;> omega

/-- A write before the first element, to which the head moves back. -/
theorem prepend {front : ℕ} (hfront : wrap head (buf.length - ys.length) buf.length = front)
    (hroom : ys.length + xs.length ≤ buf.length) (ha : front + ys.length ≤ buf.length)
    (hlt : front ≤ buf.length - 1) : Layout (writeAt buf front ys) front (ys ++ xs) where
  head_le := by
    rw [length_writeAt ha]
    exact hlt
  length_le := by
    rw [length_writeAt ha, length_append]
    exact hroom
  cell i hi := by
    have hhead := h.head_le
    rw [length_append] at hi
    rw [length_writeAt ha, getElem?_writeAt ha, getElem?_append]
    have hcell : ys.length ≤ i →
        wrap front i buf.length = wrap head (i - ys.length) buf.length := by
      intro hle
      subst hfront
      unfold wrap at ha hlt ⊢
      split_ifs at ha hlt ⊢ <;> omega
    have hwrap : (front ≤ wrap front i buf.length ∧
        wrap front i buf.length < front + ys.length) ↔ i < ys.length := by
      unfold wrap
      split_ifs <;> omega
    by_cases hnew : i < ys.length
    · rw [if_pos (hwrap.2 hnew), if_pos hnew]
      congr 1
      unfold wrap
      split_ifs <;> omega
    · rw [if_neg (by rw [hwrap]; exact hnew), if_neg hnew, hcell (by omega)]
      exact h.cell _ (by omega)

/-- The elements after the whole buffer turns so that the head is in front. -/
theorem rotate : Layout (buf.rotate head) 0 xs where
  head_le := zero_le _
  length_le := by
    rw [length_rotate]
    exact h.length_le
  cell i hi := by
    have hhead := h.head_le
    have hlen := h.length_le
    rw [length_rotate, wrap_of_lt (by omega), zero_add,
      getElem?_rotate (by omega), ← h.cell i hi, wrap_eq_mod (by omega),
      add_comm i]

/-- The elements after those up to the end of the buffer are copied to its front. -/
theorem copyToFront (hend : head + xs.length ≤ buf.length) :
    Layout (writeAt buf 0 (cells buf head (head + xs.length))) 0 xs := by
  have hcells : (cells buf head (head + xs.length)).length = xs.length := by
    rw [length_cells]
    omega
  have hfit : 0 + (cells buf head (head + xs.length)).length ≤ buf.length := by
    rw [hcells, zero_add]
    exact h.length_le
  have hlen := h.length_le
  refine ⟨zero_le _, by rw [length_writeAt hfit]; exact hlen, fun i hi => ?_⟩
  rw [length_writeAt hfit, wrap_of_lt (by omega), getElem?_writeAt hfit,
    if_pos (by rw [hcells]; omega), getElem?_cells, if_pos (by omega), ← h.cell i hi,
    wrap_of_lt (by omega)]
  simp

omit h in
/-- The elements in a longer buffer, when they are in front. -/
theorem extend (h : Layout buf 0 xs) (hlen : buf.length ≤ buf'.length) :
    Layout (writeAt buf' 0 (buf.take xs.length)) 0 xs := by
  have hxs := h.length_le
  have htake : (buf.take xs.length).length = xs.length := by
    rw [length_take]
    omega
  have hfit : 0 + (buf.take xs.length).length ≤ buf'.length := by
    rw [htake]
    omega
  refine ⟨zero_le _, by rw [length_writeAt hfit]; omega, fun i hi => ?_⟩
  rw [length_writeAt hfit, wrap_of_lt (by omega), getElem?_writeAt hfit,
    if_pos (by rw [htake]; omega), ← h.cell i hi, wrap_of_lt (by omega), zero_add,
    Nat.sub_zero, getElem?_take_of_lt hi]

/-! ### Removal -/

/-- Removal where no element is past the end: those behind move down. -/
theorem eraseIdx_front {k : ℕ} (hend : head + xs.length ≤ buf.length)
    (hk : k < xs.length) : Layout (shiftDown buf (head + k) buf.length) head (xs.eraseIdx k) where
  head_le := by
    rw [length_shiftDown le_rfl]
    exact h.head_le
  length_le := by
    have := h.length_le
    rw [length_shiftDown le_rfl, length_eraseIdx_of_lt hk]
    omega
  cell i hi := by
    rw [length_eraseIdx_of_lt hk] at hi
    rw [length_shiftDown le_rfl, getElem?_shiftDown le_rfl, wrap_of_lt (by omega),
      getElem?_eraseIdx]
    split_ifs with h₁ h₂ h₂
    · omega
    · rw [← h.cell (i + 1) (by omega), wrap_of_lt (by omega), add_assoc]
    · rw [← h.cell i (by omega), wrap_of_lt (by omega)]
    · omega

/-- Removal of an element past the end: those behind it move down at the front of the buffer. -/
theorem eraseIdx_wrapped {k : ℕ} (hk : k < xs.length) (hpast : buf.length ≤ head + k) :
    Layout (shiftDown buf (head + k - buf.length) (head + xs.length - buf.length)) head
      (xs.eraseIdx k) := by
  have hhead := h.head_le
  have hlen := h.length_le
  have hfit : head + xs.length - buf.length ≤ buf.length := by omega
  refine ⟨by rw [length_shiftDown hfit]; exact hhead, ?_, fun i hi => ?_⟩
  · rw [length_shiftDown hfit, length_eraseIdx_of_lt hk]
    omega
  rw [length_eraseIdx_of_lt hk] at hi
  rw [length_shiftDown hfit, getElem?_shiftDown hfit, getElem?_eraseIdx]
  by_cases hik : i < k
  · rw [if_pos hik, ← h.cell i (by omega), if_neg]
    unfold wrap
    split_ifs <;> omega
  · rw [if_neg hik, ← h.cell (i + 1) (by omega), wrap_of_le (by omega), if_pos (by omega),
      wrap_of_le (by omega)]
    congr 1
    omega

/-- Removal of an element before the end while there are others past it: the first of these moves to
the end of the buffer. -/
theorem eraseIdx_across {k : ℕ} (hk : k < xs.length)
    (hbefore : head + k < buf.length) (hwrap : buf.length < head + xs.length) {first : α}
    (hfirst : buf[0]? = some first) :
    Layout (shiftDown (writeAt (shiftDown buf (head + k) buf.length) (buf.length - 1) [first]) 0
      (head + xs.length - buf.length)) head (xs.eraseIdx k) := by
  have hhead := h.head_le
  have hlen := h.length_le
  have hone : buf.length - 1 + [first].length ≤ (shiftDown buf (head + k) buf.length).length := by
    rw [length_shiftDown le_rfl, length_singleton]
    omega
  have hlength : (writeAt (shiftDown buf (head + k) buf.length) (buf.length - 1) [first]).length =
      buf.length := by
    rw [length_writeAt hone, length_shiftDown le_rfl]
  have hfit : head + xs.length - buf.length ≤
      (writeAt (shiftDown buf (head + k) buf.length) (buf.length - 1) [first]).length := by
    rw [hlength]
    omega
  refine ⟨by rw [length_shiftDown hfit, hlength]; exact hhead, ?_, fun i hi => ?_⟩
  · rw [length_shiftDown hfit, hlength, length_eraseIdx_of_lt hk]
    omega
  rw [length_eraseIdx_of_lt hk] at hi
  rw [length_shiftDown hfit, hlength, getElem?_shiftDown hfit, getElem?_eraseIdx]
  simp only [getElem?_writeAt hone, getElem?_shiftDown le_rfl, length_singleton]
  by_cases hik : i < k
  · -- before the removed element nothing moves
    rw [if_pos hik, ← h.cell i (by omega), wrap_of_lt (by omega), if_neg (by omega),
      if_neg (by omega), if_neg (by omega)]
  rw [if_neg hik, ← h.cell (i + 1) (by omega)]
  rcases lt_trichotomy (head + i + 1) buf.length with hlt | heq | hgt
  · rw [wrap_of_lt (by omega), if_neg (by omega), if_neg (by omega), if_pos (by omega),
      wrap_of_lt (by omega), add_assoc]
  · rw [wrap_of_lt (by omega), if_neg (by omega), if_pos (by omega), wrap_of_le (by omega)]
    have hzero : head + (i + 1) - buf.length = 0 := by omega
    have hlast : head + i - (buf.length - 1) = 0 := by omega
    rw [hzero, hlast, hfirst, getElem?_cons_zero]
  · rw [wrap_of_le (by omega), if_pos (by omega), if_neg (by omega), if_neg (by omega),
      wrap_of_le (by omega)]
    congr 1
    omega

end

end Layout

end Soup.Lib
