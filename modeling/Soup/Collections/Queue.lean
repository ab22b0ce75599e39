import Mathlib.Data.List.InsertIdx
import Soup.Collections.LinearFifo

/-!
# The ring buffer is a queue

`Holds B f xs` says that `f` has the items `xs`, in a buffer of kind `B`. Each operation keeps it
and does to `xs` what it does to a list (`step_holds`), except for nothing discarded from or put
back into a buffer without a cell: those divide by its length (`run_eq_listRun_iff`).
-/

namespace Soup.Collections

open Soup.Lib List Option Nat

variable {α : Type}

/-! ## Buffers -/

namespace LinearFifoBuffer

/-- The lengths of a buffer. -/
def Shape : LinearFifoBuffer → ℕ → Prop
  | staticBuffer n, bufLen => bufLen = n
  | dynamicBuffer, bufLen => bufLen = 0 ∨ bufLen.isPowerOfTwo ∧ bufLen ≤ 2 ^ 63

/-- The items that fit into a buffer as far as it grows. -/
def limit : LinearFifoBuffer → ℕ
  | staticBuffer n => n
  | dynamicBuffer => 2 ^ 63

variable {B : LinearFifoBuffer} {bufLen : ℕ}

theorem Shape.isPowerOfTwo (h : B.Shape bufLen) (hlen : 0 < bufLen) (hB : B.powersOfTwo = true) :
    bufLen.isPowerOfTwo := by
  cases B with
  | staticBuffer n =>
    rw [show bufLen = n from h]
    exact of_decide_eq_true hB
  | dynamicBuffer =>
    rcases h with h | h
    · omega
    · exact h.1

theorem Shape.le_limit (h : B.Shape bufLen) : bufLen ≤ B.limit := by
  cases B with
  | staticBuffer n => exact le_of_eq h
  | dynamicBuffer =>
    rcases h with h | h
    · rw [h]
      exact zero_le _
    · exact h.2

theorem and_sub_one (h : bufLen.isPowerOfTwo) (sum : ℕ) : sum &&& (bufLen - 1) = sum % bufLen := by
  obtain ⟨k, rfl⟩ := h
  exact and_two_pow_sub_one_eq_mod sum k

theorem Shape.index_eq (h : B.Shape bufLen) {head i : ℕ} (hi : head + i < 2 * bufLen) :
    B.index (head + i) bufLen = some (wrap head i bufLen) := by
  rw [index, wrap_eq_mod hi]
  split_ifs with hB
  · rw [usizeSub, if_pos (by omega), map_some, and_sub_one (h.isPowerOfTwo (by omega) hB)]
  · rw [usizeRem, if_neg (by omega)]

end LinearFifoBuffer

/-! ## Steps of the operations -/

@[simp] theorem debugAssert_of {p : Prop} [Decidable p] (h : p) : debugAssert p = some () :=
  if_pos h

variable {a b : ℕ}

theorem usizeSub_of_le (h : b ≤ a) : usizeSub a b = some (a - b) := if_pos h

theorem sliceRange_of_le {bufLen a b : ℕ} (hab : a ≤ b) (hb : b ≤ bufLen) :
    sliceRange bufLen a b = some (a, b) :=
  if_pos ⟨hab, hb⟩

variable {size : ℕ}

theorem checkedNextPowerOfTwo_of_le (h : size ≤ 2 ^ 63) :
    checkedNextPowerOfTwo size = some (2 ^ clog 2 size) := by
  have := clog_le_of_le_pow h
  exact if_pos (Nat.pow_lt_pow_right (by omega) (by omega))

theorem checkedNextPowerOfTwo_of_lt (h : 2 ^ 63 < size) : checkedNextPowerOfTwo size = none := by
  refine if_neg (not_lt.2 (Nat.pow_le_pow_right (by omega) ?_))
  exact (Nat.lt_clog_iff_pow_lt (by omega)).2 h

@[simp] theorem assumeInitSlice_map_some (xs : List α) :
    assumeInitSlice (xs.map some) = some xs := by
  rw [assumeInitSlice]
  induction xs with
  | nil => rfl
  | cons x xs ih => simp [ih]

variable {buf : List (Option α)} {src : List α}

theorem copyFromSlice_of_le
    (h : src.length ≤ b - a) : copyFromSlice buf a b src = some (writeAt buf a (src.map some)) :=
  if_pos h

namespace LinearFifo

variable {B : LinearFifoBuffer} {f : LinearFifo α} {xs : List α}

/-- `f` has the items `xs`. -/
structure Holds (B : LinearFifoBuffer) (f : LinearFifo α) (xs : List α) : Prop where
  layout : Layout f.buf f.head (xs.map some)
  count : f.count = xs.length
  shape : B.Shape f.buf.length

theorem readableRange_mk (hlength : buf.length = f.buf.length)
    (offset : ℕ) : readableRange ⟨buf, f.head, f.count⟩ offset = f.readableRange offset := by
  simp only [readableRange, hlength]

theorem readableRange_zero {head count : ℕ} (h : head < buf.length) :
    readableRange ⟨buf, head, count⟩ 0 = some (head, min (head + count) buf.length) := by
  rw [readableRange, if_neg (not_lt_zero _)]
  simp only [add_zero]
  rw [if_neg (by omega), sliceRange_of_le (by omega) (by omega)]

variable {offset : ℕ}

namespace Holds

section

variable (h : Holds B f xs)
include h

theorem length_le : xs.length ≤ f.buf.length := by
  simpa using h.layout.length_le

theorem cell {i : ℕ} (hi : i < xs.length) :
    f.buf[wrap f.head i f.buf.length]? = some (some xs[i]) := by
  rw [h.layout.cell i (by simpa using hi)]
  simp [hi]

theorem index_eq {i : ℕ} (hi : i < f.buf.length) :
    B.index (f.head + i) f.buf.length = some (wrap f.head i f.buf.length) :=
  h.shape.index_eq (by have := h.layout.head_le; omega)

theorem writableLength : f.writableLength = some (f.buf.length - xs.length) := by
  rw [LinearFifo.writableLength, h.count, usizeSub_of_le h.length_le]

/-! ### Slices -/

section

variable (ho : offset ≤ xs.length)
include ho

theorem readableRange : f.readableRange offset = some (if f.buf.length ≤ f.head + offset then
        (f.head + offset - f.buf.length, f.head + xs.length - f.buf.length)
      else (f.head + offset, min (f.head + xs.length) f.buf.length)) := by
  have hhead := h.layout.head_le
  have hlen := h.length_le
  rw [LinearFifo.readableRange, if_neg (by rw [h.count]; omega), h.count]
  simp only [ge_iff_le]
  split_ifs with hwrap
  · rw [sliceRange_of_le (by omega) (by omega)]
    congr 2
    omega
  · rw [sliceRange_of_le (by omega) (by omega)]

/-- The items from an offset on up to the end of the buffer are in one slice. -/
theorem cells_eq (hr : f.readableRange offset = some (a, b)) :
    cells f.buf a b = ((xs.drop offset).take (b - a)).map some := by
  have hhead := h.layout.head_le
  have hlen := h.length_le
  rw [h.readableRange ho, some.injEq] at hr
  ext1 i
  rw [getElem?_cells, getElem?_map, getElem?_take, getElem?_drop]
  have hcell (hi : offset + i < xs.length) := h.cell hi
  split_ifs at hr with hwrap <;> obtain ⟨rfl, rfl⟩ := Prod.mk.inj hr
  · by_cases hi : i < xs.length - offset
    · have hi' : offset + i < xs.length := by omega
      rw [if_pos (by omega), if_pos (by omega), getElem?_eq_getElem hi', map_some,
        ← h.cell hi', wrap_of_le (by omega)]
      congr 1
      omega
    · rw [if_neg (by omega), if_neg (by omega), map_none]
  · by_cases hi : i < min (f.head + xs.length) f.buf.length - (f.head + offset)
    · have hi' : offset + i < xs.length := by omega
      rw [if_pos (by omega), if_pos (by omega), getElem?_eq_getElem hi', map_some,
        ← h.cell hi', wrap_of_lt (by omega), add_assoc]
    · rw [if_neg (by omega), if_neg (by omega), map_none]

theorem readableSlice (hr : f.readableRange offset = some (a, b)) :
    f.readableSlice offset = some ((xs.drop offset).take (b - a)) := by
  simp only [LinearFifo.readableSlice, hr, bind_eq_bind, bind_some,
    h.cells_eq ho hr, assumeInitSlice_map_some]

end

/-- The writable cells begin behind the last item. -/
theorem writableRange : ∃ b, f.writableRange 0 = some (wrap f.head xs.length f.buf.length, b) ∧
      b ≤ f.buf.length ∧ wrap f.head xs.length f.buf.length ≤ b ∧
      (xs.length < f.buf.length → wrap f.head xs.length f.buf.length < b) ∧
      (f.head + xs.length < f.buf.length → b = f.buf.length) := by
  have hhead := h.layout.head_le
  have hlen := h.length_le
  simp only [LinearFifo.writableRange, h.writableLength, bind_eq_bind, bind_some,
    add_zero, h.count]
  rw [if_neg (by omega)]
  split_ifs with hlt
  · rw [wrap_of_lt hlt]
    exact ⟨f.buf.length, sliceRange_of_le (by omega) le_rfl, le_rfl, by omega, fun _ => hlt,
      fun _ => rfl⟩
  · rw [usizeSub_of_le (zero_le _), bind_some, wrap_of_le (by omega)]
    exact ⟨_, sliceRange_of_le (by omega) (by omega), by omega, by omega, fun _ => by omega,
      fun h => absurd h hlt⟩

/-- Items written into the first writable cells are behind the last item. -/
theorem written (ys : List α) {b : ℕ} (hb : b ≤ f.buf.length)
    (hy : ys.length ≤ b - wrap f.head xs.length f.buf.length)
    (hroom : xs.length + ys.length ≤ f.buf.length) :
    Holds B ⟨writeAt f.buf (wrap f.head xs.length f.buf.length) (ys.map some), f.head,
        f.count + ys.length⟩ (xs ++ ys) ∧
      (writeAt f.buf (wrap f.head xs.length f.buf.length) (ys.map some)).length = f.buf.length := by
  have hwrap : wrap f.head xs.length f.buf.length ≤ f.buf.length := by
    have := h.layout.head_le
    have := h.length_le
    unfold wrap
    split_ifs <;> omega
  have hlayout : Layout (writeAt f.buf (wrap f.head xs.length f.buf.length) (ys.map some)) f.head
      (xs.map some ++ ys.map some) := by
    rw [show xs.length = (xs.map some).length from (length_map some).symm]
    exact h.layout.append (by simpa using by omega) (by simpa)
  have hlength : (writeAt f.buf (wrap f.head xs.length f.buf.length) (ys.map some)).length =
      f.buf.length := length_writeAt (by simpa using by omega)
  refine ⟨⟨by simpa using hlayout, by rw [h.count, length_append], ?_⟩, hlength⟩
  rw [hlength]
  exact h.shape

/-! ### Room -/

theorem realign :
    ∃ f', f.realign = some f' ∧ Holds B f' xs ∧ f'.head = 0 ∧ f'.buf.length = f.buf.length := by
  have hhead := h.layout.head_le
  have hlen := h.length_le
  obtain ⟨buf, hbuf, hlayout, hlength⟩ : ∃ buf, (if f.buf.length - f.head ≥ f.count
      then ptrCopy f.buf f.head f.buf f.count
      else (debugAssert (f.head ≤ f.buf.length)).map fun _ => f.buf.rotate f.head) = some buf ∧
      Layout buf 0 (xs.map some) ∧ buf.length = f.buf.length := by
    rw [h.count]
    split_ifs with hroom
    · have hcopy := h.layout.copyToFront (by simpa using by omega)
      rw [length_map] at hcopy
      refine ⟨_, if_pos ⟨by omega, hlen⟩, hcopy, length_writeAt ?_⟩
      rw [length_cells]
      omega
    · exact ⟨_, by rw [debugAssert_of (by omega), map_some], h.layout.rotate,
        length_rotate _ _⟩
  have hfit : xs.length + (replicate (f.buf.length - xs.length) (none : Option α)).length ≤
      buf.length := by
    rw [length_replicate]
    omega
  have hpoison : (writeAt buf xs.length (replicate (f.buf.length - xs.length) none)).length =
      f.buf.length := by rw [length_writeAt hfit, hlength]
  refine ⟨⟨writeAt buf xs.length (replicate (f.buf.length - xs.length) none), 0, f.count⟩,
    ?_, ⟨hlayout.writeAt_free hfit fun i hi => ?_, h.count, ?_⟩, rfl, hpoison⟩
  · rw [LinearFifo.realign, usizeSub_of_le (by omega), bind_eq_bind, bind_some, hbuf,
      bind_eq_bind, bind_some, h.count, sliceRange_of_le hlen le_rfl]
    rfl
  · rw [length_map] at hi
    rw [wrap_of_lt (by omega)]
    omega
  · rw [hpoison]
    exact h.shape

omit h in
/-- The items are in a new buffer of a length that is a power of two. -/
theorem grow (h : Holds .dynamicBuffer f xs) (hhead : f.head = 0) {newSize : ℕ}
    (hnew : checkedNextPowerOfTwo size = some newSize) (hle : f.buf.length ≤ newSize) :
    ∃ buf, (if f.count > 0 then ptrCopy f.buf 0 (replicate newSize none) f.count
        else some (replicate newSize none)) = some buf ∧
      Holds .dynamicBuffer ⟨buf, 0, f.count⟩ xs ∧ buf.length = newSize := by
  have hlen := h.length_le
  have hlayout := h.layout
  rw [hhead] at hlayout
  have hextend : Layout (writeAt (replicate newSize none) 0 (f.buf.take xs.length)) 0
      (xs.map some) := by
    rw [← length_map some]
    exact hlayout.extend (by simpa using hle)
  have hlength : (writeAt (replicate newSize none) 0 (f.buf.take xs.length)).length =
      newSize := by
    rw [length_writeAt, length_replicate]
    rw [length_take, length_replicate]
    omega
  have hbuf : (if f.count > 0 then ptrCopy f.buf 0 (replicate newSize none) f.count
        else some (replicate newSize none)) =
      some (writeAt (replicate newSize none) 0 (f.buf.take xs.length)) := by
    rw [h.count]
    split_ifs with hpos
    · rw [ptrCopy, if_pos ⟨by omega, by simpa using by omega⟩, zero_add]
      rfl
    · rw [Nat.eq_zero_of_not_pos hpos, take_zero]
      simp [writeAt]
  have hshape : LinearFifoBuffer.dynamicBuffer.Shape newSize := by
    rw [checkedNextPowerOfTwo] at hnew
    split_ifs at hnew with hlt
    rw [← some.inj hnew]
    refine Or.inr ⟨⟨_, rfl⟩, Nat.pow_le_pow_right (by omega) ?_⟩
    exact Nat.lt_succ_iff.1 ((Nat.pow_lt_pow_iff_right (by omega)).1 hlt)
  exact ⟨_, hbuf, ⟨hextend, h.count, by rw [hlength]; exact hshape⟩, hlength⟩

/-- A total capacity is there unless it is over the limit of the buffer. -/
theorem ensureTotalCapacity (size : ℕ) : ∃ f', f.ensureTotalCapacity B size =
        some (if size ≤ B.limit then .ok () else .error .allocError, f') ∧ Holds B f' xs ∧
      (size ≤ B.limit → size ≤ f'.buf.length) ∧ f.buf.length ≤ f'.buf.length := by
  rw [LinearFifo.ensureTotalCapacity]
  by_cases hsize : f.buf.length ≥ size
  · have := h.shape.le_limit
    refine ⟨f, ?_, h, fun _ => hsize, le_rfl⟩
    rw [if_pos hsize, if_pos (by omega)]
  rw [if_neg hsize]
  cases B with
  | staticBuffer n =>
    have hn : f.buf.length = n := h.shape
    refine ⟨f, ?_, h, fun hle => ?_, le_rfl⟩
    · rw [LinearFifoBuffer.dynamic, if_neg Bool.false_ne_true, LinearFifoBuffer.limit,
        if_neg (by omega)]
    · rw [LinearFifoBuffer.limit] at hle
      omega
  | dynamicBuffer =>
    obtain ⟨f₁, hf₁, h₁, hhead, hlength⟩ := h.realign
    simp only [LinearFifoBuffer.dynamic, LinearFifoBuffer.powersOfTwo, if_true, hf₁,
      bind_eq_bind, bind_some]
    by_cases hlimit : size ≤ LinearFifoBuffer.dynamicBuffer.limit
    · obtain ⟨buf, hbuf, h₂, hle⟩ := h₁.grow hhead (checkedNextPowerOfTwo_of_le hlimit)
        (le_trans (by omega) (le_pow_clog (by omega) size))
      simp only [checkedNextPowerOfTwo_of_le hlimit, hbuf, bind_some, if_pos hlimit]
      refine ⟨_, rfl, h₂, fun _ => hle ▸ le_pow_clog (by omega) size, ?_⟩
      rw [hle]
      exact le_trans (by omega) (le_pow_clog (by omega) size)
    · simp only [checkedNextPowerOfTwo_of_lt (Nat.lt_of_not_le hlimit), if_neg hlimit]
      exact ⟨f₁, rfl, h₁, fun h => absurd h hlimit, le_of_eq hlength.symm⟩

theorem ensureUnusedCapacity (size : ℕ) : ∃ f', f.ensureUnusedCapacity B size =
        some (if xs.length + size ≤ B.limit then .ok () else .error .allocError, f') ∧
      Holds B f' xs ∧ (xs.length + size ≤ B.limit → xs.length + size ≤ f'.buf.length) ∧
      f.buf.length ≤ f'.buf.length := by
  have hlimit := h.shape.le_limit
  have hlen := h.length_le
  simp only [LinearFifo.ensureUnusedCapacity, h.writableLength, bind_eq_bind,
    bind_some, h.count]
  by_cases hsize : f.buf.length - xs.length ≥ size
  · refine ⟨f, ?_, h, fun _ => by omega, le_rfl⟩
    rw [if_pos hsize, if_pos (by omega)]
  · rw [if_neg hsize, checkedAdd]
    by_cases hadd : xs.length + size < usizeBound
    · rw [if_pos hadd]
      exact h.ensureTotalCapacity _
    · have hover : ¬ xs.length + size ≤ B.limit := by
        cases B with
        | staticBuffer n =>
          have hn : f.buf.length = n := h.shape
          rw [LinearFifoBuffer.limit]
          omega
        | dynamicBuffer =>
          rw [LinearFifoBuffer.limit]
          rw [usizeBound] at hadd
          omega
      rw [if_neg hadd, if_neg hover]
      exact ⟨f, rfl, h, fun h => absurd h hover, le_rfl⟩

end

/-! ### Reads -/

variable {n : ℕ}

section

variable (h : Holds B f xs)
include h

theorem discardHead (hn : n ≤ xs.length) (hB : f.buf.length = 0 → B.powersOfTwo = true) :
    (if B.powersOfTwo then some ((f.head + n) &&& wrappingSub f.buf.length 1)
      else usizeRem (f.head + n) f.buf.length) = some (wrap f.head n f.buf.length) := by
  have hhead := h.layout.head_le
  have hlen := h.length_le
  rcases Nat.eq_zero_or_pos f.buf.length with hzero | hpos
  · have hsum : f.head + n = 0 := by omega
    rw [if_pos (hB hzero), wrap, hsum, zero_and, hzero]
    rfl
  · have hindex : B.index (f.head + n) f.buf.length = some (wrap f.head n f.buf.length) :=
      h.shape.index_eq (by omega)
    rw [← hindex, LinearFifoBuffer.index, wrappingSub, usizeSub_of_le hpos,
      if_pos (show 1 ≤ f.buf.length from hpos),
      map_some]

/-- The cells of the first items are poisoned, and the others are behind them. -/
theorem poisoned (hn : n ≤ xs.length) (hr : f.readableRange 0 = some (a, b)) :
    ∃ buf, (if b - a ≥ n then f.poison a b n
        else do
          let poisoned ← f.poison a b (b - a)
          let (a', b') ← poisoned.readableRange (b - a)
          poisoned.poison a' b' (n - (b - a))) = some { f with buf := buf } ∧
      buf.length = f.buf.length ∧
      Layout buf (wrap f.head n f.buf.length) ((xs.drop n).map some) := by
  have hhead := h.layout.head_le
  have hlen := h.length_le
  have hlayout : Layout f.buf (wrap f.head n f.buf.length) ((xs.drop n).map some) := by
    rw [map_drop]
    exact h.layout.drop (by simpa using hn)
  have hab : a ≤ b ∧ b ≤ f.buf.length ∧ a = f.head ∧ (b - a < xs.length → b = f.buf.length) := by
    rw [h.readableRange (zero_le _), some.injEq, add_zero] at hr
    split_ifs at hr <;> obtain ⟨rfl, rfl⟩ := Prod.mk.inj hr <;> omega
  obtain ⟨hle, hb, rfl, hend⟩ := hab
  split_ifs with hslice
  · have hfit : f.head + (replicate n (none : Option α)).length ≤ f.buf.length := by
      rw [length_replicate]
      omega
    refine ⟨_, by rw [poison, debugAssert_of (by omega)]; rfl, length_writeAt hfit,
      hlayout.writeAt_free hfit fun i hi => ?_⟩
    simp only [length_map, length_drop, length_replicate] at hi ⊢
    unfold wrap
    split_ifs <;> omega
  · have hb' : b = f.buf.length := hend (by omega)
    subst hb'
    have hfit : f.head + (replicate (f.buf.length - f.head) (none : Option α)).length ≤
        f.buf.length := by
      rw [length_replicate]
      omega
    have hlength := length_writeAt hfit
    have hfit' : 0 + (replicate (n - (f.buf.length - f.head)) (none : Option α)).length ≤
        (writeAt f.buf f.head (replicate (f.buf.length - f.head) none)).length := by
      rw [hlength, length_replicate]
      omega
    have hrange : LinearFifo.readableRange ⟨writeAt f.buf f.head
        (replicate (f.buf.length - f.head) none), f.head, f.count⟩ (f.buf.length - f.head) =
        some (0, f.head + xs.length - f.buf.length) := by
      rw [readableRange_mk hlength, h.readableRange (by omega), if_pos (by omega)]
      congr 2
      omega
    refine ⟨writeAt (writeAt f.buf f.head (replicate (f.buf.length - f.head) none)) 0
      (replicate (n - (f.buf.length - f.head)) none), ?_, ?_, ?_⟩
    · simp only [poison, debugAssert_of le_rfl, bind_eq_bind, bind_some, hrange]
      rw [debugAssert_of (by omega), bind_some]
    · rw [length_writeAt hfit', hlength]
    · have hfirst := hlayout.writeAt_free hfit fun i hi => by
        simp only [length_map, length_drop, length_replicate] at hi ⊢
        unfold wrap
        split_ifs <;> omega
      refine hfirst.writeAt_free hfit' fun i hi => ?_
      simp only [length_map, length_drop, length_replicate, hlength] at hi ⊢
      unfold wrap
      split_ifs <;> omega

/-- Nothing but nothing from a static buffer without a cell fails. -/
theorem discard (hn : n ≤ xs.length) (hB : f.buf.length = 0 → B.powersOfTwo = true) :
    ∃ f', f.discard B n = some f' ∧ Holds B f' (xs.drop n) ∧ f'.buf.length = f.buf.length := by
  obtain ⟨⟨a, b⟩, hr⟩ : ∃ range, f.readableRange 0 = some range :=
    ⟨_, h.readableRange (zero_le _)⟩
  obtain ⟨buf, hbuf, hlength, hlayout⟩ := h.poisoned hn hr
  refine ⟨⟨buf, wrap f.head n f.buf.length, f.count - n⟩, ?_, ⟨hlayout, ?_, ?_⟩, hlength⟩
  · simp only [LinearFifo.discard, hr, bind_eq_bind, bind_some,
      h.discardHead hn hB] at hbuf ⊢
    rw [debugAssert_of (by rw [h.count]; exact hn), bind_some, hbuf, bind_some]
  · rw [h.count, length_drop]
  · rw [hlength]
    exact h.shape

theorem readItem : ∃ f', f.readItem B = some (xs.head?, f') ∧ Holds B f' xs.tail ∧
      f'.buf.length = f.buf.length := by
  rw [LinearFifo.readItem, h.count]
  cases xs with
  | nil => exact ⟨f, rfl, h, rfl⟩
  | cons x xs =>
    have hlen := h.length_le
    have hhead := h.layout.head_le
    rw [length_cons] at hlen
    obtain ⟨f', hf', h', hlength⟩ := h.discard (n := 1) (by simp) (fun h => by omega)
    have hcell := h.cell (i := 0) (by simp)
    rw [wrap_of_lt (by omega), add_zero] at hcell
    refine ⟨f', ?_, h', hlength⟩
    simp [hcell, hf']

/-- The first slice has items if there are any. -/
theorem readableSlice_zero :
    ∃ n ≤ xs.length, f.readableSlice 0 = some (xs.take n) ∧ (n = 0 → xs = []) := by
  obtain ⟨⟨a, b⟩, hr⟩ : ∃ range, f.readableRange 0 = some range :=
    ⟨_, h.readableRange (zero_le _)⟩
  have hhead := h.layout.head_le
  have hlen := h.length_le
  refine ⟨b - a, ?_, h.readableSlice (zero_le _) hr, fun hzero => ?_⟩
  all_goals
    rw [h.readableRange (zero_le _), some.injEq, add_zero] at hr
  · split_ifs at hr <;> obtain ⟨rfl, rfl⟩ := Prod.mk.inj hr <;> omega
  · apply eq_nil_of_length_eq_zero
    split_ifs at hr <;> obtain ⟨rfl, rfl⟩ := Prod.mk.inj hr <;> omega

omit h in
theorem read (n : ℕ) {f : LinearFifo α} {xs : List α} (h : Holds B f xs) :
    ∃ f', LinearFifo.read B n f = some (xs.take n, f') ∧ Holds B f' (xs.drop n) ∧
      f'.buf.length = f.buf.length := by
  rw [LinearFifo.read]
  by_cases hn : n = 0
  · subst hn
    exact ⟨f, rfl, h, rfl⟩
  rw [if_neg hn]
  obtain ⟨m, hm, hslice, hempty⟩ := h.readableSlice_zero
  rw [hslice]
  cases htake : xs.take m with
  | nil =>
    have hnil : xs = [] := by
      rcases take_eq_nil_iff.1 htake with h | h
      · exact hempty h
      · exact h
    subst hnil
    exact ⟨f, by simp, by simpa using h, rfl⟩
  | cons item slice =>
    have hlength : slice.length + 1 = m := by
      rw [← length_cons (a := item), ← htake, length_take]
      omega
    have hle := h.length_le
    obtain ⟨f₁, hf₁, h₁, hlength₁⟩ := h.discard (n := min m n) (by omega) (fun h => by omega)
    obtain ⟨f₂, hf₂, h₂, hlength₂⟩ := Holds.read (n - min m n) h₁
    have hmin : min (min m n) m = min m n := by omega
    have hsum : min m n + (n - min m n) = n := by omega
    rw [drop_drop, hsum] at h₂
    refine ⟨f₂, ?_, h₂, hlength₂.trans hlength₁⟩
    simp only [hlength, hf₁, hf₂, bind_eq_bind, bind_some]
    rw [← htake, take_take, hmin, ← take_add, hsum]
  termination_by n

/-! ### Writes -/

omit h in
theorem update {head count n : ℕ} (h : Holds B ⟨buf, head, count + n⟩ xs) :
    LinearFifo.update ⟨buf, head, count⟩ n = some ⟨buf, head, count + n⟩ := by
  have hcount : count + n = xs.length := h.count
  have hlen : xs.length ≤ buf.length := h.length_le
  rw [LinearFifo.update, debugAssert_of (show count + n ≤ buf.length by omega)]
  rfl

omit h in
theorem writeLoop : ∀ (src : List α) {f : LinearFifo α} {xs : List α}, Holds B f xs →
    xs.length + src.length ≤ f.buf.length →
    ∃ f', LinearFifo.writeLoop src f = some f' ∧ Holds B f' (xs ++ src) ∧
      f'.buf.length = f.buf.length
  | [], f, xs, h, _ => ⟨f, by rw [LinearFifo.writeLoop], by simpa using h, rfl⟩
  | item :: src, f, xs, h, hroom => by
    rw [length_cons] at hroom
    obtain ⟨b, hrange, hb, _, hlt, _⟩ := h.writableRange
    have hlt := hlt (by omega)
    rw [LinearFifo.writeLoop, hrange]
    simp only [show b - wrap f.head xs.length f.buf.length ≠ 0 by omega, if_false]
    generalize hn : min (b - wrap f.head xs.length f.buf.length) (src.length + 1) = n
    have htake : ((item :: src).take n).length = n := by
      rw [length_take, length_cons]
      omega
    obtain ⟨hwritten, hlength⟩ := h.written ((item :: src).take n) hb (by omega) (by omega)
    rw [htake] at hwritten
    obtain ⟨f', hf', h', hlength'⟩ := Holds.writeLoop ((item :: src).drop n) hwritten (by
      rw [length_append, htake, hlength, length_drop, length_cons]
      omega)
    rw [append_assoc, take_append_drop] at h'
    refine ⟨f', ?_, h', hlength'.trans hlength⟩
    rw [copyFromSlice_of_le (by omega)]
    simp only [bind_eq_bind, bind_some, hwritten.update, hf']
  termination_by src => src.length
  decreasing_by
    rw [length_drop, length_cons]
    omega

theorem writeItemAssumeCapacity (item : α) (hroom : xs.length < f.buf.length) :
    ∃ f', f.writeItemAssumeCapacity B item = some f' ∧ Holds B f' (xs ++ [item]) ∧
      f'.buf.length = f.buf.length := by
  obtain ⟨b, _, hb, _, hlt, _⟩ := h.writableRange
  have hlt := hlt hroom
  obtain ⟨hwritten, hlength⟩ := h.written [item] hb (by rw [length_singleton]; omega) hroom
  rw [h.count] at hwritten
  refine ⟨_, ?_, hwritten, hlength⟩
  simp only [LinearFifo.writeItemAssumeCapacity, h.count, h.index_eq hroom, bind_eq_bind,
    bind_some]
  rw [debugAssert_of (by omega), bind_some]
  exact hwritten.update

theorem writeItem (item : α) : ∃ f', f.writeItem B item =
        some (if xs.length + 1 ≤ B.limit then .ok () else .error .allocError, f') ∧
      Holds B f' (if xs.length + 1 ≤ B.limit then xs ++ [item] else xs) := by
  obtain ⟨f₁, hf₁, h₁, hroom, _⟩ := h.ensureUnusedCapacity 1
  simp only [LinearFifo.writeItem, hf₁, bind_eq_bind, bind_some]
  split_ifs with hlimit
  · obtain ⟨f₂, hf₂, h₂, _⟩ := h₁.writeItemAssumeCapacity item (hroom hlimit)
    exact ⟨f₂, by simp only [hf₂, map_some], h₂⟩
  · exact ⟨f₁, rfl, h₁⟩

theorem write (src : List α) : ∃ f', f.write B src =
        some (if xs.length + src.length ≤ B.limit then .ok () else .error .allocError, f') ∧
      Holds B f' (if xs.length + src.length ≤ B.limit then xs ++ src else xs) := by
  obtain ⟨f₁, hf₁, h₁, hroom, _⟩ := h.ensureUnusedCapacity src.length
  simp only [LinearFifo.write, hf₁, bind_eq_bind, bind_some]
  split_ifs with hlimit
  · obtain ⟨f₂, hf₂, h₂, _⟩ := Holds.writeLoop src h₁ (hroom hlimit)
    refine ⟨f₂, ?_, h₂⟩
    have hroom := hroom hlimit
    simp only [LinearFifo.writeAssumeCapacity, h₁.writableLength, bind_eq_bind,
      bind_some, hf₂]
    rw [debugAssert_of (by omega), bind_some, map_some]
  · exact ⟨f₁, rfl, h₁⟩

/-- With room for `size` items, a slice for them is writable, after a realignment if need be. -/
theorem writableSlice (hroom : xs.length + size ≤ f.buf.length)
    (hr : f.writableRange 0 = some (a, b)) :
    ∃ f', (if b - a < size then f.realign else some f) = some f' ∧ Holds B f' xs ∧
      ∃ b', f'.writableRange 0 = some (wrap f'.head xs.length f'.buf.length, b') ∧
        b' ≤ f'.buf.length ∧ size ≤ b' - wrap f'.head xs.length f'.buf.length ∧
        f'.buf.length = f.buf.length := by
  split_ifs with hsize
  · obtain ⟨f', hf', h', hhead, hlength⟩ := h.realign
    obtain ⟨b', hrange, hb', _, hlt, hend⟩ := h'.writableRange
    refine ⟨f', hf', h', b', hrange, hb', ?_, hlength⟩
    rcases lt_or_ge xs.length f'.buf.length with hlt | hge
    · rw [hhead] at hend ⊢
      rw [wrap_of_lt (by omega), hend (by omega)]
      omega
    · omega
  · obtain ⟨b', hrange, hb', _⟩ := h.writableRange
    obtain ⟨rfl, rfl⟩ := Prod.mk.inj (some.inj (hr.symm.trans hrange))
    exact ⟨f, rfl, h, b, hr, hb', by omega, rfl⟩

theorem fill {data : List α} (hdata : data.length ≤ size) : ∃ f', f.fill B size data =
        some (if xs.length + size ≤ B.limit then .ok () else .error .allocError, f') ∧
      Holds B f' (if xs.length + size ≤ B.limit then xs ++ data else xs) := by
  obtain ⟨f₁, hf₁, h₁, hroom, _⟩ := h.ensureUnusedCapacity size
  simp only [LinearFifo.fill, LinearFifo.writableWithSize, hf₁, bind_eq_bind,
    bind_some]
  split_ifs with hlimit
  · obtain ⟨b₁, hrange₁, _⟩ := h₁.writableRange
    obtain ⟨f₂, hf₂, h₂, b₂, hrange₂, hb₂, hsize, hlength⟩ :=
      h₁.writableSlice (hroom hlimit) hrange₁
    have hroom := hroom hlimit
    obtain ⟨hwritten, _⟩ := h₂.written data hb₂ (by omega) (by omega)
    refine ⟨_, ?_, hwritten⟩
    simp only [hrange₁, hf₂, hrange₂, debugAssert_of hsize, bind_some]
    rw [copyFromSlice_of_le (by omega)]
    simp only [bind_some, hwritten.update]
  · exact ⟨f₁, rfl, h₁⟩

/-! ### Items put back -/

/-- The head moves back, unless in a buffer without a cell. -/
theorem rewind (hroom : xs.length + n ≤ f.buf.length) (hpos : 0 < f.buf.length) :
    f.rewind B n = some ⟨f.buf, wrap f.head (f.buf.length - n) f.buf.length, f.count + n⟩ := by
  have hhead := h.layout.head_le
  have hindex : B.index (f.head + (f.buf.length - n)) f.buf.length =
      some (wrap f.head (f.buf.length - n) f.buf.length) := h.shape.index_eq (by omega)
  simp only [LinearFifo.rewind, h.writableLength, bind_eq_bind, bind_some]
  rw [debugAssert_of (by omega), usizeSub_of_le (by omega)]
  simp only [bind_some, hindex]

/-- Items written before the first one. -/
theorem putBack {front : ℕ} (hfront : wrap f.head (f.buf.length - src.length) f.buf.length = front)
    (hroom : xs.length + src.length ≤ f.buf.length) (hone : front + src.length ≤ f.buf.length)
    (hlt : front < f.buf.length) :
    Holds B ⟨writeAt f.buf front (src.map some), front, f.count + src.length⟩ (src ++ xs) := by
  have hlayout : Layout (writeAt f.buf front (src.map some)) front (src.map some ++ xs.map some) :=
    h.layout.prepend (by simpa using hfront) (by simpa using by omega) (by simpa) (by omega)
  refine ⟨by simpa using hlayout, ?_, ?_⟩
  · rw [h.count, length_append, add_comm]
  · rw [length_writeAt (by simpa)]
    exact h.shape

/-- Items written around the end of the buffer. The second slice is the one before the first item.
-/
theorem putBackAcross {front : ℕ}
    (hfront : wrap f.head (f.buf.length - src.length) f.buf.length = front)
    (hroom : xs.length + src.length ≤ f.buf.length) (hacross : f.buf.length < front + src.length)
    (hlt : front < f.buf.length) :
    Holds B ⟨writeAt (writeAt f.buf front ((src.take (f.buf.length - front)).map some)) 0
      ((src.drop (f.buf.length - front)).map some), front, f.count + src.length⟩ (src ++ xs) := by
  have hhead := h.layout.head_le
  generalize hfirst : src.take (f.buf.length - front) = first
  generalize hsecond : src.drop (f.buf.length - front) = second
  have hsrc : first ++ second = src := by rw [← hfirst, ← hsecond, take_append_drop]
  have hlen₁ : first.length = f.buf.length - front := by
    rw [← hfirst, length_take]
    omega
  have hlen : src.length = first.length + second.length := by rw [← hsrc, length_append]
  have hzero : wrap f.head (f.buf.length - second.length) f.buf.length = 0 := by
    unfold wrap at hfront ⊢
    split_ifs at hfront ⊢ <;> omega
  have h₂ := h.putBack hzero (by omega) (by omega) (by omega)
  have hlength : (writeAt f.buf 0 (second.map some)).length = f.buf.length :=
    length_writeAt (by simpa using by omega)
  have hback : wrap 0 ((writeAt f.buf 0 (second.map some)).length - first.length)
      (writeAt f.buf 0 (second.map some)).length = front := by
    rw [hlength, wrap_of_lt (by omega)]
    omega
  have h₃ := h₂.putBack hback (by simpa [hlength] using by omega)
    (by simpa [hlength] using by omega) (by simpa [hlength] using hlt)
  rw [← append_assoc, hsrc] at h₃
  rw [writeAt_comm (by simpa using by omega) (by simpa using by omega), hlen,
    add_comm first.length, ← add_assoc]
  exact h₃

theorem unget (hB : f.buf.length = 0 → src ≠ []) : ∃ f', f.unget B src =
        some (if xs.length + src.length ≤ B.limit then .ok () else .error .allocError, f') ∧
      Holds B f' (if xs.length + src.length ≤ B.limit then src ++ xs else xs) := by
  obtain ⟨f₁, hf₁, h₁, hroom, hle⟩ := h.ensureUnusedCapacity src.length
  simp only [LinearFifo.unget, hf₁, bind_eq_bind, bind_some]
  split_ifs with hlimit
  · have hroom := hroom hlimit
    have hpos : 0 < f₁.buf.length := by
      rcases Nat.eq_zero_or_pos f.buf.length with hzero | hpos
      · have := length_pos_iff.2 (hB hzero)
        omega
      · omega
    have hhead := h₁.layout.head_le
    have hlen := h₁.length_le
    simp only [h₁.rewind hroom hpos, bind_some]
    generalize hfront : wrap f₁.head (f₁.buf.length - src.length) f₁.buf.length = front
    have hlt : front < f₁.buf.length := by
      rw [← hfront, wrap]
      split_ifs <;> omega
    have hrange : LinearFifo.readableRange ⟨f₁.buf, front, f₁.count + src.length⟩ 0 =
        some (front, min (front + (xs.length + src.length)) f₁.buf.length) := by
      rw [h₁.count]
      exact readableRange_zero hlt
    simp only [hrange, bind_some]
    by_cases hone : front + src.length ≤ f₁.buf.length
    · have hmin : min (min (front + (xs.length + src.length)) f₁.buf.length - front) src.length =
          src.length := by omega
      rw [hmin, take_length, copyFromSlice_of_le (by omega), bind_some,
        if_neg (by omega)]
      exact ⟨_, rfl, h₁.putBack hfront hroom hone hlt⟩
    · have hmin : min (min (front + (xs.length + src.length)) f₁.buf.length - front) src.length =
          f₁.buf.length - front := by omega
      have hslice : min (front + (xs.length + src.length)) f₁.buf.length - front =
          f₁.buf.length - front := by omega
      have hfirst : (src.take (f₁.buf.length - front)).length = f₁.buf.length - front := by
        rw [length_take]
        omega
      have hlength : (writeAt f₁.buf front ((src.take (f₁.buf.length - front)).map some)).length =
          f₁.buf.length := length_writeAt (by simpa using by omega)
      have hrange₂ : LinearFifo.readableRange ⟨writeAt f₁.buf front
          ((src.take (f₁.buf.length - front)).map some), front, f₁.count + src.length⟩
          (f₁.buf.length - front) = some (0, front + (xs.length + src.length) - f₁.buf.length) := by
        rw [LinearFifo.readableRange, h₁.count]
        simp only [hlength]
        rw [if_neg (by omega), if_pos (by omega), sliceRange_of_le (by omega) (by omega)]
        congr 2 <;> omega
      rw [hmin, hslice, copyFromSlice_of_le (by omega), bind_some, if_pos (by omega), hrange₂,
        bind_some, copyFromSlice_of_le (by rw [length_drop]; omega)]
      exact ⟨_, rfl, h₁.putBackAcross hfront hroom (by omega) hlt⟩
  · exact ⟨f₁, rfl, h₁⟩

/-! ### Single items -/

theorem peekItem (ho : offset < xs.length) : f.peekItem B offset = some xs[offset] := by
  have hlen := h.length_le
  simp only [LinearFifo.peekItem, h.index_eq (show offset < f.buf.length by omega),
    bind_eq_bind, bind_some, h.cell ho, join_some]
  rw [debugAssert_of (by rw [h.count]; exact ho), bind_some]

omit h in
theorem shiftDownOne_of_le (hab : a ≤ b) (hb : b ≤ buf.length) :
    shiftDownOne buf a b = some (shiftDown buf a b) := by
  rw [shiftDownOne, sliceRange_of_le hab hb, map_some]

/-- With the items at hand, what the removal leaves of the buffer. -/
theorem removed {k : ℕ} (hk : k < xs.length)
    (hlayout : Layout buf f.head ((xs.map some).eraseIdx k)) (hlength : buf.length = f.buf.length) :
    Holds B ⟨buf, f.head, f.count - 1⟩ (xs.eraseIdx k) := by
  refine ⟨by rwa [← eraseIdx_map], ?_, ?_⟩
  · rw [h.count, length_eraseIdx_of_lt hk]
  · rw [hlength]
    exact h.shape

theorem orderedRemoveItem {k : ℕ} (hk : k < xs.length) :
    ∃ f', f.orderedRemoveItem B k = some f' ∧ Holds B f' (xs.eraseIdx k) := by
  have hhead := h.layout.head_le
  have hlen := h.length_le
  have hk' : k < (xs.map some).length := by simpa using hk
  rw [LinearFifo.orderedRemoveItem]
  by_cases hzero : k = 0
  · subst hzero
    obtain ⟨f', hf', h', _⟩ := h.discard (n := 1) hk (fun h => by omega)
    rw [if_pos rfl, hf']
    rw [drop_one, ← eraseIdx_zero] at h'
    exact ⟨f', rfl, h'⟩
  rw [if_neg hzero, debugAssert_of (by rw [h.count]; exact hk), usizeSub_of_le (by omega)]
  simp only [bind_eq_bind, bind_some, h.count]
  by_cases hend : f.head + xs.length ≤ f.buf.length
  · rw [if_pos (by omega), shiftDownOne_of_le (by omega) le_rfl, bind_some, ← h.count]
    exact ⟨_, rfl, h.removed hk (h.layout.eraseIdx_front (by simpa using hend) hk')
      (length_shiftDown le_rfl)⟩
  rw [if_neg (by omega), h.index_eq (by omega), usizeSub_of_le (by omega)]
  simp only [bind_some]
  by_cases hpast : f.buf.length ≤ f.head + k
  · rw [wrap_of_le hpast, if_pos (by omega), shiftDownOne_of_le (by omega) (by omega),
      bind_some, ← h.count]
    have hlayout := h.layout.eraseIdx_wrapped hk' hpast
    rw [length_map] at hlayout
    exact ⟨_, rfl, h.removed hk (by rwa [h.count]) (length_shiftDown (by rw [h.count]; omega))⟩
  · obtain ⟨first, hfirst⟩ : ∃ first, f.buf[0]? = some first :=
      ⟨_, getElem?_eq_getElem (show 0 < f.buf.length by omega)⟩
    have hone : f.buf.length - 1 + [first].length ≤
        (shiftDown f.buf (f.head + k) f.buf.length).length := by
      rw [length_shiftDown le_rfl, length_singleton]
      omega
    have hlength : (writeAt (shiftDown f.buf (f.head + k) f.buf.length) (f.buf.length - 1)
        [first]).length = f.buf.length := by
      rw [length_writeAt hone, length_shiftDown le_rfl]
    have hlayout := h.layout.eraseIdx_across hk' (by omega) (by simpa using by omega) hfirst
    rw [length_map] at hlayout
    rw [wrap_of_lt (by omega), if_neg (by omega), hfirst, bind_some,
      shiftDownOne_of_le (by omega) le_rfl, bind_some, usizeSub_of_le (by omega),
      bind_some, shiftDownOne_of_le (by omega) (by rw [hlength]; omega), bind_some]
    refine ⟨_, rfl, ?_⟩
    rw [← h.count] at hlayout ⊢
    exact h.removed hk hlayout (by rw [length_shiftDown (by rw [hlength, h.count]; omega), hlength])

theorem resetHeadIfEmpty : Holds B f.resetHeadIfEmpty xs := by
  rw [LinearFifo.resetHeadIfEmpty, h.count]
  split_ifs with hempty
  · have hnil := eq_nil_of_length_eq_zero hempty
    exact ⟨by rw [hnil]; exact .nil (zero_le _), rfl, h.shape⟩
  · exact h

end

end Holds

/-! ## What is readable -/

/-- The readable items are `xs`: one by one, and as the two slices from any offset on. -/
structure Readable (B : LinearFifoBuffer) (f : LinearFifo α) (xs : List α) : Prop where
  readableLength : f.readableLength = xs.length
  peekItem : ∀ offset (h : offset < xs.length), f.peekItem B offset = some xs[offset]
  readableSlice : ∀ offset ≤ xs.length, ∃ front back, f.readableSlice offset = some front ∧
    f.readableSlice (offset + front.length) = some back ∧ front ++ back = xs.drop offset

/-- A slice ends at the last item or at the end of the buffer. -/
theorem Holds.slice (h : Holds B f xs) (ho : offset ≤ xs.length) :
    ∃ n, f.readableSlice offset = some ((xs.drop offset).take n) ∧
      (offset + n = xs.length ∨ offset + n = f.buf.length - f.head ∧ offset + n ≤ xs.length ∧
        f.head + offset < f.buf.length) := by
  have hhead := h.layout.head_le
  have hlen := h.length_le
  obtain ⟨⟨a, b⟩, hr⟩ : ∃ range, f.readableRange offset = some range := ⟨_, h.readableRange ho⟩
  refine ⟨b - a, h.readableSlice ho hr, ?_⟩
  rw [h.readableRange ho, some.injEq] at hr
  split_ifs at hr with hwrap <;> obtain ⟨rfl, rfl⟩ := Prod.mk.inj hr <;> omega

theorem Holds.readable (h : Holds B f xs) : Readable B f xs where
  readableLength := h.count
  peekItem _ ho := h.peekItem ho
  readableSlice offset ho := by
    have hhead := h.layout.head_le
    obtain ⟨n, hfront, hend⟩ := h.slice ho
    have hlength : ((xs.drop offset).take n).length = n := by
      rw [length_take, length_drop]
      omega
    obtain ⟨m, hback, hend'⟩ := h.slice (show offset + n ≤ xs.length by omega)
    refine ⟨_, _, hfront, by rw [hlength]; exact hback, ?_⟩
    have hm : (xs.drop (offset + n)).take m = (xs.drop offset).drop n := by
      rw [drop_drop, take_of_length_le]
      rw [length_drop]
      omega
    rw [hm, take_append_drop]

end LinearFifo

/-! ## Runs -/

/-- The operations, with what they are called with. -/
inductive Op (α : Type)
  | write (src : List α)
  | writeItem (item : α)
  | fill (size : ℕ) (data : List α)
  | read (n : ℕ)
  | readItem
  | discard (n : ℕ)
  | unget (src : List α)
  | orderedRemoveItem (offset : ℕ)
  | ensureTotalCapacity (size : ℕ)
  | ensureUnusedCapacity (size : ℕ)
  | realign
  | resetHeadIfEmpty

/-- What an operation returns. -/
inductive Reply (α : Type)
  | result (r : Except AllocError Unit)
  | items (xs : List α)
  | item (x : Option α)
  | done

namespace Op

/-- The preconditions an operation asserts. -/
def Asserted : Op α → List α → Prop
  | discard n, xs => n ≤ xs.length
  | orderedRemoveItem offset, xs => offset < xs.length
  | fill size data, _ => data.length ≤ size
  | _, _ => True

/-- An operation on the ring buffer. -/
def step (B : LinearFifoBuffer) : Op α → LinearFifo α → Option (Reply α × LinearFifo α)
  | write src, f => (f.write B src).map fun (r, f) => (.result r, f)
  | writeItem item, f => (f.writeItem B item).map fun (r, f) => (.result r, f)
  | fill size data, f => (f.fill B size data).map fun (r, f) => (.result r, f)
  | read n, f => (LinearFifo.read B n f).map fun (xs, f) => (.items xs, f)
  | readItem, f => (f.readItem B).map fun (x, f) => (.item x, f)
  | discard n, f => (f.discard B n).map (.done, ·)
  | unget src, f => (f.unget B src).map fun (r, f) => (.result r, f)
  | orderedRemoveItem offset, f => (f.orderedRemoveItem B offset).map (.done, ·)
  | ensureTotalCapacity size, f => (f.ensureTotalCapacity B size).map fun (r, f) => (.result r, f)
  | ensureUnusedCapacity size, f =>
    (f.ensureUnusedCapacity B size).map fun (r, f) => (.result r, f)
  | realign, f => f.realign.map (.done, ·)
  | resetHeadIfEmpty, f => some (.done, f.resetHeadIfEmpty)

/-- A list with room for `limit` items, after `n` more of them were asked for. -/
def ask (limit : ℕ) (xs : List α) (n : ℕ) (ys : List α) : Reply α × List α :=
  if xs.length + n ≤ limit then (.result (.ok ()), ys) else (.result (.error .allocError), xs)

/-- The same operation on a list. -/
def listStep (limit : ℕ) : Op α → List α → Reply α × List α
  | write src, xs => ask limit xs src.length (xs ++ src)
  | writeItem item, xs => ask limit xs 1 (xs ++ [item])
  | fill size data, xs => ask limit xs size (xs ++ data)
  | read n, xs => (.items (xs.take n), xs.drop n)
  | readItem, xs => (.item xs.head?, xs.tail)
  | discard n, xs => (.done, xs.drop n)
  | unget src, xs => ask limit xs src.length (src ++ xs)
  | orderedRemoveItem offset, xs => (.done, xs.eraseIdx offset)
  | ensureTotalCapacity size, xs =>
    (.result (if size ≤ limit then .ok () else .error .allocError), xs)
  | ensureUnusedCapacity size, xs => ask limit xs size xs
  | realign, xs => (.done, xs)
  | resetHeadIfEmpty, xs => (.done, xs)

/-- Nothing is put back into a buffer without a cell, or discarded from a static one. -/
def HasCell (B : LinearFifoBuffer) (f : LinearFifo α) : Op α → Prop
  | unget src => f.buf.length = 0 → src ≠ []
  | discard n => f.buf.length = 0 → n = 0 → B.dynamic = true
  | _ => True

end Op

/-- The replies of a run and the ring buffer it ends with. -/
def run (B : LinearFifoBuffer) : List (Op α) → LinearFifo α → Option (List (Reply α) × LinearFifo α)
  | [], f => some ([], f)
  | op :: ops, f => do
    let (reply, f) ← op.step B f
    let (replies, f) ← run B ops f
    some (reply :: replies, f)

/-- The replies of a run on a list and the list it ends with. -/
def listRun (limit : ℕ) : List (Op α) → List α → List (Reply α) × List α
  | [], xs => ([], xs)
  | op :: ops, xs =>
    let (reply, xs) := op.listStep limit xs
    let (replies, xs) := listRun limit ops xs
    (reply :: replies, xs)

/-- The operations of a run have the preconditions they assert. -/
def Asserted (limit : ℕ) : List (Op α) → List α → Prop
  | [], _ => True
  | op :: ops, xs => op.Asserted xs ∧ Asserted limit ops (op.listStep limit xs).2

/-- No operation of a run is nothing to a buffer without a cell. -/
def HasCells (B : LinearFifoBuffer) : List (Op α) → LinearFifo α → Prop
  | [], _ => True
  | op :: ops, f => op.HasCell B f ∧ ∀ reply f', op.step B f = some (reply, f') → HasCells B ops f'

open LinearFifo (Readable)

variable {B : LinearFifoBuffer} {f : LinearFifo α} {xs : List α}

theorem ask_eq {limit n : ℕ} {ys : List α} :
    Op.ask limit xs n ys = (.result (if xs.length + n ≤ limit then .ok () else .error .allocError),
      if xs.length + n ≤ limit then ys else xs) := by
  rw [Op.ask]
  split_ifs <;> rfl

theorem step_holds (h : LinearFifo.Holds B f xs) (op : Op α) (ha : op.Asserted xs)
    (hc : op.HasCell B f) : ∃ f', op.step B f = some ((op.listStep B.limit xs).1, f') ∧
      LinearFifo.Holds B f' (op.listStep B.limit xs).2 := by
  cases op with
  | write src =>
    obtain ⟨f', hf', h'⟩ := h.write src
    exact ⟨f', by rw [Op.step, hf', Op.listStep, ask_eq, map_some],
      by rw [Op.listStep, ask_eq]; exact h'⟩
  | writeItem item =>
    obtain ⟨f', hf', h'⟩ := h.writeItem item
    exact ⟨f', by rw [Op.step, hf', Op.listStep, ask_eq, map_some],
      by rw [Op.listStep, ask_eq]; exact h'⟩
  | fill size data =>
    obtain ⟨f', hf', h'⟩ := h.fill ha
    exact ⟨f', by rw [Op.step, hf', Op.listStep, ask_eq, map_some],
      by rw [Op.listStep, ask_eq]; exact h'⟩
  | read n =>
    obtain ⟨f', hf', h', _⟩ := LinearFifo.Holds.read n h
    exact ⟨f', by rw [Op.step, hf']; rfl, h'⟩
  | readItem =>
    obtain ⟨f', hf', h', _⟩ := h.readItem
    exact ⟨f', by rw [Op.step, hf']; rfl, h'⟩
  | discard n =>
    have hle : n ≤ xs.length := ha
    have hlen := h.length_le
    obtain ⟨f', hf', h', _⟩ := h.discard hle fun hzero => by
      cases B with
      | staticBuffer m => exact absurd (hc hzero (by omega)) Bool.false_ne_true
      | dynamicBuffer => rfl
    exact ⟨f', by rw [Op.step, hf']; rfl, h'⟩
  | unget src =>
    obtain ⟨f', hf', h'⟩ := h.unget hc
    exact ⟨f', by rw [Op.step, hf', Op.listStep, ask_eq, map_some],
      by rw [Op.listStep, ask_eq]; exact h'⟩
  | orderedRemoveItem offset =>
    obtain ⟨f', hf', h'⟩ := h.orderedRemoveItem ha
    exact ⟨f', by rw [Op.step, hf']; rfl, h'⟩
  | ensureTotalCapacity size =>
    obtain ⟨f', hf', h', _⟩ := h.ensureTotalCapacity size
    exact ⟨f', by rw [Op.step, hf']; rfl, h'⟩
  | ensureUnusedCapacity size =>
    obtain ⟨f', hf', h', _⟩ := h.ensureUnusedCapacity size
    refine ⟨f', by rw [Op.step, hf', Op.listStep, ask_eq, map_some], ?_⟩
    rw [Op.listStep, ask_eq]
    simpa using h'
  | realign =>
    obtain ⟨f', hf', h', _⟩ := h.realign
    exact ⟨f', by rw [Op.step, hf']; rfl, h'⟩
  | resetHeadIfEmpty => exact ⟨_, rfl, h.resetHeadIfEmpty⟩

/-- Without a cell the index is a division by zero or a subtraction below it. -/
theorem index_zero (sum : ℕ) : B.index sum 0 = none := by
  rw [LinearFifoBuffer.index]
  split_ifs <;> rfl

section

variable (h : LinearFifo.Holds B f xs)
include h

theorem unget_eq_none (hzero : f.buf.length = 0) : f.unget B [] = none := by
  have hlen := h.length_le
  have hcount : f.count = 0 := by
    rw [h.count]
    omega
  have hroom : f.ensureUnusedCapacity B 0 = some (.ok (), f) := by
    simp [LinearFifo.ensureUnusedCapacity, LinearFifo.writableLength, hzero, hcount, usizeSub]
  have hrewind : f.rewind B 0 = none := by
    simp [LinearFifo.rewind, LinearFifo.writableLength, hzero, hcount, usizeSub, index_zero]
  simp [LinearFifo.unget, hroom, hrewind]

theorem discard_eq_none (hzero : f.buf.length = 0) (hB : B.dynamic ≠ true) :
    f.discard B 0 = none := by
  obtain ⟨⟨a, b⟩, hr⟩ : ∃ range, f.readableRange 0 = some range :=
    ⟨_, h.readableRange (zero_le _)⟩
  have hpow : B.powersOfTwo = false := by
    cases B with
    | staticBuffer n =>
      have hn : f.buf.length = n := h.shape
      rw [← hn, hzero]
      decide
    | dynamicBuffer => exact absurd rfl hB
  simp [LinearFifo.discard, hr, hpow, hzero, usizeRem]

theorem step_eq_none (op : Op α) (hc : ¬ op.HasCell B f) : op.step B f = none := by
  cases op with
  | unget src =>
    simp only [Op.HasCell, ne_eq, Classical.not_imp, not_not] at hc
    rw [Op.step, hc.2, unget_eq_none h hc.1, map_none]
  | discard n =>
    simp only [Op.HasCell, Classical.not_imp] at hc
    rw [Op.step, hc.2.1, discard_eq_none h hc.1 hc.2.2, map_none]
  | _ => exact absurd trivial hc

end

theorem holds_init (B : LinearFifoBuffer) : LinearFifo.Holds B (LinearFifo.init B : LinearFifo α)
    [] := by
  cases B with
  | staticBuffer n => exact ⟨.nil (zero_le _), rfl, length_replicate⟩
  | dynamicBuffer => exact ⟨.nil (zero_le _), rfl, Or.inl rfl⟩

theorem run_holds : ∀ (ops : List (Op α)) {f : LinearFifo α} {xs : List α},
    LinearFifo.Holds B f xs → Asserted B.limit ops xs → HasCells B ops f →
    ∃ f', run B ops f = some ((listRun B.limit ops xs).1, f') ∧
      LinearFifo.Holds B f' (listRun B.limit ops xs).2
  | [], f, _, h, _, _ => ⟨f, rfl, h⟩
  | op :: ops, f, xs, h, ha, hc => by
    obtain ⟨f₁, hf₁, h₁⟩ := step_holds h op ha.1 hc.1
    obtain ⟨f₂, hf₂, h₂⟩ := run_holds ops h₁ ha.2 (hc.2 _ _ hf₁)
    refine ⟨f₂, ?_, h₂⟩
    simp only [run, hf₁, hf₂, bind_eq_bind, bind_some, listRun]

/-- A run that ends does nothing to a buffer without a cell. -/
theorem hasCells_of_run : ∀ (ops : List (Op α)) {f : LinearFifo α} {xs : List α},
    LinearFifo.Holds B f xs → Asserted B.limit ops xs → (run B ops f).isSome → HasCells B ops f
  | [], _, _, _, _, _ => trivial
  | op :: ops, f, xs, h, ha, hrun => by
    have hc : op.HasCell B f := by
      by_contra hc
      simp [run, step_eq_none h op hc] at hrun
    refine ⟨hc, fun reply f' hf' => ?_⟩
    obtain ⟨f₁, hf₁, h₁⟩ := step_holds h op ha.1 hc
    obtain ⟨rfl, rfl⟩ := Prod.mk.inj (some.inj (hf'.symm.trans hf₁))
    refine hasCells_of_run ops h₁ ha.2 ?_
    simp only [run, hf', bind_eq_bind, bind_some] at hrun
    cases hops : run B ops f' with
    | none => simp [hops] at hrun
    | some r => rfl

/-- A run within the preconditions it asserts replies as a list does and shows the items the list
has, exactly if it puts nothing back into, and discards nothing from, a buffer that has no cell. -/
theorem run_eq_listRun_iff (B : LinearFifoBuffer) (ops : List (Op α))
    (h : Asserted B.limit ops []) :
    (∃ f, run B ops (LinearFifo.init B) = some ((listRun B.limit ops []).1, f) ∧
      Readable B f (listRun B.limit ops []).2) ↔ HasCells B ops (LinearFifo.init B) := by
  constructor
  · rintro ⟨f, hf, _⟩
    exact hasCells_of_run ops (holds_init B) h (by rw [hf]; rfl)
  · intro hc
    obtain ⟨f, hf, hholds⟩ := run_holds ops (holds_init B) h hc
    exact ⟨f, hf, hholds.readable⟩

/-- Three cells, around whose end the items go before one of them is removed. -/
theorem run_eq_listRun_around : ∃ f,
    run (.staticBuffer 3) [.write [7, 8, 9], .readItem, .writeItem 1, .orderedRemoveItem 1,
        .write [5, 6]] (LinearFifo.init (.staticBuffer 3) : LinearFifo ℕ) =
      some ([.result (.ok ()), .item (some 7), .result (.ok ()), .done,
        .result (.error .allocError)], f) ∧ Readable (.staticBuffer 3) f [8, 1] :=
  (run_eq_listRun_iff (.staticBuffer 3) [.write [7, 8, 9], .readItem, .writeItem 1,
    .orderedRemoveItem 1, .write [5, 6]] ⟨trivial, trivial, trivial, show 1 < 3 by decide, trivial,
    trivial⟩).2
    ⟨trivial, fun _ _ _ => ⟨trivial, fun _ _ _ => ⟨trivial, fun _ _ _ => ⟨trivial, fun _ _ _ =>
      ⟨trivial, fun _ _ _ => trivial⟩⟩⟩⟩⟩

/-- Nothing put back into the buffer a dynamic one starts with subtracts below zero, and nothing
discarded from a static one without a cell divides by zero. -/
theorem run_without_cell :
    (Asserted LinearFifoBuffer.dynamicBuffer.limit [Op.unget []] ([] : List ℕ) ∧
      ¬ ∃ r, run .dynamicBuffer [.unget []]
        (LinearFifo.init .dynamicBuffer : LinearFifo ℕ) = some r) ∧
    Asserted (LinearFifoBuffer.staticBuffer 0).limit [Op.discard 0] ([] : List ℕ) ∧
      ¬ ∃ r, run (.staticBuffer 0) [.discard 0]
        (LinearFifo.init (.staticBuffer 0) : LinearFifo ℕ) = some r := by
  refine ⟨⟨⟨trivial, trivial⟩, ?_⟩, ⟨le_refl 0, trivial⟩, ?_⟩
  · rintro ⟨r, hr⟩
    have hnone : run .dynamicBuffer [.unget []]
      (LinearFifo.init .dynamicBuffer : LinearFifo ℕ) = none := rfl
    cases hnone.symm.trans hr
  · rintro ⟨r, hr⟩
    have hnone : run (.staticBuffer 0) [.discard 0]
      (LinearFifo.init (.staticBuffer 0) : LinearFifo ℕ) = none := rfl
    cases hnone.symm.trans hr

end Soup.Collections
