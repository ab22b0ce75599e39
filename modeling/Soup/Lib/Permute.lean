import Mathlib.Algebra.Order.Ring.Int
import Mathlib.Data.List.Basic
import Mathlib.Order.Nat

/-!
# Permuting in place

`permute` puts at every place what `perm` says was elsewhere, by swaps along the cycles of `perm`.
It only swaps, so that what carries one list to another carries one run to the other
(`permute_map`); on a list the result is that every place has what `perm` says (`permute_eq`).
-/

namespace Soup.Lib

open List Option Nat

variable {α β σ τ : Type}

/-- Two elements change places. -/
def swap (xs : List α) (i j : ℕ) : List α :=
  match xs[i]?, xs[j]? with
  | some x, some y => (xs.set i y).set j x
  | _, _ => xs

@[simp] theorem length_swap (xs : List α) (i j : ℕ) : (swap xs i j).length = xs.length := by
  rw [swap]
  split <;> simp

theorem getElem?_swap {xs : List α} {i j : ℕ} (hi : i < xs.length) (hj : j < xs.length) (k : ℕ) :
    (swap xs i j)[k]? = if k = j then xs[i]? else if k = i then xs[j]? else xs[k]? := by
  rw [swap, getElem?_eq_getElem hi, getElem?_eq_getElem hj]
  simp only [getElem?_set, length_set]
  grind

theorem swap_map (f : α → β) (xs : List α) (i j : ℕ) :
    (swap xs i j).map f = swap (xs.map f) i j := by
  rw [swap, swap, getElem?_map, getElem?_map]
  cases xs[i]? <;> cases xs[j]? <;> simp [map_set]

section Permute

variable (swp : σ → ℕ → ℕ → σ) (perm : List ℕ)

/-- Follows the cycle of `start`; `fuel` bounds its length. -/
def cycle (start : ℕ) : ℕ → ℕ → σ × List Bool → Option (σ × List Bool)
  | 0, _, _ => none
  | fuel + 1, i, (xs, visited) =>
    if visited.getD i false then some (xs, visited)
    else
      let visited := visited.set i true
      let j := perm.getD i 0
      if j = start then some (xs, visited)
      else cycle start fuel j (swp xs i j, visited)

def permuteFrom (state : σ × List Bool) (start : ℕ) : Option (σ × List Bool) :=
  if state.2.getD start false || perm.getD start 0 == start then some state
  else cycle swp perm start (perm.length + 1) start state

def permute (xs : σ) : Option σ := do
  let (xs, _) ← (range perm.length).foldlM (permuteFrom swp perm)
    (xs, replicate perm.length false)
  some xs

end Permute

section Map

variable {swp : σ → ℕ → ℕ → σ} {swp' : τ → ℕ → ℕ → τ} {perm : List ℕ} {f : σ → τ}

theorem cycle_map (h : ∀ xs i j, f (swp xs i j) = swp' (f xs) i j) (start : ℕ) :
    ∀ (fuel i : ℕ) (xs : σ) (visited : List Bool),
    cycle swp' perm start fuel i (f xs, visited) =
      (cycle swp perm start fuel i (xs, visited)).map (Prod.map f id)
  | 0, _, _, _ => rfl
  | fuel + 1, i, xs, visited => by
    rw [cycle, cycle]
    split
    · rfl
    · dsimp only
      split
      · rfl
      · rw [← h, cycle_map h start]

theorem permute_map (h : ∀ xs i j, f (swp xs i j) = swp' (f xs) i j) (xs : σ) :
    permute swp' perm (f xs) = (permute swp perm xs).map f := by
  have hfold : ∀ (starts : List ℕ) (xs : σ) (visited : List Bool),
      starts.foldlM (permuteFrom swp' perm) (f xs, visited) =
        (starts.foldlM (permuteFrom swp perm) (xs, visited)).map (Prod.map f id) := by
    intro starts
    induction starts with
    | nil => exact fun _ _ => rfl
    | cons start starts ih =>
      intro xs visited
      have hone : permuteFrom swp' perm (f xs, visited) start =
          (permuteFrom swp perm (xs, visited) start).map (Prod.map f id) := by
        rw [permuteFrom, permuteFrom]
        split
        · rfl
        · exact cycle_map h start _ _ _ _
      rw [foldlM_cons, foldlM_cons, hone]
      cases permuteFrom swp perm (xs, visited) start with
      | none => rfl
      | some state => exact ih state.1 state.2
  rw [permute, permute, hfold]
  cases (range perm.length).foldlM (permuteFrom swp perm)
    (xs, replicate perm.length false) <;> rfl

end Map

/-! ## The result -/

section Result

variable {perm : List ℕ} {xs ys : List α} {visited : List Bool} {start i : ℕ}

/-- Places that were visited have what they should, and all others what they had. The places that
were visited are whole cycles, but for one that goes from `start` to `i`. -/
structure Moved (perm : List ℕ) (xs ys : List α) (visited : List Bool) (hole : Option (ℕ × ℕ)) :
    Prop where
  length : ys.length = xs.length
  visited_length : visited.length = xs.length
  moved : ∀ k < xs.length, (∀ h ∈ hole, k ≠ h.2) → ys[k]? =
    if visited.getD k false then xs[perm.getD k 0]? else xs[k]?
  next : ∀ k, visited.getD k false = true →
    visited.getD (perm.getD k 0) false = true ∨ ∃ h ∈ hole, perm.getD k 0 = h.2
  prev : ∀ k, visited.getD k false = true → (∀ h ∈ hole, k ≠ h.1) →
    ∃ k', visited.getD k' false = true ∧ perm.getD k' 0 = k

/-- `perm` has every place once. -/
structure Permutes (perm : List ℕ) (n : ℕ) : Prop where
  length : perm.length = n
  lt : ∀ k < n, perm.getD k 0 < n
  inj : ∀ k < n, ∀ k' < n, perm.getD k 0 = perm.getD k' 0 → k = k'

variable {k : ℕ}

theorem getD_set_true (hi : i < visited.length) :
    (visited.set i true).getD k false = if k = i then true else visited.getD k false := by
  simp only [getD_eq_getElem?_getD, getElem?_set]
  grind

theorem lt_of_getD (h : visited.getD k false = true) : k < visited.length := by
  by_contra hk
  rw [getD_eq_getElem?_getD, getElem?_eq_none (not_lt.1 hk)] at h
  cases h

theorem getD_set_of_getD (hi : i < visited.length) (hk : visited.getD k false = true) :
    (visited.set i true).getD k false = true := by
  rw [getD_set_true hi]
  split
  · rfl
  · exact hk

theorem count_false_set (hi : i < visited.length) (hnot : visited.getD i false = false) :
    (visited.set i true).count false < visited.count false := by
  rw [getD_eq_getElem?_getD, getElem?_eq_getElem hi, getD_some] at hnot
  have hpos : 0 < visited.count false := count_pos_iff.2 (hnot ▸ getElem_mem hi)
  rw [count_set hi, hnot, beq_self_eq_true, if_pos rfl, if_neg (by decide)]
  omega

namespace Moved

section

variable (h : Moved perm xs ys visited (some (start, i))) (hi : i < xs.length)
  (hp : i = start ∨ ∃ k, visited.getD k false = true ∧ perm.getD k 0 = i)
include h hi

theorem next_set (hki : k ≠ i) (hk : (visited.set i true).getD k false = true) :
    (visited.set i true).getD (perm.getD k 0) false = true := by
  have hiv := h.visited_length.symm ▸ hi
  rw [getD_set_true hiv, if_neg hki] at hk
  rcases h.next k hk with hn | ⟨h, hh, hn⟩
  · exact getD_set_of_getD hiv hn
  · rw [hn, ← some.inj hh, getD_set_true hiv, if_pos rfl]

include hp

theorem prev_set (hks : k ≠ start) (hk : (visited.set i true).getD k false = true) :
    ∃ k', (visited.set i true).getD k' false = true ∧ perm.getD k' 0 = k := by
  have hiv := h.visited_length.symm ▸ hi
  by_cases hki : k = i
  · obtain ⟨k', hk', hpk'⟩ := hp.resolve_left fun h => hks (hki.trans h)
    exact ⟨k', getD_set_of_getD hiv hk', hpk'.trans hki.symm⟩
  · rw [getD_set_true hiv, if_neg hki] at hk
    obtain ⟨k', hk', hpk'⟩ := h.prev k hk fun h hh => by
      rw [← some.inj hh]
      exact hks
    exact ⟨k', getD_set_of_getD hiv hk', hpk'⟩

/-- The cycle is back at `start`. -/
theorem close (hys : ys[i]? = xs[start]?) (hj : perm.getD i 0 = start)
    (hstart : (visited.set i true).getD start false = true) :
    Moved perm xs ys (visited.set i true) none := by
  have hset := fun k => getD_set_true (k := k) (h.visited_length.symm ▸ hi)
  refine ⟨h.length, ?_, fun k hk _ => ?_, fun k hk => ?_, fun k hk _ => ?_⟩
  · rw [length_set, h.visited_length]
  · rw [hset]
    by_cases hki : k = i
    · rw [if_pos hki, if_pos rfl, hki, hj, hys]
    · rw [if_neg hki]
      exact h.moved k hk fun h hh => by rw [← some.inj hh]; exact hki
  · by_cases hki : k = i
    · rw [hki, hj]
      exact .inl hstart
    · exact .inl (h.next_set hi hki hk)
  · by_cases hks : k = start
    · exact ⟨i, by rw [hset, if_pos rfl], hj.trans hks.symm⟩
    · exact h.prev_set hi hp hks hk

variable (hperm : Permutes perm xs.length) (hnot : visited.getD i false = false)
  (hj : perm.getD i 0 ≠ start)
include hperm hnot hj

/-- The next place is a new one. -/
theorem fresh : perm.getD i 0 ≠ i ∧ visited.getD (perm.getD i 0) false = false := by
  have hbefore : ∀ k, visited.getD k false = true → perm.getD k 0 ≠ perm.getD i 0 := by
    intro k hk hpk
    rw [hperm.inj k (h.visited_length ▸ lt_of_getD hk) i hi hpk, hnot] at hk
    cases hk
  constructor
  · intro hji
    obtain ⟨k, hk, hpk⟩ := hp.resolve_left fun h => hj (hji.trans h)
    exact hbefore k hk (hpk.trans hji.symm)
  · by_contra hjv
    rw [Bool.not_eq_false] at hjv
    obtain ⟨k, hk, hpk⟩ := h.prev _ hjv fun h hh => by
      rw [← some.inj hh]
      exact hj
    exact hbefore k hk hpk

/-- What should be at `i` goes there, and the hole to the next place. -/
theorem swap : Moved perm xs (swap ys i (perm.getD i 0)) (visited.set i true)
    (some (start, perm.getD i 0)) := by
  have hset := fun k => getD_set_true (k := k) (h.visited_length.symm ▸ hi)
  have hjlt := hperm.lt i hi
  obtain ⟨hji, hjnot⟩ := h.fresh hi hp hperm hnot hj
  refine ⟨by rw [length_swap, h.length], by rw [length_set, h.visited_length],
    fun k hk hkj => ?_, fun k hk => ?_, fun k hk hks => h.prev_set hi hp (hks _ rfl) hk⟩
  · rw [getElem?_swap (h.length.symm ▸ hi) (h.length.symm ▸ hjlt), if_neg (hkj _ rfl), hset]
    by_cases hki : k = i
    · rw [if_pos hki, if_pos hki, if_pos rfl, hki,
        h.moved _ hjlt fun h hh => by rw [← some.inj hh]; exact hji]
      rw [hjnot, if_neg Bool.false_ne_true]
    · rw [if_neg hki, if_neg hki]
      exact h.moved k hk fun h hh => by rw [← some.inj hh]; exact hki
  · by_cases hki : k = i
    · exact .inr ⟨_, rfl, by rw [hki]⟩
    · exact .inl (h.next_set hi hki hk)

end

end Moved

theorem cycle_spec (hperm : Permutes perm xs.length) (hstart : start < xs.length) :
    ∀ (fuel i : ℕ) (ys : List α) (visited : List Bool), i < xs.length →
    visited.count false < fuel → visited.getD i false = false →
    (i = start ∨ visited.getD start false = true) →
    (i = start ∨ ∃ k, visited.getD k false = true ∧ perm.getD k 0 = i) →
    ys[i]? = xs[start]? → Moved perm xs ys visited (some (start, i)) →
    ∃ ys' visited', cycle swap perm start fuel i (ys, visited) = some (ys', visited') ∧
      Moved perm xs ys' visited' none ∧ visited'.getD start false = true ∧
      ∀ k, visited.getD k false = true → visited'.getD k false = true
  | 0, _, _, _, _, hfuel, _, _, _, _, _ => absurd hfuel (not_lt_zero _)
  | fuel + 1, i, ys, visited, hi, hfuel, hnot, hs, hp, hys, h => by
    have hiv : i < visited.length := h.visited_length.symm ▸ hi
    have hseti : (visited.set i true).getD i false = true := by rw [getD_set_true hiv, if_pos rfl]
    have hset : (visited.set i true).getD start false = true := by
      rcases hs with rfl | hs
      · exact hseti
      · exact getD_set_of_getD hiv hs
    rw [cycle, if_neg (by rw [hnot]; simp)]
    dsimp only
    split
    next hj =>
      exact ⟨ys, visited.set i true, rfl, h.close hi hp hys hj hset, hset,
        fun k => getD_set_of_getD hiv⟩
    next hj =>
      have hjlt := hperm.lt i hi
      obtain ⟨hji, hjnot⟩ := h.fresh hi hp hperm hnot hj
      obtain ⟨ys', visited', hcall, hmoved, hstart', hkeep⟩ := cycle_spec hperm hstart fuel
        (perm.getD i 0) (swap ys i (perm.getD i 0)) (visited.set i true) hjlt
        (lt_of_lt_of_le (count_false_set hiv hnot) (le_of_lt_succ hfuel))
        (by rw [getD_set_true hiv, if_neg hji, hjnot]) (.inr hset) (.inr ⟨i, hseti, rfl⟩)
        (by rw [getElem?_swap (h.length.symm ▸ hi) (h.length.symm ▸ hjlt), if_pos rfl, hys])
        (h.swap hi hp hperm hnot hj)
      exact ⟨ys', visited', hcall, hmoved, hstart', fun k hk => hkeep k (getD_set_of_getD hiv hk)⟩

theorem permuteFrom_spec (hperm : Permutes perm xs.length) (hstart : start < xs.length)
    (h : Moved perm xs ys visited none) :
    ∃ ys' visited', permuteFrom swap perm (ys, visited) start = some (ys', visited') ∧
      Moved perm xs ys' visited' none ∧
      (visited'.getD start false = true ∨ perm.getD start 0 = start) ∧
      ∀ k, visited.getD k false = true → visited'.getD k false = true := by
  rw [permuteFrom]
  split
  next hskip =>
    rw [Bool.or_eq_true, beq_iff_eq] at hskip
    exact ⟨ys, visited, rfl, h, hskip, fun _ hk => hk⟩
  next hskip =>
    rw [Bool.or_eq_true, beq_iff_eq, not_or, Bool.not_eq_true] at hskip
    have hmoved : Moved perm xs ys visited (some (start, start)) :=
      ⟨h.length, h.visited_length, fun k hk _ => h.moved k hk (by simp),
        fun k hk => .inl ((h.next k hk).resolve_right (by simp)),
          fun k hk _ => h.prev k hk (by simp)⟩
    have hcount : visited.count false < perm.length + 1 := by
      have := count_le_length (a := false) (l := visited)
      rw [h.visited_length, ← hperm.length] at this
      omega
    have hys : ys[start]? = xs[start]? := by
      rw [h.moved start hstart (by simp), show visited.getD start false = false from hskip.1]
      rfl
    obtain ⟨ys', visited', hcall, hmoved', hstart', hkeep⟩ := cycle_spec hperm hstart
      (perm.length + 1) start ys visited hstart hcount hskip.1 (.inl rfl) (.inl rfl) hys hmoved
    exact ⟨ys', visited', hcall, hmoved', .inl hstart', hkeep⟩

/-- Every place gets what `perm` says. -/
theorem permute_eq (hperm : Permutes perm xs.length) :
    ∃ ys, permute swap perm xs = some ys ∧ ys.length = xs.length ∧
      ∀ k < xs.length, ys[k]? = xs[perm.getD k 0]? := by
  have hfold : ∀ n ≤ xs.length, ∃ ys visited,
      (range n).foldlM (permuteFrom swap perm) (xs, replicate perm.length false) =
        some (ys, visited) ∧ Moved perm xs ys visited none ∧
      ∀ k < n, visited.getD k false = true ∨ perm.getD k 0 = k := by
    intro n
    induction n with
    | zero =>
      have hnot : ∀ k, ¬(replicate perm.length false).getD k false = true := by
        intro k
        rw [getD_eq_getElem?_getD, getElem?_replicate]
        split <;> simp
      refine fun _ => ⟨xs, _, rfl, ⟨rfl, by rw [length_replicate, hperm.length], fun k _ _ => ?_,
        fun k hk => absurd hk (hnot k), fun k hk => absurd hk (hnot k)⟩, fun k hk => ?_⟩
      · rw [if_neg (hnot k)]
      · exact absurd hk (not_lt_zero k)
    | succ n ih =>
      intro hn
      obtain ⟨ys, visited, hcall, hmoved, hdone⟩ := ih (le_of_succ_le hn)
      obtain ⟨ys', visited', hcall', hmoved', hn', hkeep⟩ := permuteFrom_spec hperm hn hmoved
      refine ⟨ys', visited', ?_, hmoved', fun k hk => ?_⟩
      · rw [range_succ, foldlM_append, hcall]
        show (permuteFrom swap perm (ys, visited) n >>= _) = _
        rw [hcall']
        rfl
      · rcases Nat.lt_succ_iff_lt_or_eq.1 hk with hk | rfl
        · exact (hdone k hk).imp_left (hkeep k)
        · exact hn'
  obtain ⟨ys, visited, hcall, hmoved, hdone⟩ := hfold xs.length le_rfl
  refine ⟨ys, ?_, hmoved.length, fun k hk => ?_⟩
  · rw [← hperm.length] at hcall
    rw [permute, hcall]
    rfl
  · rw [hmoved.moved k hk (by simp)]
    split
    · rfl
    · rw [(hdone k hk).resolve_left ‹_›]

end Result

end Soup.Lib
