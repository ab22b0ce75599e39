import Mathlib.Data.List.Induction
import Soup.Collections.Bitwise

/-!
# Iteration

An iterator gives the numbers of the words it is made for, forwards or backwards (`drain_init`).
What it still has to give (`Pending`) does not change while it goes on to the next word, and `next`
takes the first of it.
-/

namespace Soup.Collections

open Soup.Lib List Nat BitSetIterator

variable {kindSet dirFwd : Bool} {last : Word} {masks : List Word}

theorem positions_append : ∀ (xs ys : List Word) (offset : ℕ),
    positions offset (xs ++ ys) = positions offset xs ++ positions (offset + 64 * xs.length) ys
  | [], _, _ => rfl
  | x :: xs, ys, offset => by
    rw [cons_append, positions, positions, positions_append xs, append_assoc,
      length_cons, show offset + 64 + 64 * xs.length = offset + 64 * (xs.length + 1) by omega]

/-- A word, or the bits that it does not have. -/
def kindWord (kindSet : Bool) (word : Word) : Word := if kindSet then word else ~~~word

/-- The words whose bits are wanted; `last` masks the last. -/
def wanted (kindSet : Bool) (last : Word) : List Word → List Word
  | [] => []
  | [word] => [if kindSet then word else ~~~word &&& last]
  | word :: masks => kindWord kindSet word :: wanted kindSet last masks

theorem wanted_concat (word : Word) : ∀ masks : List Word, wanted kindSet last (masks ++ [word]) =
    masks.map (kindWord kindSet) ++ [if kindSet then word else ~~~word &&& last]
  | [] => rfl
  | w :: masks => by
    have hne : masks ++ [word] ≠ [] := by simp
    rw [cons_append, map_cons, cons_append, ← wanted_concat word masks]
    cases h : masks ++ [word] with
    | nil => exact absurd h hne
    | cons w' rest => rfl

theorem wanted_true : ∀ masks : List Word, wanted true last masks = masks
  | [] => rfl
  | [_] => rfl
  | w :: w' :: masks => by
    rw [wanted, wanted_true (w' :: masks)]
    · rfl
    · simp

variable (masks : List Word)

theorem wanted_false : wanted false last masks =
    (masks.map (~~~ ·)).modify (masks.length - 1) (· &&& last) := by
  cases masks using reverseRecOn with
  | nil => rfl
  | append_singleton masks word =>
    rw [wanted_concat, map_append, length_append, length_singleton,
      Nat.add_sub_cancel, modify_eq_set_getElem?]
    simp [kindWord]

/-- What an iterator still has to give. -/
def Pending (kindSet : Bool) : Bool → BitSetIterator → List ℕ → Prop
  | true, it, l => l = (ones it.bitsRemain).map (it.bitOffset + ·) ++
      positions (it.bitOffset + 64) (wanted kindSet it.lastWordMask it.wordsRemain)
  | false, it, l => it.bitOffset = 64 * it.wordsRemain.length ∧
      l = ((ones it.bitsRemain).map (it.bitOffset + ·)).reverse ++
        (positions 0 (it.wordsRemain.map (kindWord kindSet))).reverse

namespace Pending

variable {it : BitSetIterator} {l : List ℕ}

/-- The next word has what comes next. -/
theorem nextWord (h : Pending kindSet dirFwd it l) (hzero : it.bitsRemain = 0)
    (hwords : it.wordsRemain ≠ []) : Pending kindSet dirFwd
      { nextWord kindSet dirFwd false it with
        bitOffset := if dirFwd then it.bitOffset + 64 else it.bitOffset - 64 } l := by
  cases dirFwd with
  | true =>
    rw [Pending, ones_of_eq_zero hzero, map_nil, nil_append] at h
    cases hw : it.wordsRemain with
    | nil => exact absurd hw hwords
    | cons word rest =>
      rw [hw] at h
      rw [Pending, h, nextWord, hw]
      cases rest with
      | nil => cases kindSet <;> rfl
      | cons w rest => cases kindSet <;> rfl
  | false =>
    obtain ⟨hoffset, h⟩ := h
    rw [ones_of_eq_zero hzero, map_nil, reverse_nil, nil_append] at h
    obtain ⟨rest, word, hw⟩ := (eq_nil_or_concat' it.wordsRemain).resolve_left hwords
    rw [hw, length_append, length_singleton] at hoffset
    rw [hw, map_append, positions_append, reverse_append, length_map] at h
    have hword : (nextWord kindSet false false it).bitsRemain =
        kindWord kindSet word := by
      rw [nextWord, hw]
      cases kindSet <;> simp [kindWord]
    have hrest : (nextWord kindSet false false it).wordsRemain = rest := by
      rw [nextWord, hw]
      simp
    refine ⟨?_, ?_⟩
    · dsimp only
      rw [hrest, if_neg Bool.false_ne_true]
      omega
    · dsimp only
      rw [hrest, hword, h, if_neg Bool.false_ne_true]
      simp only [map_cons, map_nil, positions, append_nil]
      rw [show it.bitOffset - 64 = 0 + 64 * rest.length by omega]

theorem skip : ∀ (fuel : ℕ) {it : BitSetIterator}, Pending kindSet dirFwd it l →
    Pending kindSet dirFwd (skip kindSet dirFwd fuel it) l
  | 0, _, h => h
  | fuel + 1, it, h => by
    rw [BitSetIterator.skip]
    split
    next hcond =>
      exact skip fuel (h.nextWord hcond.1 hcond.2)
    · exact h

end Pending

theorem length_wordsRemain_nextWord (it : BitSetIterator) :
    (nextWord kindSet dirFwd false it).wordsRemain.length =
      it.wordsRemain.length - 1 := by
  rw [nextWord]
  cases dirFwd <;> simp

variable (kindSet dirFwd) in
/-- The loop ends at a word with bits, or at the end. -/
theorem skip_stops : ∀ (fuel : ℕ) (it : BitSetIterator), it.wordsRemain.length ≤ fuel →
    (skip kindSet dirFwd fuel it).bitsRemain = 0 →
    (skip kindSet dirFwd fuel it).wordsRemain = []
  | 0, it, hlen, _ => eq_nil_of_length_eq_zero (le_zero.1 hlen)
  | fuel + 1, it, hlen, hzero => by
    rw [skip] at hzero ⊢
    split at hzero
    next hcond =>
      rw [if_pos hcond]
      refine skip_stops fuel _ ?_ hzero
      rw [length_wordsRemain_nextWord]
      omega
    next hcond =>
      rw [if_neg hcond]
      exact not_not.1 fun hwords => hcond ⟨hzero, hwords⟩

variable {it : BitSetIterator}

theorem next_nil (h : Pending kindSet dirFwd it []) :
    (next kindSet dirFwd it).1 = none := by
  have hskip := h.skip it.wordsRemain.length
  rw [BitSetIterator.next]
  generalize skip kindSet dirFwd it.wordsRemain.length it = it' at hskip
  have hzero : it'.bitsRemain = 0 := by
    by_contra hne
    have hones := ones_eq_cons hne
    cases dirFwd with
    | true =>
      rw [Pending, hones] at hskip
      cases hskip
    | false =>
      have hnil := hskip.2
      rw [hones] at hnil
      simp at hnil
  rw [if_pos hzero]

/-- `next` takes the first of what is still to come. -/
theorem next_cons {i : ℕ} {l : List ℕ}
    (h : Pending kindSet dirFwd it (i :: l)) :
    (next kindSet dirFwd it).1 = some i ∧
      Pending kindSet dirFwd (next kindSet dirFwd it).2 l := by
  have hskip := h.skip it.wordsRemain.length
  have hstops := skip_stops kindSet dirFwd _ it le_rfl
  rw [BitSetIterator.next]
  generalize skip kindSet dirFwd it.wordsRemain.length it = it' at hskip hstops
  have hne : it'.bitsRemain ≠ 0 := by
    intro hzero
    cases dirFwd with
    | true =>
      rw [Pending, ones_of_eq_zero hzero, hstops hzero] at hskip
      simp [wanted, positions] at hskip
    | false =>
      have hnil := hskip.2
      rw [ones_of_eq_zero hzero, hstops hzero] at hnil
      simp [positions] at hnil
  rw [if_neg hne]
  cases dirFwd with
  | true =>
    rw [Pending, ones_eq_cons hne, map_cons, cons_append] at hskip
    obtain ⟨rfl, hl⟩ := cons.inj hskip
    exact ⟨by rw [if_pos rfl, add_comm], hl⟩
  | false =>
    obtain ⟨hoffset, hl⟩ := hskip
    rw [ones_eq_concat hne, map_append, reverse_append] at hl
    simp only [map_cons, map_nil, reverse_cons, reverse_nil, nil_append, cons_append] at hl
    obtain ⟨rfl, hrest⟩ := cons.inj hl
    rw [if_neg Bool.false_ne_true]
    exact ⟨by rw [add_comm]; rfl, hoffset, hrest⟩

theorem drain_eq : ∀ (fuel : ℕ) {it : BitSetIterator} {l : List ℕ}, Pending kindSet dirFwd it l →
    l.length < fuel → drain kindSet dirFwd fuel it = l
  | 0, _, _, _, hlen => absurd hlen (not_lt_zero _)
  | fuel + 1, it, [], h, _ => by
    have hnone := next_nil h
    rw [drain]
    generalize next kindSet dirFwd it = r at hnone
    obtain ⟨r, it'⟩ := r
    rw [show r = none from hnone]
  | fuel + 1, it, i :: l, h, hlen => by
    obtain ⟨hsome, hpending⟩ := next_cons h
    rw [drain]
    generalize next kindSet dirFwd it = r at hsome hpending
    obtain ⟨r, it'⟩ := r
    rw [show r = some i from hsome]
    exact congrArg _ (drain_eq fuel hpending (lt_of_succ_lt_succ hlen))

theorem pending_init (last : Word) :
    Pending kindSet dirFwd (init kindSet dirFwd masks last)
      (if dirFwd then positions 0 (wanted kindSet last masks)
        else (positions 0 (wanted kindSet last masks)).reverse) := by
  rw [init]
  cases masks using reverseRecOn with
  | nil => cases dirFwd <;> simp [Pending, wanted, positions]
  | append_singleton rest word =>
    have hempty : (rest ++ [word]).isEmpty = false := by simp
    rw [hempty, if_neg Bool.false_ne_true]
    cases dirFwd with
    | true =>
      rw [if_pos rfl, if_pos rfl]
      cases rest with
      | nil => cases kindSet <;> simp [Pending, nextWord, wanted, positions]
      | cons w rest =>
        rw [cons_append, Pending]
        cases h : rest ++ [word] with
        | nil => simp at h
        | cons w' rest' => cases kindSet <;> simp [nextWord, wanted, positions, kindWord]
    | false =>
      rw [if_neg Bool.false_ne_true, if_neg Bool.false_ne_true, wanted_concat, positions_append,
        reverse_append, length_map]
      refine ⟨?_, ?_⟩
      · simp [nextWord]
        omega
      · cases kindSet <;> simp [nextWord, positions, mul_comm]

/-- An iterator gives the numbers of its words, in order. -/
theorem drain_init (last : Word) {fuel : ℕ}
    (hfuel : (positions 0 (wanted kindSet last masks)).length < fuel) :
    drain kindSet dirFwd fuel (init kindSet dirFwd masks last) =
      if dirFwd then positions 0 (wanted kindSet last masks)
      else (positions 0 (wanted kindSet last masks)).reverse := by
  refine drain_eq fuel (pending_init masks last) ?_
  split
  · exact hfuel
  · rw [length_reverse]
    exact hfuel

end Soup.Collections
