import Mathlib.Algebra.Order.Ring.Int
import Mathlib.Algebra.Order.Ring.Nat
import Mathlib.Data.List.Basic

/-!
# The bits of a word

`ones` lists the bits of a word that are set, in order. The number of trailing zeros is the first of
them, and `x &&& (x - 1)` has the others (`ones_eq_cons`); the last goes the same way with the
leading zeros (`ones_eq_concat`). A list of words is a set of numbers (`bit`), which `positions`
lists.
-/

namespace Soup.Lib

open List Nat

variable {w : ℕ} {x : BitVec w}

/-- The bits that are set. -/
def ones (x : BitVec w) : List ℕ := (range w).filter x.getLsbD

@[simp] theorem ones_zero : ones 0#w = [] := by
  rw [ones, filter_eq_nil_iff]
  simp

theorem ones_of_eq_zero (h : x = 0) : ones x = [] := by
  rw [h]
  exact ones_zero

theorem length_ones (x : BitVec w) : (ones x).length = x.cpop.toNat := by
  have hrec : ∀ n, x.cpopNatRec n 0 = ((range n).filter x.getLsbD).length := by
    intro n
    induction n with
    | zero => rfl
    | succ n ih =>
      rw [BitVec.cpopNatRec_succ, BitVec.cpopNatRec_eq, ih, range_succ, filter_append,
        length_append]
      cases hbit : x.getLsbD n <;> simp [hbit]
  rw [BitVec.toNat_cpop, hrec]
  rfl

/-! ## The first and the last -/

section Filter

variable {p q : ℕ → Bool} {n t : ℕ}

/-- `q` leaves `t` out of what `p` picks. -/
theorem filter_range_split (ht : t < n) (hp : p t = true) (hq : ∀ i < n, q i = (p i && i != t)) :
    ∃ low high, (range n).filter p = low ++ t :: high ∧ (range n).filter q = low ++ high ∧
      (∀ i ∈ low, i < t ∧ p i = true) ∧ ∀ i ∈ high, t < i ∧ i < n ∧ p i = true := by
  obtain ⟨k, rfl⟩ : ∃ k, n = t + 1 + k := ⟨n - t - 1, by omega⟩
  have hrange : range (t + 1 + k) = range t ++ t :: (range k).map (t + 1 + ·) := by
    rw [range_add, range_succ, append_assoc]
    rfl
  have hhigh : ∀ i ∈ (range k).map (t + 1 + ·), t < i ∧ i < t + 1 + k := fun i hi => by
    obtain ⟨j, hj, rfl⟩ := mem_map.1 hi
    have := mem_range.1 hj
    omega
  refine ⟨_, _, by rw [hrange, filter_append, filter_cons_of_pos hp], ?_,
    fun i hi => ⟨mem_range.1 (mem_filter.1 hi).1, (mem_filter.1 hi).2⟩, fun i hi => ?_⟩
  · rw [hrange, filter_append, filter_cons_of_neg (by simp [hq t ht])]
    congr 1
    · refine filter_congr fun i hi => ?_
      have := mem_range.1 hi
      rw [hq i (by omega), bne_iff_ne.2 (by omega), Bool.and_true]
    · refine filter_congr fun i hi => ?_
      rw [hq i (hhigh i hi).2, bne_iff_ne.2 (ne_of_gt (hhigh i hi).1), Bool.and_true]
  · obtain ⟨hmem, hi⟩ := mem_filter.1 hi
    exact ⟨(hhigh i hmem).1, (hhigh i hmem).2, hi⟩

theorem filter_range_first (ht : t < n) (hp : p t = true) (hlt : ∀ i < t, p i = false)
    (hq : ∀ i < n, q i = (p i && i != t)) :
    (range n).filter p = t :: (range n).filter q := by
  obtain ⟨low, high, hfilter, hfilter', hlow, -⟩ := filter_range_split ht hp hq
  obtain rfl : low = [] := eq_nil_iff_forall_not_mem.2 fun i hi => by
    have := hlt i (hlow i hi).1
    simp [(hlow i hi).2] at this
  rw [hfilter, hfilter']
  rfl

theorem filter_range_last (ht : t < n) (hp : p t = true) (hlt : ∀ i < n, t < i → p i = false)
    (hq : ∀ i < n, q i = (p i && i != t)) :
    (range n).filter p = (range n).filter q ++ [t] := by
  obtain ⟨low, high, hfilter, hfilter', -, hhigh⟩ := filter_range_split ht hp hq
  obtain rfl : high = [] := eq_nil_iff_forall_not_mem.2 fun i hi => by
    have := hlt i (hhigh i hi).2.1 (hhigh i hi).1
    simp [(hhigh i hi).2.2] at this
  rw [hfilter, hfilter', append_nil]

end Filter

/-- `x &&& (x - 1)` is `x` without its first bit. -/
theorem getLsbD_and_sub_one {t : ℕ} (ht : x.getLsbD t = true) (hlt : ∀ i < t, x.getLsbD i = false)
    (i : ℕ) : (x &&& (x - 1)).getLsbD i = (x.getLsbD i && i != t) := by
  have hpow : 0 < 2 ^ t := Nat.two_pow_pos t
  have hmod : x.toNat % 2 ^ (t + 1) = 2 ^ t := by
    refine eq_of_testBit_eq fun j => ?_
    rw [testBit_mod_two_pow, testBit_two_pow]
    rcases lt_trichotomy j t with hj | rfl | hj
    · rw [show x.toNat.testBit j = false from hlt j hj, decide_eq_false (ne_of_gt hj),
        Bool.and_false]
    · rw [show x.toNat.testBit j = true from ht, Bool.and_true, decide_eq_true (lt_succ_self j),
        decide_eq_true rfl]
    · rw [decide_eq_false (by omega), decide_eq_false (by omega), Bool.false_and]
  -- The bits up to `t`, and those behind it.
  obtain ⟨m, hm⟩ : ∃ m, x.toNat = 2 ^ (t + 1) * m + 2 ^ t :=
    ⟨_, ((div_add_mod x.toNat (2 ^ (t + 1))).symm.trans (by rw [hmod]))⟩
  have hone : (1 : BitVec w).toNat = 1 := BitVec.toNat_one (zero_lt_of_lt (BitVec.lt_of_getLsbD ht))
  have hpred : (x - 1).toNat = 2 ^ (t + 1) * m + (2 ^ t - 1) := by
    rw [BitVec.toNat_sub_of_le (by rw [BitVec.le_def, hone]; omega), hone, hm]
    omega
  show (x &&& (x - 1)).toNat.testBit i = (x.toNat.testBit i && _)
  rw [BitVec.toNat_and, testBit_and, hpred, hm, testBit_two_pow_mul_add _ (by omega),
    testBit_two_pow_mul_add _ (by omega)]
  split
  · rw [testBit_two_pow, testBit_two_pow_sub_one]
    rcases eq_or_ne i t with rfl | hne
    · simp
    · rw [decide_eq_false hne.symm, Bool.false_and, Bool.false_and]
  · rw [Bool.and_self, bne_iff_ne.2 (by omega), Bool.and_true]

theorem ones_eq_cons (hx : x ≠ 0) : ones x = x.ctz.toNat :: ones (x &&& (x - 1)) := by
  have hbit := BitVec.getLsbD_true_ctz_of_ne_zero hx
  have hlow : ∀ i < x.ctz.toNat, x.getLsbD i = false :=
    fun i hi => BitVec.getLsbD_false_of_lt_ctz hi
  exact filter_range_first (BitVec.lt_of_getLsbD hbit) hbit hlow
    fun i _ => getLsbD_and_sub_one hbit hlow i

/-- The place of the first of the leading ones. -/
def topBit (x : BitVec w) : ℕ := w - 1 - x.clz.toNat

theorem getLsbD_topBit (hx : x ≠ 0) : x.getLsbD (topBit x) = true := by
  refine BitVec.getLsbD_true_clz_of_ne_zero (pos_of_ne_zero ?_) hx
  rintro rfl
  exact hx (BitVec.eq_nil x)

theorem getLsbD_of_topBit_lt {i : ℕ} (hi : topBit x < i) : x.getLsbD i = false := by
  have hlt : x.toNat < 2 ^ (w - x.clz.toNat) := BitVec.toNat_lt_two_pow_sub_clz
  refine Nat.testBit_lt_two_pow (hlt.trans_le (Nat.pow_le_pow_right (by decide) ?_))
  rw [topBit] at hi
  omega

theorem ones_eq_concat (hx : x ≠ 0) :
    ones x = ones (x &&& (((1 : BitVec w) <<< topBit x) - 1)) ++ [topBit x] := by
  have hbit := getLsbD_topBit hx
  have hlt := BitVec.lt_of_getLsbD hbit
  have hmask : ∀ i, (((1 : BitVec w) <<< topBit x) - 1).getLsbD i = decide (i < topBit x) := by
    intro i
    have hone : (1 : BitVec w).toNat = 1 := BitVec.toNat_one (zero_lt_of_lt hlt)
    have hpow : ((1 : BitVec w) <<< topBit x).toNat = 2 ^ topBit x := by
      rw [BitVec.toNat_shiftLeft, hone, one_shiftLeft, mod_eq_of_lt]
      exact Nat.pow_lt_pow_right (by decide) hlt
    show (((1 : BitVec w) <<< topBit x) - 1).toNat.testBit i = _
    rw [BitVec.toNat_sub_of_le (by rw [BitVec.le_def, hone, hpow]; exact Nat.two_pow_pos _), hone,
      hpow, testBit_two_pow_sub_one]
  refine filter_range_last hlt hbit (fun i _ hi => getLsbD_of_topBit_lt hi) fun i hi => ?_
  rw [BitVec.getLsbD_and, hmask]
  rcases lt_trichotomy i (topBit x) with hit | rfl | hit
  · rw [decide_eq_true hit, bne_iff_ne.2 (by omega)]
  · simp
  · rw [getLsbD_of_topBit_lt hit]
    rfl

/-! ## Lists of words -/

/-- A number of the set that the words are. -/
def bit (masks : List (BitVec w)) (i : ℕ) : Bool := (masks.getD (i / w) 0).getLsbD (i % w)

/-- The numbers of the set, from `offset` on. -/
def positions : ℕ → List (BitVec w) → List ℕ
  | _, [] => []
  | offset, x :: xs => (ones x).map (offset + ·) ++ positions (offset + w) xs

variable {masks : List (BitVec w)}

theorem bit_of_length_le {i : ℕ} (hi : w * masks.length ≤ i) :
    bit masks i = false := by
  rcases Nat.eq_zero_or_pos w with rfl | hw
  · rw [bit, BitVec.getLsbD_of_ge _ _ (zero_le _)]
  · have hge : masks.length ≤ i / w := (le_div_iff_mul_le hw).2 (by rw [mul_comm]; exact hi)
    rw [bit, getD_eq_getElem?_getD, getElem?_eq_none hge]
    simp

theorem positions_eq (hw : 0 < w) : ∀ (masks : List (BitVec w)) (offset : ℕ),
    positions offset masks =
      ((range (w * masks.length)).filter (bit masks)).map (offset + ·)
  | [], _ => by simp [positions]
  | x :: xs, offset => by
    have hfirst : ∀ i ∈ range w, bit (x :: xs) i = x.getLsbD i := fun i hi => by
      have hi := mem_range.1 hi
      rw [bit, div_eq_of_lt hi, mod_eq_of_lt hi]
      rfl
    have hrest : ∀ j, bit (x :: xs) (w + j) = bit xs j := fun j => by
      rw [bit, add_div_left j hw, add_mod_left]
      rfl
    rw [positions, length_cons, mul_succ, add_comm (w * _), range_add,
      filter_append, map_append, filter_congr hfirst, positions_eq hw xs]
    congr 1
    rw [filter_map, map_map, show bit (x :: xs) ∘ (w + ·) = bit xs from funext hrest]
    exact map_congr_left fun j _ => add_assoc _ _ _

/-- Numbers from `n` on are padding. -/
theorem positions_eq_range (hw : 0 < w) {n : ℕ}
    (hn : n ≤ w * masks.length) (hpad : ∀ i, n ≤ i → bit masks i = false) :
    positions 0 masks = (range n).filter (bit masks) := by
  obtain ⟨k, hk⟩ : ∃ k, w * masks.length = n + k := ⟨_, (add_sub_of_le hn).symm⟩
  have hnone : ((range k).map (n + ·)).filter (bit masks) = [] := by
    rw [filter_eq_nil_iff]
    intro i hi
    obtain ⟨j, -, rfl⟩ := mem_map.1 hi
    rw [hpad _ (le_add_right n j)]
    simp
  rw [positions_eq hw, hk, range_add, filter_append, hnone, append_nil]
  simp

end Soup.Lib
