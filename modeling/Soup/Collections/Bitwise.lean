import Soup.Collections.BitSet

/-!
# The words of a bit set

What every operation on words does to the set that the words are: one lemma about `bit` for each.
-/

namespace Soup.Collections

open Soup.Lib List

variable {masks other : List Word} {i k : ℕ}

theorem numMasksFor_mul (n : ℕ) : n ≤ 64 * numMasksFor n := by
  rw [numMasksFor]
  omega

theorem bit_def (masks : List Word) (i : ℕ) :
    bit masks i = (masks.getD (i / 64) 0).getLsbD (i % 64) := rfl

theorem bit_modify (f : Word → Word) (k i : ℕ) : bit (masks.modify k f) i =
    if i / 64 = k ∧ k < masks.length then (f (masks.getD k 0)).getLsbD (i % 64)
    else bit masks i := by
  rw [bit_def, bit_def, getD_eq_getElem?_getD, getElem?_modify, getD_eq_getElem?_getD,
    getD_eq_getElem?_getD]
  by_cases hk : i / 64 = k
  · subst hk
    by_cases hlt : i / 64 < masks.length
    · rw [getElem?_eq_getElem hlt, if_pos ⟨rfl, hlt⟩]
      simp
    · rw [getElem?_eq_none (not_lt.1 hlt), if_neg (by simp [hlt])]
      simp
  · rw [if_neg (fun h => hk h.1)]
    cases masks[i / 64]? <;> simp [Ne.symm hk]

theorem bit_map {f : Word → Word} (hi : i / 64 < masks.length) :
    bit (masks.map f) i = (f (masks.getD (i / 64) 0)).getLsbD (i % 64) := by
  rw [bit_def, getD_eq_getElem?_getD, getD_eq_getElem?_getD, getElem?_map, getElem?_eq_getElem hi]
  rfl

theorem bit_mapIdx {f : ℕ → Word → Word} (hi : i / 64 < masks.length) :
    bit (masks.mapIdx f) i = (f (i / 64) (masks.getD (i / 64) 0)).getLsbD (i % 64) := by
  rw [bit_def, getD_eq_getElem?_getD, getD_eq_getElem?_getD, getElem?_mapIdx,
    getElem?_eq_getElem hi]
  rfl

theorem bit_zipWith {f : Word → Word → Word} (hi : i / 64 < masks.length)
    (hlen : masks.length ≤ other.length) : bit (List.zipWith f masks other) i =
      (f (masks.getD (i / 64) 0) (other.getD (i / 64) 0)).getLsbD (i % 64) := by
  rw [bit_def, getD_eq_getElem?_getD, getD_eq_getElem?_getD,
    getD_eq_getElem?_getD, getElem?_zipWith, getElem?_eq_getElem hi,
    getElem?_eq_getElem (hi.trans_le hlen)]
  rfl

/-! ## Masks -/

section Masks

variable {j : ℕ}

theorem getLsbD_wordMaskBit (i j : ℕ) : (wordMaskBit i).getLsbD j = decide (j = i % 64) := by
  have hi : i % 64 < 64 := Nat.mod_lt _ (by decide)
  have : wordMaskBit i = BitVec.twoPow 64 (i % 64) := (BitVec.twoPow_eq _ _).symm
  rw [this, BitVec.getLsbD_twoPow, decide_eq_true hi, Bool.true_and, decide_eq_decide]
  exact eq_comm

theorem getLsbD_boolMaskUsize (value : Bool) (hj : j < 64) :
    (boolMaskUsize value).getLsbD j = value := by
  cases value
  · simp [boolMaskUsize]
  · rw [boolMaskUsize, if_pos rfl, BitVec.getLsbD_allOnes, decide_eq_true hj]

/-- The bits from `s` on. -/
theorem getLsbD_boolMaskUsize_shiftLeft (value : Bool) (s : ℕ) (hj : j < 64) :
    (boolMaskUsize value <<< s).getLsbD j = (decide (s ≤ j) && value) := by
  rw [BitVec.getLsbD_shiftLeft]
  by_cases hs : s ≤ j
  · rw [getLsbD_boolMaskUsize value (by omega)]
    simp [hs, hj, not_lt.2 hs]
  · simp [hs, not_le.1 hs]

/-- The bits below `64 - s`. -/
theorem getLsbD_boolMaskUsize_ushiftRight (value : Bool) (s : ℕ) :
    (boolMaskUsize value >>> s).getLsbD j = (decide (s + j < 64) && value) := by
  rw [BitVec.getLsbD_ushiftRight]
  by_cases hs : s + j < 64
  · rw [getLsbD_boolMaskUsize value hs, decide_eq_true hs, Bool.true_and]
  · rw [decide_eq_false hs, Bool.false_and]
    exact BitVec.getLsbD_of_ge _ _ (not_lt.1 hs)

end Masks

/-! ## Operations -/

theorem isSetMasks_eq (masks : List Word) (i : ℕ) : isSetMasks masks i = bit masks i := by
  have hzero : ∀ word : Word, (word &&& wordMaskBit i = 0) ↔ word.getLsbD (i % 64) = false := by
    intro word
    constructor
    · intro h
      have hbit := congrArg (fun w => BitVec.getLsbD w (i % 64)) h
      simp only [BitVec.getLsbD_and, getLsbD_wordMaskBit] at hbit
      simpa using hbit
    · intro h
      refine BitVec.eq_of_getLsbD_eq fun j _ => ?_
      rw [BitVec.getLsbD_and, getLsbD_wordMaskBit]
      by_cases hji : j = i % 64
      · rw [hji, h]
        simp
      · simp [hji]
  rw [isSetMasks, bit_def, wordMaskIndex]
  generalize masks.getD (i / 64) 0 = word
  rw [Bool.eq_iff_iff, bne_iff_ne, ne_eq, hzero, Bool.not_eq_false]

theorem bit_setMasks (hk : k / 64 < masks.length) (i : ℕ) :
    bit (setMasks masks k) i = (decide (i = k) || bit masks i) := by
  rw [setMasks, wordMaskIndex, bit_modify]
  have hi : i % 64 < 64 := Nat.mod_lt _ (by decide)
  split
  next h =>
    rw [BitVec.getLsbD_or, getLsbD_wordMaskBit, bit_def, h.1, Bool.or_comm]
    congr 1
    rw [decide_eq_decide]
    omega
  next h =>
    have : i ≠ k := fun heq => h ⟨by rw [heq], hk⟩
    rw [decide_eq_false this, Bool.false_or]

theorem bit_unsetMasks (hk : k / 64 < masks.length) (i : ℕ) :
    bit (unsetMasks masks k) i = (!decide (i = k) && bit masks i) := by
  rw [unsetMasks, wordMaskIndex, bit_modify]
  have hi : i % 64 < 64 := Nat.mod_lt _ (by decide)
  split
  next h =>
    rw [BitVec.getLsbD_and, BitVec.getLsbD_not, getLsbD_wordMaskBit, bit_def, h.1, Bool.and_comm,
      decide_eq_true hi, Bool.true_and]
    congr 2
    rw [decide_eq_decide]
    omega
  next h =>
    have : i ≠ k := fun heq => h ⟨by rw [heq], hk⟩
    rw [decide_eq_false this, Bool.not_false, Bool.true_and]

theorem bit_setAllMasks (value : Bool) (i : ℕ) :
    bit (setAllMasks masks value) i = (decide (i < 64 * masks.length) && value) := by
  have hi : i % 64 < 64 := Nat.mod_lt _ (by decide)
  by_cases hlt : i < 64 * masks.length
  · rw [setAllMasks, bit_map (by omega), getLsbD_boolMaskUsize value hi, decide_eq_true hlt,
      Bool.true_and]
  · rw [bit_of_length_le (by rw [setAllMasks, length_map]; omega), decide_eq_false hlt,
      Bool.false_and]

theorem bit_clearPadding {n : ℕ} (hlen : masks.length = numMasksFor n) (i : ℕ) :
    bit (clearPadding masks n) i = (decide (i < n) && bit masks i) := by
  have hi : i % 64 < 64 := Nat.mod_lt _ (by decide)
  have hmasks : n ≤ 64 * numMasksFor n ∧ 64 * numMasksFor n < n + 64 := by
    rw [numMasksFor]
    omega
  rw [clearPadding, bit_modify]
  split
  next h =>
    rw [BitVec.getLsbD_and, bit_def, h.1, lastItemMask, Bool.and_comm,
      show BitVec.allOnes 64 = boolMaskUsize true from rfl, getLsbD_boolMaskUsize_ushiftRight,
      Bool.and_true]
    congr 1
    rw [decide_eq_decide]
    omega
  next h =>
    by_cases hlt : i < n
    · rw [decide_eq_true hlt, Bool.true_and]
    · rw [decide_eq_false hlt, Bool.false_and]
      refine bit_of_length_le ?_
      by_contra hge
      exact h ⟨by omega, by omega⟩

/-- The bits of a word that fit `p` get the value. -/
theorem bit_modify_masked {f : Word → Word} (value : Bool) (p : ℕ → Prop) [DecidablePred p]
    (hk : k < masks.length) (hf : ∀ word : Word, ∀ j < 64, (f word).getLsbD j =
      if p (64 * k + j) then value else word.getLsbD j) (i : ℕ) :
    bit (masks.modify k f) i = if i / 64 = k ∧ p i then value else bit masks i := by
  rw [bit_modify]
  by_cases hik : i / 64 = k
  · have hi : 64 * k + i % 64 = i := by omega
    rw [if_pos ⟨hik, hk⟩, hf _ _ (Nat.mod_lt _ (by decide)), hi, bit_def, hik]
    by_cases hp : p i <;> simp [hp]
  · rw [if_neg (fun h => hik h.1), if_neg (fun h => hik h.1)]

section Range

variable {start stop : ℕ} {word : Word} {j : ℕ}

/-- A part of one word. -/
theorem getLsbD_rangeMask (value : Bool) (hne : start < stop) (hsame : start / 64 = stop / 64)
    (hj : j < 64) : (((word &&& ~~~((boolMaskUsize true <<< (start % 64)) &&&
      (boolMaskUsize true >>> (63 - (stop % 64 - 1))))) |||
        ((boolMaskUsize value <<< (start % 64)) &&&
      (boolMaskUsize value >>> (63 - (stop % 64 - 1))))).getLsbD j) =
      if start ≤ 64 * (start / 64) + j ∧ 64 * (start / 64) + j < stop then value
      else word.getLsbD j := by
  have h₁ : start % 64 ≤ j ↔ start ≤ 64 * (start / 64) + j := by omega
  have h₂ : 63 - (stop % 64 - 1) + j < 64 ↔ 64 * (start / 64) + j < stop := by omega
  simp only [BitVec.getLsbD_or, BitVec.getLsbD_and, BitVec.getLsbD_not,
    getLsbD_boolMaskUsize_shiftLeft _ _ hj, getLsbD_boolMaskUsize_ushiftRight, h₁, h₂, hj]
  by_cases hs : start ≤ 64 * (start / 64) + j <;>
    by_cases ht : 64 * (start / 64) + j < stop <;> simp [hs, ht]

/-- The end of the first word. -/
theorem getLsbD_startMask (value : Bool) (hj : j < 64) :
    ((word &&& ~~~(boolMaskUsize true <<< (start % 64))) |||
      (boolMaskUsize value <<< (start % 64))).getLsbD j =
      if start ≤ 64 * (start / 64) + j then value else word.getLsbD j := by
  have h₁ : start % 64 ≤ j ↔ start ≤ 64 * (start / 64) + j := by omega
  simp only [BitVec.getLsbD_or, BitVec.getLsbD_and, BitVec.getLsbD_not,
    getLsbD_boolMaskUsize_shiftLeft _ _ hj, h₁, hj]
  by_cases hs : start ≤ 64 * (start / 64) + j <;> simp [hs]

/-- The start of the last word. -/
theorem getLsbD_stopMask (value : Bool) (hstop : 0 < stop % 64) (hj : j < 64) :
    ((word &&& (boolMaskUsize true <<< (stop % 64))) |||
      (boolMaskUsize value >>> (63 - (stop % 64 - 1)))).getLsbD j =
      if 64 * (stop / 64) + j < stop then value else word.getLsbD j := by
  have h₁ : stop % 64 ≤ j ↔ ¬64 * (stop / 64) + j < stop := by omega
  have h₂ : 63 - (stop % 64 - 1) + j < 64 ↔ 64 * (stop / 64) + j < stop := by omega
  simp only [BitVec.getLsbD_or, BitVec.getLsbD_and, getLsbD_boolMaskUsize_shiftLeft _ _ hj,
    getLsbD_boolMaskUsize_ushiftRight, h₁, h₂]
  by_cases ht : 64 * (stop / 64) + j < stop <;> simp [ht]

/-- The words between. -/
theorem bit_bulk (value : Bool) {bulk stop : ℕ} (hlen : stop ≤ masks.length) (i : ℕ) :
    bit (masks.mapIdx fun i mask => if bulk ≤ i ∧ i < stop then boolMaskUsize value else mask) i =
      if bulk ≤ i / 64 ∧ i / 64 < stop then value else bit masks i := by
  by_cases hi : i / 64 < masks.length
  · rw [bit_mapIdx hi]
    split
    · exact getLsbD_boolMaskUsize value (Nat.mod_lt _ (by decide))
    · rfl
  · rw [if_neg (by omega), bit_of_length_le (by rw [length_mapIdx]; omega),
      bit_of_length_le (by omega)]

end Range

/-- The bits of `[start, stop)` get the value. -/
theorem bit_setRangeValueMasks {start stop : ℕ} (value : Bool) (hle : start ≤ stop)
    (hstop : stop ≤ 64 * masks.length) (i : ℕ) :
    bit (setRangeValueMasks masks start stop value) i =
      if start ≤ i ∧ i < stop then value else bit masks i := by
  rw [setRangeValueMasks]
  split
  · rw [if_neg (by omega)]
  next hne =>
    dsimp only [wordMaskIndex]
    split
    next hsame =>
      rw [modify_modify_eq, Function.comp_def,
        bit_modify_masked value (fun i => start ≤ i ∧ i < stop) (by omega)
        fun word j hj => getLsbD_rangeMask value (by omega) hsame hj]
      split <;> split <;> first | rfl | omega
    next hother =>
      -- the three parts one after the other
      have hfirst : ∀ i, bit (if start % 64 > 0 then masks.modify (start / 64) fun mask =>
            (mask &&& ~~~(boolMaskUsize true <<< (start % 64))) |||
              (boolMaskUsize value <<< (start % 64)) else masks) i =
          if start ≤ i ∧ i / 64 < (if start % 64 > 0 then start / 64 + 1 else start / 64) then value
          else bit masks i := by
        intro i
        split
        · rw [bit_modify_masked value (fun i => start ≤ i) (by omega)
            fun word j hj => getLsbD_startMask value hj]
          split <;> split <;> first | rfl | omega
        · rw [if_neg (by omega)]
      have hlen : (if start % 64 > 0 then masks.modify (start / 64) fun mask =>
            (mask &&& ~~~(boolMaskUsize true <<< (start % 64))) |||
              (boolMaskUsize value <<< (start % 64)) else masks).length = masks.length := by
        split <;> simp
      generalize (if start % 64 > 0 then masks.modify (start / 64) fun mask =>
        (mask &&& ~~~(boolMaskUsize true <<< (start % 64))) |||
          (boolMaskUsize value <<< (start % 64)) else masks) = masks' at hfirst hlen ⊢
      split
      next hstop' =>
        rw [bit_modify_masked value (fun i => i < stop) (by rw [length_mapIdx]; omega)
          fun word j hj => getLsbD_stopMask value hstop' hj, bit_bulk value (by omega), hfirst]
        grind
      · rw [bit_bulk value (by omega), hfirst]
        grind

/-! ## Answers -/

theorem countMasks_eq (masks : List Word) (offset : ℕ) :
    countMasks masks = (positions offset masks).length := by
  have hfold : ∀ (masks : List Word) (offset total : ℕ),
      masks.foldl (fun total mask => total + mask.cpop.toNat) total =
        total + (positions offset masks).length := by
    intro masks
    induction masks with
    | nil => exact fun _ _ => rfl
    | cons mask masks ih =>
      intro offset total
      rw [foldl_cons, ih (offset + 64), positions, length_append, length_map,
        length_ones, add_assoc]
  rw [countMasks, hfold masks offset, zero_add]

theorem findFirstSetMasks_eq : ∀ (masks : List Word) (offset : ℕ),
    findFirstSetMasks masks offset = (positions offset masks).head?
  | [], _ => rfl
  | mask :: masks, offset => by
    rw [findFirstSetMasks, positions]
    split
    next hne =>
      rw [ones_eq_cons hne]
      rfl
    next hzero =>
      rw [ones_of_eq_zero (not_not.1 hzero), map_nil, nil_append, findFirstSetMasks_eq masks]

theorem masks_ext (hlen : masks.length = other.length) (h : ∀ i, bit masks i = bit other i) :
    masks = other := by
  refine ext_getElem hlen fun k hk hk' => BitVec.eq_of_getLsbD_eq fun j hj => ?_
  have hbit := h (64 * k + j)
  rw [bit_def, bit_def, show (64 * k + j) / 64 = k by omega, show (64 * k + j) % 64 = j by omega,
    getD_eq_getElem?_getD, getD_eq_getElem?_getD, getElem?_eq_getElem hk,
    getElem?_eq_getElem hk'] at hbit
  exact hbit

theorem subsetOfMasks_iff (hlen : masks.length = other.length) :
    subsetOfMasks masks other = true ↔ ∀ i, bit masks i = true → bit other i = true := by
  rw [subsetOfMasks, all_eq_true]
  constructor
  · intro h i hi
    have hlt : i / 64 < masks.length := by
      by_contra hge
      rw [bit_of_length_le (by omega)] at hi
      cases hi
    have hmem : (masks[i / 64], other[i / 64]) ∈ masks.zip other := by
      rw [mem_iff_getElem]
      exact ⟨i / 64, by simp; omega, by simp⟩
    have hword := eq_of_beq (h _ hmem)
    have hbit := congrArg (fun w => BitVec.getLsbD w (i % 64)) hword
    rw [bit_def, getD_eq_getElem?_getD, getElem?_eq_getElem hlt, Option.getD_some] at hi
    simp only [BitVec.getLsbD_and, hi, Bool.true_and] at hbit
    rw [bit_def, getD_eq_getElem?_getD, getElem?_eq_getElem (hlen ▸ hlt)]
    exact hbit
  · rintro h ⟨a, b⟩ hmem
    obtain ⟨k, hk, heq⟩ := mem_iff_getElem.1 hmem
    rw [getElem_zip] at heq
    obtain ⟨rfl, rfl⟩ := Prod.mk.inj heq
    rw [length_zip] at hk
    refine beq_iff_eq.2 (BitVec.eq_of_getLsbD_eq fun j hj => ?_)
    have hbit := h (64 * k + j)
    rw [bit_def, bit_def, show (64 * k + j) / 64 = k by omega, show (64 * k + j) % 64 = j by omega,
      getD_eq_getElem?_getD, getD_eq_getElem?_getD,
      getElem?_eq_getElem (show k < masks.length by omega),
      getElem?_eq_getElem (show k < other.length by omega)] at hbit
    rw [BitVec.getLsbD_and]
    simp only [Option.getD_some] at hbit
    cases hm : masks[k].getLsbD j with
    | false => rfl
    | true => rw [hbit hm]; rfl

/-! ## Bytes -/

theorem getLsbD_wordOfBytes : ∀ (bytes : List (BitVec 8)) {j : ℕ}, j < 64 →
    (wordOfBytes bytes).getLsbD j = bit bytes j
  | [], j, _ => by simp [wordOfBytes, bit]
  | byte :: bytes, j, hj => by
    rw [wordOfBytes, foldr_cons, BitVec.getLsbD_or, BitVec.getLsbD_shiftLeft,
      BitVec.getLsbD_setWidth, decide_eq_true hj, Bool.true_and, Bool.true_and]
    by_cases h8 : j < 8
    · rw [bit, Nat.div_eq_of_lt h8, Nat.mod_eq_of_lt h8]
      simp [h8]
    · have hrest := getLsbD_wordOfBytes bytes (show j - 8 < 64 by omega)
      rw [wordOfBytes] at hrest
      rw [hrest, BitVec.getLsbD_of_ge byte j (by omega), decide_eq_false h8, Bool.or_false]
      rw [bit, bit, show j / 8 = (j - 8) / 8 + 1 by omega, show (j - 8) % 8 = j % 8 by omega]
      rfl

theorem bit_wordsOfBytes {bytes : List (BitVec 8)} {n : ℕ} (hi : i < 64 * n) :
    bit (wordsOfBytes bytes n) i = bit bytes i := by
  rw [bit_def, wordsOfBytes, getD_eq_getElem?_getD, getElem?_map,
    getElem?_range (by omega), Option.map_some, Option.getD_some,
    getLsbD_wordOfBytes _ (Nat.mod_lt _ (by decide)), bit, bit, getD_eq_getElem?_getD,
    getElem?_take, getElem?_drop, if_pos (by omega), getD_eq_getElem?_getD,
    show 8 * (i / 64) + i % 64 / 8 = i / 8 by omega, show i % 64 % 8 = i % 8 by omega]

end Soup.Collections
