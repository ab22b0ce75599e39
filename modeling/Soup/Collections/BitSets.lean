import Mathlib.Order.Interval.Finset.Nat
import Soup.Collections.BitSetIterator

/-!
# Bit sets are sets

The words of a bit set are a set of numbers below its length, and have no other bits (`Represents`).
Every operation keeps this, and every question about the words is answered as for the set.
-/

namespace Soup.Collections

open Soup.Lib List Nat DynamicBitSetUnmanaged

/-- Words that are a set of numbers below `n`. -/
structure Represents (masks : List Word) (n : ℕ) (S : Finset ℕ) : Prop where
  length : masks.length = numMasksFor n
  lt : ∀ i ∈ S, i < n
  bit : ∀ i, bit masks i = decide (i ∈ S)

/-- The numbers below `n` that are in a set, in order. -/
def elements (n : ℕ) (S : Finset ℕ) : List ℕ := (List.range n).filter (· ∈ S)

variable {masks other : List Word} {n m k i : ℕ} {S T : Finset ℕ}

theorem length_elements (h : ∀ i ∈ S, i < n) : (elements n S).length = S.card := by
  have hset : (elements n S).toFinset = S := by
    ext i
    simp only [elements, mem_toFinset, mem_filter, mem_range, decide_eq_true_eq]
    exact ⟨fun hi => hi.2, fun hi => ⟨h i hi, hi⟩⟩
  have hnodup : (elements n S).Nodup := nodup_range.filter _
  rw [← toFinset_card_of_nodup hnodup, hset]

/-- Where the numbers are, it does not matter how long the set is. -/
theorem elements_eq (hle : n ≤ m) (h : ∀ i ∈ S, i < n) : elements m S = elements n S := by
  obtain ⟨k, rfl⟩ : ∃ k, m = n + k := ⟨_, (add_sub_of_le hle).symm⟩
  have hnone : ((List.range k).map (n + ·)).filter (· ∈ S) = [] := by
    rw [filter_eq_nil_iff]
    intro i hi
    obtain ⟨j, -, rfl⟩ := mem_map.1 hi
    rw [decide_eq_true_eq]
    intro hS
    have := h _ hS
    omega
  rw [elements, range_add, filter_append, hnone, append_nil]
  rfl

namespace Represents

/-! ## Answers -/

section

variable (h : Represents masks n S)
include h

theorem isSet (i : ℕ) : isSetMasks masks i = decide (i ∈ S) := by
  rw [isSetMasks_eq, h.bit]

theorem positions_eq : positions 0 masks = elements n S := by
  have hpad : ∀ i, n ≤ i → Lib.bit masks i = false := by
    intro i hi
    rw [h.bit, decide_eq_false]
    intro hS
    exact lt_irrefl i ((h.lt i hS).trans_le hi)
  have hn : n ≤ 64 * masks.length := h.length.symm ▸ numMasksFor_mul n
  rw [positions_eq_range (by decide) hn hpad, elements]
  exact filter_congr fun i _ => h.bit i

theorem count : countMasks masks = S.card := by
  rw [countMasks_eq masks 0, h.positions_eq, length_elements h.lt]

theorem findFirstSet : findFirstSetMasks masks 0 = (elements n S).head? := by
  rw [findFirstSetMasks_eq, h.positions_eq]

theorem masks_eq_iff (h' : Represents other n T) : masks = other ↔ S = T := by
  constructor
  · rintro rfl
    ext i
    have := (h.bit i).symm.trans (h'.bit i)
    rwa [decide_eq_decide] at this
  · rintro rfl
    exact masks_ext (h.length.trans h'.length.symm) fun i => (h.bit i).trans (h'.bit i).symm

theorem subsetOf (h' : Represents other n T) : subsetOfMasks masks other = decide (S ⊆ T) := by
  rw [Bool.eq_iff_iff, subsetOfMasks_iff (h.length.trans h'.length.symm), decide_eq_true_eq]
  simp only [h.bit, h'.bit, decide_eq_true_eq]
  rfl

/-! ## Operations -/

theorem div_lt (hk : k < n) : k / 64 < masks.length := by
  have := numMasksFor_mul n
  rw [h.length]
  omega

theorem set (hk : k < n) : Represents (setMasks masks k) n (insert k S) := by
  refine ⟨by rw [setMasks, length_modify, h.length], fun i hi => ?_, fun i => ?_⟩
  · rcases Finset.mem_insert.1 hi with rfl | hi
    · exact hk
    · exact h.lt i hi
  · rw [bit_setMasks (h.div_lt hk), h.bit]
    simp [Finset.mem_insert]

theorem unset (hk : k < n) : Represents (unsetMasks masks k) n (S.erase k) := by
  refine ⟨by rw [unsetMasks, length_modify, h.length], fun i hi => ?_, fun i => ?_⟩
  · exact h.lt i (Finset.mem_of_mem_erase hi)
  · rw [bit_unsetMasks (h.div_lt hk), h.bit]
    simp [Finset.mem_erase]

theorem setRangeValue {start stop : ℕ} (value : Bool) (hle : start ≤ stop) (hstop : stop ≤ n) :
    Represents (setRangeValueMasks masks start stop value) n
      (if value then S ∪ Finset.Ico start stop else S \ Finset.Ico start stop) := by
  have hmul := numMasksFor_mul n
  refine ⟨?_, fun i hi => ?_, fun i => ?_⟩
  · rw [← h.length, setRangeValueMasks]
    split
    · rfl
    · dsimp only
      split
      · rw [length_modify, length_modify]
      · split <;> split <;> simp
  · cases value with
    | true =>
      rcases Finset.mem_union.1 hi with hi | hi
      · exact h.lt i hi
      · exact (Finset.mem_Ico.1 hi).2.trans_le hstop
    | false => exact h.lt i (Finset.mem_sdiff.1 hi).1
  · rw [bit_setRangeValueMasks value hle (by rw [h.length]; omega), h.bit]
    cases value <;> by_cases hi : start ≤ i ∧ i < stop <;> simp [hi]

omit h in
variable (S masks) in
theorem clearPadding_of_bit (hlen : masks.length = numMasksFor n)
    (h : ∀ i < n, Lib.bit masks i = decide (i ∈ S)) :
    Represents (clearPadding masks n) n (S.filter (· < n)) := by
  refine ⟨by rw [clearPadding, length_modify, hlen], fun i hi => (Finset.mem_filter.1 hi).2,
    fun i => ?_⟩
  rw [bit_clearPadding hlen]
  by_cases hi : i < n
  · simp [hi, h i hi]
  · simp [hi]

theorem setAll (value : Bool) :
    Represents (clearPadding (setAllMasks masks value) n) n (if value then Finset.range n
      else ∅) := by
  have hall := clearPadding_of_bit (setAllMasks masks value)
    (if value then Finset.range n else ∅) (by rw [setAllMasks, length_map, h.length])
    fun i hi => by
      have := numMasksFor_mul n
      rw [bit_setAllMasks, h.length, decide_eq_true (by omega), Bool.true_and]
      cases value <;> simp [hi]
  have hfilter : (if value then Finset.range n else ∅).filter (· < n) =
      if value then Finset.range n else ∅ := by
    cases value <;> ext i <;> simp
  rwa [hfilter] at hall

theorem toggleAll : Represents (clearPadding (masks.map (~~~ ·)) n) n (Finset.range n \ S) := by
  have htoggled := clearPadding_of_bit (masks.map (~~~ ·)) (Finset.range n \ S)
      (by rw [length_map, h.length]) fun i hi => by
      rw [bit_map (h.div_lt hi), BitVec.getLsbD_not,
        decide_eq_true (mod_lt i (by decide : 0 < 64)), Bool.true_and, ← bit_def, h.bit]
      simp [hi]
  have hfilter : (Finset.range n \ S).filter (· < n) = Finset.range n \ S := by
    ext i
    simp only [Finset.mem_filter, Finset.mem_sdiff, Finset.mem_range]
    exact ⟨fun hi => hi.1, fun hi => ⟨hi, hi.1⟩⟩
  rwa [hfilter] at htoggled

section

variable (h' : Represents other n T)
include h'

/-- An operation on the bits of two sets. -/
theorem zipWith {f : Word → Word → Word}
    {R : Finset ℕ} (hR : ∀ i ∈ R, i < n) (hf : ∀ (a b : Word), ∀ j < 64, ∀ i,
      a.getLsbD j = decide (i ∈ S) → b.getLsbD j = decide (i ∈ T) →
        (f a b).getLsbD j = decide (i ∈ R)) :
    Represents (List.zipWith f masks other) n R := by
  have hlen : (List.zipWith f masks other).length = numMasksFor n := by
    rw [length_zipWith, h.length, h'.length, min_self]
  refine ⟨hlen, hR, fun i => ?_⟩
  by_cases hi : i / 64 < masks.length
  · rw [bit_zipWith hi (by rw [h.length, h'.length])]
    exact hf _ _ _ (mod_lt _ (by decide)) i (h.bit i) (h'.bit i)
  · rw [bit_of_length_le (by rw [hlen, ← h.length]; omega), eq_comm, decide_eq_false_iff_not]
    exact fun hiR => hi (h.div_lt (hR i hiR))

theorem setUnion : Represents (List.zipWith (· ||| ·) masks other) n (S ∪ T) := by
  refine h.zipWith h' (fun i hi => ?_) fun a b j _ i ha hb => ?_
  · rcases Finset.mem_union.1 hi with hi | hi
    · exact h.lt i hi
    · exact h'.lt i hi
  · rw [BitVec.getLsbD_or, ha, hb]
    simp

theorem setIntersection : Represents (List.zipWith (· &&& ·) masks other) n (S ∩ T) := by
  refine h.zipWith h' (fun i hi => h.lt i (Finset.mem_inter.1 hi).1) fun a b j _ i ha hb => ?_
  rw [BitVec.getLsbD_and, ha, hb]
  simp

theorem setExclude : Represents (List.zipWith (fun a b => a &&& ~~~b) masks other) n (S \ T) := by
  refine h.zipWith h' (fun i hi => h.lt i (Finset.mem_sdiff.1 hi).1) fun a b j hj i ha hb => ?_
  rw [BitVec.getLsbD_and, BitVec.getLsbD_not, decide_eq_true hj, Bool.true_and, ha, hb]
  simp

end

/-- A copy of a set with at least as many words. -/
theorem copyInto (h' : Represents other m T) (hlen : masks.length ≤ other.length) :
    Represents (clearPadding (List.zipWith (fun _ b => b) masks other) n) n (T.filter (· < n)) := by
  refine clearPadding_of_bit _ _ ?_ fun i hi => ?_
  · rw [length_zipWith, min_eq_left hlen, h.length]
  · rw [bit_zipWith (h.div_lt hi) hlen, ← bit_def, h'.bit]

/-! ## Lengths -/

omit h in
theorem nil : Represents [] 0 ∅ :=
  ⟨rfl, by simp, fun i => by simp [Lib.bit]⟩

omit h in
theorem bit_append (i : ℕ) : Lib.bit (masks ++ other) i =
    if i < 64 * masks.length then Lib.bit masks i else Lib.bit other (i - 64 * masks.length) := by
  split
  · rw [bit_def, bit_def, getD_eq_getElem?_getD, getD_eq_getElem?_getD,
      getElem?_append_left (by omega)]
  · rw [bit_def, bit_def, getD_eq_getElem?_getD, getD_eq_getElem?_getD,
      getElem?_append_right (by omega),
      show (i - 64 * masks.length) / 64 = i / 64 - masks.length by omega,
      show (i - 64 * masks.length) % 64 = i % 64 by omega]

omit h in
theorem bit_take (hi : i < 64 * k) : Lib.bit (masks.take k) i = Lib.bit masks i := by
  rw [bit_def, bit_def, getD_eq_getElem?_getD, getD_eq_getElem?_getD, getElem?_take,
    if_pos (by omega)]

/-- The padding of the last word is filled. -/
theorem bit_fillPadding (hpos : 0 < masks.length) (i : ℕ) :
    Lib.bit (masks.modify (numMasksFor n - 1) (· |||
      ~~~(BitVec.allOnes 64 >>> (numMasksFor n * 64 - n)))) i =
      (decide (n ≤ i ∧ i < 64 * masks.length) || Lib.bit masks i) := by
  have hn : 64 * numMasksFor n < n + 64 := by
    rw [numMasksFor]
    omega
  rw [h.length] at hpos
  rw [bit_modify_masked true (fun i => n ≤ i) (by rw [h.length]; omega)
    fun word j hj => by
      rw [BitVec.getLsbD_or, BitVec.getLsbD_not, decide_eq_true hj, Bool.true_and,
        show BitVec.allOnes 64 = boolMaskUsize true from rfl, getLsbD_boolMaskUsize_ushiftRight,
        Bool.and_true]
      have hiff : numMasksFor n * 64 - n + j < 64 ↔ ¬n ≤ 64 * (numMasksFor n - 1) + j := by omega
      simp only [hiff]
      by_cases hp : n ≤ 64 * (numMasksFor n - 1) + j <;> simp [hp]]
  rw [h.length]
  have hiff : (i / 64 = numMasksFor n - 1 ∧ n ≤ i) ↔ (n ≤ i ∧ i < 64 * numMasksFor n) := by omega
  by_cases hp : n ≤ i ∧ i < 64 * numMasksFor n
  · rw [if_pos (hiff.2 hp), decide_eq_true hp, Bool.true_or]
  · rw [if_neg (fun h => hp (hiff.1 h)), decide_eq_false hp, Bool.false_or]

/-! ## Iteration -/

/-- The bits that are not set. -/
theorem wanted_false : Represents (wanted false (lastItemMask n) masks) n (Finset.range n \ S) := by
  have hclear : wanted false (lastItemMask n) masks = clearPadding (masks.map (~~~ ·)) n := by
    rw [Collections.wanted_false, clearPadding, h.length]
  rw [hclear]
  exact h.toggleAll

/-- An iterator gives the numbers that are in the set, or those that are not. -/
theorem drain (kindSet dirFwd : Bool) {fuel : ℕ} (hfuel : n < fuel) :
    BitSetIterator.drain kindSet dirFwd fuel
      (BitSetIterator.init kindSet dirFwd masks (lastItemMask n)) =
      if dirFwd then elements n (if kindSet then S else Finset.range n \ S)
      else (elements n (if kindSet then S else Finset.range n \ S)).reverse := by
  have hpositions : positions 0 (wanted kindSet (lastItemMask n) masks) =
      elements n (if kindSet then S else Finset.range n \ S) := by
    cases kindSet with
    | true => rw [wanted_true, h.positions_eq, if_pos rfl]
    | false => rw [h.wanted_false.positions_eq, if_neg Bool.false_ne_true]
  have hlen : (positions 0 (wanted kindSet (lastItemMask n) masks)).length < fuel := by
    rw [hpositions]
    refine lt_of_le_of_lt ?_ hfuel
    rw [elements]
    exact (length_filter_le _ _).trans (le_of_eq length_range)
  rw [drain_init masks _ hlen, hpositions]

end

end Represents

/-! ## Sets of any length -/

/-- A bit set that is a set of numbers below `n`. -/
structure DynamicBitSetUnmanaged.Holds (b : DynamicBitSetUnmanaged) (n : ℕ) (S : Finset ℕ) :
    Prop where
  bitLength : b.bitLength = n
  words : Represents b.masks n S

namespace DynamicBitSetUnmanaged.Holds

variable {b b' : DynamicBitSetUnmanaged}

theorem empty : DynamicBitSetUnmanaged.Holds {} 0 ∅ := ⟨rfl, Represents.nil⟩

section

variable (h : b.Holds n S)
include h

/-- Before the padding is cleared, a set that grew has `fill` from its old length on. -/
theorem bit_grown {newLen : ℕ} (fill : Bool) (hlt : n < newLen)
    (hi : i < newLen) : Lib.bit ((if fill && decide (numMasksFor n > 0) then
        (b.masks.take (numMasksFor newLen)).modify (numMasksFor n - 1)
          (· ||| ~~~(BitVec.allOnes 64 >>> (numMasksFor n * 64 - n)))
      else b.masks.take (numMasksFor newLen)) ++
        replicate (numMasksFor newLen - numMasksFor n) (boolMaskUsize fill)) i =
      if n ≤ i then fill else Lib.bit b.masks i := by
  have hold : n ≤ 64 * numMasksFor n := numMasksFor_mul n
  have hnew : newLen ≤ 64 * numMasksFor newLen := numMasksFor_mul newLen
  have htake : b.masks.take (numMasksFor newLen) = b.masks := by
    refine take_of_length_le ?_
    rw [h.words.length, numMasksFor, numMasksFor]
    omega
  have hbit : ∀ i, n ≤ i → Lib.bit b.masks i = false := by
    intro i hi
    rw [h.words.bit, decide_eq_false_iff_not]
    intro hS
    have := h.words.lt i hS
    omega
  rw [htake, Represents.bit_append]
  have hlen : (if fill && decide (numMasksFor n > 0) then b.masks.modify (numMasksFor n - 1)
      (· ||| ~~~(BitVec.allOnes 64 >>> (numMasksFor n * 64 - n))) else b.masks).length =
      numMasksFor n := by
    split <;> simp [h.words.length]
  rw [hlen]
  split
  next hi' =>
    split
    next hfill =>
      rw [Bool.and_eq_true] at hfill
      rw [h.words.bit_fillPadding (by rw [h.words.length]; omega), h.words.length, hfill.1]
      by_cases hn : n ≤ i
      · simp [hn, hi']
      · simp [hn]
    next hfill =>
      split
      next hn =>
        rw [hbit i hn]
        cases fill with
        | false => rfl
        | true =>
          rw [Bool.true_and, decide_eq_true_eq] at hfill
          omega
      · rfl
  next hi' =>
    rw [if_pos (by omega), bit_def, getD_eq_getElem?_getD, getElem?_replicate,
      if_pos (by omega)]
    exact getLsbD_boolMaskUsize fill (mod_lt _ (by decide))

theorem resize (newLen : ℕ) (fill : Bool) : (b.resize newLen fill).Holds newLen
    (S.filter (· < newLen) ∪ if fill then Finset.Ico n newLen else ∅) := by
  have hunion : S.filter (· < newLen) ∪ (if fill then Finset.Ico n newLen else ∅) =
      (S ∪ if fill then Finset.Ico n newLen else ∅).filter (· < newLen) := by
    ext i
    simp only [Finset.mem_union, Finset.mem_filter]
    cases fill with
    | true => simp only [if_true, Finset.mem_Ico]; grind
    | false => simp
  rw [hunion, DynamicBitSetUnmanaged.resize, h.bitLength]
  split
  next hzero =>
    have hnil : newLen = 0 := by
      rw [numMasksFor] at hzero
      omega
    rw [hnil, Finset.filter_false_of_mem (by simp)]
    exact empty
  · refine ⟨rfl, ?_⟩
    split
    next hlt =>
      refine Represents.clearPadding_of_bit _ _ ?_ fun i hi => ?_
      · have hle : numMasksFor n ≤ numMasksFor newLen := by
          rw [numMasksFor, numMasksFor]
          omega
        split <;> simp [h.words.length] <;> omega
      · rw [h.bit_grown fill hlt hi, h.words.bit]
        split
        next hn =>
          have hS : i ∉ S := fun hS => absurd (h.words.lt i hS) (by omega)
          cases fill <;> simp [hS, hn, hi]
        next hn =>
          cases fill <;> simp [hn]
    next hge =>
      refine Represents.clearPadding_of_bit _ _ ?_ fun i hi => ?_
      · rw [length_take, h.words.length, numMasksFor, numMasksFor]
        omega
      · have := numMasksFor_mul newLen
        rw [Represents.bit_take (by omega), h.words.bit]
        have hn : ¬n ≤ i := by omega
        cases fill <;> simp [hn]

omit h in
theorem initEmpty (n : ℕ) : (initEmpty n).Holds n ∅ := by
  have h := empty.resize n false
  rw [Finset.filter_empty, if_neg Bool.false_ne_true, Finset.union_empty] at h
  exact h

theorem clone : b.clone.Holds n S :=
  ⟨by rw [DynamicBitSetUnmanaged.clone, h.bitLength]; exact (initEmpty n).bitLength, h.words⟩

theorem set (hk : k < n) : (b.set k).Holds n (insert k S) :=
  ⟨h.bitLength, h.words.set hk⟩

theorem unset (hk : k < n) : (b.unset k).Holds n (S.erase k) :=
  ⟨h.bitLength, h.words.unset hk⟩

theorem setRangeValue {start stop : ℕ} (value : Bool) (hle : start ≤ stop)
    (hstop : stop ≤ n) : (b.setRangeValue start stop value).Holds n
      (if value then S ∪ Finset.Ico start stop else S \ Finset.Ico start stop) :=
  ⟨h.bitLength, h.words.setRangeValue value hle hstop⟩

/-- A set of length `0` is empty. -/
theorem eq_empty (hn : n = 0) : S = ∅ := by
  refine Finset.eq_empty_of_forall_notMem fun i hi => ?_
  have := h.words.lt i hi
  omega

theorem setAll (value : Bool) : (b.setAll value).Holds n (if value then Finset.range n else ∅) := by
  rw [DynamicBitSetUnmanaged.setAll, h.bitLength]
  split
  next hn =>
    subst hn
    obtain rfl := h.eq_empty rfl
    cases value <;> exact h
  · exact ⟨rfl, h.words.setAll value⟩

theorem toggleAll : b.toggleAll.Holds n (Finset.range n \ S) := by
  rw [DynamicBitSetUnmanaged.toggleAll, h.bitLength]
  split
  next hn =>
    subst hn
    obtain rfl := h.eq_empty rfl
    exact h
  · exact ⟨rfl, h.words.toggleAll⟩

theorem zipMasksRaw (h' : b'.Holds m T) (hlen : numMasksFor n ≤ numMasksFor m)
    (f : Word → Word → Word) :
    b.zipMasksRaw b' f = some { b with masks := List.zipWith f b.masks b'.masks } := by
  rw [DynamicBitSetUnmanaged.zipMasksRaw, h.words.length, h'.words.length, if_pos hlen]

theorem copyInto (h' : b'.Holds m T) (hlen : numMasksFor n ≤ numMasksFor m) :
    ∃ c, b.copyInto b' = some c ∧ c.Holds n (T.filter (· < n)) := by
  rw [DynamicBitSetUnmanaged.copyInto, h.bitLength, h.zipMasksRaw h' hlen]
  split
  next hn =>
    subst hn
    rw [h.eq_empty rfl] at h
    exact ⟨b, rfl, by rw [Finset.filter_false_of_mem (by simp)]; exact h⟩
  · refine ⟨_, rfl, h.bitLength, ?_⟩
    rw [h.bitLength]
    exact h.words.copyInto h'.words (by rw [h.words.length, h'.words.length]; exact hlen)

theorem setUnion (h' : b'.Holds n T) : ∃ c, b.setUnion b' = some c ∧ c.Holds n (S ∪ T) :=
  ⟨_, h.zipMasksRaw h' le_rfl _, h.bitLength, h.words.setUnion h'.words⟩

theorem setIntersection (h' : b'.Holds n T) :
    ∃ c, b.setIntersection b' = some c ∧ c.Holds n (S ∩ T) :=
  ⟨_, h.zipMasksRaw h' le_rfl _, h.bitLength, h.words.setIntersection h'.words⟩

theorem setExclude (h' : b'.Holds n T) : ∃ c, b.setExclude b' = some c ∧ c.Holds n (S \ T) :=
  ⟨_, h.zipMasksRaw h' le_rfl _, h.bitLength, h.words.setExclude h'.words⟩

end

theorem fromBytes {bytes : List (BitVec 8)} (hb : fromBytes n bytes = some b) :
    b.Holds n ((Finset.range n).filter fun i => Lib.bit bytes i = true) := by
  have hempty := initEmpty n
  rw [DynamicBitSetUnmanaged.fromBytes] at hb
  rw [hempty.words.length] at hb
  split at hb
  · cases hb
  · obtain rfl := Option.some.inj hb
    refine ⟨hempty.bitLength, ?_⟩
    have hlen : (wordsOfBytes bytes (numMasksFor n)).length = numMasksFor n := by
      rw [wordsOfBytes, length_map, length_range]
    have hwords := Represents.clearPadding_of_bit (wordsOfBytes bytes (numMasksFor n))
      ((Finset.range n).filter fun i => Lib.bit bytes i = true) hlen fun i hi => by
        have := numMasksFor_mul n
        rw [bit_wordsOfBytes (by omega)]
        simp [hi]
    have hfilter : ((Finset.range n).filter fun i => Lib.bit bytes i = true).filter (· < n) =
        (Finset.range n).filter fun i => Lib.bit bytes i = true := by
      ext i
      simp only [Finset.mem_filter, Finset.mem_range]
      exact ⟨fun hi => hi.1, fun hi => ⟨hi, hi.1⟩⟩
    rw [hfilter] at hwords
    split
    next hnil =>
      rw [hnil, clearPadding, modify_nil] at hwords
      rw [hnil]
      exact hwords
    · exact hwords

end DynamicBitSetUnmanaged.Holds

end Soup.Collections
