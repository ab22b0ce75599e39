import Soup.Sema.Atom

/-!
# Packed texts and their tables

A word of a text has its bytes, whichever way they are read (`testBit_word`), so the packed form of
a short text has all its bytes and its length: two short texts that are packed alike are the same
(`packShort_inj`).
-/

namespace Soup.Sema

open Lib List Function Nat

theorem testBit_ofLittleEndian (cs : Bytes) (k : ℕ) :
    (ofLittleEndian cs).testBit k = (cs.getD (k / 8) 0).toNat.testBit (k % 8) := by
  induction cs generalizing k with
  | nil =>
    rw [ofLittleEndian, getD_nil, zero_testBit]
    exact (zero_testBit _).symm
  | cons c cs ih =>
    have hsplit : ofLittleEndian (c :: cs) = 2 ^ 8 * ofLittleEndian cs + c.toNat := by
      rw [ofLittleEndian]
      omega
    rw [hsplit, testBit_two_pow_mul_add _ c.toNat_lt]
    split
    next hlt => rw [div_eq_of_lt hlt, mod_eq_of_lt hlt, getD_cons_zero]
    next hge =>
      obtain ⟨j, rfl⟩ := Nat.exists_eq_add_of_le (not_lt.1 hge)
      rw [Nat.add_sub_cancel_left, ih, Nat.add_div_left j (by decide), Nat.add_mod_left,
        getD_cons_succ]

section Word

variable {text : Bytes} {start k : ℕ}

theorem testBit_byte (c : UInt8) {k : ℕ} (h : 8 ≤ k) : c.toNat.testBit k = false :=
  Nat.testBit_lt_two_pow (c.toNat_lt.trans_le (Nat.pow_le_pow_right Nat.two_pos h))

variable {rest : Bytes}

theorem getD_take {n i : ℕ} : (rest.take n).getD i 0 = if i < n then rest.getD i 0 else 0 := by
  rw [getD_eq_getElem?_getD, getElem?_take]
  split
  · rw [getD_eq_getElem?_getD]
  · rfl

theorem getD_drop {n i : ℕ} : (rest.drop n).getD i 0 = rest.getD (n + i) 0 := by
  rw [getD_eq_getElem?_getD, getElem?_drop, getD_eq_getElem?_getD]

theorem getD_of_le {i : ℕ} (h : rest.length ≤ i) : rest.getD i 0 = 0 := by
  rw [getD_eq_getElem?_getD, getElem?_eq_none h]
  rfl

/-- Two reads of four bytes that may share some. -/
theorem testBit_overlap (h4 : 4 ≤ rest.length) (h8 : rest.length < 8) :
    (ofLittleEndian (rest.take 4) ||| ofLittleEndian (rest.drop (rest.length - 4)) <<<
      ((rest.length - 4) * 8)).testBit k = (rest.getD (k / 8) 0).toNat.testBit (k % 8) := by
  rw [testBit_or, testBit_shiftLeft, testBit_ofLittleEndian, testBit_ofLittleEndian, getD_take,
    getD_drop]
  by_cases hs : (rest.length - 4) * 8 ≤ k
  · have hplace : rest.length - 4 + (k - (rest.length - 4) * 8) / 8 = k / 8 := by omega
    have hbit : (k - (rest.length - 4) * 8) % 8 = k % 8 := by omega
    rw [hplace, hbit, decide_eq_true hs, Bool.true_and]
    split
    · exact Bool.or_self _
    · exact (congrArg (· || _) (zero_testBit _)).trans (Bool.false_or _)
  · rw [decide_eq_false hs, Bool.false_and, Bool.or_false, if_pos (by omega)]

/-- A read of two bytes and of the last one. -/
theorem testBit_last (h2 : 2 ≤ rest.length) (h4 : rest.length < 4) :
    (ofLittleEndian (rest.take 2) ||| (rest.getD (rest.length - 1) 0).toNat <<<
      ((rest.length - 1) * 8)).testBit k = (rest.getD (k / 8) 0).toNat.testBit (k % 8) := by
  rw [testBit_or, testBit_shiftLeft, testBit_ofLittleEndian, getD_take]
  have hzero (j : ℕ) : (0 : UInt8).toNat.testBit j = false := zero_testBit j
  by_cases hs : (rest.length - 1) * 8 ≤ k
  · rw [decide_eq_true hs, Bool.true_and]
    by_cases hin : k / 8 = rest.length - 1
    · have hbit : k - (rest.length - 1) * 8 = k % 8 := by omega
      rw [hin, hbit]
      split
      · exact Bool.or_self _
      · rw [hzero, Bool.false_or]
    · rw [testBit_byte _ (show 8 ≤ k - (rest.length - 1) * 8 by omega), Bool.or_false,
        if_neg (show ¬k / 8 < 2 by omega), getD_of_le (show rest.length ≤ k / 8 by omega)]
  · rw [decide_eq_false hs, Bool.false_and, Bool.or_false, if_pos (show k / 8 < 2 by omega)]

theorem testBit_word (hk : k < 64) :
    (word text start).testBit k = (text.getD (start + k / 8) 0).toNat.testBit (k % 8) := by
  have hzero (j : ℕ) : (0 : UInt8).toNat.testBit j = false := zero_testBit j
  rw [← getD_drop, word]
  split
  next hlt =>
    rw [getD_of_le (by rw [length_drop]; omega), hzero]
    exact zero_testBit k
  next =>
    dsimp only
    split
    next => rw [testBit_ofLittleEndian, getD_take, if_pos (by omega)]
    next h8 =>
      split
      next h4 => exact testBit_overlap h4 (not_le.1 h8)
      next h4 =>
        split
        next h2 => exact testBit_last h2 (not_le.1 h4)
        next h2 =>
          split
          next hone =>
            by_cases hlt : k < 8
            · rw [div_eq_of_lt hlt, mod_eq_of_lt hlt]
            · rw [testBit_byte _ (not_lt.1 hlt), getD_of_le (by omega), hzero]
          next hone =>
            rw [getD_of_le (by omega), hzero]
            exact zero_testBit k

end Word

/-! ## Short texts -/

section Pack

variable {text other : Bytes} {k i : ℕ}

theorem testBit_ending (hlength : text.length ≤ maxPackedLen) (hk : k < 32) :
    (packShort text).ending.testBit k =
    if k < 24 then (text.getD (24 + k / 8) 0).toNat.testBit (k % 8)
      else text.length.testBit (k - 24) := by
  rw [packShort, maxPackedLen] at *
  rw [testBit_or, testBit_mod_two_pow, testBit_mod_two_pow, decide_eq_true hk, Bool.true_and,
    Bool.true_and, testBit_word (by omega), testBit_shiftLeft]
  split
  next hlt => rw [decide_eq_false (show ¬24 ≤ k by omega), Bool.false_and, Bool.or_false]
  next hge =>
    rw [getD_of_le (show text.length ≤ 24 + k / 8 by omega), decide_eq_true (show 24 ≤ k by omega),
      Bool.true_and]
    exact (congrArg (· || _) (zero_testBit _)).trans (Bool.false_or _)

theorem length_eq_of_ending (htext : text.length ≤ maxPackedLen)
    (hother : other.length ≤ maxPackedLen)
    (h : (packShort text).ending = (packShort other).ending) : text.length = other.length := by
  refine eq_of_testBit_eq fun j => ?_
  have hsmall {t : Bytes} (ht : t.length ≤ maxPackedLen) : t.length < 2 ^ 8 := by
    rw [maxPackedLen] at ht
    omega
  by_cases hj : j < 8
  · have hbit := congrArg (fun n => n.testBit (24 + j)) h
    rwa [testBit_ending htext (by omega), testBit_ending hother (by omega), if_neg (by omega),
      if_neg (by omega), Nat.add_sub_cancel_left] at hbit
  · rw [Nat.testBit_lt_two_pow
      ((hsmall htext).trans_le (Nat.pow_le_pow_right Nat.two_pos (not_lt.1 hj))),
      Nat.testBit_lt_two_pow
      ((hsmall hother).trans_le (Nat.pow_le_pow_right Nat.two_pos (not_lt.1 hj)))]

/-- A word gives its bytes. -/
theorem getD_eq_of_word {start : ℕ} (h : word text start = word other start) (hi : i < 8) :
    text.getD (start + i) 0 = other.getD (start + i) 0 := by
  refine UInt8.toNat.inj (eq_of_testBit_eq fun j => ?_)
  by_cases hj : j < 8
  · have hbit := congrArg (fun n => n.testBit (8 * i + j)) h
    rwa [testBit_word (by omega), testBit_word (by omega), mul_add_div (by decide), div_eq_of_lt hj,
      mul_add_mod, mod_eq_of_lt hj] at hbit
  · rw [testBit_byte _ (not_lt.1 hj), testBit_byte _ (not_lt.1 hj)]

theorem getD_eq_of_ending (htext : text.length ≤ maxPackedLen)
    (hother : other.length ≤ maxPackedLen)
    (h : (packShort text).ending = (packShort other).ending) (hi : i < 3) :
    text.getD (24 + i) 0 = other.getD (24 + i) 0 := by
  refine UInt8.toNat.inj (eq_of_testBit_eq fun j => ?_)
  by_cases hj : j < 8
  · have hbit := congrArg (fun n => n.testBit (8 * i + j)) h
    rwa [testBit_ending htext (by omega), testBit_ending hother (by omega), if_pos (by omega),
      if_pos (by omega), mul_add_div (by decide), div_eq_of_lt hj, mul_add_mod,
      mod_eq_of_lt hj] at hbit
  · rw [testBit_byte _ (not_lt.1 hj), testBit_byte _ (not_lt.1 hj)]

/-- Short texts that are packed alike are the same. -/
theorem packShort_inj (htext : text.length ≤ maxPackedLen) (hother : other.length ≤ maxPackedLen)
    (h : packShort text = packShort other) : text = other := by
  have hending := congrArg Packed.ending h
  have hlength := length_eq_of_ending htext hother hending
  obtain ⟨hfirst, hsecond, hthird⟩ : word text 0 = word other 0 ∧ word text 8 = word other 8 ∧
      word text 16 = word other 16 := by
    have hstart := congrArg Packed.start h
    exact ⟨congrArg Prod.fst hstart, congrArg (·.2.1) hstart, congrArg (·.2.2) hstart⟩
  refine ext_getElem hlength fun i hi hi' => ?_
  have hgetD : text.getD i 0 = other.getD i 0 := by
    rw [maxPackedLen] at htext
    rcases lt_or_ge i 8 with h8 | h8
    · simpa only [zero_add] using getD_eq_of_word hfirst h8
    rcases lt_or_ge i 16 with h16 | h16
    · have := getD_eq_of_word hsecond (show i - 8 < 8 by omega)
      rwa [Nat.add_sub_cancel' h8] at this
    rcases lt_or_ge i 24 with h24 | h24
    · have := getD_eq_of_word hthird (show i - 16 < 8 by omega)
      rwa [Nat.add_sub_cancel' h16] at this
    · have := getD_eq_of_ending htext hother hending (show i - 24 < 3 by omega)
      rwa [Nat.add_sub_cancel' h24] at this
  rwa [getD_eq_getElem?_getD, getD_eq_getElem?_getD, getElem?_eq_getElem hi,
    getElem?_eq_getElem hi'] at hgetD

/-- No text is packed as the empty entry. -/
theorem packShort_ne_empty (h : text.length ≤ maxPackedLen) :
    emptyEntry.packed ≠ packShort text := by
  intro heq
  have hbit := congrArg (fun p => p.ending.testBit 31) heq
  rw [testBit_ending h (by decide), if_neg (by decide),
    testBit_lt_two_pow (show text.length < 2 ^ (31 - 24) by rw [maxPackedLen] at h; omega)] at hbit
  cases hbit

end Pack

/-!
## Tables of texts

`Tables.Valid` says that each text of a table has its slot, under the number that it has from
`first` on, and its class. A search finds a text just when the table has it, and a new text is added
at the end.
-/

namespace Tables

variable {hasher : Hasher} {roundTrips : Bytes → Bool} {first : ℕ} {t : Tables} {text : Bytes}

/-! ### Classes -/

theorem classOf_lt (roundTrips : Bytes → Bool) (text : Bytes) :
    classOf roundTrips text < 2 ^ 4 := by
  rw [classOf]
  split
  · decide
  split
  · decide
  split
  · decide
  split <;> decide

/-- A class that is put into a word changes no other. -/
theorem or_class {cell cls i j : ℕ} (h : cls < 2 ^ 4) :
    (cell ||| cls <<< (i * 4)) >>> (j * 4) &&& (2 ^ 4 - 1) =
      (cell >>> (j * 4) &&& (2 ^ 4 - 1)) ||| if i = j then cls else 0 := by
  refine eq_of_testBit_eq fun k => ?_
  rw [testBit_or, testBit_and, testBit_and, testBit_two_pow_sub_one, testBit_shiftRight,
    testBit_shiftRight, testBit_or, testBit_shiftLeft]
  have hhigh {k : ℕ} (hk : 4 ≤ k) : cls.testBit k = false :=
    Nat.testBit_lt_two_pow (h.trans_le (Nat.pow_le_pow_right Nat.two_pos hk))
  by_cases hk : k < 4
  · rw [decide_eq_true hk, Bool.and_true, Bool.and_true]
    refine congrArg (cell.testBit (j * 4 + k) || ·) ?_
    rcases lt_trichotomy i j with hlt | rfl | hgt
    · rw [if_neg hlt.ne, hhigh (show 4 ≤ j * 4 + k - i * 4 by omega), Bool.and_false, zero_testBit]
    · rw [if_pos rfl, decide_eq_true (show i * 4 ≤ i * 4 + k by omega), Bool.true_and,
        Nat.add_sub_cancel_left]
    · rw [if_neg hgt.ne', decide_eq_false (show ¬i * 4 ≤ j * 4 + k by omega), Bool.false_and,
        zero_testBit]
  · rw [decide_eq_false hk, Bool.and_false, Bool.and_false, Bool.false_or]
    split
    · exact (hhigh (not_lt.1 hk)).symm
    · exact (zero_testBit k).symm

theorem classAt_setClass (t : Tables) (roundTrips : Bytes → Bool) (index : ℕ) (text : Bytes)
    (j : ℕ) : (t.setClass roundTrips index text).classAt j =
      t.classAt j ||| if index = j then classOf roundTrips text else 0 := by
  rw [setClass]
  split
  next =>
    rw [classAt, classAt]
    dsimp only
    by_cases hcell : j / classesPerCell = index / classesPerCell
    · have hsame : index % classesPerCell = j % classesPerCell ↔ index = j := by
        rw [classesPerCell] at hcell ⊢
        omega
      rw [hcell, update_self]
      exact (or_class (classOf_lt roundTrips text)).trans
        (congrArg (_ ||| ·) (if_congr hsame rfl rfl))
    · rw [update_of_ne hcell, if_neg (show ¬index = j from fun heq => hcell (heq ▸ rfl)),
        or_zero]
  next hzero =>
    rw [not_not.1 hzero, ite_self, or_zero]

/-! ### Searches -/

/-- Every text has its slot and its class. -/
structure Valid (hasher : Hasher) (roundTrips : Bytes → Bool) (first : ℕ) (t : Tables) : Prop where
  shards : ∀ k, (t.shards k).Valid
  nodup : t.texts.Nodup
  first_le : ∀ k, ∀ e ∈ entries (t.shards k).slots, first ≤ e.2
  slot : ∀ j text, t.texts[j]? = some text →
    (tagOf (hasher.hashOf text), first + j) ∈
      entries (t.shards (shardAmong (hasher.hashOf text) shardCount)).slots
  classes : ∀ j text, t.texts[j]? = some text → t.classAt j = classOf roundTrips text
  unused : ∀ j, t.texts.length ≤ j → t.classAt j = 0

theorem valid_empty (isShared : Bool) : Valid hasher roundTrips first { isShared } where
  shards _ := Shard.valid_empty
  nodup := nodup_nil
  first_le _ e he := absurd he not_mem_nil
  slot j text h := by cases h
  classes j text h := by cases h
  unused j _ := by
    change (0 : ℕ) >>> _ &&& _ = 0
    rw [zero_shiftRight, zero_and]

section Find

variable (h : Valid hasher roundTrips first t)

include h

theorem Valid.find (spread : UInt64) (isMatch : ℕ → Bool) : ∃ r, t.find spread isMatch = .ok r ∧
    (∀ index, r = some index → first ≤ index ∧ isMatch index = true) ∧
    (r = none → ∀ index,
      (tagOf spread, index) ∈ entries (t.shards (shardAmong spread shardCount)).slots →
      isMatch index = false) := by
  obtain ⟨r, hr, hsome, hnone⟩ := (h.shards (shardAmong spread shardCount)).find spread isMatch
  refine ⟨r, by rw [Tables.find, hr], fun index hindex => ?_, hnone⟩
  obtain ⟨hmem, hmatch⟩ := hsome index hindex
  exact ⟨h.first_le _ _ hmem, hmatch⟩

/-- The search for a text among those of the table. -/
theorem Valid.find_own (text : Bytes) :
    ∃ r, t.find (hasher.hashOf text) (t.isOwn first text) = .ok r ∧
    (∀ index, r = some index → first ≤ index ∧ t.texts[index - first]? = some text) ∧
    (r = none → text ∉ t.texts) := by
  obtain ⟨r, hr, hsome, hnone⟩ := h.find (hasher.hashOf text) (t.isOwn first text)
  refine ⟨r, hr, fun index hindex => ?_, fun hr hmem => ?_⟩
  · obtain ⟨hle, hmatch⟩ := hsome index hindex
    exact ⟨hle, of_decide_eq_true hmatch⟩
  · obtain ⟨j, hj⟩ := mem_iff_getElem?.1 hmem
    have hreject := hnone hr _ (h.slot j text hj)
    rw [isOwn, Nat.add_sub_cancel_left, hj, decide_eq_true rfl] at hreject
    cases hreject

/-- The search for a text among the first ones of the table. -/
theorem Valid.find_below (hfirst : first = 0) (below : ℕ) (text : Bytes) : ∃ r,
    t.find (hasher.hashOf text) (fun i => i < below && t.texts[i]? = some text) = .ok r ∧
    (∀ index, r = some index → index < below ∧ t.texts[index]? = some text) ∧
    (r = none → text ∉ t.texts.take below) := by
  subst hfirst
  obtain ⟨r, hr, hsome, hnone⟩ :=
    h.find (hasher.hashOf text) fun i => i < below && t.texts[i]? = some text
  refine ⟨r, hr, fun index hindex => ?_, fun hr hmem => ?_⟩
  · have hmatch := (hsome index hindex).2
    rwa [Bool.and_eq_true, decide_eq_true_eq, decide_eq_true_eq] at hmatch
  · obtain ⟨j, hj⟩ := mem_iff_getElem?.1 hmem
    rw [getElem?_take] at hj
    split at hj
    next hlt =>
      have hreject := hnone hr _ (h.slot j text hj)
      rw [zero_add, hj, decide_eq_true hlt, decide_eq_true rfl] at hreject
      cases hreject
    next => cases hj

/-- A new text is numbered after the others. -/
theorem Valid.findOrAdd (hnew : text ∉ t.texts) : ∃ t',
    t.findOrAdd roundTrips first (hasher.hashOf text) text = .ok (t', first + t.texts.length) ∧
    Valid hasher roundTrips first t' ∧ t'.texts = t.texts ++ [text] ∧ t'.isShared = t.isShared := by
  obtain ⟨r, hr, hsome, -⟩ := h.find_own text
  have hnone : r = none := by
    cases r with
    | none => rfl
    | some index => exact absurd (mem_of_getElem? (hsome index rfl).2) hnew
  generalize hset : ({ t with texts := t.texts ++ [text] } : Tables).setClass roundTrips
    t.texts.length text = u
  have hclass (j : ℕ) : u.classAt j =
      t.classAt j ||| if t.texts.length = j then classOf roundTrips text else 0 :=
        hset ▸ classAt_setClass ..
  have hkeep : u.shards = t.shards ∧ u.texts = t.texts ++ [text] ∧ u.isShared = t.isShared := by
    rw [← hset, setClass]
    split <;> exact ⟨rfl, rfl, rfl⟩
  obtain ⟨added, hadd, hvalid, hperm⟩ :=
    (h.shards (shardAmong (hasher.hashOf text) shardCount)).add (hasher.hashOf text)
      (first + t.texts.length)
  refine ⟨{ u with
    shards := update u.shards (shardAmong (hasher.hashOf text) shardCount) added }, ?_, ?_,
    hkeep.2.1, hkeep.2.2⟩
  · rw [Tables.findOrAdd, hr, ok_bind, hnone]
    dsimp only
    rw [hset, hkeep.1, hadd]
  · have hentries (k : ℕ) (e : ℕ × ℕ) (he : e ∈ entries (update u.shards
        (shardAmong (hasher.hashOf text) shardCount) added k).slots) :
        e ∈ entries (t.shards k).slots ∨ e.2 = first + t.texts.length := by
      by_cases hk : k = shardAmong (hasher.hashOf text) shardCount
      · rw [hk, update_self, hperm.mem_iff, mem_cons] at he
        exact he.symm.imp (fun he => hk ▸ he) fun he => congrArg Prod.snd he
      · rw [update_of_ne hk, hkeep.1] at he
        exact .inl he
    have hstays (k : ℕ) (e : ℕ × ℕ) (he : e ∈ entries (t.shards k).slots) :
        e ∈ entries (update u.shards
          (shardAmong (hasher.hashOf text) shardCount) added k).slots := by
      by_cases hk : k = shardAmong (hasher.hashOf text) shardCount
      · rw [hk, update_self, hperm.mem_iff]
        exact mem_cons_of_mem _ (hk ▸ he)
      · rw [update_of_ne hk, hkeep.1]
        exact he
    have hsplit (j : ℕ) (other : Bytes) (hj : u.texts[j]? = some other) :
        t.texts[j]? = some other ∧ j < t.texts.length ∨ j = t.texts.length ∧ other = text := by
      rw [hkeep.2.1] at hj
      rcases lt_trichotomy j t.texts.length with hlt | rfl | hgt
      · rw [getElem?_append_left hlt] at hj
        exact .inl ⟨hj, hlt⟩
      · rw [getElem?_concat_length] at hj
        exact .inr ⟨rfl, (Option.some.inj hj).symm⟩
      · rw [getElem?_eq_none (by rw [length_append, length_singleton]; exact hgt)] at hj
        cases hj
    refine ⟨fun k => ?_, ?_, fun k e he => ?_, fun j other hj => ?_, fun j other hj => ?_,
      fun j hj => ?_⟩
    · dsimp only
      by_cases hk : k = shardAmong (hasher.hashOf text) shardCount
      · rw [hk, update_self]
        exact hvalid
      · rw [update_of_ne hk, hkeep.1]
        exact h.shards k
    · dsimp only
      rw [hkeep.2.1, nodup_append]
      refine ⟨h.nodup, nodup_singleton text, fun a ha b hb heq => hnew ?_⟩
      rw [← mem_singleton.1 hb, ← heq]
      exact ha
    · rcases hentries k e he with he | he
      · exact h.first_le k e he
      · rw [he]
        exact le_add_right _ _
    · rcases hsplit j other hj with ⟨hj, -⟩ | ⟨rfl, rfl⟩
      · exact hstays (shardAmong (hasher.hashOf other) shardCount)
          (tagOf (hasher.hashOf other), first + j) (h.slot j other hj)
      · dsimp only
        rw [update_self, hperm.mem_iff]
        exact mem_cons_self
    · change u.classAt j = _
      rw [hclass]
      rcases hsplit j other hj with ⟨hj, hlt⟩ | ⟨rfl, rfl⟩
      · rw [if_neg hlt.ne', or_zero, h.classes j other hj]
      · rw [if_pos rfl, h.unused _ le_rfl, zero_or]
    · change u.classAt j = 0
      rw [hkeep.2.1, length_append, length_singleton] at hj
      rw [hclass, h.unused j (by omega), if_neg (by omega), zero_or]

end Find

end Tables

end Soup.Sema
