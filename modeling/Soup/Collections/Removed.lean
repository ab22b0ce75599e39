import Soup.Collections.Indexed

/-!
# Edits and removals

An edit of values leaves the table as it is, and so does an edit of keys that keeps their hashes
(`Holds.withEntries`). A point removal takes the place from the table, and gives the place of the
last entry to the entry that moved there (`Holds.swapRemoveAt`, `Holds.pop`); `shrinkAndFree` takes
all places from some on.
-/

namespace Soup.Collections

open Soup.Lib List Function ArrayHashMap

variable {K V τ : Type} {ctx : Context K} {H : HashTable τ}

/-! ## Lists -/

namespace Entries

variable {l l' : List (K × V)} {key : K} {value : V} {i : ℕ}

theorem distinct_iff : Distinct ctx l ↔ ∀ (i j : ℕ) (e e' : K × V), l[i]? = some e →
    l[j]? = some e' → ctx.eql e.1 e'.1 = true → i = j := by
  constructor
  · exact fun h i j _ _ hi hj heql => h.eq_of_eql hi hj heql
  · intro h
    refine pairwise_iff_getElem.2 fun i j hi hj hij => ?_
    by_contra heql
    rw [Bool.not_eq_false] at heql
    have := h i j _ _ (getElem?_eq_getElem hi) (getElem?_eq_getElem hj) heql
    omega

/-- Keys differ also when places change. -/
theorem Distinct.of_places (h : Distinct ctx l) (place : ℕ → ℕ)
    (hl : ∀ i e, l'[i]? = some e → l[place i]? = some e)
    (hinj : ∀ i < l'.length, ∀ j < l'.length, place i = place j → i = j) : Distinct ctx l' := by
  refine distinct_iff.2 fun i j e e' hi hj heql => ?_
  exact hinj i (List.getElem?_eq_some_iff.1 hi).1 j (List.getElem?_eq_some_iff.1 hj).1
    (h.eq_of_eql (hl i e hi) (hl j e' hj) heql)

theorem Distinct.of_keys (h : Distinct ctx l) (hk : l'.map Prod.fst = l.map Prod.fst) :
    Distinct ctx l' := by
  have hpair : (l.map Prod.fst).Pairwise fun a b => ctx.eql a b = false := pairwise_map.2 h
  rw [← hk] at hpair
  exact pairwise_map.1 hpair

theorem Distinct.set (h : Distinct ctx l) {e : K × V} (hi : l[i]? = some e)
    (heql : ctx.eql key e.1 = true) : Distinct ctx (l.set i (key, value)) := by
  -- whatever equals the key at `i` now equalled the one before
  have hold : ∀ (j : ℕ) (e' : K × V), (l.set i (key, value))[j]? = some e' →
      ∃ e'', l[j]? = some e'' ∧ ctx.eql e'.1 e''.1 = true := by
    intro j e' hj
    rw [getElem?_set] at hj
    split at hj
    next hij =>
      subst hij
      rw [if_pos (List.getElem?_eq_some_iff.1 hi).1] at hj
      rw [← Option.some.inj hj]
      exact ⟨e, hi, heql⟩
    · exact ⟨e', hj, ctx.refl _⟩
  refine distinct_iff.2 fun a b e₁ e₂ ha hb heql' => ?_
  obtain ⟨e₁', ha', h₁⟩ := hold a e₁ ha
  obtain ⟨e₂', hb', h₂⟩ := hold b e₂ hb
  exact h.eq_of_eql ha' hb' (ctx.trans _ _ _ (ctx.symm _ _ h₁) (ctx.trans _ _ _ heql' h₂))

end Entries

theorem swapRemove_map {α β : Type} (f : α → β) (xs : List α) (i : ℕ) :
    (swapRemove xs i).map f = swapRemove (xs.map f) i := by
  rw [swapRemove, swapRemove, getLast?_map]
  cases xs.getLast? with
  | none => rfl
  | some last => rw [Option.map_some, map_dropLast, map_set]

variable {α : Type}

/-- The last one is where the one was that is removed. -/
theorem getElem?_swapRemove (xs : List α) (i k : ℕ) : (swapRemove xs i)[k]? =
    if k < xs.length - 1 then (if k = i then xs[xs.length - 1]? else xs[k]?) else none := by
  rw [swapRemove, getLast?_eq_getElem?]
  cases hlast : xs[xs.length - 1]? with
  | none =>
    have hle := List.getElem?_eq_none_iff.1 hlast
    have hnil : xs = [] := eq_nil_of_length_eq_zero (by omega)
    rw [hnil]
    simp
  | some last =>
    rw [getElem?_dropLast, length_set, getElem?_set]
    grind

theorem length_swapRemove (xs : List α) (i : ℕ) :
    (swapRemove xs i).length = xs.length - 1 := by
  rw [swapRemove]
  cases hlast : xs.getLast? with
  | none =>
    rw [getLast?_eq_none_iff.1 hlast]
    rfl
  | some last => simp

theorem length_swapRemove_le (xs : List α) (i : ℕ) :
    (swapRemove xs i).length ≤ xs.length := by
  rw [length_swapRemove]
  exact Nat.sub_le _ _

theorem Entries.Distinct.swapRemove {l : List (K × V)} (h : Entries.Distinct ctx l) (i : ℕ) :
    Entries.Distinct ctx (Collections.swapRemove l i) := by
  refine h.of_places (fun k => if k = i then l.length - 1 else k) (fun k e hk => ?_)
    fun a ha b hb hab => ?_
  · rw [getElem?_swapRemove] at hk
    grind
  · rw [length_swapRemove] at ha hb
    grind

/-! ## Tables of a column -/

section Column

variable {hashes : List UInt32} {h : UInt32} {i : ℕ} {t : τ}

theorem indexes_removeTail (ht : H.Indexes t (placed (hashes ++ [h]))) :
    H.Indexes (H.removeEntry t (spreadHash h) (· == hashes.length)) (placed hashes) := by
  have hremoved := ht.removeEntry (i := hashes.length) (h := spreadHash h)
    (by rw [placed_append, update_self])
  rw [placed_append, update_idem, ← placed_length, update_eq_self] at hremoved
  exact hremoved

theorem placed_getD (hi : i < hashes.length) :
    placed hashes i = some (spreadHash (hashes.getD i 0)) := by
  rw [placed, getElem?_eq_getElem hi, getD_eq_getElem?_getD, getElem?_eq_getElem hi]
  rfl

/-- The last place. -/
theorem placed_swapRemove_last (hi : i = hashes.length - 1) :
    placed (swapRemove hashes i) = update (placed hashes) i none := by
  funext k
  rw [update_apply, placed, placed, getElem?_swapRemove]
  grind

theorem placed_swapRemove (hi : i < hashes.length - 1) :
    placed (swapRemove hashes i) = update (update
      (update (placed hashes) i none) (hashes.length - 1) none) i
      (placed hashes (hashes.length - 1)) := by
  funext k
  rw [update_apply, update_apply, update_apply, placed, placed, placed, getElem?_swapRemove]
  grind

/-- The tail of a column is taken from the table one by one. -/
theorem indexes_shrink {map : ArrayHashMap K V τ} (newLen : ℕ) (hindex : map.index = some t)
    (ht : H.Indexes t (placed map.hashes)) : ∀ k ≤ map.hashes.length - newLen, ∃ t',
    (range' newLen k).foldl (fun m i => m.indexRemoveTail H i (map.hashes.getD i 0)) map =
      { map with index := some t' } ∧
    H.Indexes t' fun i => if newLen ≤ i ∧ i < newLen + k then none else placed map.hashes i
  | 0, _ => by
    refine ⟨t, ?_, ?_⟩
    · rw [← hindex]
      rfl
    · have hq : (fun i => if newLen ≤ i ∧ i < newLen + 0 then none else placed map.hashes i) =
          placed map.hashes := funext fun i => if_neg (by omega)
      rw [hq]
      exact ht
  | k + 1, hk => by
    obtain ⟨t', hfold, ht'⟩ := indexes_shrink newLen hindex ht k (Nat.le_of_succ_le hk)
    rw [range'_1_concat, foldl_append, hfold, foldl_cons, foldl_nil]
    refine ⟨_, rfl, ?_⟩
    have hlt : newLen + k < map.hashes.length := by omega
    have hremoved := ht'.removeEntry (i := newLen + k)
      (h := spreadHash (map.hashes.getD (newLen + k) 0))
      (by rw [if_neg (by omega)]; exact placed_getD hlt)
    have hq : (fun i => if newLen ≤ i ∧ i < newLen + (k + 1) then none else placed map.hashes i) =
        update (fun i => if newLen ≤ i ∧ i < newLen + k then none
          else placed map.hashes i) (newLen + k) none := by
      funext i
      rw [update_apply]
      grind
    rw [hq]
    exact hremoved

end Column

/-! ## Maps -/

namespace Holds

variable {map : ArrayHashMap K V τ} {l l' : List (K × V)} {key : K} {value : V} {i : ℕ}

section

variable (h : Holds ctx H map l)
include h

/-- Other entries, with the same hashes. -/
theorem withEntries (hd : Entries.Distinct ctx l')
    (hhash : (l'.map fun e => ctx.hash e.1) = l.map fun e => ctx.hash e.1) :
    Holds ctx H { map with keys := l'.map Prod.fst, values := l'.map Prod.snd } l' := by
  refine ⟨?_, h.index, hd, ?_⟩
  · rw [h.columns, ofEntries, ofEntries, hhash]
  · have hlen := congrArg List.length hhash
    rw [length_map, length_map] at hlen
    rw [hlen]
    exact h.length

/-- Other values. -/
theorem withValues (hk : l'.map Prod.fst = l.map Prod.fst) :
    Holds ctx H { map with values := l'.map Prod.snd } l' := by
  have hhash : (l'.map fun e => ctx.hash e.1) = l.map fun e => ctx.hash e.1 := by
    have := congrArg (List.map ctx.hash) hk
    rw [map_map, map_map] at this
    exact this
  have hw := h.withEntries (h.distinct.of_keys hk) hhash
  rw [hk, ← h.keys_eq] at hw
  exact hw

theorem modify (i : ℕ) (edit : V → V) : Holds ctx H { map with values := map.values.modify i edit }
      (l.modify i fun e => (e.1, edit e.2)) := by
  have hvalues : (l.modify i fun e => (e.1, edit e.2)).map Prod.snd = map.values.modify i edit := by
    rw [h.values_eq]
    refine ext_getElem? fun k => ?_
    simp only [getElem?_map, getElem?_modify]
    cases l[k]? <;> simp only [Option.map_none, Option.map_some] <;> split <;> rfl
  rw [← hvalues]
  refine h.withValues (ext_getElem? fun k => ?_)
  simp only [getElem?_map, getElem?_modify]
  cases l[k]? with
  | none => rfl
  | some e =>
    simp only [Option.map_eq_map, Option.map_some]
    split <;> rfl

theorem setValue (i : ℕ) (value : V) : Holds ctx H { map with values := map.values.set i value }
      (l.modify i fun e => (e.1, value)) := by
  rw [set_eq_modify]
  exact h.modify i fun _ => value

theorem setEntry {e : K × V} (hi : l[i]? = some e) (heql : ctx.eql key e.1 = true) :
    Holds ctx H { map with keys := map.keys.set i key, values := map.values.set i value }
      (l.set i (key, value)) := by
  rw [h.keys_eq, h.values_eq, show key = (key, value).1 from rfl, ← map_set,
    show value = (key, value).2 from rfl, ← map_set]
  refine h.withEntries (h.distinct.set hi heql) (ext_getElem? fun k => ?_)
  rw [map_set, getElem?_set, getElem?_map]
  split
  next hk =>
    subst hk
    have hlt := (List.getElem?_eq_some_iff.1 hi).1
    rw [length_map, if_pos hlt, hi, ctx.hash_eq _ _ heql]
    rfl
  · rfl

theorem swapRemoveAt (hi : i < l.length) :
    Holds ctx H (map.swapRemoveAt H i) (Collections.swapRemove l i) := by
  have hlen : map.hashes.length = l.length := h.length_hashes
  have hcols : ∀ index : Option τ, (⟨Collections.swapRemove map.keys i,
      Collections.swapRemove map.values i, Collections.swapRemove map.hashes i, index⟩ :
        ArrayHashMap K V τ) = ofEntries ctx (Collections.swapRemove l i) index := by
    intro index
    rw [h.keys_eq, h.values_eq, h.hashes_eq, ofEntries, swapRemove_map, swapRemove_map,
      swapRemove_map]
  have hd := h.distinct.swapRemove i
  have hle : (Collections.swapRemove l i).length ≤ 2 ^ 32 :=
    (length_swapRemove_le l i).trans h.length
  have hlast : (Collections.swapRemove map.keys i).length = map.hashes.length - 1 := by
    rw [length_swapRemove, h.length_keys, hlen]
  rw [ArrayHashMap.swapRemoveAt, ArrayHashMap.indexSwapRemove]
  cases hindex : map.index with
  | none =>
    rw [hcols]
    exact dropIndex hd hle
  | some t =>
    dsimp only
    have hremoved := (h.index t hindex).removeEntry (placed_getD (hlen ▸ hi))
    rw [hlast]
    split
    next hne =>
      have hi' : i < map.hashes.length - 1 := by omega
      refine ⟨hcols _, fun t' ht' => ?_, hd, hle⟩
      rw [← Option.some.inj ht', asU32_eq (hi.trans_le h.length)]
      have hmoved : (Collections.swapRemove map.hashes i).getD i 0 =
          map.hashes.getD (map.hashes.length - 1) 0 := by
        rw [getD_eq_getElem?_getD, getElem?_swapRemove, if_pos hi', if_pos rfl,
          getD_eq_getElem?_getD]
      have hplaced : placed map.hashes (map.hashes.length - 1) =
          some (spreadHash (map.hashes.getD (map.hashes.length - 1) 0)) := placed_getD (by omega)
      rw [hmoved]
      rw [placed_swapRemove hi', hplaced]
      refine hremoved.replace ?_ (update_self ..)
      rw [update_of_ne hne]
      exact hplaced
    next heq =>
      refine ⟨hcols _, fun t' ht' => ?_, hd, hle⟩
      rw [← Option.some.inj ht']
      rw [placed_swapRemove_last (by omega)]
      exact hremoved

theorem remove (key : K) : (map.remove ctx H key).1 = (Entries.remove ctx l key).1 ∧
      Holds ctx H (map.remove ctx H key).2 (Entries.remove ctx l key).2 := by
  rw [ArrayHashMap.remove, Entries.remove, h.getIndex_eq]
  cases Entries.find ctx l key with
  | none => exact ⟨rfl, h⟩
  | some i =>
    refine ⟨by dsimp only; rw [h.values_eq, getElem?_map], ?_⟩
    have hd : Entries.Distinct ctx (l.eraseIdx i) := h.distinct.sublist (eraseIdx_sublist _ _)
    have hle : (l.eraseIdx i).length ≤ 2 ^ 32 :=
      (eraseIdx_sublist l i).length_le.trans h.length
    dsimp only [dropIndex]
    rw [h.keys_eq, h.values_eq, h.hashes_eq, eraseIdx_map, eraseIdx_map, eraseIdx_map]
    split
    · exact rebuildIndex none hd hle
    · exact dropIndex hd hle

theorem pop : (map.pop H).1 = l.getLast? ∧ Holds ctx H (map.pop H).2 l.dropLast := by
  rw [ArrayHashMap.pop, h.keys_eq, h.values_eq, h.hashes_eq]
  cases l using reverseRecOn with
  | nil => exact ⟨rfl, h⟩
  | append_singleton l e =>
    simp only [map_append, map_cons, map_nil, getLast?_append,
      getLast?_singleton, Option.some_or, dropLast_concat, length_map]
    refine ⟨trivial, ?_⟩
    have hd : Entries.Distinct ctx l := h.distinct.sublist (sublist_append_left _ _)
    have hle : l.length ≤ 2 ^ 32 := (sublist_append_left l [e]).length_le.trans h.length
    rw [indexRemoveTail]
    cases hindex : map.index with
    | none => exact dropIndex hd hle
    | some t =>
      refine ⟨rfl, fun t' ht' => ?_, hd, hle⟩
      rw [← Option.some.inj ht']
      have ht := h.index t hindex
      rw [h.hashes_eq, map_append] at ht
      have hremoved := indexes_removeTail (h := ctx.hash e.1) ht
      rw [length_map] at hremoved
      exact hremoved

theorem shrinkAndFree (newLen : ℕ) : Holds ctx H (map.shrinkAndFree H newLen) (l.take newLen) := by
  have hd : Entries.Distinct ctx (l.take newLen) := h.distinct.sublist (take_sublist _ _)
  have hle : (l.take newLen).length ≤ 2 ^ 32 := (take_sublist newLen l).length_le.trans h.length
  have hcols : ∀ index : Option τ, truncate { map with index := index } newLen =
      ofEntries ctx (l.take newLen) index := by
    intro index
    rw [truncate, h.keys_eq, h.values_eq, h.hashes_eq, ofEntries, map_take,
      map_take, map_take]
  rw [ArrayHashMap.shrinkAndFree]
  cases hindex : map.index with
  | none =>
    have hnone : map = { map with index := none } := by rw [← hindex]
    simp only [Option.isSome_none, Bool.false_eq_true, if_false]
    rw [hnone, hcols]
    split
    · exact dropIndex hd hle
    · exact dropIndex hd hle
  | some t =>
    obtain ⟨t', hfold, ht'⟩ := indexes_shrink newLen hindex (h.index t hindex) _
      le_rfl
    simp only [Option.isSome_some, if_true]
    rw [hfold, hcols]
    split
    · exact dropIndex hd hle
    · refine ⟨rfl, fun t'' ht'' => ?_, hd, hle⟩
      rw [← Option.some.inj ht'']
      have hq : placed (ofEntries ctx (l.take newLen) (some t')).hashes = fun i =>
          if newLen ≤ i ∧ i < newLen + (map.hashes.length - newLen) then none
          else placed map.hashes i := by
        funext i
        dsimp only [ofEntries]
        rw [map_take, ← h.hashes_eq, placed, placed, getElem?_take]
        grind
      rw [hq]
      exact ht'

theorem reserve (capacity : ℕ) : Holds ctx H (map.reserve H capacity) l := by
  rw [ArrayHashMap.reserve]
  cases hindex : map.index with
  | none => exact h
  | some t =>
    refine ⟨?_, fun t' ht' => ?_, h.distinct, h.length⟩
    · rw [h.columns]
      rfl
    · rw [← Option.some.inj ht', indexReserve]
      split
      · exact (h.index t hindex).reserve _ fun _ _ hj => indexRehasher_eq hj
      · exact h.index t hindex

end

end Holds

end Soup.Collections
