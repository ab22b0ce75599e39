import Soup.Collections.Removed

/-!
# Rearrangements

`retain`, `sort` and `reIndex` change places wholesale and build the table again. The loop of
`retain` has the entries it keeps in front of some that it does not, and those in front of the
entries it has not read (`retain_loop`). `sort` swaps along the cycles of the sorted places.
-/

namespace Soup.Collections

open Soup.Lib Nat Entries
open List hiding swap

variable {K V τ : Type} {ctx : Context K} {H : HashTable τ}

/-! ## The loop of `retain` -/

section Retain

variable {keep : ℕ → K → V → Bool × V}

/-- What is kept of entries that are read from `n` on. -/
def retainFrom (keep : ℕ → K → V → Bool × V) (n : ℕ) (l : List (K × V)) : List (K × V) :=
  (l.zipIdx n).filterMap fun (e, i) =>
    if (keep i e.1 e.2).1 then some (e.1, (keep i e.1 e.2).2) else none

theorem retainFrom_cons (n : ℕ) (e : K × V) (l : List (K × V)) : retainFrom keep n (e :: l) =
    if (keep n e.1 e.2).1 then (e.1, (keep n e.1 e.2).2) :: retainFrom keep (n + 1) l
    else retainFrom keep (n + 1) l := by
  rw [retainFrom, zipIdx_cons, filterMap_cons]
  dsimp only
  split <;> rename_i h <;> split at h
  · cases h
  · rw [if_neg ‹_›]
    rfl
  · rw [if_pos ‹_›, ← Option.some.inj h]
    rfl
  · cases h

variable (keep) in
theorem retainFrom_sublist : ∀ (n : ℕ) (l : List (K × V)),
    ((retainFrom keep n l).map Prod.fst).Sublist (l.map Prod.fst)
  | _, [] => List.Sublist.refl _
  | n, e :: l => by
    rw [retainFrom_cons, map_cons]
    split
    · exact (retainFrom_sublist (n + 1) l).cons_cons _
    · exact (retainFrom_sublist (n + 1) l).cons _

theorem ofEntries_swap (l : List (K × V)) (index : Option τ) (i j : ℕ) :
    (ofEntries ctx l index).swap i j = ofEntries ctx (swap l i j) index := by
  rw [ArrayHashMap.swap, ofEntries, ofEntries, swap_map, swap_map, swap_map]

/-- An entry changes places with the first that is not kept. -/
theorem swap_append {α : Type} (kept junk rest : List α) (x y : α) :
    swap (kept ++ (x :: junk ++ y :: rest)) (kept.length + (junk.length + 1)) kept.length =
      (kept ++ [y]) ++ ((junk ++ [x]) ++ rest) := by
  have hy : (kept ++ (x :: junk ++ y :: rest))[kept.length + (junk.length + 1)]? = some y := by
    rw [getElem?_append_right (Nat.le_add_right _ _), Nat.add_sub_cancel_left,
      getElem?_append_right (by rw [length_cons]), length_cons, Nat.sub_self]
    rfl
  have hx : (kept ++ (x :: junk ++ y :: rest))[kept.length]? = some x := by
    rw [getElem?_append_right le_rfl, Nat.sub_self]
    rfl
  rw [swap, hy, hx]
  simp

variable {l : List (K × V)}

theorem ofEntries_set {e : K × V} {i : ℕ} (hi : l[i]? = some e)
    (index : Option τ) (value : V) :
    { ofEntries ctx l index with values := (l.map Prod.snd).set i value } =
      ofEntries ctx (l.set i (e.1, value)) index := by
  have hlt := (List.getElem?_eq_some_iff.1 hi).1
  have hset : ∀ {α : Type} (f : K → α),
      ((l.set i (e.1, value)).map fun e => f e.1) = l.map fun e => f e.1 := by
    intro α f
    refine ext_getElem? fun k => ?_
    rw [map_set, getElem?_set, getElem?_map]
    split
    next hk =>
      subst hk
      rw [length_map, if_pos hlt, hi]
      rfl
    · rfl
  have hkeys : (l.set i (e.1, value)).map Prod.fst = l.map Prod.fst := hset id
  rw [ofEntries, ofEntries, hset, hkeys, map_set]

theorem retainStep_eq {e : K × V} {read : ℕ} (hread : l[read]? = some e)
    (index : Option τ) (write : ℕ) :
    ArrayHashMap.retainStep keep (ofEntries ctx l index, write) read =
      if (keep read e.1 e.2).1 then
        (ofEntries ctx (if read ≠ write
          then swap (l.set read (e.1, (keep read e.1 e.2).2)) read write
          else l.set read (e.1, (keep read e.1 e.2).2)) index, write + 1)
      else (ofEntries ctx (l.set read (e.1, (keep read e.1 e.2).2)) index, write) := by
  have hkey : (ofEntries ctx l index).keys[read]? = some e.1 := by
    rw [ofEntries, getElem?_map, hread]
    rfl
  have hvalue : (ofEntries ctx l index).values[read]? = some e.2 := by
    rw [ofEntries, getElem?_map, hread]
    rfl
  rw [ArrayHashMap.retainStep]
  rw [hkey, hvalue]
  dsimp only
  rw [show (ofEntries ctx l index).values = l.map Prod.snd from rfl, ofEntries_set hread,
    ofEntries_swap]
  split
  · split
    · rfl
    · rfl
  · rfl

variable (ctx keep) in
theorem retain_loop (index : Option τ) : ∀ rest kept junk : List (K × V), ∃ junk' : List (K × V),
    (range' (kept.length + junk.length) rest.length).foldl (ArrayHashMap.retainStep keep)
      (ofEntries ctx (kept ++ (junk ++ rest)) index, kept.length) =
    (ofEntries ctx (kept ++ retainFrom keep (kept.length + junk.length) rest ++ junk') index,
      kept.length + (retainFrom keep (kept.length + junk.length) rest).length) ∧
    junk'.length + (retainFrom keep (kept.length + junk.length) rest).length =
      junk.length + rest.length
  | [], kept, junk => ⟨junk, by simp [retainFrom], by simp [retainFrom]⟩
  | e :: rest, kept, junk => by
    have hread : (kept ++ (junk ++ e :: rest))[kept.length + junk.length]? = some e := by
      rw [getElem?_append_right (Nat.le_add_right _ _), Nat.add_sub_cancel_left,
        getElem?_append_right le_rfl, Nat.sub_self]
      rfl
    have hset : ∀ e', (kept ++ (junk ++ e :: rest)).set (kept.length + junk.length) e' =
        kept ++ (junk ++ e' :: rest) := by
      intro e'
      simp
    rw [length_cons, range'_succ, foldl_cons, retainFrom_cons, retainStep_eq hread, hset]
    generalize keep (kept.length + junk.length) e.1 e.2 = answer
    obtain ⟨isKept, value⟩ := answer
    cases isKept with
    | true =>
      simp only [if_true]
      -- the entry goes to the end of the kept ones, and the first of the others to its place
      obtain ⟨junk₁, hlen, hl⟩ : ∃ junk₁ : List (K × V), junk₁.length = junk.length ∧
          (if kept.length + junk.length ≠ kept.length then
            swap (kept ++ (junk ++ (e.1, value) :: rest)) (kept.length + junk.length) kept.length
          else kept ++ (junk ++ (e.1, value) :: rest)) =
            (kept ++ [(e.1, value)]) ++ (junk₁ ++ rest) := by
        cases junk with
        | nil => exact ⟨[], rfl, by simp⟩
        | cons x junk =>
          refine ⟨junk ++ [x], by simp, ?_⟩
          rw [if_pos (by simp), length_cons, swap_append]
      rw [hl]
      obtain ⟨junk', hfold, hlen'⟩ := retain_loop index rest (kept ++ [(e.1, value)]) junk₁
      have hnext : (kept ++ [(e.1, value)]).length + junk₁.length =
          kept.length + junk.length + 1 := by
        rw [length_append, length_singleton, hlen]
        omega
      rw [hnext, length_append, length_singleton] at hfold
      rw [hnext] at hlen'
      refine ⟨junk', ?_, ?_⟩
      · rw [hfold]
        refine Prod.ext ?_ ?_
        · rw [append_assoc kept]
          rfl
        · rw [length_cons]
          omega
      · rw [length_cons]
        omega
    | false =>
      simp only [Bool.false_eq_true, if_false]
      obtain ⟨junk', hfold, hlen'⟩ := retain_loop index rest kept (junk ++ [(e.1, value)])
      rw [length_append, length_singleton, ← add_assoc] at hfold hlen'
      refine ⟨junk', ?_, ?_⟩
      · rw [← hfold, append_assoc junk]
        rfl
      · omega

end Retain

/-! ## Maps -/

theorem Entries.retain_eq (l : List (K × V)) (keep : ℕ → K → V → Bool × V) :
    retain l keep = retainFrom keep 0 l := rfl

theorem filterMap_eq {α : Type} {l : List α} : ∀ {perm : List ℕ} {ys : List α},
    ys.length = perm.length → (∀ k (hk : k < perm.length), ys[k]? = l[perm[k]]?) →
    perm.filterMap (l[·]?) = ys
  | [], ys, hlen, _ => by rw [eq_nil_of_length_eq_zero hlen, filterMap_nil]
  | i :: perm, [], hlen, _ => by cases hlen
  | i :: perm, y :: ys, hlen, h => by
    have hy : l[i]? = some y := (h 0 (zero_lt_succ _)).symm
    rw [filterMap_cons_some hy, filterMap_eq (succ.inj hlen) fun k hk => by
      have hk' := h (k + 1) (succ_lt_succ hk)
      rw [getElem?_cons_succ, getElem_cons_succ] at hk'
      exact hk']

/-- The entries at sorted places. -/
theorem permute_eq_filterMap {l : List (K × V)} {perm : List ℕ}
    (hperm : perm.Perm (range l.length)) :
    permute swap perm l = some (perm.filterMap (l[·]?)) ∧ (perm.filterMap (l[·]?)).Perm l := by
  have hlen : perm.length = l.length := by rw [hperm.length_eq, length_range]
  have hlt : ∀ i ∈ perm, i < l.length := fun i hi => mem_range.1 (hperm.mem_iff.1 hi)
  have hnodup : perm.Nodup := hperm.nodup_iff.2 nodup_range
  have hgetD : ∀ k (hk : k < perm.length), perm.getD k 0 = perm[k] := fun k hk => by
    rw [getD_eq_getElem?_getD, getElem?_eq_getElem hk, Option.getD_some]
  have hpermutes : Permutes perm l.length := by
    refine ⟨hlen, fun k hk => ?_, fun k hk k' hk' heq => ?_⟩
    · rw [hgetD k (hlen.symm ▸ hk)]
      exact hlt _ (getElem_mem _)
    · rw [hgetD k (hlen.symm ▸ hk), hgetD k' (hlen.symm ▸ hk')] at heq
      exact (hnodup.getElem_inj_iff).1 heq
  obtain ⟨ys, hys, hlen', hget⟩ := permute_eq hpermutes
  have hsorted : perm.filterMap (l[·]?) = ys := filterMap_eq (hlen'.trans hlen.symm) fun k hk => by
    rw [hget k (hlen ▸ hk), hgetD k hk]
  have hall : (range l.length).filterMap (l[·]?) = l :=
    filterMap_eq length_range.symm fun k hk => by rw [getElem_range]
  refine ⟨hys.trans (congrArg some hsorted.symm), ?_⟩
  have hmapped := hperm.filterMap (l[·]?)
  rw [hall] at hmapped
  exact hmapped

namespace Holds

variable {map : ArrayHashMap K V τ} {l : List (K × V)}

theorem retain (h : Holds ctx H map l) (keep : ℕ → K → V → Bool × V) :
    Holds ctx H (map.retain H keep) (retain l keep) := by
  obtain ⟨junk, hfold, hlen⟩ := retain_loop ctx keep map.index l [] []
  simp only [length_nil, zero_add, nil_append] at hfold hlen
  rw [← h.columns] at hfold
  rw [retain_eq, ArrayHashMap.retain, h.length_keys, range_eq_range', hfold]
  have hsub := retainFrom_sublist keep 0 l
  dsimp only
  split
  next hall =>
    have hk := hsub.eq_of_length (by rw [length_map, length_map, hall])
    have hjunk : junk = [] := eq_nil_of_length_eq_zero (by omega)
    have hw := h.withValues hk
    rw [hjunk, append_nil]
    rw [hw.columns] at hw
    exact hw
  · have hd : Entries.Distinct ctx (retainFrom keep 0 l) := by
      have hpair : (l.map Prod.fst).Pairwise fun a b => ctx.eql a b = false :=
        pairwise_map.2 h.distinct
      exact pairwise_map.1 (hpair.sublist hsub)
    have hle : (retainFrom keep 0 l).length ≤ 2 ^ 32 := (by omega : _ ≤ l.length).trans h.length
    have htrunc : ((ofEntries ctx (retainFrom keep 0 l ++ junk) map.index).truncate
        (retainFrom keep 0 l).length).dropIndex = ofEntries ctx (retainFrom keep 0 l) none := by
      simp [ArrayHashMap.truncate, ArrayHashMap.dropIndex, ofEntries]
    rw [htrunc]
    exact ofEntries_ite none hd hle _

theorem sort (h : Holds ctx H map l) (hlen : l.length < 2 ^ 32)
    (lessThan : List K → List V → ℕ → ℕ → Bool) :
    ∃ map', map.sort H lessThan = some map' ∧ Holds ctx H map' (Entries.sort l lessThan) := by
  have hperm := mergeSort_perm (range l.length)
    fun a b => !lessThan (l.map Prod.fst) (l.map Prod.snd) b a
  obtain ⟨hpermute, hl⟩ := permute_eq_filterMap hperm
  have hd : Entries.Distinct ctx (Entries.sort l lessThan) :=
    (hl.pairwise_iff fun hab => by rw [eql_comm]; exact hab).2 h.distinct
  have hle : (Entries.sort l lessThan).length ≤ 2 ^ 32 := hl.length_eq.trans_le h.length
  rw [ArrayHashMap.sort, h.length_keys]
  dsimp only
  split
  next hshort =>
    have hl : Entries.sort l lessThan = l := by
      rw [Entries.sort]
      match l, hshort with
      | [], _ => simp
      | [e], _ => simp
    exact ⟨map, rfl, hl.symm ▸ h⟩
  · rw [if_neg (by omega), h.keys_eq, h.values_eq]
    have hcols : map.dropIndex = ofEntries ctx l none := by
      rw [h.columns]
      rfl
    -- the columns go through the swaps that the entries would
    have hmap : ∀ perm, permute ArrayHashMap.swap perm (ofEntries ctx l (none : Option τ)) =
        (permute swap perm l).map fun l => ofEntries ctx l none := by
      intro perm
      let columns : List (K × V) → ArrayHashMap K V τ := fun l => ofEntries ctx l none
      have hswap : ∀ xs i j, columns (swap xs i j) = (columns xs).swap i j :=
        fun xs i j => (ofEntries_swap xs none i j).symm
      exact permute_map hswap l
    rw [hcols, hmap, hpermute]
    refine ⟨_, rfl, ?_⟩
    have hite := ofEntries_ite (H := H) none hd hle (map.index.isSome = true)
    exact hite

theorem reIndex (h : Holds ctx H map l) {keys : List K} (hlen : keys.length = l.length)
    (hd : Entries.Distinct ctx (reIndex l keys)) :
    Holds ctx H (map.reIndex ctx H keys) (reIndex l keys) := by
  have hkeys : (Entries.reIndex l keys).map Prod.fst = keys :=
    map_fst_zip (by rw [length_map, hlen])
  have hvalues : (Entries.reIndex l keys).map Prod.snd = l.map Prod.snd :=
    map_snd_zip (by rw [length_map, hlen])
  have hle : (Entries.reIndex l keys).length ≤ 2 ^ 32 := by
    have := congrArg List.length hvalues
    rw [length_map, length_map] at this
    rw [this]
    exact h.length
  have hcols : (⟨keys, map.values, keys.map ctx.hash, none⟩ : ArrayHashMap K V τ) =
      ofEntries ctx (Entries.reIndex l keys) none := by
    have hhash := congrArg (List.map ctx.hash) hkeys
    rw [map_map] at hhash
    rw [ofEntries, hvalues, h.values_eq, hkeys, ← hhash]
    rfl
  have hite := ofEntries_ite (H := H) none hd hle (keys.length > indexThreshold)
  rw [← hcols] at hite
  exact hite

end Holds

end Soup.Collections
