import Soup.Collections.Rearranged

/-!
# The map is an association list

Every operation of the map does to its columns what it does to a list of entries, and gives the same
answer (`Holds.step`), so that the two agree after every run of operations that the list admits
(`run_eq`): a place has to fit `u32`, and keys that are edited have to differ. The place of the
entry that comes after `2 ^ 32` others does not fit, and is not found (`getIndex_overflow`).
-/

namespace Soup.Collections

open Soup.Lib List Nat

variable {K V τ : Type}

/-- What is done to a map. `getOrPut` is given the default value, and `reserve` the capacity that
the columns have then; `editValue` writes through the pointer of a lookup. -/
inductive Operation (K V : Type)
  | put (key : K) (value : V)
  | putAssumeCapacityContext (key : K) (value : V)
  | insert (key : K) (value : V)
  | getOrPut (key : K) (default : V)
  | entry (key : K) (value : V)
  | editValue (key : K) (edit : V → V)
  | swapRemove (key : K)
  | remove (key : K)
  | pop
  | retain (keep : ℕ → K → V → Bool × V)
  | sort (lessThan : List K → List V → ℕ → ℕ → Bool)
  | shrinkAndFree (newLen : ℕ)
  | reIndex (keys : List K)
  | clear
  | clone
  | reserve (capacity : ℕ)

/-- What an operation gives back. -/
inductive Answer (K V : Type)
  | done
  | flag (b : Bool)
  | value (v : Option V)
  | place (found : Bool) (i : ℕ)
  | slot (i : ℕ) (v : Option V)
  | last (e : Option (K × V))

section Step

variable (ctx : Context K) (H : HashTable τ)

/-- `none` is a panic. -/
def ArrayHashMap.step (map : ArrayHashMap K V τ) :
    Operation K V → Option (Answer K V × ArrayHashMap K V τ)
  | .put key value => some (.done, map.put ctx H key value)
  | .putAssumeCapacityContext key value =>
    some (.done, map.putAssumeCapacityContext ctx H key value)
  | .insert key value =>
    some (.value (map.insert ctx H key value).1, (map.insert ctx H key value).2)
  | .getOrPut key default =>
    let (answer, map) := map.getOrPut ctx H default key
    some (.place answer.1 answer.2, map)
  | .entry key value =>
    let (answer, map) := map.entryOrInsert ctx H key value
    some (.slot answer.1 answer.2, map)
  | .editValue key edit =>
    some (.flag (map.editValue ctx H key edit).1, (map.editValue ctx H key edit).2)
  | .swapRemove key => some (.flag (map.swapRemoveKey ctx H key).1, (map.swapRemoveKey ctx H key).2)
  | .remove key => some (.value (map.remove ctx H key).1, (map.remove ctx H key).2)
  | .pop => some (.last (map.pop H).1, (map.pop H).2)
  | .retain keep => some (.done, map.retain H keep)
  | .sort lessThan => (map.sort H lessThan).map fun map => (.done, map)
  | .shrinkAndFree newLen => some (.done, map.shrinkAndFree H newLen)
  | .reIndex keys => some (.done, map.reIndex ctx H keys)
  | .clear => some (.done, map.clearRetainingCapacity)
  | .clone => some (.done, map.clone)
  | .reserve capacity => some (.done, map.reserve H capacity)

def Entries.step (l : List (K × V)) : Operation K V → Answer K V × List (K × V)
  | .put key value => (.done, put ctx l key value)
  | .putAssumeCapacityContext key value => (.done, replace ctx l key value)
  | .insert key value => (.value (get ctx l key), put ctx l key value)
  | .getOrPut key default =>
    let (answer, l) := getOrPut ctx l key default
    (.place answer.1 answer.2, l)
  | .entry key value =>
    let (answer, l) := getOrPut ctx l key value
    (.slot answer.2 (l[answer.2]?.map Prod.snd), l)
  | .editValue key edit => (.flag (editValue ctx l key edit).1, (editValue ctx l key edit).2)
  | .swapRemove key => (.flag (swapRemove ctx l key).1, (swapRemove ctx l key).2)
  | .remove key => (.value (remove ctx l key).1, (remove ctx l key).2)
  | .pop => (.last l.getLast?, l.dropLast)
  | .retain keep => (.done, retain l keep)
  | .sort lessThan => (.done, sort l lessThan)
  | .shrinkAndFree newLen => (.done, l.take newLen)
  | .reIndex keys => (.done, reIndex l keys)
  | .clear => (.done, [])
  | .clone => (.done, l)
  | .reserve _ => (.done, l)

/-- An operation that leaves distinct keys, and not too many. -/
def Entries.Admits (l : List (K × V)) : Operation K V → Prop
  | .sort _ => l.length < 2 ^ 32
  | .reIndex keys => keys.length = l.length ∧ Distinct ctx (reIndex l keys)
  | op => (step ctx l op).2.length ≤ 2 ^ 32

end Step

/-! ## One operation -/

namespace Holds

variable {ctx : Context K} {H : HashTable τ} {map : ArrayHashMap K V τ} {l : List (K × V)}

theorem lt_of_append {e : K × V} (h : (l ++ [e]).length ≤ 2 ^ 32) : l.length < 2 ^ 32 := by
  rw [length_append] at h
  exact h

section

variable (h : Holds ctx H map l)
include h

variable (key : K)

variable (value : V)

theorem put (hlen : (Entries.put ctx l key value).length ≤ 2 ^ 32) :
    Holds ctx H (map.put ctx H key value) (Entries.put ctx l key value) := by
  rw [ArrayHashMap.put, h.getIndex_eq]
  rw [Entries.put] at hlen ⊢
  cases hfind : Entries.find ctx l key with
  | some i => exact h.setValue i value
  | none =>
    rw [hfind] at hlen
    exact (h.pushEntry value hfind (lt_of_append hlen)).2

theorem putAssumeCapacityContext
    (hlen : (Entries.replace ctx l key value).length ≤ 2 ^ 32) :
    Holds ctx H (map.putAssumeCapacityContext ctx H key value)
      (Entries.replace ctx l key value) := by
  have hindex : map.getIndex ctx H key = Entries.find ctx l key := h.getIndex_eq
  rw [ArrayHashMap.getIndex] at hindex
  rw [ArrayHashMap.putAssumeCapacityContext, hindex]
  rw [Entries.replace] at hlen ⊢
  cases hfind : Entries.find ctx l key with
  | some i =>
    obtain ⟨e, he, heql⟩ := (Entries.find_eq_some_iff h.distinct).1 hfind
    exact h.setEntry he heql
  | none =>
    rw [hfind] at hlen
    exact (h.pushEntry value hfind (lt_of_append hlen)).2

theorem insert (hlen : (Entries.put ctx l key value).length ≤ 2 ^ 32) :
    (map.insert ctx H key value).1 = Entries.get ctx l key ∧
      Holds ctx H (map.insert ctx H key value).2 (Entries.put ctx l key value) := by
  rw [ArrayHashMap.insert, h.getIndex_eq]
  rw [Entries.put] at hlen ⊢
  rw [Entries.get]
  cases hfind : Entries.find ctx l key with
  | some i => exact ⟨by dsimp only; rw [h.values_eq, getElem?_map]; rfl, h.setValue i value⟩
  | none =>
    rw [hfind] at hlen
    exact ⟨rfl, (h.pushEntry value hfind (lt_of_append hlen)).2⟩

section

variable (hlen : (Entries.getOrPut ctx l key value).2.length ≤ 2 ^ 32)
include hlen

theorem getOrPut :
    (map.getOrPut ctx H value key).1 = (Entries.getOrPut ctx l key value).1 ∧
      Holds ctx H (map.getOrPut ctx H value key).2 (Entries.getOrPut ctx l key value).2 := by
  rw [ArrayHashMap.getOrPut, h.getIndex_eq]
  rw [Entries.getOrPut] at hlen ⊢
  cases hfind : Entries.find ctx l key with
  | some i => exact ⟨rfl, h⟩
  | none =>
    rw [hfind] at hlen
    obtain ⟨hi, hholds⟩ := h.pushEntry value hfind (lt_of_append hlen)
    exact ⟨by rw [← hi], hholds⟩

theorem entryOrInsert :
    (map.entryOrInsert ctx H key value).1 = ((Entries.getOrPut ctx l key value).1.2,
      (Entries.getOrPut ctx l key value).2[(Entries.getOrPut ctx l key value).1.2]?.map Prod.snd) ∧
      Holds ctx H (map.entryOrInsert ctx H key value).2 (Entries.getOrPut ctx l key value).2 := by
  rw [ArrayHashMap.entryOrInsert, h.getIndex_eq]
  rw [Entries.getOrPut] at hlen ⊢
  cases hfind : Entries.find ctx l key with
  | some i => exact ⟨by dsimp only; rw [h.values_eq, getElem?_map], h⟩
  | none =>
    rw [hfind] at hlen
    obtain ⟨hi, hholds⟩ := h.pushEntry value hfind (lt_of_append hlen)
    refine ⟨?_, hholds⟩
    dsimp only
    rw [hi, hholds.values_eq, getElem?_map]

end

theorem editValue (edit : V → V) :
    (map.editValue ctx H key edit).1 = (Entries.editValue ctx l key edit).1 ∧
      Holds ctx H (map.editValue ctx H key edit).2 (Entries.editValue ctx l key edit).2 := by
  rw [ArrayHashMap.editValue, Entries.editValue, h.getIndex_eq]
  cases Entries.find ctx l key with
  | some i => exact ⟨rfl, h.modify i edit⟩
  | none => exact ⟨rfl, h⟩

theorem swapRemoveKey :
    (map.swapRemoveKey ctx H key).1 = (Entries.swapRemove ctx l key).1 ∧
      Holds ctx H (map.swapRemoveKey ctx H key).2 (Entries.swapRemove ctx l key).2 := by
  rw [ArrayHashMap.swapRemoveKey, Entries.swapRemove, h.getIndex_eq]
  cases hfind : Entries.find ctx l key with
  | some i =>
    obtain ⟨e, he, -⟩ := (Entries.find_eq_some_iff h.distinct).1 hfind
    exact ⟨rfl, h.swapRemoveAt (List.getElem?_eq_some_iff.1 he).1⟩
  | none => exact ⟨rfl, h⟩

omit h in
theorem empty (ctx : Context K) (H : HashTable τ) : Holds ctx H ({} : ArrayHashMap K V τ) [] :=
  ⟨rfl, by simp, List.Pairwise.nil, zero_le _⟩

/-- The map and the list give the same answer, and agree again. -/
theorem step {op : Operation K V} (hop : Entries.Admits ctx l op) :
    ∃ map', map.step ctx H op = some ((Entries.step ctx l op).1, map') ∧
      Holds ctx H map' (Entries.step ctx l op).2 := by
  cases op with
  | put key value => exact ⟨_, rfl, h.put key value hop⟩
  | putAssumeCapacityContext key value => exact ⟨_, rfl, h.putAssumeCapacityContext key value hop⟩
  | insert key value =>
    obtain ⟨hanswer, hholds⟩ := h.insert key value hop
    exact ⟨_, by rw [ArrayHashMap.step, hanswer]; rfl, hholds⟩
  | getOrPut key value =>
    obtain ⟨hanswer, hholds⟩ := h.getOrPut key value hop
    exact ⟨_, by dsimp only [ArrayHashMap.step]; rw [hanswer]; rfl, hholds⟩
  | entry key value =>
    obtain ⟨hanswer, hholds⟩ := h.entryOrInsert key value hop
    exact ⟨_, by dsimp only [ArrayHashMap.step]; rw [hanswer]; rfl, hholds⟩
  | editValue key edit =>
    obtain ⟨hanswer, hholds⟩ := h.editValue key edit
    exact ⟨_, by rw [ArrayHashMap.step, hanswer]; rfl, hholds⟩
  | swapRemove key =>
    obtain ⟨hanswer, hholds⟩ := h.swapRemoveKey key
    exact ⟨_, by rw [ArrayHashMap.step, hanswer]; rfl, hholds⟩
  | remove key =>
    obtain ⟨hanswer, hholds⟩ := h.remove key
    exact ⟨_, by rw [ArrayHashMap.step, hanswer]; rfl, hholds⟩
  | pop =>
    obtain ⟨hanswer, hholds⟩ := h.pop
    exact ⟨_, by rw [ArrayHashMap.step, hanswer]; rfl, hholds⟩
  | retain keep => exact ⟨_, rfl, h.retain keep⟩
  | sort lessThan =>
    obtain ⟨map', hsort, hholds⟩ := h.sort hop lessThan
    exact ⟨map', by rw [ArrayHashMap.step, hsort]; rfl, hholds⟩
  | shrinkAndFree newLen => exact ⟨_, rfl, h.shrinkAndFree newLen⟩
  | reIndex keys => exact ⟨_, rfl, h.reIndex hop.1 hop.2⟩
  | clear => exact ⟨_, rfl, empty ctx H⟩
  | clone => exact ⟨_, rfl, h⟩
  | reserve capacity => exact ⟨_, rfl, h.reserve capacity⟩

end

end Holds

/-! ## Runs -/

section Run

variable (ctx : Context K) (H : HashTable τ)

def ArrayHashMap.run (map : ArrayHashMap K V τ) :
    List (Operation K V) → Option (List (Answer K V) × ArrayHashMap K V τ)
  | [] => some ([], map)
  | op :: ops =>
    (map.step ctx H op).bind fun r => (run r.2 ops).map fun r' => (r.1 :: r'.1, r'.2)

def Entries.run (l : List (K × V)) : List (Operation K V) → List (Answer K V) × List (K × V)
  | [] => ([], l)
  | op :: ops =>
    let r := run (step ctx l op).2 ops
    ((step ctx l op).1 :: r.1, r.2)

/-- Every operation of a run is admitted where it is done. -/
def Entries.AdmitsAll (l : List (K × V)) : List (Operation K V) → Prop
  | [] => True
  | op :: ops => Admits ctx l op ∧ AdmitsAll (step ctx l op).2 ops

/-- A map and a list are the same for who uses the map, and its table has places of entries only. -/
structure Agrees (map : ArrayHashMap K V τ) (l : List (K × V)) : Prop where
  keys : map.keys = l.map Prod.fst
  values : map.values = l.map Prod.snd
  getIndex : ∀ key, map.getIndex ctx H key = Entries.find ctx l key
  contains : ∀ key, map.contains ctx H key = (Entries.find ctx l key).isSome
  get : ∀ key, map.get ctx H key = Entries.get ctx l key
  distinct : Entries.Distinct ctx l
  places : ∀ t ∈ map.index, ∀ e ∈ H.entries t, e.2 < map.keys.length ∧ e.2 < map.hashes.length

variable {ctx H} {map : ArrayHashMap K V τ} {l : List (K × V)}

theorem Holds.agrees (h : Holds ctx H map l) : Agrees ctx H map l where
  keys := h.keys_eq
  values := h.values_eq
  getIndex _ := h.getIndex_eq
  contains _ := h.contains_eq
  get _ := h.get_eq
  distinct := h.distinct
  places t ht e he := by
    rw [h.length_keys, h.length_hashes]
    exact ⟨h.lt_of_mem ht he, h.lt_of_mem ht he⟩

theorem Holds.run : ∀ {ops : List (Operation K V)} {map : ArrayHashMap K V τ} {l : List (K × V)},
    Holds ctx H map l → Entries.AdmitsAll ctx l ops →
    ∃ map', map.run ctx H ops = some ((Entries.run ctx l ops).1, map') ∧
      Holds ctx H map' (Entries.run ctx l ops).2
  | [], map, _, h, _ => ⟨map, rfl, h⟩
  | op :: ops, map, l, h, hops => by
    obtain ⟨map', hstep, h'⟩ := h.step hops.1
    obtain ⟨map'', hrun, h''⟩ := h'.run hops.2
    refine ⟨map'', ?_, h''⟩
    rw [ArrayHashMap.run, hstep, Option.bind_some, hrun]
    rfl

/-- The map answers and has what the list does. -/
theorem run_eq {ops : List (Operation K V)} (hops : Entries.AdmitsAll ctx [] ops) :
    ∃ map, ({} : ArrayHashMap K V τ).run ctx H ops = some ((Entries.run ctx [] ops).1, map) ∧
      Agrees ctx H map (Entries.run ctx [] ops).2 := by
  obtain ⟨map, hrun, h⟩ := (Holds.empty ctx H).run hops
  exact ⟨map, hrun, h.agrees⟩

end Run

/-! ## Numbers with one hash -/

/-- All numbers have the same hash. -/
def oneHash : Context ℕ where
  hash _ := 0
  eql a b := a == b
  refl := by simp
  symm := by simp
  trans := by simp
  hash_eq _ _ _ := rfl

/-- Ten entries, of which two are removed. -/
theorem run_eq_removed : ∃ map : ArrayHashMap ℕ ℕ (List (UInt64 × ℕ)),
    ({} : ArrayHashMap ℕ ℕ (List (UInt64 × ℕ))).run oneHash listTable
      ((List.range 10).map (fun k => Operation.put k (2 * k)) ++
        [Operation.swapRemove 3, Operation.remove 9]) =
        some (replicate 10 Answer.done ++ [Answer.flag true, Answer.value (some 18)], map) ∧
      Agrees oneHash listTable map
        [(0, 0), (1, 2), (2, 4), (4, 8), (5, 10), (6, 12), (7, 14), (8, 16)] :=
  have hops : Entries.AdmitsAll oneHash []
      ((List.range 10).map (fun k => Operation.put k (2 * k)) ++
        [Operation.swapRemove 3, Operation.remove 9]) := by
    refine ⟨?_, ?_, ?_, ?_, ?_, ?_, ?_, ?_, ?_, ?_, ?_, ?_, trivial⟩ <;>
      exact Nat.le_of_ble_eq_true rfl
  run_eq hops

/-- The numbers below `n` are put, in order. -/
def puts (n : ℕ) : List (Operation ℕ Unit) := (range n).map fun k => .put k ()

section Overflow

variable {ctx : Context K} {H : HashTable τ} {op : Operation K V}

theorem puts_succ (n : ℕ) : puts (n + 1) = puts n ++ [Operation.put n ()] := by
  rw [puts, range_succ, map_append]
  rfl

theorem Entries.run_concat : ∀ (ops : List (Operation K V)) (l : List (K × V)),
    run ctx l (ops ++ [op]) = ((run ctx l ops).1 ++ [(step ctx (run ctx l ops).2 op).1],
      (step ctx (run ctx l ops).2 op).2)
  | [], _ => rfl
  | op' :: ops, l => by
    rw [cons_append, run, run_concat ops]
    rfl

theorem ArrayHashMap.run_concat : ∀ (ops : List (Operation K V)) (map : ArrayHashMap K V τ),
    map.run ctx H (ops ++ [op]) = (map.run ctx H ops).bind fun r =>
      (r.2.step ctx H op).map fun r' => (r.1 ++ [r'.1], r'.2)
  | [], map => by
    rw [nil_append, run, run, Option.bind_some]
    cases map.step ctx H op <;> rfl
  | op' :: ops, map => by
    rw [cons_append, run, run]
    cases map.step ctx H op' with
    | none => rfl
    | some r =>
      rw [Option.bind_some, Option.bind_some, run_concat ops]
      cases r.2.run ctx H ops with
      | none => rfl
      | some r' =>
        rw [Option.bind_some, Option.map_some, Option.bind_some, Option.map_map]
        rfl

theorem find_range (n : ℕ) :
    Entries.find oneHash ((range n).map fun k => (k, ())) n = none := by
  refine Entries.find_eq_none_iff.2 fun i e he => ?_
  obtain ⟨k, hk, rfl⟩ := mem_map.1 (mem_of_getElem? he)
  have := mem_range.1 hk
  simp [oneHash]
  omega

/-- As long as places fit, every number has its place. -/
theorem puts_holds : ∀ n ≤ 2 ^ 32, ∃ map : ArrayHashMap ℕ Unit (List (UInt64 × ℕ)),
    ({} : ArrayHashMap ℕ Unit (List (UInt64 × ℕ))).run oneHash listTable (puts n) =
      some ((Entries.run oneHash [] (puts n)).1, map) ∧
    (Entries.run oneHash [] (puts n)).2 = (List.range n).map (fun k => (k, ())) ∧
    Holds oneHash listTable map ((List.range n).map fun k => (k, ())) ∧
    (indexThreshold < n → map.index.isSome = true)
  | 0, _ => ⟨{}, rfl, rfl, Holds.empty _ _, fun h => absurd h (Nat.not_lt_zero _)⟩
  | n + 1, hn => by
    obtain ⟨map, hrun, hlist, h, hindex⟩ := puts_holds n (Nat.le_of_succ_le hn)
    have hlen : ((List.range n).map fun k => (k, ())).length = n := by simp
    obtain ⟨-, hpush⟩ := h.pushEntry () (find_range n) (by rw [hlen]; exact hn)
    have hput : map.put oneHash listTable n () = (map.pushEntry listTable n () 0).2 := by
      rw [ArrayHashMap.put, h.getIndex_eq, find_range]
      rfl
    have hrange : (List.range (n + 1)).map (fun k => (k, ())) =
        (List.range n).map (fun k => (k, ())) ++ [(n, ())] := by
      rw [range_succ, map_append]
      rfl
    refine ⟨map.put oneHash listTable n (), ?_, ?_, ?_, fun hlt => ?_⟩
    · rw [puts_succ, ArrayHashMap.run_concat, hrun, Entries.run_concat]
      rfl
    · rw [puts_succ, Entries.run_concat, hlist, hrange]
      show Entries.put _ _ _ _ = _
      rw [Entries.put, find_range]
    · rw [hput, hrange]
      exact hpush
    · rw [hput, ArrayHashMap.pushEntry, h.length_keys, hlen]
      cases map.index with
      | some t => rfl
      | none =>
        rw [if_pos (Nat.le_of_lt_succ hlt)]
        rfl

/-- The place of the number that comes after `2 ^ 32` others is stored as `0`. -/
theorem getIndex_put_overflow {n : ℕ} (hn : n = 2 ^ 32)
    {map : ArrayHashMap ℕ Unit (List (UInt64 × ℕ))}
    (h : Holds oneHash listTable map ((range n).map fun k => (k, ())))
    (hindex : map.index.isSome = true) :
    (map.put oneHash listTable n ()).getIndex oneHash listTable n = none := by
  obtain ⟨t, ht⟩ := Option.isSome_iff_exists.1 hindex
  have hlen : ((range n).map fun k => (k, ())).length = n := by simp
  have hpos : 0 < n := by omega
  have hplaces : ∀ e ∈ listTable.entries t, e.2 < n := fun e he => hlen ▸ h.lt_of_mem ht he
  have hhashes : map.hashes ++ [0] = replicate (n + 1) 0 := by
    rw [h.hashes_eq, replicate_succ', map_map]
    simp [oneHash, Function.comp_def]
  have hrehash : ∀ i < n + 1, indexRehasher (map.hashes ++ [0]) i = spreadHash 0 := by
    intro i hi
    refine indexRehasher_eq ?_
    rw [placed, hhashes, getElem?_replicate, if_pos hi]
    rfl
  have hplaced : asU32 n < n := by
    rw [asU32, hn, mod_self]
    omega
  have hentries := listTable.entries_insertUnique t (spreadHash 0) (asU32 n)
    (indexRehasher (map.hashes ++ [0])) fun e he => by
      rcases Multiset.mem_cons.1 he with rfl | he
      · exact hrehash _ (hplaced.trans (lt_succ_self n))
      · have hi := ((h.index t ht).mem_iff e.1 e.2).1 he
        exact indexRehasher_eq (placed_extend (prefix_append _ _) hi)
  have hput : map.put oneHash listTable n () = (map.pushEntry listTable n () 0).2 := by
    rw [ArrayHashMap.put, h.getIndex_eq, find_range]
    rfl
  rw [hput, ArrayHashMap.pushEntry, ht, ArrayHashMap.getIndex, ArrayHashMap.findHash]
  dsimp only
  rw [h.length_keys, hlen]
  cases hfind : listTable.find _ _ _ with
  | none => rfl
  | some i =>
    obtain ⟨hfits, h', hmem⟩ := listTable.find_some _ _ _ _ hfind
    -- the table has places below `n` only, and none of their keys is `n`
    have hi : i < n := by
      rw [hentries] at hmem
      rcases Multiset.mem_cons.1 hmem with he | he
      · rw [(Prod.mk.inj he).2]
        exact hplaced
      · exact hplaces _ he
    have hkey : (map.keys ++ [n])[i]? = some i := by
      rw [getElem?_append_left (by rw [h.length_keys, hlen]; exact hi), h.keys_eq, map_map,
        getElem?_map, getElem?_range hi]
      rfl
    rw [hkey, Bool.and_eq_true, Option.any_some] at hfits
    have heq : n = i := eq_of_beq hfits.2
    omega

/-- The number that comes after `2 ^ 32` others is put, and is not found. -/
theorem getIndex_overflow : ∃ map : ArrayHashMap ℕ Unit (List (UInt64 × ℕ)),
    ({} : ArrayHashMap ℕ Unit (List (UInt64 × ℕ))).run oneHash listTable (puts (2 ^ 32 + 1)) =
      some ((Entries.run oneHash [] (puts (2 ^ 32 + 1))).1, map) ∧
    map.getIndex oneHash listTable (2 ^ 32) = none ∧
    Entries.find oneHash (Entries.run oneHash [] (puts (2 ^ 32 + 1))).2 (2 ^ 32) =
      some (2 ^ 32) := by
  obtain ⟨n, hn⟩ : ∃ n, n = 2 ^ 32 := ⟨_, rfl⟩
  rw [← hn]
  obtain ⟨map, hrun, hlist, h, hindex⟩ := puts_holds n (Nat.le_of_eq hn)
  refine ⟨map.put oneHash listTable n (), ?_, ?_, ?_⟩
  · rw [puts_succ, ArrayHashMap.run_concat, hrun, Entries.run_concat]
    rfl
  · exact getIndex_put_overflow hn h (hindex (by rw [indexThreshold]; omega))
  · rw [puts_succ, Entries.run_concat, hlist]
    show Entries.find oneHash (Entries.put _ _ _ _) n = _
    rw [Entries.put, find_range]
    refine (Entries.find_eq_some_iff (Holds.distinct_append () h.distinct (find_range n))).2 ?_
    refine ⟨(n, ()), ?_, beq_self_eq_true n⟩
    rw [getElem?_append_right (by simp)]
    simp

end Overflow

end Soup.Collections
