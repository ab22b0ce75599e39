import Mathlib.Data.List.Induction
import Soup.Collections.ArrayHashMap

/-!
# The map as an association list

The map as a list of entries whose keys differ: what the operations of `ArrayHashMap` are for.
-/

namespace Soup.Collections

open List Option Function ArrayHashMap

variable {K V : Type}

namespace Entries

section Operations

variable (ctx : Context K) (l : List (K × V))

/-- Keys differ. -/
def Distinct : Prop := l.Pairwise fun e e' => ctx.eql e.1 e'.1 = false

/-- The place of a key. -/
def find (key : K) : Option ℕ := l.findIdx? fun e => ctx.eql key e.1

def get (key : K) : Option V := (find ctx l key).bind fun i => (l[i]?).map Prod.snd

def put (key : K) (value : V) : List (K × V) :=
  match find ctx l key with
  | some i => l.modify i fun e => (e.1, value)
  | none => l ++ [(key, value)]

/-- `put` that replaces the key too. -/
def replace (key : K) (value : V) : List (K × V) :=
  match find ctx l key with
  | some i => l.set i (key, value)
  | none => l ++ [(key, value)]

/-- The entries with a value for a key that is not there yet, and the place of the key. -/
def getOrPut (key : K) (value : V) : (Bool × ℕ) × List (K × V) :=
  match find ctx l key with
  | some i => ((true, i), l)
  | none => ((false, l.length), l ++ [(key, value)])

/-- The last entry takes the place of the one with the key. -/
def swapRemove (key : K) : Bool × List (K × V) :=
  match find ctx l key with
  | some i => (true, Collections.swapRemove l i)
  | none => (false, l)

def remove (key : K) : Option V × List (K × V) :=
  match find ctx l key with
  | some i => ((l[i]?).map Prod.snd, l.eraseIdx i)
  | none => (none, l)

/-- The entries that `keep` keeps, with the values it leaves; it is told how often it was called. -/
def retain (keep : ℕ → K → V → Bool × V) : List (K × V) :=
  l.zipIdx.filterMap fun (e, i) =>
    if (keep i e.1 e.2).1 then some (e.1, (keep i e.1 e.2).2) else none

def editValue (key : K) (edit : V → V) : Bool × List (K × V) :=
  match find ctx l key with
  | some i => (true, l.modify i fun e => (e.1, edit e.2))
  | none => (false, l)

/-- The entries in the order that their places are sorted in. -/
def sort (lessThan : List K → List V → ℕ → ℕ → Bool) : List (K × V) :=
  ((List.range l.length).mergeSort fun a b =>
    !lessThan (l.map Prod.fst) (l.map Prod.snd) b a).filterMap (l[·]?)

/-- Other keys, in the same order. -/
def reIndex (keys : List K) : List (K × V) := keys.zip (l.map Prod.snd)

end Operations

/-! ## Places of keys -/

variable {ctx : Context K} {l : List (K × V)} {key : K} {i : ℕ}

theorem eql_comm (a b : K) : ctx.eql a b = ctx.eql b a := by
  rw [Bool.eq_iff_iff]
  exact ⟨ctx.symm a b, ctx.symm b a⟩

theorem Distinct.eq_of_eql (h : Distinct ctx l) {j : ℕ} {e e' : K × V} (hi : l[i]? = some e)
    (hj : l[j]? = some e') (heql : ctx.eql e.1 e'.1 = true) : i = j := by
  obtain ⟨hil, rfl⟩ := List.getElem?_eq_some_iff.1 hi
  obtain ⟨hjl, rfl⟩ := List.getElem?_eq_some_iff.1 hj
  have hpair := pairwise_iff_getElem.1 h
  rcases lt_trichotomy i j with hlt | heq | hlt
  · rw [hpair i j hil hjl hlt] at heql
    cases heql
  · exact heq
  · rw [eql_comm, hpair j i hjl hil hlt] at heql
    cases heql

theorem find_eq_some_iff (h : Distinct ctx l) :
    find ctx l key = some i ↔ ∃ e, l[i]? = some e ∧ ctx.eql key e.1 = true := by
  rw [find, findIdx?_eq_some_iff_getElem]
  constructor
  · rintro ⟨hi, heql, -⟩
    exact ⟨l[i], getElem?_eq_getElem hi, heql⟩
  · rintro ⟨e, he, heql⟩
    obtain ⟨hi, rfl⟩ := List.getElem?_eq_some_iff.1 he
    refine ⟨hi, heql, fun j hj hjeql => ?_⟩
    have hjl := hj.trans hi
    have := h.eq_of_eql (getElem?_eq_getElem hjl) he
      (ctx.trans _ _ _ (ctx.symm _ _ hjeql) heql)
    omega

theorem find_eq_none_iff :
    find ctx l key = none ↔ ∀ (i : ℕ) (e : K × V), l[i]? = some e → ctx.eql key e.1 = false := by
  rw [find, findIdx?_eq_none_iff]
  constructor
  · intro h i e he
    exact h e (mem_of_getElem? he)
  · intro h e he
    obtain ⟨i, hi⟩ := getElem?_of_mem he
    exact h i e hi

end Entries

/-!
## The map is a list of entries

The columns of a map are those of a list of entries whose keys differ, and its table, if it has one,
has the hash of every place (`Holds`). A lookup then finds the place of the key, in the table as in
the columns (`Holds.getIndex_eq`), and a table built from the columns is such a table
(`indexes_rebuildIndexFromHashes`). A place is stored as a `u32`, so that all of this is for at most
`2 ^ 32` entries.
-/

open Soup.Lib

variable {K V τ : Type} {ctx : Context K} {H : HashTable τ}

/-- The columns of entries. -/
def ofEntries (ctx : Context K) (l : List (K × V)) (index : Option τ) : ArrayHashMap K V τ where
  keys := l.map Prod.fst
  values := l.map Prod.snd
  hashes := l.map fun e => ctx.hash e.1
  index := index

/-- The hash that the table has for a place. -/
def placed (hashes : List UInt32) (i : ℕ) : Option UInt64 := hashes[i]?.map spreadHash

/-- A map with some entries. -/
structure Holds (ctx : Context K) (H : HashTable τ) (map : ArrayHashMap K V τ) (l : List (K × V)) :
    Prop where
  columns : map = ofEntries ctx l map.index
  index : ∀ t ∈ map.index, H.Indexes t (placed map.hashes)
  distinct : Entries.Distinct ctx l
  length : l.length ≤ 2 ^ 32

theorem asU32_eq {i : ℕ} (h : i < 2 ^ 32) : asU32 i = i := Nat.mod_eq_of_lt h

/-! ### Tables of a column -/

section Column

variable {hashes : List UInt32} {h : UInt32} {i : ℕ} {t : τ}

theorem placed_length : placed hashes hashes.length = none := by
  rw [placed, getElem?_eq_none le_rfl]
  rfl

theorem placed_append : placed (hashes ++ [h]) =
    update (placed hashes) hashes.length (some (spreadHash h)) := by
  funext i
  rw [update_apply, placed, placed]
  grind

/-- The column gives back what the table has for a place. -/
theorem indexRehasher_eq {h : UInt64} (hi : placed hashes i = some h) :
    indexRehasher hashes i = h := by
  obtain ⟨h', hi', rfl⟩ := map_eq_some_iff.1 hi
  rw [indexRehasher, getD_eq_getElem?_getD, hi']
  rfl

theorem placed_extend {hashes' : List UInt32} (hp : hashes <+: hashes') {h : UInt64}
    (hi : placed hashes i = some h) : placed hashes' i = some h := by
  obtain ⟨h', hi', rfl⟩ := map_eq_some_iff.1 hi
  obtain ⟨rest, rfl⟩ := hp
  have hlt : i < hashes.length := (List.getElem?_eq_some_iff.1 hi').1
  rw [placed, getElem?_append_left hlt, hi']
  rfl

/-- A table gets the place after the column. -/
theorem indexes_insertUnique (ht : H.Indexes t (placed hashes)) {column : List UInt32}
    (hp : hashes ++ [h] <+: column) (hlen : hashes.length < 2 ^ 32) :
    H.Indexes (H.insertUnique t (spreadHash h) (asU32 hashes.length) (indexRehasher column))
      (placed (hashes ++ [h])) := by
  rw [asU32_eq hlen, placed_append]
  refine ht.insertUnique placed_length (indexRehasher_eq (placed_extend hp ?_)) fun j h' hj => ?_
  · rw [placed_append, update_self]
  · exact indexRehasher_eq (placed_extend ((prefix_append _ _).trans hp) hj)

theorem indexes_rebuildIndexFromHashes (column : List UInt32) (hlen : column.length ≤ 2 ^ 32) :
    H.Indexes (rebuildIndexFromHashes H column) (placed column) := by
  have hpart : ∀ hashes, hashes <+: column → H.Indexes
      (hashes.zipIdx.foldl (fun table e =>
        H.insertUnique table (spreadHash e.1) (asU32 e.2) (indexRehasher column))
        (H.withCapacity column.length)) (placed hashes) := by
    intro hashes
    induction hashes using reverseRecOn with
    | nil =>
      intro _
      have hnone : placed [] = fun _ => none := funext fun _ => rfl
      rw [hnone]
      exact HashTable.Indexes.withCapacity _
    | append_singleton hashes h ih =>
      intro hp
      rw [zipIdx_append, foldl_append, zipIdx_singleton, foldl_cons, foldl_nil, zero_add]
      refine indexes_insertUnique (ih ((prefix_append _ _).trans hp)) hp ?_
      have := hp.length_le
      rw [length_append, length_singleton] at this
      omega
  exact hpart column (prefix_refl _)

end Column

/-! ### Lookups -/

namespace Holds

variable {map : ArrayHashMap K V τ} {l : List (K × V)} {key : K} {value : V} {i : ℕ}

section

variable (h : Holds ctx H map l)
include h

theorem hashes_eq : map.hashes = l.map fun e => ctx.hash e.1 :=
  congrArg hashes h.columns

theorem keys_eq : map.keys = l.map Prod.fst :=
  congrArg ArrayHashMap.keys h.columns

theorem values_eq : map.values = l.map Prod.snd :=
  congrArg values h.columns

theorem length_hashes : map.hashes.length = l.length := by
  rw [h.hashes_eq, length_map]

theorem length_keys : map.keys.length = l.length := by
  rw [h.keys_eq, length_map]

/-- What a lookup asks of a place. -/
theorem fits_iff :
    (map.hashes[i]? == some (ctx.hash key) && map.keys[i]?.any (ctx.eql key)) = true ↔
      ∃ e, l[i]? = some e ∧ ctx.eql key e.1 = true := by
  rw [h.hashes_eq, h.keys_eq, getElem?_map, getElem?_map]
  cases l[i]? with
  | none => simp
  | some e =>
    simp only [map_some, any_some, Bool.and_eq_true, beq_iff_eq, some.injEq]
    constructor
    · rintro ⟨-, heql⟩
      exact ⟨e, rfl, heql⟩
    · rintro ⟨_, rfl, heql⟩
      exact ⟨(ctx.hash_eq _ _ heql).symm, heql⟩

/-- The places of the table are places of entries. -/
theorem lt_of_mem {t : τ} (ht : t ∈ map.index) {e : UInt64 × ℕ}
    (he : e ∈ H.entries t) : e.2 < l.length := by
  have hplaced := ((h.index t ht).mem_iff e.1 e.2).1 he
  obtain ⟨h', hi, -⟩ := map_eq_some_iff.1 hplaced
  rw [← h.length_hashes]
  exact (List.getElem?_eq_some_iff.1 hi).1

theorem scan_eq : (map.hashes.zipIdx.findIdx? fun e =>
      e.1 == ctx.hash key && map.keys[e.2]?.any (ctx.eql key)) = Entries.find ctx l key := by
  have hfits : ∀ i (hi : i < map.hashes.length),
      ((map.hashes[i] == ctx.hash key && map.keys[i]?.any (ctx.eql key)) = true ↔
        ∃ e, l[i]? = some e ∧ ctx.eql key e.1 = true) := by
    intro i hi
    rw [← h.fits_iff, getElem?_eq_getElem hi, some_beq_some]
  have hlen : map.hashes.zipIdx.length = map.hashes.length := length_zipIdx
  cases hfind : Entries.find ctx l key with
  | some i =>
    obtain ⟨e, he, heql⟩ := (Entries.find_eq_some_iff h.distinct).1 hfind
    have hi : i < map.hashes.length := by
      rw [h.length_hashes]
      exact (List.getElem?_eq_some_iff.1 he).1
    rw [findIdx?_eq_some_iff_getElem]
    refine ⟨hlen.symm ▸ hi, ?_, fun j hj => ?_⟩
    · rw [getElem_zipIdx]
      simp only [zero_add]
      exact (hfits i hi).2 ⟨e, he, heql⟩
    · rw [getElem_zipIdx]
      simp only [zero_add]
      rw [hfits j (hj.trans hi)]
      rintro ⟨e', he', heql'⟩
      have := h.distinct.eq_of_eql he' he (ctx.trans _ _ _ (ctx.symm _ _ heql') heql)
      omega
  | none =>
    rw [findIdx?_eq_none_iff]
    rintro ⟨hash, i⟩ hmem
    have hget : map.hashes[i]? = some hash := mem_zipIdx_iff_getElem?.1 hmem
    obtain ⟨hi, rfl⟩ := List.getElem?_eq_some_iff.1 hget
    rw [← Bool.not_eq_true]
    refine mt (hfits i hi).1 ?_
    rintro ⟨e, he, heql⟩
    rw [Entries.find_eq_none_iff.1 hfind i e he] at heql
    cases heql

theorem getIndex_eq : map.getIndex ctx H key = Entries.find ctx l key := by
  rw [getIndex, findHash]
  cases hindex : map.index with
  | none => exact h.scan_eq
  | some t =>
    simp only []
    have ht := h.index t hindex
    cases hfind : Entries.find ctx l key with
    | some i =>
      obtain ⟨e, he, heql⟩ := (Entries.find_eq_some_iff h.distinct).1 hfind
      refine H.find_eq ?_ (h.fits_iff.2 ⟨e, he, heql⟩) fun e' _ hfits => ?_
      · rw [ht.mem_iff, placed, h.hashes_eq, getElem?_map, he, ctx.hash_eq _ _ heql]
        rfl
      · obtain ⟨e'', he'', heql''⟩ := h.fits_iff.1 hfits
        exact h.distinct.eq_of_eql he'' he (ctx.trans _ _ _ (ctx.symm _ _ heql'') heql)
    | none =>
      cases ht : H.find t (spreadHash (ctx.hash key)) _ with
      | none => rfl
      | some j =>
        obtain ⟨e, he, heql⟩ := h.fits_iff.1 (H.find_some _ _ _ _ ht).1
        rw [Entries.find_eq_none_iff.1 hfind j e he] at heql
        cases heql

theorem contains_eq : map.contains ctx H key = (Entries.find ctx l key).isSome := by
  rw [ArrayHashMap.contains, h.getIndex_eq]

theorem get_eq : map.get ctx H key = Entries.get ctx l key := by
  rw [ArrayHashMap.get, Entries.get, h.getIndex_eq]
  cases Entries.find ctx l key with
  | none => rfl
  | some i => rw [bind_some, bind_some, h.values_eq, getElem?_map]

end

/-! ### Insertion -/

theorem rebuildIndex (index : Option τ) (hd : Entries.Distinct ctx l) (hlen : l.length ≤ 2 ^ 32) :
    Holds ctx H ((ofEntries ctx l index).rebuildIndex H) l := by
  refine ⟨rfl, fun t ht => ?_, hd, hlen⟩
  rw [← some.inj ht]
  exact indexes_rebuildIndexFromHashes _ (by rw [ofEntries, length_map]; exact hlen)

theorem dropIndex (hd : Entries.Distinct ctx l) (hlen : l.length ≤ 2 ^ 32) :
    Holds ctx H (ofEntries ctx l none) l :=
  ⟨rfl, by simp [ofEntries], hd, hlen⟩

/-- A table that is built again or left out. -/
theorem ofEntries_ite (index : Option τ) (hd : Entries.Distinct ctx l) (hlen : l.length ≤ 2 ^ 32)
    (c : Prop) [Decidable c] :
    Holds ctx H (if c then (ofEntries ctx l index).rebuildIndex H else ofEntries ctx l none) l := by
  split
  · exact rebuildIndex index hd hlen
  · exact dropIndex hd hlen

variable (value) in
theorem distinct_append (hd : Entries.Distinct ctx l) (hfind : Entries.find ctx l key = none) :
    Entries.Distinct ctx (l ++ [(key, value)]) := by
  refine pairwise_append.2 ⟨hd, pairwise_singleton _ _, fun e he e' he' => ?_⟩
  rw [mem_singleton.1 he', Entries.eql_comm]
  obtain ⟨i, hi⟩ := getElem?_of_mem he
  exact Entries.find_eq_none_iff.1 hfind i e hi

variable (value) in
theorem pushEntry (h : Holds ctx H map l) (hfind : Entries.find ctx l key = none)
    (hlen : l.length < 2 ^ 32) : (map.pushEntry H key value (ctx.hash key)).1 = l.length ∧
      Holds ctx H (map.pushEntry H key value (ctx.hash key)).2 (l ++ [(key, value)]) := by
  have hd := distinct_append value h.distinct hfind
  have hlen' : (l ++ [(key, value)]).length ≤ 2 ^ 32 := by
    rw [length_append]
    exact hlen
  have hcols : ∀ index : Option τ,
      (⟨map.keys ++ [key], map.values ++ [value], map.hashes ++ [ctx.hash key], index⟩ :
        ArrayHashMap K V τ) = ofEntries ctx (l ++ [(key, value)]) index := by
    intro index
    rw [h.keys_eq, h.values_eq, h.hashes_eq, ofEntries, map_append, map_append, map_append]
    rfl
  rw [ArrayHashMap.pushEntry]
  cases hindex : map.index with
  | none =>
    dsimp only
    rw [hcols]
    split
    · exact ⟨h.length_keys, rebuildIndex none hd hlen'⟩
    · exact ⟨h.length_keys, dropIndex hd hlen'⟩
  | some t =>
    refine ⟨h.length_keys, ⟨hcols _, fun t' ht' => ?_, hd, hlen'⟩⟩
    rw [← some.inj ht', h.length_keys, ← h.length_hashes]
    exact indexes_insertUnique (h.index t hindex) (prefix_refl _) (h.length_hashes ▸ hlen)

end Holds

end Soup.Collections
