import Mathlib.Data.Multiset.UnionInter
import Soup.Lib.Permute

/-!
# The insertion-ordered hash map

What the map needs of `hashbrown::HashTable<u32>`: a table is a multiset of entries, each with the
hash it was inserted with. A lookup may look at any entry, so that only its answer for those with
the hash is certain, and the entries may move when the table grows, if `hasher` gives back their
hashes. A table that has every place at most once is a partial function from places to hashes
(`Indexes`). `listTable` is a table that is a list.
-/

namespace Soup.Collections

open List Option Function

/-- `hashbrown::HashTable<u32>`. -/
structure HashTable (τ : Type) where
  withCapacity : ℕ → τ
  entries : τ → Multiset (UInt64 × ℕ)
  insertUnique : τ → UInt64 → ℕ → (ℕ → UInt64) → τ
  find : τ → UInt64 → (ℕ → Bool) → Option ℕ
  /-- `find_entry`, and `remove` of what it finds. -/
  removeEntry : τ → UInt64 → (ℕ → Bool) → τ
  /-- `find_mut`, and a new value for what it finds. -/
  replace : τ → UInt64 → (ℕ → Bool) → ℕ → τ
  len : τ → ℕ
  reserve : τ → ℕ → (ℕ → UInt64) → τ
  entries_withCapacity : ∀ n, entries (withCapacity n) = 0
  entries_insertUnique : ∀ t h i hasher, (∀ e ∈ (h, i) ::ₘ entries t, hasher e.2 = e.1) →
    entries (insertUnique t h i hasher) = (h, i) ::ₘ entries t
  find_some : ∀ t h eq i, find t h eq = some i → eq i = true ∧ ∃ h', (h', i) ∈ entries t
  find_none : ∀ t h eq, find t h eq = none → ∀ i, (h, i) ∈ entries t → eq i = false
  entries_removeEntry : ∀ t h eq i, find t h eq = some i →
    ∃ h', (h', i) ∈ entries t ∧ entries (removeEntry t h eq) = (entries t).erase (h', i)
  removeEntry_none : ∀ t h eq, find t h eq = none → removeEntry t h eq = t
  entries_replace : ∀ t h eq i new, find t h eq = some i →
    ∃ h', (h', i) ∈ entries t ∧ entries (replace t h eq new) = (h', new) ::ₘ (entries t).erase
      (h', i)
  replace_none : ∀ t h eq new, find t h eq = none → replace t h eq new = t
  entries_reserve : ∀ t n hasher, (∀ e ∈ entries t, hasher e.2 = e.1) →
    entries (reserve t n hasher) = entries t

namespace HashTable

variable {τ : Type} (H : HashTable τ) {t : τ} {h : UInt64} {eq : ℕ → Bool} {i : ℕ}

/-- The only entry that fits is found. -/
theorem find_eq (hmem : (h, i) ∈ H.entries t) (heq : eq i = true)
    (hunique : ∀ e ∈ H.entries t, eq e.2 = true → e.2 = i) : H.find t h eq = some i := by
  cases hfind : H.find t h eq with
  | none =>
    have hne := H.find_none t h eq hfind i hmem
    rw [heq] at hne
    cases hne
  | some j =>
    obtain ⟨hj, h', hmem'⟩ := H.find_some t h eq j hfind
    rw [show j = i from hunique _ hmem' hj]

/-- The table has the hashes that `q` gives, and each of them once. -/
structure Indexes (t : τ) (q : ℕ → Option UInt64) : Prop where
  nodup : (H.entries t).Nodup
  mem_iff : ∀ h i, (h, i) ∈ H.entries t ↔ q i = some h

namespace Indexes

variable {H} {q : ℕ → Option UInt64}

theorem withCapacity (n : ℕ) : H.Indexes (H.withCapacity n) fun _ => none where
  nodup := by rw [H.entries_withCapacity]; exact Multiset.nodup_zero
  mem_iff h i := by rw [H.entries_withCapacity]; simp

section

variable (ht : H.Indexes t q)
include ht

variable {hasher : ℕ → UInt64}

theorem insertUnique (hi : q i = none)
    (hh : hasher i = h) (hq : ∀ j h', q j = some h' → hasher j = h') :
    H.Indexes (H.insertUnique t h i hasher) (update q i (some h)) := by
  have hentries := H.entries_insertUnique t h i hasher fun e he => by
    rcases Multiset.mem_cons.1 he with rfl | he
    · exact hh
    · exact hq _ _ ((ht.mem_iff e.1 e.2).1 he)
  constructor
  · rw [hentries, Multiset.nodup_cons, ht.mem_iff, hi]
    exact ⟨by simp, ht.nodup⟩
  · intro h' j
    rw [hentries, Multiset.mem_cons, ht.mem_iff, update_apply, Prod.mk.injEq]
    grind

/-- The entry of a place is found by its hash. -/
theorem find_place (hi : q i = some h) : H.find t h (· == i) = some i :=
  H.find_eq ((ht.mem_iff h i).2 hi) (beq_self_eq_true i) fun _ _ he => eq_of_beq he

theorem removeEntry (hi : q i = some h) :
    H.Indexes (H.removeEntry t h (· == i)) (update q i none) := by
  obtain ⟨h', hmem, hentries⟩ := H.entries_removeEntry t h _ i (ht.find_place hi)
  constructor
  · rw [hentries]
    exact ht.nodup.erase _
  · intro h'' j
    have hh' := (ht.mem_iff h' i).1 hmem
    rw [hentries, ht.nodup.mem_erase_iff, ht.mem_iff, update_apply, ne_eq, Prod.mk.injEq]
    grind

theorem replace (hi : q i = some h) {j : ℕ} (hj : q j = none) : H.Indexes (H.replace t h (· == i) j)
      (update (update q i none) j (some h)) := by
  obtain ⟨h', hmem, hentries⟩ := H.entries_replace t h _ i j (ht.find_place hi)
  have hh' := (ht.mem_iff h' i).1 hmem
  constructor
  · rw [hentries, Multiset.nodup_cons, ht.nodup.mem_erase_iff, ht.mem_iff, hj]
    exact ⟨by simp, ht.nodup.erase _⟩
  · intro h'' k
    rw [hentries, Multiset.mem_cons, ht.nodup.mem_erase_iff, ht.mem_iff, update_apply,
      update_apply, ne_eq, Prod.mk.injEq, Prod.mk.injEq]
    grind

theorem reserve (n : ℕ)
    (hq : ∀ j h', q j = some h' → hasher j = h') : H.Indexes (H.reserve t n hasher) q := by
  have hentries := H.entries_reserve t n hasher fun e he => hq _ _ ((ht.mem_iff e.1 e.2).1 he)
  exact ⟨by rw [hentries]; exact ht.nodup, fun h i => by rw [hentries]; exact ht.mem_iff h i⟩

end

end Indexes

end HashTable

/-- A table that is a list of its entries. -/
def listTable : HashTable (List (UInt64 × ℕ)) where
  withCapacity _ := []
  entries t := t
  insertUnique t h i _ := (h, i) :: t
  find t h eq := (t.find? fun e => e.1 == h && eq e.2).map Prod.snd
  removeEntry t h eq :=
    match t.find? fun e => e.1 == h && eq e.2 with
    | some e => t.erase e
    | none => t
  replace t h eq new :=
    match t.find? fun e => e.1 == h && eq e.2 with
    | some e => (e.1, new) :: t.erase e
    | none => t
  len t := t.length
  reserve t _ _ := t
  entries_withCapacity _ := rfl
  entries_insertUnique _ _ _ _ _ := rfl
  find_some t h eq i hfind := by
    obtain ⟨e, he, rfl⟩ := map_eq_some_iff.1 hfind
    have hp := find?_some he
    rw [Bool.and_eq_true] at hp
    exact ⟨hp.2, e.1, Multiset.mem_coe.2 (mem_of_find?_eq_some he)⟩
  find_none t h eq hfind i hmem := by
    have hnone := find?_eq_none.1 (map_eq_none_iff.1 hfind) _ (Multiset.mem_coe.1 hmem)
    simpa using hnone
  entries_removeEntry t h eq i hfind := by
    obtain ⟨e, he, rfl⟩ := map_eq_some_iff.1 hfind
    refine ⟨e.1, Multiset.mem_coe.2 (mem_of_find?_eq_some he), ?_⟩
    simp only [he]
    rw [Multiset.coe_erase, lawful_beq_subsingleton instBEqOfDecidableEq instBEqProd]
  removeEntry_none t h eq hfind := by
    simp only [map_eq_none_iff.1 hfind]
  entries_replace t h eq i new hfind := by
    obtain ⟨e, he, rfl⟩ := map_eq_some_iff.1 hfind
    refine ⟨e.1, Multiset.mem_coe.2 (mem_of_find?_eq_some he), ?_⟩
    simp only [he]
    rw [Multiset.coe_erase, Multiset.cons_coe,
      lawful_beq_subsingleton instBEqOfDecidableEq instBEqProd]
  replace_none t h eq new hfind := by
    simp only [map_eq_none_iff.1 hfind]
  entries_reserve _ _ _ _ := rfl

/-!
## The map

`ArrayHashMap` of `array_hash_map.rs`: three parallel columns, and a table from hashes to places,
which stores a place as a `u32` and is there from `INDEX_THRESHOLD` entries on. Allocation is left
out: capacities only size tables, and a map that is reserved gets the capacity as an argument. The
standard library's stable sort is `List.mergeSort`.
-/

open Soup.Lib

/-- `ArrayHashContext`, with an equality that is one and that hashes respect. -/
structure Context (K : Type) where
  hash : K → UInt32
  eql : K → K → Bool
  refl : ∀ a, eql a a = true
  symm : ∀ a b, eql a b = true → eql b a = true
  trans : ∀ a b c, eql a b = true → eql b c = true → eql a c = true
  hash_eq : ∀ a b, eql a b = true → hash a = hash b

def indexThreshold : ℕ := 8

def spreadHash (h : UInt32) : UInt64 :=
  h.toUInt64 ||| ((h.toUInt64 * 0x9E3779B9) <<< 32)

/-- `i as u32`. -/
def asU32 (i : ℕ) : ℕ := i % 2 ^ 32

/-- `Vec::swap_remove`, without what it removes. -/
def swapRemove {α : Type} (xs : List α) (i : ℕ) : List α :=
  match xs.getLast? with
  | some last => (xs.set i last).dropLast
  | none => xs

/-- `index_rehasher`. -/
def indexRehasher (hashes : List UInt32) (j : ℕ) : UInt64 := spreadHash (hashes.getD j 0)

section Index

variable {τ : Type} (H : HashTable τ)

def rebuildIndexFromHashes (hashes : List UInt32) : τ :=
  hashes.zipIdx.foldl (fun table e =>
    H.insertUnique table (spreadHash e.1) (asU32 e.2) (indexRehasher hashes))
    (H.withCapacity hashes.length)

def indexReserve (index : τ) (hashes : List UInt32) (target : ℕ) : τ :=
  let extra := target - H.len index
  if extra ≠ 0 then H.reserve index extra (indexRehasher hashes) else index

end Index

/-- `ArrayHashMap`. -/
structure ArrayHashMap (K V τ : Type) where
  keys : List K := []
  values : List V := []
  hashes : List UInt32 := []
  index : Option τ := none

namespace ArrayHashMap

variable {K V τ : Type} (ctx : Context K) (H : HashTable τ) (self : ArrayHashMap K V τ)

/-! ### The columns -/

def swap (i j : ℕ) : ArrayHashMap K V τ :=
  { self with
    keys := Lib.swap self.keys i j
    values := Lib.swap self.values i j
    hashes := Lib.swap self.hashes i j }

def truncate (n : ℕ) : ArrayHashMap K V τ :=
  { self with keys := self.keys.take n, values := self.values.take n, hashes := self.hashes.take n }

def dropIndex : ArrayHashMap K V τ := { self with index := none }

def rebuildIndex : ArrayHashMap K V τ :=
  { self with index := some (rebuildIndexFromHashes H self.hashes) }

/-! ### Lookups -/

def findHash (h : UInt32) (eq : K → Bool) : Option ℕ :=
  match self.index with
  | some index =>
    H.find index (spreadHash h) fun i =>
      self.hashes[i]? == some h && self.keys[i]?.any eq
  | none => self.hashes.zipIdx.findIdx? fun e => e.1 == h && self.keys[e.2]?.any eq

def getIndex (key : K) : Option ℕ := self.findHash H (ctx.hash key) (ctx.eql key)

def contains (key : K) : Bool := (self.getIndex ctx H key).isSome

def get (key : K) : Option V := (self.getIndex ctx H key).bind fun i => self.values[i]?

/-! ### Insertion -/

/-- `push_entry`, with the place of the entry. -/
def pushEntry (key : K) (value : V) (h : UInt32) : ℕ × ArrayHashMap K V τ :=
  let i := self.keys.length
  let self := { self with
    keys := self.keys ++ [key]
    values := self.values ++ [value]
    hashes := self.hashes ++ [h] }
  match self.index with
  | some index =>
    let index := H.insertUnique index (spreadHash h) (asU32 i) (indexRehasher self.hashes)
    (i, { self with index := some index })
  | none => if i ≥ indexThreshold then (i, self.rebuildIndex H) else (i, self)

def put (key : K) (value : V) : ArrayHashMap K V τ :=
  match self.getIndex ctx H key with
  | some i => { self with values := self.values.set i value }
  | none => (self.pushEntry H key value (ctx.hash key)).2

/-- `put_assume_capacity_context`, with the hash and the equality of `ctx`: the key is replaced. -/
def putAssumeCapacityContext (key : K) (value : V) : ArrayHashMap K V τ :=
  match self.findHash H (ctx.hash key) (ctx.eql key) with
  | some i => { self with keys := self.keys.set i key, values := self.values.set i value }
  | none => (self.pushEntry H key value (ctx.hash key)).2

/-- `insert`, with the value that was there. -/
def insert (key : K) (value : V) : Option V × ArrayHashMap K V τ :=
  match self.getIndex ctx H key with
  | some i => (self.values[i]?, { self with values := self.values.set i value })
  | none => (none, (self.pushEntry H key value (ctx.hash key)).2)

/-- `get_or_put`, with `found_existing` and `index`. -/
def getOrPut (default : V) (key : K) : (Bool × ℕ) × ArrayHashMap K V τ :=
  match self.getIndex ctx H key with
  | some i => ((true, i), self)
  | none =>
    let (i, self) := self.pushEntry H key default (ctx.hash key)
    ((false, i), self)

/-- `entry`, and `or_insert_with` on it, with the place of the entry and its value. -/
def entryOrInsert (key : K) (value : V) : (ℕ × Option V) × ArrayHashMap K V τ :=
  match self.getIndex ctx H key with
  | some i => ((i, self.values[i]?), self)
  | none =>
    let (i, self) := self.pushEntry H key value (ctx.hash key)
    ((i, self.values[i]?), self)

/-! ### Removal -/

def indexRemoveTail (tail : ℕ) (tailHash : UInt32) : ArrayHashMap K V τ :=
  match self.index with
  | none => self
  | some index =>
    { self with index := some (H.removeEntry index (spreadHash tailHash) (· == tail)) }

def indexSwapRemove (removed : ℕ) (removedHash : UInt32) : ArrayHashMap K V τ :=
  match self.index with
  | none => self
  | some index =>
    let index := H.removeEntry index (spreadHash removedHash) (· == removed)
    let oldLast := self.keys.length
    if oldLast ≠ removed then
      let movedHash := self.hashes.getD removed 0
      let index := H.replace index (spreadHash movedHash) (· == oldLast) (asU32 removed)
      { self with index := some index }
    else { self with index := some index }

def swapRemoveAt (index : ℕ) : ArrayHashMap K V τ :=
  let h := self.hashes.getD index 0
  let self := { self with
    keys := swapRemove self.keys index
    values := swapRemove self.values index
    hashes := swapRemove self.hashes index }
  self.indexSwapRemove H index h

/-- `get_ptr_mut`, and a write of `edit` through it, with whether the key was there. -/
def editValue (key : K) (edit : V → V) : Bool × ArrayHashMap K V τ :=
  match self.getIndex ctx H key with
  | none => (false, self)
  | some i => (true, { self with values := self.values.modify i edit })

/-- `swap_remove`, with whether the key was there. -/
def swapRemoveKey (key : K) : Bool × ArrayHashMap K V τ :=
  match self.getIndex ctx H key with
  | none => (false, self)
  | some i => (true, self.swapRemoveAt H i)

/-- `remove`, with the value that was there. -/
def remove (key : K) : Option V × ArrayHashMap K V τ :=
  match self.getIndex ctx H key with
  | none => (none, self)
  | some i =>
    let map : ArrayHashMap K V τ := { self with
      keys := self.keys.eraseIdx i
      hashes := self.hashes.eraseIdx i }.dropIndex
    let map := if map.keys.length > indexThreshold then map.rebuildIndex H else map
    (self.values[i]?, { map with values := self.values.eraseIdx i })

/-- `pop`, with the entry that was last. -/
def pop : Option (K × V) × ArrayHashMap K V τ :=
  match self.keys.getLast?, self.values.getLast?, self.hashes.getLast? with
  | some key, some value, some h =>
    let self := { self with
      keys := self.keys.dropLast
      values := self.values.dropLast
      hashes := self.hashes.dropLast }
    (some (key, value), self.indexRemoveTail H self.keys.length h)
  | _, _, _ => (none, self)

/-- The body of the loop of `retain`, with `write`. `keep` may have a state, and then its answer
depends on how often it was called. -/
def retainStep (keep : ℕ → K → V → Bool × V) (state : ArrayHashMap K V τ × ℕ) (read : ℕ) :
    ArrayHashMap K V τ × ℕ :=
  let (self, write) := state
  match self.keys[read]?, self.values[read]? with
  | some key, some value =>
    let (kept, value) := keep read key value
    let self := { self with values := self.values.set read value }
    if kept then (if read ≠ write then self.swap read write else self, write + 1) else (self, write)
  | _, _ => state

def retain (keep : ℕ → K → V → Bool × V) : ArrayHashMap K V τ :=
  let len := self.keys.length
  let (self, write) := (range len).foldl (retainStep keep) (self, 0)
  if write = len then self
  else
    let self := (self.truncate write).dropIndex
    if write > indexThreshold then self.rebuildIndex H else self

def shrinkAndFree (newLen : ℕ) : ArrayHashMap K V τ :=
  let shrunk := if self.index.isSome then
      (range' newLen (self.hashes.length - newLen)).foldl
        (fun map i => map.indexRemoveTail H i (self.hashes.getD i 0)) self
    else self
  let shrunk := shrunk.truncate newLen
  if shrunk.keys.length ≤ indexThreshold then shrunk.dropIndex else shrunk

/-! ### All entries -/

/-- `sort`; `none` is the panic of `identity`, whose length has to fit `u32`. -/
def sort (lessThan : List K → List V → ℕ → ℕ → Bool) : Option (ArrayHashMap K V τ) :=
  let len := self.keys.length
  if len < 2 then some self
  else if len ≥ 2 ^ 32 then none
  else do
    let perm := (range len).mergeSort fun a b => !lessThan self.keys self.values b a
    let hadIndex := self.index.isSome
    let self ← permute swap perm self.dropIndex
    some (if hadIndex then self.rebuildIndex H else self)

/-- `re_index`, after `keys_mut` has written `keys`. -/
def reIndex (keys : List K) : ArrayHashMap K V τ :=
  let self := { self with keys, hashes := keys.map ctx.hash, index := none }
  if self.keys.length > indexThreshold then self.rebuildIndex H else self

def clearRetainingCapacity (_ : ArrayHashMap K V τ) : ArrayHashMap K V τ :=
  { keys := [], values := [], hashes := [], index := none }

/-- `reserve`, when the columns have the capacity `capacity` then. -/
def reserve (capacity : ℕ) : ArrayHashMap K V τ :=
  match self.index with
  | some index => { self with index := some (indexReserve H index self.hashes capacity) }
  | none => self

def clone : ArrayHashMap K V τ :=
  { keys := self.keys, values := self.values, hashes := self.hashes, index := self.index }

end ArrayHashMap

end Soup.Collections
