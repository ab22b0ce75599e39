import Mathlib.Data.Nat.Bitwise
import Mathlib.Data.Nat.Log
import Soup.Lib.Probing

/-!
# Hash slots

`GrowingSlots` of `sema/util.rs`, for one thread at a time. A slot has the tag and the index of its
entry, which the source packs into a word that is 0 when the slot is free. A search that would not
end is `none`.

`Shard.Valid` says that a shard has a free slot and that its entries are found; the `find` and `add`
lemmas are in terms of the entries that it has.
-/

namespace Soup.Sema

open Lib List Function Option Nat

/-- The tag and the index of an entry, or a free slot. -/
abbrev Slot := Option (ℕ × ℕ)

/-- `spread as u32`. -/
def tagOf (spread : UInt64) : ℕ := spread.toNat % 2 ^ 32

/-- `(at + 1) & mask`. -/
def nextSlot (len place : ℕ) : ℕ := (place + 1) &&& (len - 1)

/-- `Shared::start(tag) & mask`. -/
def startSlot (len tag : ℕ) : ℕ := tag &&& (len - 1)

def search (slots : List Slot) (spread : UInt64) (isMatch : ℕ → Bool) : Option (Except ℕ ℕ) :=
  (probe (slots.getD · none) (nextSlot slots.length) (fun e => e.1 = tagOf spread && isMatch e.2)
    slots.length (startSlot slots.length (tagOf spread))).map (Except.map Prod.snd)

def freeSlot (slots : List Slot) (tag : ℕ) : Option ℕ :=
  match probe (slots.getD · none) (nextSlot slots.length) (fun _ => false) slots.length
      (startSlot slots.length tag) with
  | some (.error place) => some place
  | _ => none

def isTooFull (len slots : ℕ) : Bool := slots * 3 < len * 4

/-- `MIN_SLOTS` of `Shared`. -/
def minSlots : ℕ := 16

def slotsFor (len old : ℕ) : ℕ := max (max (2 ^ clog 2 ((len * 4 + 2) / 3)) (old * 2)) minSlots

/-- The slots and the entry count of a shard. -/
structure Shard where
  slots : List Slot := []
  len : ℕ := 0

namespace Shard

def find (s : Shard) (spread : UInt64) (isMatch : ℕ → Bool) : Option (Option ℕ) :=
  if s.slots = [] then some none
  else (search s.slots spread isMatch).map fun
    | .ok index => some index
    | .error _ => none

def put (slots : List Slot) (e : ℕ × ℕ) : Option (List Slot) :=
  (freeSlot slots e.1).map fun place => slots.set place (some e)

def grow (old : List Slot) (len : ℕ) : Option (List Slot) :=
  old.foldlM (fun bigger slot => slot.elim (some bigger) (put bigger))
    (replicate (slotsFor len old.length) none)

def reserve (s : Shard) (more : ℕ) : Option (List Slot) :=
  if isTooFull (s.len + more) s.slots.length then grow s.slots (s.len + more) else some s.slots

/-- `add`, with the entry count of `find_or_add`. -/
def add (s : Shard) (spread : UInt64) (index : ℕ) : Option Shard := do
  let slots ← s.reserve 1
  let slots ← put slots (tagOf spread, index)
  some { slots, len := s.len + 1 }

end Shard

/-- `SHARDS`. -/
def shardCount : ℕ := 256

def shardAmong (spread : UInt64) (shards : ℕ) : ℕ := ((spread.toNat >>> 56) * shards) >>> 8

/-! ## Slots -/

section Slots

variable {slots : List Slot} {k place : ℕ} {e : ℕ × ℕ}

theorem nextSlot_eq : nextSlot (2 ^ k) place = (place + 1) % 2 ^ k := and_two_pow_sub_one_eq_mod _ _

theorem startSlot_lt (tag : ℕ) : startSlot (2 ^ k) tag < 2 ^ k := by
  rw [startSlot, and_two_pow_sub_one_eq_mod]
  exact Nat.mod_lt _ (Nat.two_pow_pos k)

theorem nextSlot_iterate (h : place < 2 ^ k) (j : ℕ) :
    (nextSlot (2 ^ k))^[j] place = (place + j) % 2 ^ k := by
  induction j with
  | zero => rw [iterate_zero_apply, add_zero, mod_eq_of_lt h]
  | succ j ih => rw [iterate_succ_apply', ih, nextSlot_eq, mod_add_mod, add_assoc]

/-- Every slot comes after every other. -/
theorem exists_iterate {other : ℕ} (h : place < 2 ^ k) (hother : other < 2 ^ k) :
    ∃ j < 2 ^ k, (nextSlot (2 ^ k))^[j] place = other := by
  rcases le_total place other with hle | hle
  · refine ⟨other - place, by omega, ?_⟩
    rw [nextSlot_iterate h, Nat.add_sub_cancel' hle, Nat.mod_eq_of_lt hother]
  · rcases eq_or_lt_of_le hle with rfl | hlt
    · exact ⟨0, Nat.two_pow_pos k, rfl⟩
    · refine ⟨other + 2 ^ k - place, by omega, ?_⟩
      rw [nextSlot_iterate h, Nat.add_sub_cancel' (by omega), Nat.add_mod_right,
        Nat.mod_eq_of_lt hother]

/-- The slots are a power of two in number, and none is free between an entry and its start. -/
structure Placed (slots : List Slot) : Prop where
  exists_length : ∃ k, slots.length = 2 ^ k
  probed : Probed (slots.getD · none) (nextSlot slots.length) (fun e => startSlot slots.length e.1)

/-- The entries. -/
def entries (slots : List Slot) : List (ℕ × ℕ) := slots.filterMap id

theorem mem_entries : e ∈ entries slots ↔ ∃ place, slots.getD place none = some e := by
  rw [entries, mem_filterMap]
  constructor
  · rintro ⟨slot, hslot, rfl⟩
    obtain ⟨place, hplace⟩ := mem_iff_getElem?.1 hslot
    exact ⟨place, by rw [getD_eq_getElem?_getD, hplace]; rfl⟩
  · rintro ⟨place, hplace⟩
    rw [getD_eq_getElem?_getD] at hplace
    cases hslot : slots[place]? with
    | none => rw [hslot] at hplace; cases hplace
    | some slot =>
      rw [hslot] at hplace
      exact ⟨slot, mem_of_getElem? hslot, hplace⟩

/-- Where an entry is missing, a search comes to a free slot. -/
theorem Placed.exists_free (h : Placed slots) (hlt : (entries slots).length < slots.length)
    (tag : ℕ) : ∃ j < slots.length,
      slots.getD ((nextSlot slots.length)^[j] (startSlot slots.length tag)) none = none := by
  obtain ⟨k, hk⟩ := h.exists_length
  have hnone : none ∈ slots := by
    obtain ⟨slot, hslot, hfree⟩ := length_filterMap_lt_length_iff_exists.1 hlt
    rwa [← show slot = none from hfree]
  obtain ⟨place, hplace⟩ := mem_iff_getElem?.1 hnone
  have hbound : place < 2 ^ k := hk ▸ (List.getElem?_eq_some_iff.1 hplace).1
  obtain ⟨j, hj, heq⟩ := exists_iterate (startSlot_lt tag) hbound
  rw [hk]
  refine ⟨j, hj, ?_⟩
  rw [heq, getD_eq_getElem?_getD, hplace]
  rfl

theorem getD_set (hplace : place < slots.length) :
    ((slots.set place (some e)).getD · none) = update (slots.getD · none) place (some e) := by
  funext i
  by_cases hi : i = place
  · rw [hi, update_self, getD_eq_getElem?_getD, getElem?_set_self hplace]
    rfl
  · rw [update_of_ne hi, getD_eq_getElem?_getD, getElem?_set_ne (Ne.symm hi), getD_eq_getElem?_getD]

theorem entries_set (hplace : place < slots.length) (hfree : slots.getD place none = none) :
    (entries (slots.set place (some e))).Perm (e :: entries slots) := by
  have hslot : slots[place] = none := by
    rw [getD_eq_getElem?_getD, getElem?_eq_getElem hplace] at hfree
    exact hfree
  have hsplit : entries slots = entries (slots.take place) ++ entries (slots.drop (place + 1)) := by
    conv_lhs => rw [← take_append_drop place slots, drop_eq_getElem_cons hplace, hslot]
    rw [entries, filterMap_append, filterMap_cons]
    rfl
  rw [hsplit, set_eq_take_append_cons_drop, if_pos hplace, entries, filterMap_append,
    filterMap_cons]
  exact perm_middle

/-- An entry goes to a free slot. -/
theorem Placed.put (h : Placed slots) (hlt : (entries slots).length < slots.length) (e : ℕ × ℕ) :
    ∃ slots', Shard.put slots e = some slots' ∧ Placed slots' ∧ slots'.length = slots.length ∧
      (entries slots').Perm (e :: entries slots) := by
  obtain ⟨k, hk⟩ := h.exists_length
  obtain ⟨j, hbefore, ⟨a, -, haccept, -⟩ | ⟨hfree, hprobe⟩⟩ :=
    probe_spec (slots.getD · none) (nextSlot slots.length) (fun _ => false) (h.exists_free hlt e.1)
  · cases haccept
  · have hplace : (nextSlot slots.length)^[j] (startSlot slots.length e.1) < slots.length := by
      rw [hk, nextSlot_iterate (startSlot_lt e.1)]
      exact Nat.mod_lt _ (Nat.two_pow_pos k)
    have hslot : freeSlot slots e.1 =
        some ((nextSlot slots.length)^[j] (startSlot slots.length e.1)) := by
      rw [freeSlot, hprobe]
    refine ⟨_, by rw [Shard.put, hslot, map_some], ⟨⟨k, ?_⟩, ?_⟩, length_set, ?_⟩
    · rw [length_set, hk]
    · rw [getD_set hplace, length_set]
      refine h.probed.put rfl fun i hi => ?_
      obtain ⟨b, hb, -⟩ := hbefore i hi
      exact fun hnone => some_ne_none b (hb.symm.trans hnone)
    · exact entries_set hplace hfree

theorem placed_replicate (k : ℕ) : Placed (replicate (2 ^ k) none) where
  exists_length := ⟨k, length_replicate⟩
  probed place e he := by
    change (replicate (2 ^ k) none).getD place none = some e at he
    rw [getD_eq_getElem?_getD, getElem?_replicate] at he
    split at he <;> cases he

theorem entries_replicate (n : ℕ) : entries (replicate n none) = [] := by
  rw [entries, filterMap_replicate_of_none rfl]

theorem exists_slotsFor (len k : ℕ) :
    (∃ m, slotsFor len (2 ^ k) = 2 ^ m) ∧ ∃ m, slotsFor len 0 = 2 ^ m := by
  have hmax {a c : ℕ} (ha : ∃ m, a = 2 ^ m) (hc : ∃ m, c = 2 ^ m) : ∃ m, max a c = 2 ^ m :=
    (le_total a c).elim (fun hle => (max_eq_right hle).symm ▸ hc) fun hle =>
      (max_eq_left hle).symm ▸ ha
  refine ⟨hmax (hmax ⟨_, rfl⟩ ⟨k + 1, (pow_succ ..).symm⟩) ⟨4, rfl⟩, hmax ?_ ⟨4, rfl⟩⟩
  rw [zero_mul, Nat.max_zero]
  exact ⟨_, rfl⟩

theorem le_slotsFor (len old : ℕ) : len * 4 ≤ slotsFor len old * 3 := by
  have hneeded : (len * 4 + 2) / 3 ≤ slotsFor len old :=
    (Nat.le_pow_clog Nat.one_lt_two _).trans ((le_max_left _ _).trans (le_max_left _ _))
  omega

/-- The entries move to more slots. -/
theorem grow_spec {old : List Slot} {len k : ℕ} (hlen : (entries old).length < len)
    (hfor : slotsFor len old.length = 2 ^ k) :
    ∃ bigger, Shard.grow old len = some bigger ∧ Placed bigger ∧
      bigger.length = slotsFor len old.length ∧ (entries bigger).Perm (entries old) := by
  have hroom := le_slotsFor len old.length
  have hrun : ∀ (rest : List Slot) (bigger : List Slot), Placed bigger →
      bigger.length = slotsFor len old.length → (entries bigger).length + (entries rest).length <
        len →
      ∃ bigger', rest.foldlM (fun bigger slot => slot.elim (some bigger) (Shard.put bigger))
        bigger = some bigger' ∧ Placed bigger' ∧ bigger'.length = slotsFor len old.length ∧
        (entries bigger').Perm (entries rest ++ entries bigger) := by
    intro rest
    induction rest with
    | nil => exact fun bigger hplaced hlength _ => ⟨bigger, rfl, hplaced, hlength, .refl _⟩
    | cons slot rest ih =>
      intro bigger hplaced hlength hcount
      cases slot with
      | none => exact ih bigger hplaced hlength hcount
      | some e =>
        change (entries bigger).length + (e :: entries rest).length < len at hcount
        rw [length_cons] at hcount
        obtain ⟨next, hput, hnext, hnextLength, hperm⟩ := hplaced.put (by omega) e
        have hnextCount := hperm.length_eq
        rw [length_cons] at hnextCount
        obtain ⟨bigger', hrest, hplaced', hlength', hperm'⟩ :=
          ih next hnext (hnextLength.trans hlength) (by omega)
        refine ⟨bigger', ?_, hplaced', hlength', hperm'.trans ?_⟩
        · rw [foldlM_cons, elim_some, hput]
          exact hrest
        · exact (hperm.append_left _).trans perm_middle
  obtain ⟨bigger, hfold, hplaced, hlength, hperm⟩ :=
    hrun old (replicate (slotsFor len old.length) none)
    (hfor ▸ placed_replicate k) length_replicate (by rwa [entries_replicate, length_nil, zero_add])
  rw [entries_replicate, append_nil] at hperm
  exact ⟨bigger, hfold, hplaced, hlength, hperm⟩

end Slots

/-! ## Shards -/

namespace Shard

variable {s : Shard}

/-- A shard whose entries are found. -/
structure Valid (s : Shard) : Prop where
  placed : s.slots = [] ∨ Placed s.slots
  count : (entries s.slots).length = s.len
  room : s.len * 4 ≤ s.slots.length * 3

theorem valid_empty : Valid {} := ⟨.inl rfl, rfl, le_rfl⟩

theorem Valid.reserve (h : s.Valid) : ∃ slots, s.reserve 1 = some slots ∧ Placed slots ∧
    (entries slots).Perm (entries s.slots) ∧ (s.len + 1) * 4 ≤ slots.length * 3 := by
  rw [Shard.reserve]
  split
  next =>
    obtain ⟨k, hk⟩ : ∃ k, slotsFor (s.len + 1) s.slots.length = 2 ^ k := by
      rcases h.placed with hnil | hplaced
      · rw [hnil]
        exact (exists_slotsFor _ 0).2
      · obtain ⟨k, hk⟩ := hplaced.exists_length
        rw [hk]
        exact (exists_slotsFor _ k).1
    obtain ⟨bigger, hgrow, hplaced, hlength, hperm⟩ :=
      grow_spec (by rw [h.count]; exact lt_succ_self _) hk
    exact ⟨bigger, hgrow, hplaced, hperm, hlength ▸ le_slotsFor _ _⟩
  next hfull =>
    rw [isTooFull, decide_eq_true_eq, not_lt] at hfull
    refine ⟨s.slots, rfl, h.placed.resolve_left fun hnil => ?_, .refl _, hfull⟩
    rw [hnil, length_nil] at hfull
    omega

theorem Valid.add (h : s.Valid) (spread : UInt64) (index : ℕ) : ∃ s', s.add spread index = some s' ∧
    s'.Valid ∧ (entries s'.slots).Perm ((tagOf spread, index) :: entries s.slots) := by
  obtain ⟨slots, hreserve, hplaced, hperm, hroom⟩ := h.reserve
  have hcount := hperm.length_eq.trans h.count
  obtain ⟨slots', hput, hplaced', hlength, hperm'⟩ := hplaced.put (by omega) (tagOf spread, index)
  have hentries := hperm'.trans (hperm.cons _)
  refine ⟨⟨slots', s.len + 1⟩, ?_, ⟨.inr hplaced', ?_, hlength ▸ hroom⟩, hentries⟩
  · rw [Shard.add, hreserve]
    change (put slots (tagOf spread, index) >>= _) = _
    rw [hput]
    rfl
  · rw [hentries.length_eq, length_cons, h.count]

/-- A search ends with an entry that matches, or there is none. -/
theorem Valid.find (h : s.Valid) (spread : UInt64) (isMatch : ℕ → Bool) : ∃ r,
    s.find spread isMatch = some r ∧
    (∀ index, r = some index → (tagOf spread, index) ∈ entries s.slots ∧ isMatch index = true) ∧
    (r = none → ∀ index, (tagOf spread, index) ∈ entries s.slots → isMatch index = false) := by
  rcases h.placed with hnil | hplaced
  · refine ⟨none, ?_, fun index hsome => (by cases hsome), fun _ index hmem => ?_⟩
    · rw [Shard.find, if_pos hnil]
    · rw [hnil] at hmem
      cases hmem
  · obtain ⟨k, hk⟩ := hplaced.exists_length
    have hne : s.slots ≠ [] := fun hnil => by
      rw [hnil, length_nil] at hk
      exact (Nat.two_pow_pos k).ne hk
    have hlt : (entries s.slots).length < s.slots.length := by
      have hpos := length_pos_iff.2 hne
      have := h.count
      have := h.room
      omega
    have hfree := hplaced.exists_free hlt (tagOf spread)
    obtain ⟨j, -, ⟨e, he, haccept, hprobe⟩ | ⟨-, hprobe⟩⟩ :=
      probe_spec (s.slots.getD · none) (nextSlot s.slots.length)
        (fun e => e.1 = tagOf spread && isMatch e.2) hfree
    · refine ⟨some e.2, ?_, fun index hindex => ?_, fun hnone => (by cases hnone)⟩
      · rw [Shard.find, if_neg hne, search, hprobe]
        rfl
      · obtain rfl := some.inj hindex
        rw [Bool.and_eq_true, decide_eq_true_eq] at haccept
        have hentry : e ∈ entries s.slots := mem_entries.2 ⟨_, he⟩
        rw [← haccept.1]
        exact ⟨hentry, haccept.2⟩
    · refine ⟨none, ?_, fun index hindex => (by cases hindex), fun _ index hmem => ?_⟩
      · rw [Shard.find, if_neg hne, search, hprobe]
        rfl
      · obtain ⟨place, hplace⟩ := mem_entries.1 hmem
        refine Bool.eq_false_iff.2 fun hmatch => ?_
        obtain ⟨b, hb⟩ := hplaced.probed.probe_ok (fun e => e.1 = tagOf spread && isMatch e.2)
          hplace (by rw [hmatch, decide_eq_true rfl]; rfl) hfree
        rw [hprobe] at hb
        cases hb

end Shard

end Soup.Sema
