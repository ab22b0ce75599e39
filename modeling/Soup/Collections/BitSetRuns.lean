import Soup.Collections.BitSets

/-!
# Runs of bit sets

Named sets of any length, which go with named sets of numbers through every run (`runs_agree`), and
`AutoBitSet`s next to sets of the same length. An `AutoBitSet` of a length below `127` has all `127`
bits of its words after `set_all(true)`, and its iterator of unset bits goes to `127`: the two kinds
agree for good exactly from length `127` on (`AutoRun`).
-/

namespace Soup.Collections

open Soup.Lib List Option Function DynamicBitSetUnmanaged

/-! ## Sets of any length -/

/-- What is done to the set `x`. -/
inductive BitSetOp
  | resize (x newLen : ℕ) (fill : Bool)
  | set (x index : ℕ)
  | unset (x index : ℕ)
  | setRangeValue (x start stop : ℕ) (value : Bool)
  | setAll (x : ℕ) (value : Bool)
  | toggleAll (x : ℕ)
  | copyInto (x y : ℕ)
  | setUnion (x y : ℕ)
  | setIntersection (x y : ℕ)
  | setExclude (x y : ℕ)
  | clone (x y : ℕ)
  | fromBytes (x bitLength : ℕ) (bytes : List (BitVec 8))

abbrev BitSetStore := ℕ → DynamicBitSetUnmanaged

/-- `none` reads words that a set does not have. -/
def BitSetStore.step (store : BitSetStore) : BitSetOp → Option BitSetStore
  | .resize x newLen fill => some (update store x ((store x).resize newLen fill))
  | .set x index => some (update store x ((store x).set index))
  | .unset x index => some (update store x ((store x).unset index))
  | .setRangeValue x start stop value =>
    some (update store x ((store x).setRangeValue start stop value))
  | .setAll x value => some (update store x ((store x).setAll value))
  | .toggleAll x => some (update store x (store x).toggleAll)
  | .copyInto x y => ((store x).copyInto (store y)).map (update store x)
  | .setUnion x y => ((store x).setUnion (store y)).map (update store x)
  | .setIntersection x y => ((store x).setIntersection (store y)).map (update store x)
  | .setExclude x y => ((store x).setExclude (store y)).map (update store x)
  | .clone x y => some (update store x (store y).clone)
  | .fromBytes x bitLength bytes =>
    some (match fromBytes bitLength bytes with
      | some b => update store x b
      | none => store)

/-- A length, and a set of numbers below it. -/
abbrev NumberSets := ℕ → ℕ × Finset ℕ

def NumberSets.step (sets : NumberSets) : BitSetOp → NumberSets
  | .resize x newLen fill => update sets x (newLen, (sets x).2.filter (· < newLen) ∪
      if fill then Finset.Ico (sets x).1 newLen else ∅)
  | .set x index => update sets x ((sets x).1, insert index (sets x).2)
  | .unset x index => update sets x ((sets x).1, (sets x).2.erase index)
  | .setRangeValue x start stop value => update sets x ((sets x).1,
      if value then (sets x).2 ∪ Finset.Ico start stop else (sets x).2 \ Finset.Ico start stop)
  | .setAll x value =>
    update sets x ((sets x).1, if value then Finset.range (sets x).1 else ∅)
  | .toggleAll x => update sets x ((sets x).1, Finset.range (sets x).1 \ (sets x).2)
  | .copyInto x y => update sets x ((sets x).1, (sets y).2.filter (· < (sets x).1))
  | .setUnion x y => update sets x ((sets x).1, (sets x).2 ∪ (sets y).2)
  | .setIntersection x y => update sets x ((sets x).1, (sets x).2 ∩ (sets y).2)
  | .setExclude x y => update sets x ((sets x).1, (sets x).2 \ (sets y).2)
  | .clone x y => update sets x (sets y)
  | .fromBytes x bitLength bytes =>
    if bytes.length = 8 * numMasksFor bitLength then
      update sets x
        (bitLength, (Finset.range bitLength).filter fun i => bit bytes i = true)
    else sets

/-- Indices are in range, operands have the same length, and a set is copied from one with at least
as many words. -/
def NumberSets.Admits (sets : NumberSets) : BitSetOp → Prop
  | .set x index | .unset x index => index < (sets x).1
  | .setRangeValue x start stop _ => start ≤ stop ∧ stop ≤ (sets x).1
  | .copyInto x y => numMasksFor (sets x).1 ≤ numMasksFor (sets y).1
  | .setUnion x y | .setIntersection x y | .setExclude x y => (sets x).1 = (sets y).1
  | _ => True

def BitSetStore.run (store : BitSetStore) : List BitSetOp → Option BitSetStore
  | [] => some store
  | op :: ops => (store.step op).bind fun store => run store ops

def NumberSets.run (sets : NumberSets) : List BitSetOp → NumberSets
  | [] => sets
  | op :: ops => run (sets.step op) ops

def NumberSets.AdmitsAll (sets : NumberSets) : List BitSetOp → Prop
  | [] => True
  | op :: ops => sets.Admits op ∧ AdmitsAll (sets.step op) ops

/-- Every set answers as the set of numbers, and its padding is zero. -/
structure BitSetStore.Agrees (store : BitSetStore) (sets : NumberSets) : Prop where
  bitLength : ∀ x, (store x).bitLength = (sets x).1
  length : ∀ x, (store x).masks.length = numMasksFor (sets x).1
  padding : ∀ x i, (sets x).1 ≤ i → bit (store x).masks i = false
  subset : ∀ x, ∀ i ∈ (sets x).2, i < (sets x).1
  isSet : ∀ x i, (store x).isSet i = decide (i ∈ (sets x).2)
  count : ∀ x, (store x).count = (sets x).2.card
  findFirstSet : ∀ x, (store x).findFirstSet = (elements (sets x).1 (sets x).2).head?
  eql : ∀ x y, (store x).eql (store y) = decide (sets x = sets y)
  subsetOf : ∀ x y, (store x).subsetOf (store y) =
    decide ((sets x).1 = (sets y).1 ∧ (sets x).2 ⊆ (sets y).2)
  drain : ∀ x (kindSet dirFwd : Bool) (fuel : ℕ), (sets x).1 < fuel →
    ((store x).iterator kindSet dirFwd).drain kindSet dirFwd fuel =
      let wanted := elements (sets x).1
        (if kindSet then (sets x).2 else Finset.range (sets x).1 \ (sets x).2)
      if dirFwd then wanted else wanted.reverse

/-- Every set is the set of numbers. -/
def BitSetStore.Holds (store : BitSetStore) (sets : NumberSets) : Prop :=
  ∀ x, (store x).Holds (sets x).1 (sets x).2

namespace BitSetStore.Holds

variable {store : BitSetStore} {sets : NumberSets}

theorem agrees (h : store.Holds sets) : store.Agrees sets where
  bitLength x := (h x).bitLength
  length x := (h x).words.length
  padding x i hi := by
    rw [(h x).words.bit, decide_eq_false_iff_not]
    intro hS
    exact Nat.lt_irrefl i (((h x).words.lt i hS).trans_le hi)
  subset x := (h x).words.lt
  isSet x i := (h x).words.isSet i
  count x := (h x).words.count
  findFirstSet x := (h x).words.findFirstSet
  eql x y := by
    rw [eql, (h x).bitLength, (h y).bitLength, Bool.eq_iff_iff,
      Bool.and_eq_true, beq_iff_eq, beq_iff_eq, decide_eq_true_eq, Prod.ext_iff]
    constructor
    · rintro ⟨hlen, hmasks⟩
      have hy := (h y).words
      rw [← hlen] at hy
      exact ⟨hlen, ((h x).words.masks_eq_iff hy).1 hmasks⟩
    · rintro ⟨hlen, hsets⟩
      have hy := (h y).words
      rw [← hlen] at hy
      exact ⟨hlen, ((h x).words.masks_eq_iff hy).2 hsets⟩
  subsetOf x y := by
    rw [subsetOf, (h x).bitLength, (h y).bitLength, Bool.decide_and]
    by_cases hlen : (sets x).1 = (sets y).1
    · have hy := (h y).words
      rw [← hlen] at hy
      rw [(h x).words.subsetOf hy, hlen, beq_self_eq_true, decide_eq_true rfl]
    · rw [beq_eq_false_iff_ne.2 hlen, decide_eq_false hlen, Bool.false_and, Bool.false_and]
  drain x kindSet dirFwd fuel hfuel := by
    rw [iterator, (h x).bitLength]
    exact (h x).words.drain kindSet dirFwd hfuel

/-- One set changes. -/
theorem update (h : store.Holds sets) (x : ℕ) {b : DynamicBitSetUnmanaged} {s : ℕ × Finset ℕ}
    (hb : b.Holds s.1 s.2) :
    BitSetStore.Holds (update store x b) (update sets x s) := by
  intro y
  by_cases hy : y = x
  · subst hy
    rw [update_self, update_self]
    exact hb
  · rw [update_of_ne hy, update_of_ne hy]
    exact h y

theorem step (h : store.Holds sets) {op : BitSetOp} (hop : sets.Admits op) :
    ∃ store', store.step op = some store' ∧ store'.Holds (sets.step op) := by
  have halike : ∀ {x y}, (sets x).1 = (sets y).1 → (store y).Holds (sets x).1 (sets y).2 :=
    fun heq => heq ▸ h _
  cases op with
  | resize x newLen fill => exact ⟨_, rfl, h.update x ((h x).resize newLen fill)⟩
  | set x index => exact ⟨_, rfl, h.update x ((h x).set hop)⟩
  | unset x index => exact ⟨_, rfl, h.update x ((h x).unset hop)⟩
  | setRangeValue x start stop value =>
    exact ⟨_, rfl, h.update x ((h x).setRangeValue value hop.1 hop.2)⟩
  | setAll x value => exact ⟨_, rfl, h.update x ((h x).setAll value)⟩
  | toggleAll x => exact ⟨_, rfl, h.update x (h x).toggleAll⟩
  | copyInto x y =>
    obtain ⟨b, hb, hholds⟩ := (h x).copyInto (h y) hop
    exact ⟨_, by rw [BitSetStore.step, hb]; rfl, h.update x hholds⟩
  | setUnion x y =>
    obtain ⟨b, hb, hholds⟩ := (h x).setUnion (halike hop)
    exact ⟨_, by rw [BitSetStore.step, hb]; rfl, h.update x hholds⟩
  | setIntersection x y =>
    obtain ⟨b, hb, hholds⟩ := (h x).setIntersection (halike hop)
    exact ⟨_, by rw [BitSetStore.step, hb]; rfl, h.update x hholds⟩
  | setExclude x y =>
    obtain ⟨b, hb, hholds⟩ := (h x).setExclude (halike hop)
    exact ⟨_, by rw [BitSetStore.step, hb]; rfl, h.update x hholds⟩
  | clone x y => exact ⟨_, rfl, h.update x (h y).clone⟩
  | fromBytes x bitLength bytes =>
    refine ⟨_, rfl, ?_⟩
    have hempty := DynamicBitSetUnmanaged.Holds.initEmpty bitLength
    rw [NumberSets.step]
    cases hb : fromBytes bitLength bytes with
    | some b =>
      have hlen : bytes.length = 8 * numMasksFor bitLength := by
        rw [fromBytes] at hb
        rw [hempty.words.length] at hb
        by_contra hne
        rw [if_pos hne] at hb
        cases hb
      rw [if_pos hlen]
      exact h.update x (DynamicBitSetUnmanaged.Holds.fromBytes hb)
    | none =>
      have hlen : bytes.length ≠ 8 * numMasksFor bitLength := by
        rw [fromBytes] at hb
        rw [hempty.words.length] at hb
        intro heq
        rw [if_neg (not_not.2 heq)] at hb
        cases hb
      rw [if_neg hlen]
      exact h

theorem run : ∀ {ops : List BitSetOp} {store : BitSetStore} {sets : NumberSets},
    store.Holds sets → sets.AdmitsAll ops →
    ∃ store', store.run ops = some store' ∧ store'.Holds (sets.run ops)
  | [], store, _, h, _ => ⟨store, rfl, h⟩
  | op :: ops, store, sets, h, hops => by
    obtain ⟨store', hstep, h'⟩ := h.step hops.1
    obtain ⟨store'', hrun, h''⟩ := h'.run hops.2
    exact ⟨store'', by rw [BitSetStore.run, hstep, bind_some, hrun], h''⟩

end BitSetStore.Holds

/-! ## Sets of a fixed length -/

/-- What is done to an `AutoBitSet`, or to another set of its length. -/
inductive AutoOp
  | set (x index : ℕ)
  | unset (x index : ℕ)
  | setAll (x : ℕ) (value : Bool)
  | setUnion (x y : ℕ)

/-- `none` is a panic. -/
def autoStep (store : ℕ → AutoBitSet) : AutoOp → Option (ℕ → AutoBitSet)
  | .set x index => some (update store x ((store x).set index))
  | .unset x index => some (update store x ((store x).unset index))
  | .setAll x value => some (update store x ((store x).setAll value))
  | .setUnion x y => ((store x).setUnion (store y)).map (update store x)

def autoRun (store : ℕ → AutoBitSet) : List AutoOp → Option (ℕ → AutoBitSet)
  | [] => some store
  | op :: ops => (autoStep store op).bind fun store => autoRun store ops

/-- The same on a set of any length. -/
def AutoOp.toBitSetOp : AutoOp → BitSetOp
  | .set x index => .set x index
  | .unset x index => .unset x index
  | .setAll x value => .setAll x value
  | .setUnion x y => .setUnion x y

/-- Indices are in range. -/
def AutoOp.InRange (n : ℕ) : AutoOp → Prop
  | .set _ index | .unset _ index => index < n
  | _ => True

/-- The step leaves the bits that a fixed length has beyond `n`. -/
def AutoOp.Fits (n : ℕ) : AutoOp → Prop
  | .setAll _ value => value = true → autoStaticBits ≤ n
  | _ => True

/-- Both kinds give the same answers, to questions about set bits. -/
structure AutoAgrees (n : ℕ) (auto : ℕ → AutoBitSet) (store : BitSetStore) : Prop where
  isSet : ∀ x i, i < n → (auto x).isSet i = (store x).isSet i
  count : ∀ x, (auto x).count = (store x).count
  findFirstSet : ∀ x, (auto x).findFirstSet = (store x).findFirstSet
  subsetOf : ∀ x y, (auto x).subsetOf (auto y) = some ((store x).subsetOf (store y))
  drain : ∀ x (dirFwd : Bool) (fuel : ℕ), n < fuel → autoStaticBits < fuel →
    ((auto x).iterator true dirFwd).drain true dirFwd fuel =
      ((store x).iterator true dirFwd).drain true dirFwd fuel

/-- Both kinds also iterate over the same bits that are not set. -/
def AutoIterates (n : ℕ) (auto : ℕ → AutoBitSet) (store : BitSetStore) : Prop :=
  ∀ x (dirFwd : Bool) (fuel : ℕ), n < fuel → autoStaticBits < fuel →
    ((auto x).iterator false dirFwd).drain false dirFwd fuel =
      ((store x).iterator false dirFwd).drain false dirFwd fuel

/-- Both are the same set of numbers. -/
def Paired (n : ℕ) : AutoBitSet → DynamicBitSetUnmanaged → Finset ℕ → Prop
  | .static a, b, S => n ≤ autoStaticBits ∧ Represents a.masks autoStaticBits S ∧ b.Holds n S
  | .dynamic a, b, S => autoStaticBits < n ∧ a = b ∧ b.Holds n S

namespace Paired

variable {n : ℕ} {a a' : AutoBitSet} {b b' : DynamicBitSetUnmanaged} {S T : Finset ℕ}

section

variable (h : Paired n a b S)
include h

theorem holds : b.Holds n S := by
  cases a with
  | static a => exact h.2.2
  | dynamic a => exact h.2.2

omit h in
theorem static_empty : Represents ({} : ArrayBitSet autoStaticBits).masks autoStaticBits ∅ := by
  refine ⟨length_replicate, by simp, fun i => ?_⟩
  rw [bit_def, getD_eq_getElem?_getD, getElem?_replicate]
  split <;> simp

omit h in
theorem initEmpty (n : ℕ) :
    Paired n (AutoBitSet.initEmpty n) (initEmpty n) ∅ := by
  have hempty := DynamicBitSetUnmanaged.Holds.initEmpty n
  rw [AutoBitSet.initEmpty]
  split
  · exact ⟨‹_›, static_empty, hempty⟩
  · exact ⟨not_le.1 ‹_›, rfl, hempty⟩

theorem set {index : ℕ} (hi : index < n) :
    Paired n (a.set index) (b.set index) (insert index S) := by
  cases a with
  | static a => exact ⟨h.1, h.2.1.set (hi.trans_le h.1), h.2.2.set hi⟩
  | dynamic a => exact ⟨h.1, by rw [h.2.1], h.2.2.set hi⟩

theorem unset {index : ℕ} (hi : index < n) :
    Paired n (a.unset index) (b.unset index) (S.erase index) := by
  cases a with
  | static a => exact ⟨h.1, h.2.1.unset (hi.trans_le h.1), h.2.2.unset hi⟩
  | dynamic a => exact ⟨h.1, by rw [h.2.1], h.2.2.unset hi⟩

theorem setAll (value : Bool) (hn : value = true → autoStaticBits ≤ n) :
    Paired n (a.setAll value) (b.setAll value) (if value then Finset.range n else ∅) := by
  cases a with
  | static a =>
    refine ⟨h.1, ?_, h.2.2.setAll value⟩
    have hwords := h.2.1.setAll value
    cases value with
    | true =>
      rw [le_antisymm h.1 (hn rfl)]
      exact hwords
    | false => exact hwords
  | dynamic a => exact ⟨h.1, by rw [h.2.1], h.2.2.setAll value⟩

theorem setUnion (h' : Paired n a' b' T) :
    ∃ c d, a.setUnion a' = some c ∧ b.setUnion b' = some d ∧ Paired n c d (S ∪ T) := by
  obtain ⟨d, hd, hholds⟩ := h.holds.setUnion h'.holds
  cases a with
  | static a =>
    cases a' with
    | static a' => exact ⟨_, d, rfl, hd, h.1, h.2.1.setUnion h'.2.1, hholds⟩
    | dynamic a' => exact absurd h.1 (not_le.2 h'.1)
  | dynamic a =>
    cases a' with
    | static a' => exact absurd h'.1 (not_le.2 h.1)
    | dynamic a' =>
      refine ⟨.dynamic d, d, ?_, hd, h.1, rfl, hholds⟩
      rw [AutoBitSet.setUnion, h.2.1, h'.2.1, hd]
      rfl

/-! ### Answers -/

theorem isSet (i : ℕ) : a.isSet i = b.isSet i := by
  cases a with
  | static a => exact (h.2.1.isSet i).trans (h.2.2.words.isSet i).symm
  | dynamic a => rw [AutoBitSet.isSet, h.2.1]

theorem count : a.count = b.count := by
  cases a with
  | static a => exact h.2.1.count.trans h.2.2.words.count.symm
  | dynamic a => rw [AutoBitSet.count, h.2.1]

theorem findFirstSet : a.findFirstSet = b.findFirstSet := by
  cases a with
  | static a =>
    refine h.2.1.findFirstSet.trans (Eq.trans ?_ h.2.2.words.findFirstSet.symm)
    rw [elements_eq h.1 h.2.2.words.lt]
  | dynamic a => rw [AutoBitSet.findFirstSet, h.2.1]

theorem subsetOf (h' : Paired n a' b' T) : a.subsetOf a' = some (b.subsetOf b') := by
  cases a with
  | static a =>
    cases a' with
    | static a' =>
      rw [AutoBitSet.subsetOf, ArrayBitSet.subsetOf, h.2.1.subsetOf h'.2.1,
        subsetOf, h.2.2.bitLength, h'.2.2.bitLength,
        h.2.2.words.subsetOf h'.2.2.words, beq_self_eq_true, Bool.true_and]
    | dynamic a' => exact absurd h.1 (not_le.2 h'.1)
  | dynamic a =>
    cases a' with
    | static a' => exact absurd h'.1 (not_le.2 h.1)
    | dynamic a' => rw [AutoBitSet.subsetOf, h.2.1, h'.2.1]

/-- The set bits are the same, and the unset bits are when the length is that of the words. -/
theorem drain (kindSet dirFwd : Bool)
    (hkind : kindSet = false → autoStaticBits ≤ n) {fuel : ℕ} (hn : n < fuel)
    (hfuel : autoStaticBits < fuel) : (a.iterator kindSet dirFwd).drain kindSet dirFwd fuel =
      (b.iterator kindSet dirFwd).drain kindSet dirFwd fuel := by
  cases a with
  | static a =>
    have hb := h.2.2.words.drain kindSet dirFwd hn
    rw [← h.2.2.bitLength] at hb
    refine (h.2.1.drain kindSet dirFwd hfuel).trans (Eq.trans ?_ hb.symm)
    rw [h.2.2.bitLength]
    cases kindSet with
    | true => simp only [if_true, elements_eq h.1 h.2.2.words.lt]
    | false => rw [le_antisymm h.1 (hkind rfl)]
  | dynamic a => rw [AutoBitSet.iterator, h.2.1]

end

end Paired

section AutoRun

variable {n : ℕ} {auto : ℕ → AutoBitSet} {store : BitSetStore}

/-- All sets are paired. -/
def AllPaired (n : ℕ) (auto : ℕ → AutoBitSet) (store : BitSetStore) : Prop :=
  ∃ S : ℕ → Finset ℕ, ∀ x, Paired n (auto x) (store x) (S x)

section

variable (h : AllPaired n auto store)
include h

theorem AllPaired.agrees : AutoAgrees n auto store := by
  obtain ⟨S, h⟩ := h
  exact {
    isSet := fun x i _ => (h x).isSet i
    count := fun x => (h x).count
    findFirstSet := fun x => (h x).findFirstSet
    subsetOf := fun x y => (h x).subsetOf (h y)
    drain := fun x dirFwd _ hn hfuel => (h x).drain true dirFwd (by simp) hn hfuel }

theorem AllPaired.iterates (hn : autoStaticBits ≤ n) : AutoIterates n auto store := by
  obtain ⟨S, h⟩ := h
  exact fun x dirFwd _ hn' hfuel => (h x).drain false dirFwd (fun _ => hn) hn' hfuel

theorem AllPaired.update (x : ℕ) {a : AutoBitSet}
    {b : DynamicBitSetUnmanaged} {T : Finset ℕ} (hab : Paired n a b T) :
    AllPaired n (update auto x a) (update store x b) := by
  obtain ⟨S, h⟩ := h
  refine ⟨Function.update S x T, fun y => ?_⟩
  by_cases hy : y = x
  · subst hy
    rw [update_self, update_self, update_self]
    exact hab
  · rw [update_of_ne hy, update_of_ne hy, update_of_ne hy]
    exact h y

theorem AllPaired.step {op : AutoOp} (hrange : op.InRange n)
    (hfits : op.Fits n) : ∃ auto' store', autoStep auto op = some auto' ∧
      store.step op.toBitSetOp = some store' ∧ AllPaired n auto' store' := by
  obtain ⟨S, hS⟩ := id h
  cases op with
  | set x index => exact ⟨_, _, rfl, rfl, h.update x ((hS x).set hrange)⟩
  | unset x index => exact ⟨_, _, rfl, rfl, h.update x ((hS x).unset hrange)⟩
  | setAll x value => exact ⟨_, _, rfl, rfl, h.update x ((hS x).setAll value hfits)⟩
  | setUnion x y =>
    obtain ⟨c, d, hc, hd, hcd⟩ := (hS x).setUnion (hS y)
    refine ⟨_, _, by rw [autoStep, hc]; rfl, ?_, h.update x hcd⟩
    rw [AutoOp.toBitSetOp, BitSetStore.step, hd]
    rfl

end

theorem AllPaired.run : ∀ {ops : List AutoOp} {auto : ℕ → AutoBitSet} {store : BitSetStore},
    AllPaired n auto store → (∀ op ∈ ops, op.InRange n ∧ op.Fits n) →
    ∃ auto' store', autoRun auto ops = some auto' ∧
      store.run (ops.map AutoOp.toBitSetOp) = some store' ∧ AllPaired n auto' store'
  | [], auto, store, h, _ => ⟨auto, store, rfl, rfl, h⟩
  | op :: ops, auto, store, h, hops => by
    obtain ⟨hrange, hfits⟩ := hops op mem_cons_self
    obtain ⟨auto', store', hauto, hstore, h'⟩ := h.step hrange hfits
    obtain ⟨auto'', store'', hauto', hstore', h''⟩ :=
      h'.run fun op hop => hops op (mem_cons_of_mem _ hop)
    refine ⟨auto'', store'', ?_, ?_, h''⟩
    · rw [autoRun, hauto, bind_some, hauto']
    · rw [map_cons, BitSetStore.run, hstore, bind_some, hstore']

/-- Both kinds of a length, run side by side from empty sets. -/
def AutoRun (n : ℕ) (ops : List AutoOp) (auto : ℕ → AutoBitSet) (store : BitSetStore) : Prop :=
  autoRun (fun _ => AutoBitSet.initEmpty n) ops = some auto ∧
    BitSetStore.run (fun _ => initEmpty n) (ops.map AutoOp.toBitSetOp) =
      some store

theorem autoRun_paired {ops : List AutoOp} (hops : ∀ op ∈ ops, op.InRange n ∧ op.Fits n) :
    ∃ auto store, AutoRun n ops auto store ∧ AllPaired n auto store := by
  have hinit : AllPaired n (fun _ => AutoBitSet.initEmpty n)
      (fun _ => initEmpty n) :=
    ⟨fun _ => ∅, fun _ => Paired.initEmpty n⟩
  obtain ⟨auto, store, hauto, hstore, h⟩ := hinit.run hops
  exact ⟨auto, store, ⟨hauto, hstore⟩, h⟩

/-- After `set_all(true)` a set of a length below `127` has `127` numbers. -/
theorem autoRun_setAll (hn : n < autoStaticBits) :
    ∃ auto store, AutoRun n [.setAll 0 true] auto store ∧
      (auto 0).count = autoStaticBits ∧ (store 0).count = n := by
  refine ⟨_, _, ⟨rfl, rfl⟩, ?_, ?_⟩
  · rw [update_self, AutoBitSet.initEmpty, if_pos (le_of_lt hn)]
    exact (Paired.static_empty.setAll true).count.trans (Finset.card_range _)
  · rw [update_self]
    exact ((DynamicBitSetUnmanaged.Holds.initEmpty n).setAll true).words.count.trans
      (Finset.card_range _)

end AutoRun

/-! ## All runs -/

/-- Sets of any length agree with sets of numbers; an `AutoBitSet` agrees with a set of its length
in every run without `set_all(true)` on a length below `127`, and in all runs exactly from that
length on. -/
theorem runs_agree (n : ℕ) :
    (∀ ops, NumberSets.AdmitsAll (fun _ => (0, ∅)) ops → ∃ store,
      BitSetStore.run (fun _ => {}) ops = some store ∧
        store.Agrees (NumberSets.run (fun _ => (0, ∅)) ops)) ∧
    (∀ ops, (∀ op ∈ ops, op.InRange n ∧ op.Fits n) → ∃ auto store, AutoRun n ops auto store ∧
      AutoAgrees n auto store ∧ (autoStaticBits ≤ n → AutoIterates n auto store)) ∧
    ((∀ ops : List AutoOp, (∀ op ∈ ops, op.InRange n) → ∃ auto store,
      AutoRun n ops auto store ∧ AutoAgrees n auto store ∧ AutoIterates n auto store) ↔
        autoStaticBits ≤ n) := by
  refine ⟨fun ops hops => ?_, fun ops hops => ?_, fun h => ?_, fun hn ops hops => ?_⟩
  · have hinit : BitSetStore.Holds (fun _ => {}) fun _ => (0, ∅) :=
      fun _ => DynamicBitSetUnmanaged.Holds.empty
    obtain ⟨store, hrun, h⟩ := hinit.run hops
    exact ⟨store, hrun, h.agrees⟩
  · obtain ⟨auto, store, hrun, h⟩ := autoRun_paired hops
    exact ⟨auto, store, hrun, h.agrees, h.iterates⟩
  · by_contra hn
    obtain ⟨auto, store, hrun, hagrees, -⟩ := h [.setAll 0 true] (by simp [AutoOp.InRange])
    obtain ⟨auto', store', hrun', hauto, hstore⟩ := autoRun_setAll (not_le.1 hn)
    obtain rfl := some.inj (hrun.1.symm.trans hrun'.1)
    obtain rfl := some.inj (hrun.2.symm.trans hrun'.2)
    have hcount := hagrees.count 0
    omega
  · obtain ⟨auto, store, hrun, h⟩ := autoRun_paired fun op hop => ⟨hops op hop, by
      cases op with
      | setAll x value => exact fun _ => hn
      | _ => trivial⟩
    exact ⟨auto, store, hrun, h.agrees, h.iterates hn⟩

/-- A set of `70` numbers of which one is removed, and an `AutoBitSet` of length `10`. -/
theorem runs_agree_unset :
    (∃ store, BitSetStore.run (fun _ => {}) [.resize 0 70 true, .unset 0 65] = some store ∧
      store.Agrees (NumberSets.run (fun _ => (0, ∅)) [.resize 0 70 true, .unset 0 65])) ∧
    ∃ auto store, AutoRun 10 [.set 0 3, .setUnion 1 0] auto store ∧ AutoAgrees 10 auto store :=
  ⟨(runs_agree 10).1 _ ⟨trivial, (by decide : 65 < 70), trivial⟩, by
    obtain ⟨auto, store, hrun, h, -⟩ := (runs_agree 10).2.1 [.set 0 3, .setUnion 1 0]
      (by simp [AutoOp.InRange, AutoOp.Fits])
    exact ⟨auto, store, hrun, h⟩⟩

/-- A set of length `10` with all numbers has `127` as an `AutoBitSet`, and a copy of a shorter set
reads a word that it does not have. -/
theorem autoRun_setAll_ten :
    (∃ auto store, AutoRun 10 [.setAll 0 true] auto store ∧
      (auto 0).count = 127 ∧ (store 0).count = 10) ∧
    BitSetStore.run (fun _ => {}) [.resize 0 10 false, .resize 1 100 false, .copyInto 1 0] = none :=
  ⟨autoRun_setAll (by decide), rfl⟩

end Soup.Collections
