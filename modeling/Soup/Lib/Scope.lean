import Mathlib.Algebra.Order.Ring.Int
import Mathlib.Data.List.Basic
import Mathlib.Order.Nat

/-!
# Scopes

Scopes lie below one another, and each holds rows with a key. A lookup goes up from a scope to the
first one that holds a row with the key (`Finds`), or to a root without finding any (`Misses`).
Rows are only ever added. A row that is added to a root hides nothing (`Finds.push_root`), a row
with another key changes nothing (`finds_push_of_ne`), and a row that is added to one scope does not
change what a scope with a smaller number finds (`finds_push_of_lt`).
-/

namespace Soup.Lib

open Function Option List

variable {β κ : Type}

/-- Scopes, with the scope that each lies below. -/
@[ext]
structure Scopes (β : Type) where
  parent : ℕ → Option ℕ
  rows : ℕ → List β

namespace Scopes

/-- A scope with one more row. -/
def push (s : Scopes β) (r : ℕ) (x : β) : Scopes β :=
  { s with rows := update s.rows r (s.rows r ++ [x]) }

/-- A scope comes after the one it lies below. -/
def Grounded (s : Scopes β) : Prop := ∀ i p, s.parent i = some p → p < i

/-- The scope some steps up. -/
def above (s : Scopes β) : ℕ → ℕ → Option ℕ
  | 0, i => some i
  | k + 1, i => (s.parent i).bind (s.above k)

variable [DecidableEq κ] (key : β → κ) {s : Scopes β} {i r : ℕ} {k : κ} {x y : β}

/-- The row with a key that a scope holds. -/
def own (s : Scopes β) (i : ℕ) (k : κ) : Option β := (s.rows i).find? fun x => key x = k

/-- The lookup of a key ends at a row. -/
inductive Finds (s : Scopes β) (k : κ) : ℕ → β → Prop
  | here {i : ℕ} {x : β} : s.own key i k = some x → Finds s k i x
  | above {i p : ℕ} {x : β} : s.own key i k = none → s.parent i = some p → Finds s k p x →
    Finds s k i x

/-- The lookup of a key ends at a root without a row. -/
inductive Misses (s : Scopes β) (k : κ) : ℕ → ℕ → Prop
  | root {r : ℕ} : s.own key r k = none → s.parent r = none → Misses s k r r
  | above {i p r : ℕ} : s.own key i k = none → s.parent i = some p → Misses s k p r →
    Misses s k i r

variable {key}

theorem own_mem (h : s.own key i k = some x) : x ∈ s.rows i ∧ key x = k := by
  refine ⟨mem_of_find?_eq_some h, ?_⟩
  simpa using find?_some h

theorem own_eq_none : s.own key i k = none ↔ ∀ x ∈ s.rows i, key x ≠ k := by
  rw [own, find?_eq_none]
  simp

theorem rows_push_self : (s.push r x).rows r = s.rows r ++ [x] := update_self ..

theorem rows_push_ne (h : i ≠ r) : (s.push r x).rows i = s.rows i := update_of_ne h ..

theorem own_push_self : (s.push r x).own key r k =
    (s.own key r k).or (if key x = k then some x else none) := by
  rw [own, rows_push_self, find?_append, ← own]
  by_cases hx : key x = k
  · simp [hx]
  · simp [hx]

theorem own_push_ne (h : i ≠ r) : (s.push r x).own key i k = s.own key i k := by
  rw [own, rows_push_ne h, ← own]

theorem own_push_of_ne (h : key x ≠ k) : (s.push r x).own key i k = s.own key i k := by
  by_cases hi : i = r
  · subst hi
    rw [own_push_self, if_neg h, or_none]
  · exact own_push_ne hi

/-! ## Lookups -/

theorem Finds.unique (h : Finds key s k i x) (h' : Finds key s k i y) : x = y := by
  induction h with
  | here hown =>
    cases h' with
    | here hown' => exact some.inj (hown.symm.trans hown')
    | above hown' => rw [hown] at hown'; cases hown'
  | above hown hparent _ ih =>
    cases h' with
    | here hown' => rw [hown] at hown'; cases hown'
    | above hown' hparent' h' =>
      obtain rfl := some.inj (hparent.symm.trans hparent')
      exact ih h'

theorem Finds.not_misses (h : Finds key s k i x) : ¬Misses key s k i r := by
  intro h'
  induction h with
  | here hown =>
    cases h' with
    | root hown' => rw [hown] at hown'; cases hown'
    | above hown' => rw [hown] at hown'; cases hown'
  | above hown hparent _ ih =>
    cases h' with
    | root hown' hparent' => rw [hparent] at hparent'; cases hparent'
    | above hown' hparent' h' =>
      obtain rfl := some.inj (hparent.symm.trans hparent')
      exact ih h'

variable (key) in
theorem finds_or_misses (h : s.Grounded) (k : κ) (i : ℕ) :
    (∃ x, Finds key s k i x) ∨ ∃ r, Misses key s k i r := by
  induction i using Nat.strong_induction_on with
  | _ i ih =>
    cases hown : s.own key i k with
    | some x => exact .inl ⟨x, .here hown⟩
    | none =>
      cases hparent : s.parent i with
      | none => exact .inr ⟨i, .root hown hparent⟩
      | some p =>
        rcases ih p (h i p hparent) with ⟨x, hx⟩ | ⟨r, hr⟩
        · exact .inl ⟨x, .above hown hparent hx⟩
        · exact .inr ⟨r, .above hown hparent hr⟩

theorem Finds.key_eq (h : Finds key s k i x) : key x = k := by
  induction h with
  | here hown => exact (own_mem hown).2
  | above _ _ _ ih => exact ih

/-- What a lookup finds is a row of a scope at or before the one it starts from. -/
theorem Finds.exists_rows (hs : s.Grounded) (h : Finds key s k i x) : ∃ j ≤ i, x ∈ s.rows j := by
  induction h with
  | here hown => exact ⟨_, le_rfl, (own_mem hown).1⟩
  | above _ hparent _ ih =>
    obtain ⟨j, hj, hx⟩ := ih
    exact ⟨j, hj.trans (hs _ _ hparent).le, hx⟩

theorem Misses.root_spec (hs : s.Grounded) (h : Misses key s k i r) :
    r ≤ i ∧ s.parent r = none ∧ s.own key r k = none := by
  induction h with
  | root hown hparent => exact ⟨le_rfl, hparent, hown⟩
  | above _ hparent _ ih => exact ⟨ih.1.trans (hs _ _ hparent).le, ih.2⟩

/-- A lookup reads the scopes at or before the one it starts from. -/
theorem Finds.of_eq {t : Scopes β} (hs : s.Grounded) (hparent : ∀ j ≤ i, t.parent j = s.parent j)
    (hrows : ∀ j ≤ i, t.rows j = s.rows j) (h : Finds key s k i x) : Finds key t k i x := by
  induction h with
  | @here i x hown =>
    refine .here ?_
    rwa [own, hrows i le_rfl, ← own]
  | @above i p x hown hp _ ih =>
    have hlt := hs _ _ hp
    refine .above ?_ (by rwa [hparent i le_rfl]) (ih (fun j hj => hparent j (hj.trans hlt.le))
      fun j hj => hrows j (hj.trans hlt.le))
    rwa [own, hrows i le_rfl, ← own]

theorem finds_congr {t : Scopes β} (hs : s.Grounded) (hparent : ∀ j ≤ i, t.parent j = s.parent j)
    (hrows : ∀ j ≤ i, t.rows j = s.rows j) : Finds key t k i x ↔ Finds key s k i x := by
  constructor
  · intro h
    induction h with
    | @here i x hown =>
      refine .here ?_
      rwa [own, hrows i le_rfl, ← own] at hown
    | @above i p x hown hp _ ih =>
      rw [own, hrows i le_rfl, ← own] at hown
      rw [hparent i le_rfl] at hp
      have hlt := hs _ _ hp
      exact .above hown hp (ih (fun j hj => hparent j (hj.trans hlt.le))
        fun j hj => hrows j (hj.trans hlt.le))
  · exact fun h => h.of_eq hs hparent hrows

/-! ## One more row -/

theorem finds_push_of_ne (h : key x ≠ k) : Finds key (s.push r x) k i y ↔ Finds key s k i y := by
  constructor
  · intro h'
    induction h' with
    | here hown => exact .here (by rwa [own_push_of_ne h] at hown)
    | above hown hparent _ ih => exact .above (by rwa [own_push_of_ne h] at hown) hparent ih
  · intro h'
    induction h' with
    | here hown => exact .here (by rwa [own_push_of_ne h])
    | above hown hparent _ ih => exact .above (by rwa [own_push_of_ne h]) hparent ih

theorem finds_push_of_lt (hs : s.Grounded) (hi : i < r) :
    Finds key (s.push r x) k i y ↔ Finds key s k i y :=
  finds_congr hs (fun _ _ => rfl) fun _ hj => rows_push_ne (hj.trans_lt hi).ne

/-- A row of a root is the last that a lookup comes to. -/
theorem Finds.push_root (hr : s.parent r = none) (h : Finds key s k i y) :
    Finds key (s.push r x) k i y := by
  induction h with
  | @here i y hown =>
    refine .here ?_
    by_cases hi : i = r
    · subst hi
      rw [own_push_self, hown, some_or]
    · rwa [own_push_ne hi]
  | @above i p y hown hparent _ ih =>
    have hi : i ≠ r := by
      rintro rfl
      rw [hr] at hparent
      cases hparent
    exact .above (by rwa [own_push_ne hi]) hparent ih

/-- The row that a lookup has missed. -/
theorem Misses.finds_push (h : Misses key s k i r) (hx : key x = k) :
    Finds key (s.push r x) k i x := by
  induction h with
  | root hown hparent =>
    refine .here ?_
    rw [own_push_self, hown, if_pos hx, none_or]
  | @above i p r hown hparent _ ih =>
    by_cases hi : i = r
    · subst hi
      refine .here ?_
      rw [own_push_self, hown, if_pos hx, none_or]
    · exact .above (by rwa [own_push_ne hi]) hparent ih

/-- What a row of a root, the only one that lookups end at, changes. -/
theorem finds_push_root (hs : s.Grounded) (hr : s.parent r = none)
    (honly : ∀ r', Misses key s k i r' → r' = r) :
    Finds key (s.push r x) k i y ↔
      Finds key s k i y ∨ (∀ z, ¬Finds key s k i z) ∧ key x = k ∧ y = x := by
  constructor
  · intro h
    by_cases hx : key x = k
    · rcases finds_or_misses key hs k i with ⟨z, hz⟩ | ⟨r', hr'⟩
      · rw [h.unique (hz.push_root hr)]
        exact .inl hz
      · obtain rfl := honly r' hr'
        exact .inr ⟨fun z hz => hz.not_misses hr', hx, h.unique (hr'.finds_push hx)⟩
    · exact .inl ((finds_push_of_ne hx).1 h)
  · rintro (h | ⟨hnone, hx, rfl⟩)
    · exact h.push_root hr
    · rcases finds_or_misses key hs k i with ⟨z, hz⟩ | ⟨r', hr'⟩
      · exact absurd hz (hnone z)
      · obtain rfl := honly r' hr'
        exact hr'.finds_push hx

/-! ## Scopes that find the same -/

/-- Every lookup ends the same from both scopes. -/
def Twins (key : β → κ) (s : Scopes β) (i j : ℕ) : Prop :=
  ∀ k x, Finds key s k i x ↔ Finds key s k j x

theorem Twins.symm {j : ℕ} (h : Twins key s i j) : Twins key s j i := fun k x => (h k x).symm

theorem Twins.push_of_lt {j : ℕ} (hs : s.Grounded) (hi : i < r) (hj : j < r)
    (h : Twins key s i j) : Twins key (s.push r x) i j := fun k y => by
  rw [finds_push_of_lt hs hi, finds_push_of_lt hs hj, h k y]

theorem Twins.push_root {j : ℕ} (hs : s.Grounded) (hr : s.parent r = none)
    (hi : ∀ k r', Misses key s k i r' → r' = r) (hj : ∀ k r', Misses key s k j r' → r' = r)
    (h : Twins key s i j) : Twins key (s.push r x) i j := fun k y => by
  rw [finds_push_root hs hr (hi k), finds_push_root hs hr (hj k)]
  simp only [h k _]

/-- Scopes with the same rows below such scopes. -/
theorem twins_of_rows {j p q : ℕ} (hi : s.parent i = some p) (hj : s.parent j = some q)
    (hrows : s.rows i = s.rows j) (h : Twins key s p q) : Twins key s i j := by
  have hown : ∀ k, s.own key i k = s.own key j k := fun k => by rw [own, own, hrows]
  refine fun k x => ⟨fun hx => ?_, fun hx => ?_⟩
  · cases hx with
    | here hx => exact .here (by rwa [← hown k])
    | above hnone hp hx =>
      obtain rfl := some.inj (hi.symm.trans hp)
      exact .above (by rwa [← hown k]) hj ((h k x).1 hx)
  · cases hx with
    | here hx => exact .here (by rwa [hown k])
    | above hnone hq hx =>
      obtain rfl := some.inj (hj.symm.trans hq)
      exact .above (by rwa [hown k]) hi ((h k x).2 hx)

/-! ## Steps up -/

theorem above_add (m n i : ℕ) : s.above (m + n) i = (s.above m i).bind (s.above n) := by
  induction m generalizing i with
  | zero => rw [zero_add, above, bind_some]
  | succ m ih =>
    rw [Nat.succ_add, above, above]
    cases s.parent i with
    | none => rfl
    | some p => exact ih p

theorem above_le (hs : s.Grounded) {n a : ℕ} (h : s.above n i = some a) : a + n ≤ i := by
  induction n generalizing i with
  | zero => exact (some.inj h).ge
  | succ n ih =>
    obtain ⟨p, hp, ha⟩ := bind_eq_some_iff.1 h
    have := ih ha
    have := hs i p hp
    omega

/-- A lookup passes over scopes without a row for the key. -/
theorem finds_of_above {n a : ℕ} (h : s.above n i = some a)
    (hnone : ∀ m < n, ∀ c, s.above m i = some c → s.own key c k = none)
    (ha : Finds key s k a x) : Finds key s k i x := by
  induction n generalizing i with
  | zero =>
    obtain rfl := some.inj h
    exact ha
  | succ n ih =>
    obtain ⟨p, hp, hup⟩ := bind_eq_some_iff.1 h
    refine .above (hnone 0 n.succ_pos i rfl) hp (ih hup fun m hm c hc => ?_)
    refine hnone (m + 1) (Nat.succ_lt_succ hm) c ?_
    rw [above, hp, bind_some, hc]

end Scopes

end Soup.Lib
