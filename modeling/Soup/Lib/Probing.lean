import Mathlib.Algebra.Order.Ring.Int

/-!
# Open addressing

A table whose entries are found by going from a home to the next place, and the next, until an entry
is taken or a place is free (`probe`). The table is `Probed` when no place is free between an entry
and its home. Then a search that ends finds an entry that it takes, if there is one
(`Probed.probe_ok`), and the free place that ends a search is where the entry goes (`Probed.put`).
-/

namespace Soup.Lib

open Function Option Nat

variable {α : Type*} {slots : ℕ → Option α} {next : ℕ → ℕ} {home : α → ℕ} {accept : α → Bool}
  {fuel place : ℕ} {a : α}

/-- The first entry that is taken, or the free place that ends the search. -/
def probe (slots : ℕ → Option α) (next : ℕ → ℕ) (accept : α → Bool) : ℕ → ℕ → Option (Except ℕ α)
  | 0, _ => none
  | fuel + 1, place =>
    match slots place with
    | none => some (.error place)
    | some a => if accept a then some (.ok a) else probe slots next accept fuel (next place)

/-- No place is free between an entry and its home. -/
def Probed (slots : ℕ → Option α) (next : ℕ → ℕ) (home : α → ℕ) : Prop :=
  ∀ place a, slots place = some a →
    ∃ d, next^[d] (home a) = place ∧ ∀ k < d, slots (next^[k] (home a)) ≠ none

/-- A search that passes a free place in time ends at an entry that it takes, or at a free place
with none before. -/
theorem probe_spec (slots : ℕ → Option α) (next : ℕ → ℕ) (accept : α → Bool)
    (hfree : ∃ k < fuel, slots (next^[k] place) = none) : ∃ k,
    (∀ j < k, ∃ b, slots (next^[j] place) = some b ∧ accept b = false) ∧
    ((∃ a, slots (next^[k] place) = some a ∧ accept a = true ∧
        probe slots next accept fuel place = some (.ok a)) ∨
      slots (next^[k] place) = none ∧ probe slots next accept fuel place =
        some (.error (next^[k] place))) := by
  induction fuel generalizing place with
  | zero =>
    obtain ⟨k, hk, -⟩ := hfree
    exact absurd hk (not_lt_zero k)
  | succ fuel ih =>
    cases hslot : slots place with
    | none =>
      refine ⟨0, fun j hj => absurd hj (not_lt_zero j), .inr ⟨hslot, ?_⟩⟩
      rw [probe, hslot]
      rfl
    | some a =>
      cases haccept : accept a with
      | true =>
        refine ⟨0, fun j hj => absurd hj (not_lt_zero j), .inl ⟨a, hslot, haccept, ?_⟩⟩
        rw [probe, hslot]
        exact if_pos haccept
      | false =>
        have hlater : ∃ k < fuel, slots (next^[k] (next place)) = none := by
          obtain ⟨k, hk, hnone⟩ := hfree
          cases k with
          | zero =>
            rw [iterate_zero_apply, hslot] at hnone
            cases hnone
          | succ k => exact ⟨k, lt_of_succ_lt_succ hk, hnone⟩
        obtain ⟨k, hbefore, hend⟩ := ih hlater
        have hstep : probe slots next accept (fuel + 1) place =
            probe slots next accept fuel (next place) := by
          rw [probe, hslot]
          exact if_neg (Bool.eq_false_iff.1 haccept)
        refine ⟨k + 1, fun j hj => ?_, ?_⟩
        · cases j with
          | zero => exact ⟨a, hslot, haccept⟩
          | succ j => exact hbefore j (lt_of_succ_lt_succ hj)
        · rw [hstep]
          exact hend

/-- An entry that is taken is not missed. -/
theorem Probed.probe_ok (h : Probed slots next home) (accept : α → Bool) (ha : slots place = some a)
    (haccept : accept a = true) (hfree : ∃ k < fuel, slots (next^[k] (home a)) = none) :
    ∃ b, probe slots next accept fuel (home a) = some (.ok b) := by
  obtain ⟨k, hbefore, ⟨b, -, -, hb⟩ | ⟨hnone, -⟩⟩ := probe_spec slots next accept hfree
  · exact ⟨b, hb⟩
  · obtain ⟨d, hd, hoccupied⟩ := h place a ha
    rcases lt_trichotomy d k with hlt | rfl | hgt
    · obtain ⟨b, hb, hreject⟩ := hbefore d hlt
      rw [hd, ha] at hb
      obtain rfl := some.inj hb
      rw [haccept] at hreject
      cases hreject
    · rw [hd, ha] at hnone
      cases hnone
    · exact absurd hnone (hoccupied k hgt)

/-- An entry goes to the first free place from its home on. -/
theorem Probed.put (h : Probed slots next home) {k : ℕ} (hplace : next^[k] (home a) = place)
    (hbefore : ∀ j < k, slots (next^[j] (home a)) ≠ none) :
    Probed (update slots place (some a)) next home := by
  have hstays {i : ℕ} (hi : slots i ≠ none) : update slots place (some a) i ≠ none := by
    by_cases heq : i = place
    · rw [heq, update_self]
      exact some_ne_none a
    · rw [update_of_ne heq]
      exact hi
  intro i c hc
  by_cases heq : i = place
  · rw [heq, update_self] at hc
    obtain rfl := some.inj hc
    exact ⟨k, hplace.trans heq.symm, fun j hj => hstays (hbefore j hj)⟩
  · rw [update_of_ne heq] at hc
    obtain ⟨d, hd, hoccupied⟩ := h i c hc
    exact ⟨d, hd, fun j hj => hstays (hoccupied j hj)⟩

end Soup.Lib
