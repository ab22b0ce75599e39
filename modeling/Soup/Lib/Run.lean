import Mathlib.Algebra.Order.Ring.Int
import Mathlib.Data.List.Basic
import Mathlib.Order.Filter.AtTopBot.Basic

/-!
# Runs that may fail

A loop whose body may give up is `List.foldlM` in `Except`. An invariant of such a loop speaks of
the items that are still to come and of the state.
-/

namespace Soup.Lib

open List

variable {α σ ε : Type} {f : σ → α → Except ε σ}

/-- The invariant rule of a loop: what each step carries from the items that are left to those
behind the first holds of no item at the end. -/
theorem foldlM_invariant (P : List α → σ → Prop)
    (step : ∀ x xs s s', f s x = .ok s' → P (x :: xs) s → P xs s') :
    ∀ {xs : List α} {s s' : σ}, xs.foldlM f s = .ok s' → P xs s → P [] s'
  | [], s, s', h, hs => by
    cases h
    exact hs
  | x :: xs, s, s', h, hs => by
    rw [foldlM_cons] at h
    cases hx : f s x with
    | error e => rw [hx] at h; cases h
    | ok t =>
      rw [hx] at h
      exact foldlM_invariant P step h (step x xs s t hx hs)

variable {β : Type}

/-- A step that went through, taken apart. -/
theorem bind_eq_ok {x : Except ε α} {f : α → Except ε β} {r : β}
    (h : x >>= f = .ok r) : ∃ y, x = .ok y ∧ f y = .ok r := by
  cases x with
  | error e => cases h
  | ok y => exact ⟨y, rfl, h⟩

/-- The same for a result that was only mapped. -/
theorem map_eq_ok {x : Except ε α} {f : α → β} {y : β} (h : x.map f = .ok y) :
    ∃ a, x = .ok a ∧ f a = y := by
  cases x with
  | error e => cases h
  | ok a =>
    cases h
    exact ⟨a, rfl, rfl⟩

/-- What holds of the results of both branches holds of the result. -/
theorem ok_ite {P : α → Prop} {p : Prop} [Decidable p] {x y : Except ε α}
    (hx : ∀ a, x = .ok a → P a)
    (hy : ∀ a, y = .ok a → P a) : ∀ a, (if p then x else y) = .ok a → P a := by
  split
  · exact hx
  · exact hy

@[simp] theorem ok_bind (x : α) (f : α → Except ε β) :
    (Except.ok x >>= f) = f x := rfl

theorem mapM_ok {f : α → Except ε β} {g : α → β} : ∀ {xs : List α},
    (∀ x ∈ xs, f x = .ok (g x)) → xs.mapM f = .ok (xs.map g)
  | [], _ => rfl
  | x :: xs, h => by
    rw [mapM_cons, h x mem_cons_self, ok_bind, mapM_ok fun y hy => h y (mem_cons_of_mem _ hy)]
    rfl

theorem mapM_some {f : α → Option β} {g : α → β} : ∀ {xs : List α},
    (∀ x ∈ xs, f x = some (g x)) → xs.mapM f = some (xs.map g)
  | [], _ => rfl
  | x :: xs, h => by
    rw [mapM_cons, h x mem_cons_self, mapM_some fun y hy => h y (mem_cons_of_mem _ hy)]
    rfl

variable {P : List α → σ → Prop}

/-- The rule of a loop that does not give up, where the invariant speaks of the items behind. -/
theorem eventually_foldlM {f : ℕ → σ → α → Except ε σ} (xs : List α) {s : σ}
    (start : P [] s) (step : ∀ done x rest, xs = done ++ x :: rest → ∀ s, P done s →
      ∃ s', (∀ᶠ fuel in Filter.atTop, f fuel s x = .ok s') ∧ P (done ++ [x]) s') :
    ∃ s', (∀ᶠ fuel in Filter.atTop, xs.foldlM (f fuel) s = .ok s') ∧ P xs s' := by
  have hrun : ∀ (rest done : List α) (s : σ), xs = done ++ rest → P done s →
      ∃ s', (∀ᶠ fuel in Filter.atTop, rest.foldlM (f fuel) s = .ok s') ∧ P xs s' := by
    intro rest
    induction rest with
    | nil =>
      intro done s hxs hs
      rw [append_nil] at hxs
      exact ⟨s, .of_forall fun _ => rfl, hxs ▸ hs⟩
    | cons x rest ih =>
      intro done s hxs hs
      obtain ⟨t, hx, ht⟩ := step done x rest hxs s hs
      obtain ⟨s', hrest, hs'⟩ := ih (done ++ [x]) t (by rw [hxs, List.append_assoc]; rfl) ht
      refine ⟨s', ?_, hs'⟩
      filter_upwards [hx, hrest] with fuel hx hrest
      rw [foldlM_cons, hx]
      exact hrest
  exact hrun xs [] s rfl start

/-- The same for steps without fuel. -/
theorem exists_foldlM (xs : List α) {s : σ}
    (start : P [] s) (step : ∀ done x rest, xs = done ++ x :: rest → ∀ s, P done s →
      ∃ s', f s x = .ok s' ∧ P (done ++ [x]) s') : ∃ s', xs.foldlM f s = .ok s' ∧ P xs s' := by
  obtain ⟨s', hrun, hs'⟩ :=
    eventually_foldlM (f := fun _ => f) xs start fun done x rest hxs s hs => by
    obtain ⟨t, hx, ht⟩ := step done x rest hxs s hs
    exact ⟨t, .of_forall fun _ => hx, ht⟩
  obtain ⟨-, hrun⟩ := hrun.exists
  exact ⟨s', hrun, hs'⟩

/-- A loop with fuel goes through when its first step does and leaves such a loop. -/
theorem eventually_succ {f : ℕ → Except ε σ} {s : σ}
    (h : ∀ᶠ fuel in Filter.atTop, f (fuel + 1) = .ok s) :
    ∀ᶠ fuel in Filter.atTop, f fuel = .ok s := by
  rw [Filter.eventually_atTop] at h ⊢
  obtain ⟨least, h⟩ := h
  refine ⟨least + 1, fun fuel hle => ?_⟩
  obtain ⟨k, rfl⟩ := Nat.exists_eq_add_of_le hle
  have := h (least + k) (Nat.le_add_right _ _)
  rwa [show least + 1 + k = least + k + 1 by omega]

end Soup.Lib
