import Mathlib.Algebra.Order.Ring.Int

/-!
# Strongly connected parts of a graph

Two nodes are `Mutual` when each leads to the other. A search that is about to take a part off its
stack knows that what is done is closed, that the part only leads to itself and to what is done, and
that its top leads to all of it and all of it to its top. Then the part is a whole class of `Mutual`
(`mutual_iff_of_part`).
-/

namespace Soup.Lib

open Relation (ReflTransGen)

variable {α : Type*} {r : α → α → Prop} {a b c : α}

/-- Each leads to the other. -/
def Mutual (r : α → α → Prop) (a b : α) : Prop := ReflTransGen r a b ∧ ReflTransGen r b a

theorem Mutual.symm (h : Mutual r a b) : Mutual r b a := ⟨h.2, h.1⟩

/-- What is closed under edges is closed under paths. -/
theorem closed_reach {p : α → Prop} (hclosed : ∀ a b, p a → r a b → p b)
    (hreach : ReflTransGen r a b) (ha : p a) : p b := by
  induction hreach with
  | refl => exact ha
  | tail _ hedge ih => exact hclosed _ _ ih hedge

section Part

variable {part done : α → Prop} {top : α}

/-- A path from the part ends in it or in what is done. -/
theorem part_reach (hdone : ∀ a b, done a → r a b → done b)
    (hpart : ∀ a b, part a → r a b → part b ∨ done b) (hreach : ReflTransGen r a b) (ha : part a) :
    part b ∨ done b :=
  closed_reach (p := fun a => part a ∨ done a)
    (fun a b ha hedge => ha.elim (fun ha => hpart a b ha hedge) fun ha => .inr (hdone a b ha hedge))
    hreach (.inl ha)

/-- Where every node but the top leads to a lower one, all lead to the top. -/
theorem reach_top (rank : α → ℕ)
    (hlower : ∀ a, part a → a ≠ top → ∃ b, part b ∧ rank b < rank a ∧ ReflTransGen r a b)
    (ha : part a) : ReflTransGen r a top := by
  induction hn : rank a using Nat.strong_induction_on generalizing a with
  | _ n ih =>
    by_cases htop : a = top
    · rw [htop]
    · obtain ⟨b, hb, hlt, hreach⟩ := hlower a ha htop
      exact hreach.trans (ih _ (hn ▸ hlt) hb rfl)

theorem mutual_iff_of_part (hdone : ∀ a b, done a → r a b → done b)
    (hpart : ∀ a b, part a → r a b → part b ∨ done b) (hnot : ∀ a, part a → ¬done a)
    (hto : ∀ a, part a → ReflTransGen r top a) (hfrom : ∀ a, part a → ReflTransGen r a top)
    (ha : part a) : Mutual r a b ↔ part b := by
  refine ⟨fun h => ?_, fun hb => ⟨(hfrom a ha).trans (hto b hb), (hfrom b hb).trans (hto a ha)⟩⟩
  refine (part_reach hdone hpart h.1 ha).resolve_right fun hb => ?_
  exact hnot a ha (closed_reach hdone h.2 hb)

end Part

end Soup.Lib
