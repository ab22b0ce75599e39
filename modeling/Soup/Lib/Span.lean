import Mathlib.Algebra.Order.Ring.Int
import Mathlib.Data.Prod.Lex
import Mathlib.Order.WithBot

/-!
# Spans of a linear order

A cut of a linear order lies just below or just above one of its points. An interval with ends
that are open, closed or absent is a pair of cuts : a closed lower end at `p` is the cut below
`p`, an open one the cut above it, and the other way round for upper ends. Cuts are linearly
ordered, so the tighter of two lower ends is their maximum, the tighter of two upper ends their
minimum, and inclusion of spans is two comparisons (`Span.mem_of_within`).
-/

namespace Soup.Lib

variable {α : Type*} [LinearOrder α]

/-- A cut at a point : `false` is just below it, `true` just above. -/
abbrev Cut (α : Type*) := α ×ₗ Bool

namespace Cut

def below (p : α) : Cut α := toLex (p, false)

def above (p : α) : Cut α := toLex (p, true)

variable {p q : α}

@[simp] theorem below_le_below : below p ≤ below q ↔ p ≤ q := by
  rw [below, below, Prod.Lex.toLex_le_toLex]
  simp [le_iff_lt_or_eq]

@[simp] theorem above_le_above : above p ≤ above q ↔ p ≤ q := by
  rw [above, above, Prod.Lex.toLex_le_toLex]
  simp [le_iff_lt_or_eq]

@[simp] theorem below_le_above : below p ≤ above q ↔ p ≤ q := by
  rw [below, above, Prod.Lex.toLex_le_toLex]
  simp [le_iff_lt_or_eq]

@[simp] theorem above_le_below : above p ≤ below q ↔ p < q := by
  rw [above, below, Prod.Lex.toLex_le_toLex]
  simp

@[simp] theorem below_lt_below : below p < below q ↔ p < q := by
  simp [← not_le]

@[simp] theorem above_lt_above : above p < above q ↔ p < q := by
  simp [← not_le]

@[simp] theorem below_lt_above : below p < above q ↔ p ≤ q := by
  rw [← not_le, above_le_below, not_lt]

@[simp] theorem above_lt_below : above p < below q ↔ p < q := by
  rw [← not_le, below_le_above, not_le]

/-- No cut lies between the two cuts of a point. -/
theorem above_le_of_below_lt {p : α} {u : Cut α} (h : below p < u) : above p ≤ u := by
  obtain ⟨⟨q, side⟩, rfl⟩ := toLex.surjective u
  cases side with
  | false =>
    exact above_le_below.2 (below_lt_below.1 h)
  | true =>
    exact above_le_above.2 (below_lt_above.1 h)

end Cut

/-- The points between two cuts, either of which may be absent. -/
@[ext]
structure Span (α : Type*) where
  lower : WithBot (Cut α)
  upper : WithTop (Cut α)

namespace Span

/-- All points. -/
def univ : Span α := ⟨⊥, ⊤⟩

instance : Membership α (Span α) where
  mem s x := s.lower ≤ Cut.below x ∧ (Cut.above x : WithTop (Cut α)) ≤ s.upper

variable {s : Span α} {x : α}

theorem mem_def :
    x ∈ s ↔ s.lower ≤ Cut.below x ∧ (Cut.above x : WithTop (Cut α)) ≤ s.upper := Iff.rfl

@[simp] theorem mem_univ (x : α) : x ∈ (univ : Span α) := ⟨bot_le, le_top⟩

/-- A span goes on from a point of it up to its upper end. -/
theorem mem_of_le {x y : α} (hx : x ∈ s) (hxy : x ≤ y)
    (hy : ∀ u : Cut α, s.upper = u → Cut.below y < u) : y ∈ s := by
  refine ⟨hx.1.trans (WithBot.coe_le_coe.2 (Cut.below_le_below.2 hxy)), ?_⟩
  cases hu : s.upper with
  | top => exact le_top
  | coe u => exact WithTop.coe_le_coe.2 (Cut.above_le_of_below_lt (hy u hu))

/-- The points of both spans. -/
def inter (s t : Span α) : Span α := ⟨s.lower ⊔ t.lower, s.upper ⊓ t.upper⟩

variable {s t : Span α}

theorem mem_inter : x ∈ s.inter t ↔ x ∈ s ∧ x ∈ t := by
  simp only [mem_def, inter, sup_le_iff, le_inf_iff]
  tauto

theorem inter_comm (s t : Span α) : s.inter t = t.inter s := by
  simp [inter, sup_comm, inf_comm]

theorem inter_assoc (s t u : Span α) : (s.inter t).inter u = s.inter (t.inter u) := by
  simp [inter, sup_assoc, inf_assoc]

@[simp] theorem inter_univ (s : Span α) : s.inter univ = s := by
  simp [inter, univ]

/-- The ends of `s` do not cross, where the order starts at `bot`. -/
def Open (bot : α) (s : Span α) : Prop :=
  ∀ u : Cut α, s.upper = u → s.lower ⊔ Cut.below bot < u

/-- A span with a point of the order is open. -/
theorem open_of_mem {bot : α} (hx : x ∈ s) (hbot : bot ≤ x) : s.Open bot := by
  intro u hu
  obtain ⟨hl, hh⟩ := hx
  have hxu : Cut.above x ≤ u := by
    rw [hu] at hh
    exact WithTop.coe_le_coe.1 hh
  have hlx : s.lower ⊔ Cut.below bot ≤ (Cut.below x : WithBot (Cut α)) :=
    sup_le hl (WithBot.coe_le_coe.2 (Cut.below_le_below.2 hbot))
  refine lt_of_le_of_lt hlx (WithBot.coe_lt_coe.2 (lt_of_lt_of_le ?_ hxu))
  exact Cut.below_lt_above.2 le_rfl

/-- The ends of `s` are within those of `t`. -/
def Within (s t : Span α) : Prop := t.lower ≤ s.lower ∧ s.upper ≤ t.upper

theorem Within.refl (s : Span α) : s.Within s := ⟨le_rfl, le_rfl⟩

theorem Within.trans {s t u : Span α} (h : s.Within t) (h' : t.Within u) : s.Within u :=
  ⟨h'.1.trans h.1, h.2.trans h'.2⟩

theorem inter_within_left (s t : Span α) : (s.inter t).Within s := ⟨le_sup_left, inf_le_left⟩

theorem inter_within_right (s t : Span α) : (s.inter t).Within t := ⟨le_sup_right, inf_le_right⟩

theorem mem_of_within (h : s.Within t) (hx : x ∈ s) : x ∈ t :=
  ⟨h.1.trans hx.1, hx.2.trans h.2⟩

/-- A span that is within an open one need not be open, but the other way round it is. -/
theorem Open.of_within {bot : α} (h : s.Within t) (hs : s.Open bot) : t.Open bot := by
  intro u hu
  have htu : s.upper ≤ (u : WithTop (Cut α)) := h.2.trans hu.le
  obtain ⟨v, hv, hvu⟩ := WithTop.le_coe_iff.1 htu
  exact lt_of_le_of_lt (sup_le_sup_right h.1 _)
    (lt_of_lt_of_le (hs v hv) (WithBot.coe_le_coe.2 hvu))

end Span

end Soup.Lib
