import Mathlib.Algebra.Order.Ring.Int
import Mathlib.Data.List.Perm.Basic

/-!
# Forests of first children and next siblings

A forest is a first node with the nodes under it and the nodes that follow it. It is ordered when no
node comes before the one above it (`Ordered`); then no node of a tree comes before its root
(`Ordered.not_before`). `cut` takes a node with all that is under it out of a forest.
-/

namespace Soup.Lib

open List

/-- The first node, the nodes under it, and those that follow it. -/
inductive Forest (α : Type)
  | nil
  | node (v : α) (kids rest : Forest α)

namespace Forest

variable {α : Type}

def first : Forest α → Option α
  | .nil => none
  | .node v _ _ => some v

/-- All nodes, each before those under it. -/
def nodes : Forest α → List α
  | .nil => []
  | .node v kids rest => v :: (kids.nodes ++ rest.nodes)

/-- The nodes that are under no other. -/
def roots : Forest α → List α
  | .nil => []
  | .node v _ rest => v :: rest.roots

theorem first_mem {f : Forest α} {v : α} (h : f.first = some v) : v ∈ f.nodes := by
  cases f with
  | nil => cases h
  | node u kids rest =>
    obtain rfl := Option.some.inj h
    exact mem_cons_self ..

/-! ## Order -/

section Ordered

variable {before : α → α → Prop}

/-- No node comes before the one that it is directly under. -/
def Ordered (before : α → α → Prop) : Forest α → Prop
  | .nil => True
  | .node v kids rest =>
    (∀ u ∈ kids.roots, ¬before u v) ∧ kids.Ordered before ∧ rest.Ordered before

theorem not_before_trans [IsStrictWeakOrder α before] {a b c : α} (hab : ¬before a b)
    (hbc : ¬before b c) : ¬before a c := by
  intro hac
  have hba : ¬before b a := fun h => hbc (trans_of before h hac)
  have hcb : ¬before c b := fun h => hab (trans_of before hac h)
  exact (IsStrictWeakOrder.incomp_trans a b c ⟨hab, hba⟩ ⟨hbc, hcb⟩).1 hac

/-- No node comes before the root that it is under. -/
theorem Ordered.not_before_root [IsStrictWeakOrder α before] : ∀ {f : Forest α},
    f.Ordered before → ∀ u ∈ f.nodes, ∃ r ∈ f.roots, ¬before u r
  | .nil, _, u, hu => by cases hu
  | .node v kids rest, ⟨hv, hkids, hrest⟩, u, hu => by
    rcases mem_cons.1 hu with rfl | hu
    · exact ⟨u, mem_cons_self .., irrefl u⟩
    · rcases mem_append.1 hu with hu | hu
      · obtain ⟨r, hr, hur⟩ := hkids.not_before_root u hu
        exact ⟨v, mem_cons_self .., not_before_trans hur (hv r hr)⟩
      · obtain ⟨r, hr, hur⟩ := hrest.not_before_root u hu
        exact ⟨r, mem_cons_of_mem _ hr, hur⟩

end Ordered

/-! ## Taking a node out -/

section Cut

variable [DecidableEq α] {u v : α}

/-- The forest without a node and what is under it. -/
def cut (v : α) : Forest α → Forest α
  | .nil => .nil
  | .node u kids rest => if u = v then rest else .node u (kids.cut v) (rest.cut v)

/-- What is under a node. -/
def under (v : α) : Forest α → Forest α
  | .nil => .nil
  | .node u kids rest =>
    if u = v then kids else if v ∈ kids.nodes then kids.under v else rest.under v

theorem cut_node (h : u ≠ v) (kids rest : Forest α) :
    (node u kids rest).cut v = node u (kids.cut v) (rest.cut v) := if_neg h

theorem cut_first (kids rest : Forest α) : (node v kids rest).cut v = rest := if_pos rfl

theorem under_first (kids rest : Forest α) : (node v kids rest).under v = kids := if_pos rfl

theorem cut_of_not_mem : ∀ {f : Forest α}, v ∉ f.nodes → f.cut v = f
  | .nil, _ => rfl
  | .node u kids rest, h => by
    rw [nodes, mem_cons, mem_append, not_or, not_or] at h
    rw [cut_node (Ne.symm h.1), cut_of_not_mem h.2.1, cut_of_not_mem h.2.2]

theorem cut_subset : ∀ f : Forest α, (f.cut v).nodes ⊆ f.nodes
  | .nil => fun _ h => h
  | .node u kids rest => by
    rw [cut]
    split
    · exact fun x hx => mem_cons_of_mem _ (mem_append_right _ hx)
    · refine cons_subset_cons _ (append_subset.2 ⟨fun x hx => ?_, fun x hx => ?_⟩)
      · exact mem_append_left _ (kids.cut_subset hx)
      · exact mem_append_right _ (rest.cut_subset hx)

theorem roots_cut_subset : ∀ f : Forest α, (f.cut v).roots ⊆ f.roots
  | .nil => fun _ h => h
  | .node u kids rest => by
    rw [cut]
    split
    · exact subset_cons_self ..
    · exact cons_subset_cons _ rest.roots_cut_subset

variable {before : α → α → Prop}

theorem Ordered.cut : ∀ {f : Forest α}, f.Ordered before →
    (f.cut v).Ordered before
  | .nil, h => h
  | .node u kids rest, ⟨hu, hkids, hrest⟩ => by
    rw [Forest.cut]
    split
    · exact hrest
    · exact ⟨fun w hw => hu w (kids.roots_cut_subset hw), hkids.cut, hrest.cut⟩

theorem Ordered.under : ∀ {f : Forest α}, f.Ordered before →
    (f.under v).Ordered before
  | .nil, h => h
  | .node u kids rest, ⟨_, hkids, hrest⟩ => by
    rw [Forest.under]
    split
    · exact hkids
    · split
      · exact hkids.under
      · exact hrest.under

theorem perm_cut : ∀ {f : Forest α}, f.nodes.Nodup → v ∈ f.nodes →
    f.nodes.Perm (v :: ((f.under v).nodes ++ (f.cut v).nodes))
  | .nil, _, h => by cases h
  | .node u kids rest, hnodup, h => by
    by_cases huv : u = v
    · subst huv
      rw [cut_first, under_first]
      exact .refl _
    · have hnodup' := (nodup_cons.1 hnodup).2
      rw [nodup_append] at hnodup'
      obtain ⟨hkids, hrest, hdisjoint⟩ := hnodup'
      rw [cut_node huv, Forest.under, if_neg huv]
      rcases mem_append.1 ((mem_cons.1 h).resolve_left (Ne.symm huv)) with h | h
      · have hnot : v ∉ rest.nodes := fun h' => hdisjoint v h v h' rfl
        rw [if_pos h, cut_of_not_mem hnot, nodes, nodes]
        refine perm_iff_count.2 fun a => ?_
        have hcount := perm_iff_count.1 (perm_cut hkids h) a
        simp only [count_cons, count_append] at hcount ⊢
        omega
      · have hnot : v ∉ kids.nodes := fun h' => hdisjoint v h' v h rfl
        rw [if_neg hnot, cut_of_not_mem hnot, nodes, nodes]
        refine perm_iff_count.2 fun a => ?_
        have hcount := perm_iff_count.1 (perm_cut hrest h) a
        simp only [count_cons, count_append] at hcount ⊢
        omega

theorem nodup_cut {f : Forest α} (h : f.nodes.Nodup) (hv : v ∈ f.nodes) :
    v ∉ (f.under v).nodes ∧ v ∉ (f.cut v).nodes ∧ (f.under v).nodes.Nodup ∧
      (f.cut v).nodes.Nodup ∧ ∀ x ∈ (f.under v).nodes, x ∉ (f.cut v).nodes := by
  have hnodup := (perm_cut h hv).nodup_iff.1 h
  rw [nodup_cons, mem_append, not_or, nodup_append] at hnodup
  obtain ⟨⟨hu, hc⟩, hnu, hnc, hdisjoint⟩ := hnodup
  exact ⟨hu, hc, hnu, hnc, fun x hx hx' => hdisjoint x hx x hx' rfl⟩

end Cut

end Forest

end Soup.Lib
