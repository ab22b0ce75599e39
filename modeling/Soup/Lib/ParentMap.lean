import Mathlib.Algebra.Order.Ring.Int
import Mathlib.Data.List.Nodup
import Mathlib.Data.List.Perm.Subperm

/-!
# Parent maps

A partial map of nodes to parents, where a root is its own parent, is a forest if every node that it
knows leads to a root (`IsForest`). A node that is pointed at its root, and a root that is pointed
at another one, leave a forest, and say which roots the nodes then lead to.
-/

namespace Soup.Lib

open List Function Option

variable {α : Type*} {parent : α → Option α} {a b c p r s : α} {m n : ℕ}

/-- The `n`-th parent of `a` is `c`, and none before it is a root. -/
inductive Path (parent : α → Option α) : ℕ → α → α → Prop
  | here (a : α) : Path parent 0 a a
  | up {n : ℕ} {a p c : α} : parent a = some p → p ≠ a → Path parent n p c → Path parent (n + 1) a c

/-- `a` leads to the root `r` in `n` steps. -/
def Leads (parent : α → Option α) (n : ℕ) (a r : α) : Prop := Path parent n a r ∧ parent r = some r

/-- Whatever has a parent leads to a root. -/
def IsForest (parent : α → Option α) : Prop :=
  ∀ a, (parent a).isSome = true → ∃ n r, Leads parent n a r

/-- The root of a node. A node that is not known is on its own. -/
def IsRootOf (parent : α → Option α) (a r : α) : Prop :=
  (∃ n, Leads parent n a r) ∨ parent a = none ∧ r = a

theorem Leads.up (ha : parent a = some p) (hne : p ≠ a) (h : Leads parent n p r) :
    Leads parent (n + 1) a r :=
  ⟨.up ha hne h.1, h.2⟩

theorem Leads.root (hr : parent r = some r) : Leads parent 0 r r := ⟨.here r, hr⟩

section

variable (h : Leads parent n a r)
include h

theorem Leads.isSome : (parent a).isSome = true := by
  cases h.1 with
  | here => rw [h.2]; rfl
  | up ha _ _ => rw [ha]; rfl

theorem Leads.ne_none : parent a ≠ none :=
  isSome_iff_ne_none.1 h.isSome

/-- A node leads to one root, in one number of steps. -/
theorem Leads.unique (h' : Leads parent m a s) : n = m ∧ r = s := by
  obtain ⟨hpath, hr⟩ := h
  obtain ⟨hpath', hs⟩ := h'
  induction hpath generalizing m with
  | here a =>
    cases hpath' with
    | here => exact ⟨rfl, rfl⟩
    | up ha hne _ => exact absurd (some.inj (ha.symm.trans hr)) hne
  | up ha hne _ ih =>
    cases hpath' with
    | here => exact absurd (some.inj (ha.symm.trans hs)) hne
    | up ha' _ hpath' =>
      obtain rfl := some.inj (ha.symm.trans ha')
      obtain ⟨rfl, rfl⟩ := ih hr hpath'
      exact ⟨rfl, rfl⟩

omit h in
/-- From a node on the way the rest of the way is left. -/
theorem Leads.of_path (h : Path parent m a b) (hb : Leads parent n b r) :
    Leads parent (m + n) a r := by
  induction h with
  | here => rwa [zero_add]
  | up ha hne _ ih =>
    rw [add_right_comm]
    exact (ih hb).up ha hne

/-- The nodes on the way are known, and none is on it twice. -/
theorem Leads.nodes : ∃ nodes : List α, nodes.length = n + 1 ∧ nodes.Nodup ∧
    ∀ b ∈ nodes, ∃ m ≤ n, Leads parent m b r := by
  obtain ⟨hpath, hr⟩ := h
  induction hpath with
  | here a =>
    refine ⟨[a], rfl, nodup_singleton a, fun b hb => ⟨0, le_rfl, ?_⟩⟩
    rw [mem_singleton.1 hb]
    exact .root hr
  | @up n a p c ha hne hpath ih =>
    obtain ⟨nodes, hlength, hnodup, hnodes⟩ := ih hr
    have hleads : Leads parent (n + 1) a c := ⟨.up ha hne hpath, hr⟩
    refine ⟨a :: nodes, by rw [length_cons, hlength], nodup_cons.2 ⟨fun hmem => ?_, hnodup⟩,
      fun b hb => ?_⟩
    · obtain ⟨m, hm, hleads'⟩ := hnodes a hmem
      have := (hleads.unique hleads').1
      omega
    · rcases mem_cons.1 hb with rfl | hb
      · exact ⟨n + 1, le_rfl, hleads⟩
      · obtain ⟨m, hm, hleads'⟩ := hnodes b hb
        exact ⟨m, Nat.le_succ_of_le hm, hleads'⟩

/-- A way is shorter than any list of all that is known. -/
theorem Leads.lt_length {known : List α}
    (hknown : ∀ b, (parent b).isSome = true → b ∈ known) : n < known.length := by
  obtain ⟨nodes, hlength, hnodup, hnodes⟩ := h.nodes
  have hsubset : nodes ⊆ known := fun b hb => by
    obtain ⟨m, -, hleads⟩ := hnodes b hb
    exact hknown b hleads.isSome
  have := (subperm_of_subset hnodup hsubset).length_le
  omega

end

theorem IsRootOf.unique (h : IsRootOf parent a r) (h' : IsRootOf parent a s) : r = s := by
  rcases h with ⟨n, h⟩ | ⟨hnone, rfl⟩ <;> rcases h' with ⟨m, h'⟩ | ⟨hnone', rfl⟩
  · exact (h.unique h').2
  · exact absurd hnone' h.ne_none
  · exact absurd hnone h'.ne_none
  · rfl

theorem IsForest.exists_root (h : IsForest parent) (a : α) : ∃ r, IsRootOf parent a r := by
  rcases ha : parent a with _ | p
  · exact ⟨a, .inr ⟨ha, rfl⟩⟩
  · obtain ⟨n, r, hleads⟩ := h a (by rw [ha]; rfl)
    exact ⟨r, .inl ⟨n, hleads⟩⟩

/-- The root of a node of a forest. -/
noncomputable def IsForest.root (h : IsForest parent) (a : α) : α :=
  Classical.choose (h.exists_root a)

theorem IsForest.isRootOf_root (h : IsForest parent) (a : α) : IsRootOf parent a (h.root a) :=
  Classical.choose_spec (h.exists_root a)

theorem IsForest.root_eq_iff (h : IsForest parent) : h.root a = r ↔ IsRootOf parent a r :=
  ⟨fun heq => heq ▸ h.isRootOf_root a, fun hr => (h.isRootOf_root a).unique hr⟩

/-- A map in which all nodes still have a root is still a forest, if it knows no less. -/
theorem IsForest.of_isRootOf (h : IsForest parent) {parent' : α → Option α} (f : α → α)
    (hroots : ∀ b s, IsRootOf parent b s → IsRootOf parent' b (f s)) : IsForest parent' := by
  intro a ha
  rcases hroots a _ (h.isRootOf_root a) with ⟨n, hleads⟩ | ⟨hnone, -⟩
  · exact ⟨n, _, hleads⟩
  · rw [hnone] at ha
    cases ha

/-- A root is its own. -/
theorem IsRootOf.self (h : IsRootOf parent a r) : IsRootOf parent r r := by
  rcases h with ⟨n, h⟩ | ⟨hnone, rfl⟩
  · exact .inl ⟨0, .root h.2⟩
  · exact .inr ⟨hnone, rfl⟩

/-- Where two classes are joined, the root of the one becomes that of the other. -/
theorem eqvGen_join {β : Type*} [DecidableEq β] {R : α → α → Prop} {f : α → β}
    (h : ∀ a b, f a = f b ↔ Relation.EqvGen R a b) (x y a b : α) :
    (if f a = f y then f x else f a) = (if f b = f y then f x else f b) ↔
      Relation.EqvGen (fun a b => R a b ∨ a = x ∧ b = y) a b := by
  have hmono : ∀ {a b}, f a = f b → Relation.EqvGen (fun a b => R a b ∨ a = x ∧ b = y) a b :=
    fun heq =>
    ((h _ _).1 heq).mono fun _ _ => .inl
  have hxy : Relation.EqvGen (fun a b => R a b ∨ a = x ∧ b = y) x y := .rel _ _ (.inr ⟨rfl, rfl⟩)
  constructor
  · intro heq
    split at heq
    next ha =>
      split at heq
      next hb => exact hmono (ha.trans hb.symm)
      next => exact ((hmono ha).trans _ _ _ (hxy.symm _ _)).trans _ _ _ (hmono heq)
    next =>
      split at heq
      next hb => exact ((hmono heq).trans _ _ _ hxy).trans _ _ _ (hmono hb.symm)
      next => exact hmono heq
  · intro hab
    induction hab with
    | rel a b hab =>
      rcases hab with hab | ⟨rfl, rfl⟩
      · rw [(h a b).2 (.rel _ _ hab)]
      · rw [if_pos rfl]
        split <;> rfl
    | refl a => rfl
    | symm a b _ ih => exact ih.symm
    | trans a b c _ _ ih ih' => exact ih.trans ih'

/-! ## Changes -/

section Update

variable [DecidableEq α]

/-- A way on which no node is as far from the root as the changed one stays. -/
theorem Path.update_of_lt (h : Path parent m b c) (hc : Leads parent n c r) {k : ℕ} {s : α}
    (ha : Leads parent k a s) (hlt : m + n < k) (p : Option α) :
    Path (update parent a p) m b c := by
  induction h with
  | here => exact .here _
  | up hb hne hpath ih =>
    have hleads := Leads.of_path (.up hb hne hpath) hc
    refine .up ?_ hne (ih hc (by omega))
    rw [update_of_ne, hb]
    rintro rfl
    have := (hleads.unique ha).1
    omega

section

variable (h : IsRootOf parent b s)
include h

/-- A new root. -/
theorem IsRootOf.insert (hnew : parent a = none) : IsRootOf (update parent a (some a)) b s := by
  rcases h with ⟨n, hpath, hs⟩ | ⟨hnone, rfl⟩
  · refine .inl ⟨n, ?_⟩
    have hne : ∀ {c p : α}, parent c = some p → c ≠ a := by
      rintro c p hc rfl
      rw [hnew] at hc
      cases hc
    refine ⟨?_, by rw [update_of_ne (hne hs), hs]⟩
    induction hpath with
    | here => exact .here _
    | up hb hne' _ ih => exact .up (by rw [update_of_ne (hne hb), hb]) hne' (ih hs)
  · by_cases heq : s = a
    · rw [heq]
      exact .inl ⟨0, .root (update_self ..)⟩
    · exact .inr ⟨by rw [update_of_ne heq, hnone], rfl⟩

/-- A node that is pointed at its root. -/
theorem IsRootOf.compress (ha : Leads parent n a r) (hne : r ≠ a) :
    IsRootOf (update parent a (some r)) b s := by
  have hr : update parent a (some r) r = some r := by rw [update_of_ne hne, ha.2]
  rcases h with ⟨m, hpath, hs⟩ | ⟨hnone, rfl⟩
  · left
    induction hpath with
    | here s =>
      refine ⟨0, .root ?_⟩
      rw [update_of_ne, hs]
      rintro rfl
      exact hne (ha.unique (.root hs)).2
    | @up m b p c hb hne' hpath ih =>
      by_cases heq : b = a
      · have hleads : Leads parent (m + 1) b c := ⟨.up hb hne' hpath, hs⟩
        rw [heq] at hleads ⊢
        obtain rfl : r = c := (ha.unique hleads).2
        exact ⟨1, .up (update_self ..) hne (Leads.root hr).1, hr⟩
      · obtain ⟨k, hleads⟩ := ih hs
        exact ⟨k + 1, hleads.up (by rw [update_of_ne heq, hb]) hne'⟩
  · refine .inr ⟨?_, rfl⟩
    rw [update_of_ne, hnone]
    rintro rfl
    exact ha.ne_none hnone

/-- A root that is pointed at another. -/
theorem IsRootOf.link (ha : parent a = some a) (hr : parent r = some r) (hne : r ≠ a) :
    IsRootOf (update parent a (some r)) b (if s = a then r else s) := by
  have hr' : update parent a (some r) r = some r := by rw [update_of_ne hne, hr]
  rcases h with ⟨m, hpath, hs⟩ | ⟨hnone, rfl⟩
  · left
    induction hpath with
    | here s =>
      split
      next heq =>
        rw [heq]
        exact ⟨1, .up (update_self ..) hne (Leads.root hr').1, hr'⟩
      next hne' => exact ⟨0, .root (by rw [update_of_ne hne', hs])⟩
    | @up m b p c hb hne' hpath ih =>
      obtain ⟨k, hleads⟩ := ih hs
      refine ⟨k + 1, hleads.up ?_ hne'⟩
      rw [update_of_ne, hb]
      rintro rfl
      exact hne' (some.inj (hb.symm.trans ha))
  · have hba : s ≠ a := by
      rintro rfl
      rw [hnone] at ha
      cases ha
    rw [if_neg hba]
    exact .inr ⟨by rw [update_of_ne hba, hnone], rfl⟩

end

end Update

end Soup.Lib
