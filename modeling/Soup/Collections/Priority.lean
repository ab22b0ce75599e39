import Mathlib.Data.Finset.Card
import Soup.Collections.Merging

/-!
# The heap as a priority queue

`for_each` visits the nodes of the forest in order: behind a node come those under it, and from the
last of these the walk climbs over its siblings back to it (`walk_visit`).
-/

namespace Soup.Collections

open Soup.Lib List Function Nat Forest

variable {α : Type} [DecidableEq α] {m : Fields α}

/-- One place in the walk leads to another. -/
def Leads (m : Fields α) (p q : Phase × α × List α) : Prop :=
  ∃ rounds, ∀ fuel, walk m (rounds + fuel) p.1 p.2.1 p.2.2 = walk m fuel q.1 q.2.1 q.2.2

namespace Leads

variable {p q r : Phase × α × List α}

theorem refl (p : Phase × α × List α) : Leads m p p := ⟨0, fun fuel => by rw [zero_add]⟩

theorem trans (h : Leads m p q) (h' : Leads m q r) : Leads m p r := by
  obtain ⟨k, hk⟩ := h
  obtain ⟨k', hk'⟩ := h'
  exact ⟨k + k', fun fuel => by rw [add_assoc, hk, hk']⟩

/-- One round. -/
theorem of_step (h : ∀ fuel, walk m (fuel + 1) p.1 p.2.1 p.2.2 = walk m fuel q.1 q.2.1 q.2.2) :
    Leads m p q := ⟨1, fun fuel => by rw [add_comm, h]⟩

end Leads

variable {v child next prev : α} {visited : List α}

attribute [local simp] walk

theorem leads_child (h : (m v).child = some child) :
    Leads m (.visit, v, visited) (.visit, child, visited ++ [v]) :=
  .of_step fun fuel => by simp [h]

theorem leads_leave (h : (m v).child = none) :
    Leads m (.visit, v, visited) (.leave, v, visited ++ [v]) :=
  .of_step fun fuel => by simp [h]

theorem leads_next (h : (m v).next = some next) :
    Leads m (.leave, v, visited) (.visit, next, visited) :=
  .of_step fun fuel => by simp [h]

theorem leads_climb (h : (m v).next = none) : Leads m (.leave, v, visited) (.climb, v, visited) :=
  .of_step fun fuel => by simp [h]

theorem leads_sibling (h : (m v).prev = some prev) (hne : (m prev).child ≠ some v) :
    Leads m (.climb, v, visited) (.climb, prev, visited) :=
  .of_step fun fuel => by simp [h, hne]

theorem leads_parent (h : (m v).prev = some prev) (hchild : (m prev).child = some v) :
    Leads m (.climb, v, visited) (.leave, prev, visited) :=
  .of_step fun fuel => by simp [h, hchild]

/-- The last of a node and its siblings. -/
def last : α → Forest α → α
  | v, .nil => v
  | _, .node w _ rest => last w rest

/-- From the last sibling the walk climbs to the first. -/
theorem climb_siblings : ∀ (rest : Forest α) {v : α} {first : Option α},
    Linked m (some v) rest first → rest.nodes.Nodup →
    (∀ x ∈ rest.nodes, (m v).child ≠ some x) →
    Leads m (.climb, last v rest, visited) (.climb, v, visited)
  | .nil, v, _, _, _, _ => .refl _
  | .node w kids rest, v, first, ⟨_, hprev, hkids, hrest⟩, hnodup, hv => by
    obtain ⟨-, hnodup'⟩ := nodup_cons.1 hnodup
    obtain ⟨-, hnr, hdisjoint⟩ := nodup_append.1 hnodup'
    refine (climb_siblings rest hrest hnr fun x hx h => ?_).trans
      (leads_sibling hprev (hv w (mem_cons_self ..)))
    exact hdisjoint x (first_mem (hkids.first_eq.symm.trans h)) x hx rfl

/-- The walk visits all the nodes and is at the last sibling then. -/
theorem walk_visit : ∀ (f : Forest α) {v : α} {kids rest : Forest α} {prev first : Option α}
    (visited : List α), f = .node v kids rest → Linked m prev f first → f.nodes.Nodup →
    Leads m (.visit, v, visited) (.climb, last v rest, visited ++ f.nodes)
  | .nil, _, _, _, _, _, _, h, _, _ => by cases h
  | .node v kids rest, _, _, _, prev, first, visited, rfl, ⟨_, _, hkids, hrest⟩, hnodup => by
    obtain ⟨hv, hnodup'⟩ := nodup_cons.1 hnodup
    obtain ⟨hnk, hnr, hdisjoint⟩ := nodup_append.1 hnodup'
    -- What is under the node is visited, and the walk leaves it.
    have hleave : Leads m (.visit, v, visited) (.leave, v, visited ++ v :: kids.nodes) := by
      cases hk : kids with
      | nil =>
        rw [hk] at hkids
        exact leads_leave hkids
      | node c kc rc =>
        rw [hk] at hkids hnk
        have hvisit := walk_visit (.node c kc rc) (visited ++ [v]) rfl hkids hnk
        obtain ⟨hchild, hprev, hkc, hrc⟩ := hkids
        obtain ⟨-, hnc⟩ := nodup_cons.1 hnk
        obtain ⟨-, hnrc, hdisjointc⟩ := nodup_append.1 hnc
        refine (leads_child hchild).trans (hvisit.trans ?_)
        rw [append_assoc, singleton_append]
        refine (climb_siblings rc hrc hnrc fun x hx h => ?_).trans (leads_parent hprev hchild)
        exact hdisjointc x (first_mem (hkc.first_eq.symm.trans h)) x hx rfl
    refine hleave.trans ?_
    cases hr : rest with
    | nil =>
      rw [hr] at hrest
      rw [nodes, nodes, append_nil]
      exact leads_climb hrest
    | node w kw rw' =>
      rw [hr] at hrest hnr
      have hvisit := walk_visit (.node w kw rw') (visited ++ v :: kids.nodes) rfl hrest hnr
      refine (leads_next hrest.1).trans ?_
      rw [append_assoc, cons_append] at hvisit
      exact hvisit

/-!
## The queue

The links of a heap represent one tree or none, in which no node comes before the one above it, and
a node outside of it has no links (`Intrusive.Holds`). The operations keep this, and after any of
them in any order `delete_min` gives a least node, `for_each` visits every node once, and a node
that is taken out has no links (`reached_spec`).
-/

variable {α : Type} {less : α → α → Bool} {heap : Intrusive α} {f : Forest α}
  {v : α}

/-- A heap with the nodes of a forest. -/
structure Intrusive.Holds (less : α → α → Bool) (heap : Intrusive α) (f : Forest α) : Prop where
  linked : Linked heap.fields none f heap.root
  one : ∀ v kids rest, f = .node v kids rest → rest = .nil
  nodup : f.nodes.Nodup
  ordered : f.Ordered (less · · = true)
  cleared : ∀ v ∉ f.nodes, heap.fields v = {}

namespace Intrusive

theorem holds_nil : Holds less ({} : Intrusive α) .nil where
  linked := rfl
  one := fun _ _ _ h => by cases h
  nodup := .nil
  ordered := trivial
  cleared := fun _ _ => rfl

/-- A heap with one tree. -/
theorem holds_tree {t : α × Forest α} {fields : Fields α}
    (hlinked : Linked fields none (.node t.1 t.2 .nil) (some t.1))
    (hnodup : (t.1 :: t.2.nodes).Nodup)
    (hordered : TreeOrdered less t) (hcleared : ∀ v ∉ t.1 :: t.2.nodes, fields v = {}) :
    Holds less { root := some t.1, fields } (.node t.1 t.2 .nil) where
  linked := hlinked
  one := fun _ _ _ h => by cases h; rfl
  nodup := by rwa [nodes, nodes, append_nil]
  ordered := ⟨hordered.1, hordered.2, trivial⟩
  cleared := fun v hv => hcleared v (by rwa [nodes, nodes, append_nil] at hv)

theorem nodes_tree {v : α} {kids : Forest α} :
    (node v kids .nil).nodes = v :: kids.nodes := by
  rw [nodes, nodes, append_nil]

/-- A heap is empty or one tree. -/
theorem Holds.cases (h : Holds less heap f) :
    f = .nil ∧ heap.root = none ∨ ∃ v kids, f = .node v kids .nil ∧ heap.root = some v := by
  cases f with
  | nil => exact .inl ⟨rfl, h.linked⟩
  | node v kids rest =>
    obtain rfl := h.one v kids rest rfl
    exact .inr ⟨v, kids, rfl, h.linked.1⟩

variable [DecidableEq α] [IsStrictWeakOrder α (less · · = true)]

theorem insert_spec (h : Holds less heap f) (hv : v ∉ f.nodes) :
    ∃ f', Holds less (heap.insert less v) f' ∧ f'.nodes.Perm (v :: f.nodes) := by
  have hnew : Linked heap.fields none (.node v .nil .nil) (some v) := by
    rw [Linked, h.cleared v hv]
    exact ⟨rfl, rfl, rfl, rfl⟩
  rcases h.cases with ⟨rfl, hroot⟩ | ⟨r, kids, rfl, hroot⟩
  · refine ⟨.node v .nil .nil, ?_, .refl _⟩
    rw [insert, hroot]
    exact holds_tree (t := (v, .nil)) hnew (by simp [nodes]) ⟨by simp [roots], trivial⟩
      fun u hu => h.cleared u (by simp [nodes])
  · rw [nodes_tree, mem_cons, not_or] at hv
    have hlinked := h.linked
    rw [hroot] at hlinked
    have hnodup := h.nodup
    rw [nodes_tree] at hnodup
    have hapart : Apart v .nil r kids .nil := apart_of_nodup (by
      rw [nodes, nil_append, append_nil]
      exact nodup_cons.2 ⟨by simpa using hv, hnodup⟩)
    obtain ⟨m', hmeld, hlinked', hframe⟩ := meld_linked less hnew hlinked hapart
    have hperm := nodes_melded less v r .nil kids
    refine ⟨.node (melded less v .nil r kids).1 (melded less v .nil r kids).2 .nil, ?_, ?_⟩
    · rw [insert, hroot]
      simp only [hmeld]
      refine holds_tree hlinked' (hperm.nodup_iff.2 ?_) (treeOrdered_melded ?_ ?_) fun x hx => ?_
      · exact nodup_cons.2 ⟨by simpa [nodes] using hv, hnodup⟩
      · exact ⟨by simp [roots], trivial⟩
      · exact ⟨h.ordered.1, h.ordered.2.1⟩
      · rw [hperm.mem_iff] at hx
        simp only [mem_append, mem_cons, nodes, not_or] at hx
        rw [hframe x hx.1.1 hx.2.1 (by simp [nodes]) hx.2.2 (by simp [nodes])]
        exact h.cleared x (by simp [nodes_tree, hx.2.1, hx.2.2])
    · rw [nodes_tree, nodes_tree]
      exact hperm

variable {fuel : ℕ}

/-- The root is deleted, and no node comes before it. -/
theorem deleteMin_spec (h : Holds less heap f) (hfuel : f.nodes.length < fuel) :
    ∃ result heap' f', heap.deleteMin less fuel = some (result, heap') ∧ Holds less heap' f' ∧
      f.nodes.Perm (result.toList ++ f'.nodes) ∧ result = f.first ∧
      ∀ v ∈ result, ∀ u ∈ f.nodes, ¬less u v = true := by
  rcases h.cases with ⟨rfl, hroot⟩ | ⟨r, kids, rfl, hroot⟩
  · refine ⟨none, heap, .nil, ?_, h, .refl _, rfl, by simp⟩
    rw [deleteMin, hroot]
  · have hlinked := h.linked
    have hmin : ∀ v ∈ some r, ∀ u ∈ (node r kids .nil).nodes, ¬less u v = true := by
      intro v hv u hu
      obtain rfl := Option.some.inj hv
      obtain ⟨s, hs, hus⟩ := h.ordered.not_before_root u hu
      obtain rfl := mem_singleton.1 hs
      exact hus
    have hnodup := h.nodup
    rw [nodes_tree] at hnodup hfuel
    obtain ⟨hr, hnk⟩ := nodup_cons.1 hnodup
    cases kids with
    | nil =>
      refine ⟨some r, ⟨none, update heap.fields r {}⟩, .nil, ?_, ?_, .refl _, rfl, hmin⟩
      · have hchild : (heap.fields r).child = none := hlinked.2.2.1
        rw [deleteMin, hroot]
        simp only [hchild]
        rfl
      · refine ⟨rfl, fun _ _ _ h => (by cases h), .nil, trivial, fun v _ => ?_⟩
        show update heap.fields r {} v = {}
        rw [update_apply]
        split
        · rfl
        · exact h.cleared v (by simpa [nodes] using ‹v ≠ r›)
    | node c kc rc =>
      have hkids : Linked heap.fields (some r) (.node c kc rc) (heap.fields r).child :=
        hlinked.2.2.1
      have hchild := hkids.1
      rw [hchild] at hkids
      obtain ⟨u, m', hcall, hlinked', hperm, hu, hframe⟩ :=
        combineSiblings_spec hkids hnk h.ordered.2.1 (lt_of_succ_lt hfuel)
      have hur : r ∉ u.1 :: u.2.nodes := fun h => hr (hperm.mem_iff.1 h)
      refine ⟨some r, ⟨some u.1, update m' r {}⟩, .node u.1 u.2 .nil, ?_, ?_, ?_, rfl, hmin⟩
      · rw [deleteMin, hroot]
        simp only [hchild]
        rw [hcall]
        rfl
      · refine holds_tree (hlinked'.congr fun x hx => ?_) (hperm.nodup_iff.2 hnk) hu fun x hx => ?_
        · refine update_of_ne (fun hxr => ?_) ..
          rw [nodes_tree] at hx
          exact hur (hxr ▸ hx)
        · rw [update_apply]
          split
          · rfl
          · rw [hframe x fun h => hx (hperm.mem_iff.2 h)]
            refine h.cleared x ?_
            rw [nodes_tree, mem_cons, not_or]
            exact ⟨‹x ≠ r›, fun h => hx (hperm.mem_iff.2 h)⟩
      · rw [nodes_tree, nodes_tree]
        exact hperm.symm.cons r

/-- The trees at `c` become one, which is joined with the tree of `r`. -/
theorem combine_meld_spec {m : Fields α} {prev : Option α} {r c : α} {kids kc rc : Forest α}
    (hc : Linked m prev (.node c kc rc) (some c)) (hr : Linked m none (.node r kids .nil) (some r))
    (hnodup : ((node c kc rc).nodes ++ r :: kids.nodes).Nodup)
    (hcOrdered : (node c kc rc).Ordered (less · · = true))
    (hrOrdered : TreeOrdered less (r, kids))
    (hfuel : (node c kc rc).nodes.length < fuel) :
    ∃ x m' t m'', combineSiblings less fuel m c = some (x, m') ∧ meld less m' x r = (t.1, m'') ∧
      Linked m'' none (.node t.1 t.2 .nil) (some t.1) ∧ TreeOrdered less t ∧
      (t.1 :: t.2.nodes).Perm ((node c kc rc).nodes ++ r :: kids.nodes) ∧
      ∀ x ∉ (node c kc rc).nodes ++ r :: kids.nodes, m'' x = m x := by
  obtain ⟨hnc, -, hdisjoint⟩ := nodup_append.1 hnodup
  obtain ⟨u, m', hcall, hlinked, hperm, htree, hframe⟩ :=
    combineSiblings_spec hc hnc hcOrdered hfuel
  have hroot : Linked m' none (.node r kids .nil) (some r) :=
    hr.congr fun x hx => hframe x fun h => hdisjoint x h x (by rwa [← nodes_tree]) rfl
  have hapart : Apart u.1 u.2 r kids .nil := apart_of_nodup (by
    rw [nodes, append_nil]
    exact (hperm.append_right _).nodup_iff.2 hnodup)
  obtain ⟨m'', hmeld, hmelded, hframe'⟩ := meld_linked less hlinked hroot hapart
  refine ⟨u.1, m', _, m'', hcall, hmeld, hmelded, treeOrdered_melded htree hrOrdered,
    (nodes_melded less u.1 r u.2 kids).trans (hperm.append_right _), fun x hx => ?_⟩
  rw [mem_append, mem_cons, not_or, not_or] at hx
  have hxu : x ∉ u.1 :: u.2.nodes := fun h => hx.1 (hperm.mem_iff.1 h)
  rw [mem_cons, not_or] at hxu
  rw [hframe' x hxu.1 hx.2.1 hxu.2 hx.2.2 (by simp [nodes]), hframe x hx.1]

/-- A node of the heap is removed. -/
theorem remove_spec (h : Holds less heap f) (hv : v ∈ f.nodes)
    (hfuel : f.nodes.length < fuel) :
    ∃ heap' f', heap.remove less fuel v = some heap' ∧ Holds less heap' f' ∧
      f.nodes.Perm (v :: f'.nodes) := by
  rcases h.cases with ⟨rfl, hroot⟩ | ⟨r, kids, rfl, hroot⟩
  · cases hv
  · have hlinked := h.linked
    by_cases hvr : v = r
    · subst hvr
      obtain ⟨result, heap', f', hcall, hholds, hperm, hfirst, -⟩ := deleteMin_spec h hfuel
      rw [hfirst] at hperm
      refine ⟨heap', f', ?_, hholds, hperm⟩
      rw [remove, show (heap.fields v).prev = none from hlinked.2.1]
      simp only [hcall]
      rfl
    · have hne : (node r kids .nil).first ≠ some v := fun h => hvr (Option.some.inj h).symm
      obtain ⟨q, hq, hqmem, hnext, hcut⟩ := detach_linked hlinked h.nodup hv hne
      obtain ⟨hvu, hvc, hnu, hnc, hdisjoint⟩ := nodup_cut h.nodup hv
      have hperm := perm_cut h.nodup hv
      have hqv : v ≠ q := fun h => hvc (h ▸ hqmem)
      have hunder := hlinked.under hv
      have hordered := h.ordered.under (v := v)
      have hcutOrdered := h.ordered.cut (v := v)
      have hout : ∀ x, x ≠ v → x ∉ ((node r kids .nil).cut v).nodes →
          detach heap.fields v q x = heap.fields x := fun x hxv hx =>
        detach_eq hxv (fun h => hx (h ▸ hqmem)) fun h => hx (hnext x h)
      have hcleared : ∀ x, x ≠ v → x ∉ ((node r kids .nil).under v).nodes →
          x ∉ ((node r kids .nil).cut v).nodes → detach heap.fields v q x = {} := by
        intro x hxv hxu hxc
        rw [hout x hxv hxc]
        refine h.cleared x fun h => ?_
        rcases mem_cons.1 (hperm.mem_iff.1 h) with h | h
        · exact hxv h
        · exact (mem_append.1 h).elim hxu hxc
      obtain ⟨hchild, hn, hp⟩ := fields_detach (m := heap.fields) (v := v) (q := q) v
      rw [if_neg fun h => hqv h.1] at hchild
      rw [if_pos rfl] at hn hp
      have hcutEq : (node r kids .nil).cut v = .node r (kids.cut v) .nil :=
        cut_node (Ne.symm hvr) kids .nil
      rw [hcutEq] at hcut hcutOrdered hout hcleared hperm hnc hvc hdisjoint
      rw [hroot] at hcut
      rw [remove, hq]
      simp only []
      cases hu : (node r kids .nil).under v with
      | nil =>
        rw [hu] at hunder hcleared hperm
        have hnone : (heap.fields v).child = none := hunder
        refine ⟨⟨some r, detach heap.fields v q⟩, .node r (kids.cut v) .nil, ?_, ?_, hperm⟩
        · rw [hchild, hnone, hroot]
        · refine ⟨hcut, fun _ _ _ h => (by cases h; rfl), hnc, hcutOrdered, fun x hx => ?_⟩
          by_cases hxv : x = v
          · rw [hxv]
            exact IntrusiveField.ext (hchild.trans hnone) hp hn
          · exact hcleared x hxv (by simp [nodes]) hx
      | node c kc rc =>
        rw [hu] at hunder hordered hcleared hperm hvu hnu hdisjoint
        have hsome : (heap.fields v).child = some c := hunder.1
        rw [hsome] at hunder
        have hsame : ∀ x, x ≠ v → (detach heap.fields v q).setChild v none x =
            detach heap.fields v q x := fun x hxv => Fields.setChild_of_ne _ _ hxv
        have hkids : Linked ((detach heap.fields v q).setChild v none) (some v) (.node c kc rc)
            (some c) := by
          refine hunder.congr fun x hx => ?_
          have hxv : x ≠ v := fun h => hvu (h ▸ hx)
          rw [hsame x hxv, hout x hxv (hdisjoint x hx)]
        have hlt : (node c kc rc).nodes.length < fuel := by
          have hlength := hperm.length_eq
          rw [length_cons, length_append] at hlength
          omega
        have hroot' : Linked ((detach heap.fields v q).setChild v none) none
            (.node r (kids.cut v) .nil) (some r) :=
          hcut.congr fun x hx => hsame x fun h => hvc (h ▸ hx)
        have hnodup : ((node c kc rc).nodes ++ r :: (kids.cut v).nodes).Nodup := by
          rw [← nodes_tree]
          refine nodup_append.2 ⟨hnu, hnc, ?_⟩
          rintro x hx y hy rfl
          exact hdisjoint x hx hy
        obtain ⟨x, m, t, m', hcall, hmeld, hmelded, htree, hpm, hframe⟩ := combine_meld_spec hkids
          hroot' hnodup hordered ⟨hcutOrdered.1, hcutOrdered.2.1⟩ hlt
        refine ⟨_, .node t.1 t.2 .nil, ?_, holds_tree hmelded (hpm.nodup_iff.2 hnodup) htree
          fun x hx => ?_, ?_⟩
        · rw [hchild, hsome]
          simp only []
          rw [hcall, hroot]
          simp only [Option.bind_eq_bind, Option.bind_some, hmeld]
        · rw [hpm.mem_iff] at hx
          rw [hframe x hx]
          rw [mem_append, not_or] at hx
          by_cases hxv : x = v
          · rw [hxv]
            exact IntrusiveField.ext (by simp) (by simpa using hp) (by simpa using hn)
          · rw [hsame x hxv]
            exact hcleared x hxv hx.1 (by rw [nodes_tree]; exact hx.2)
        · refine hperm.trans (List.Perm.cons v ?_)
          rw [nodes_tree, nodes_tree]
          exact hpm.symm

omit [IsStrictWeakOrder α (less · · = true)] in
theorem forEach_spec (h : Holds less heap f) :
    ∃ enough, ∀ fuel ≥ enough, heap.forEach fuel = some f.nodes := by
  rcases h.cases with ⟨rfl, hroot⟩ | ⟨r, kids, rfl, hroot⟩
  · exact ⟨0, fun fuel _ => by rw [forEach, hroot]; rfl⟩
  · have hlinked := h.linked
    rw [hroot] at hlinked
    obtain ⟨rounds, hrounds⟩ := walk_visit _ [] rfl hlinked h.nodup
    refine ⟨rounds + 1, fun fuel hfuel => ?_⟩
    obtain ⟨more, rfl⟩ := Nat.exists_eq_add_of_le hfuel
    rw [forEach, hroot]
    simp only []
    rw [add_assoc, hrounds, add_comm, walk]
    simp [last, hlinked.2.1]

end Intrusive

/-! ### Runs -/

variable [DecidableEq α]

/-- A heap after operations that returned, and the nodes that were inserted and not taken out. -/
inductive Reached (less : α → α → Bool) : Intrusive α → Finset α → Prop
  | empty : Reached less {} ∅
  | insert {heap : Intrusive α} {nodes : Finset α} {v : α} :
      Reached less heap nodes → v ∉ nodes → Reached less (heap.insert less v) (insert v nodes)
  | deleteMin {heap heap' : Intrusive α} {nodes : Finset α} {fuel : ℕ} {v : α} :
      Reached less heap nodes → heap.deleteMin less fuel = some (some v, heap') →
      Reached less heap' (nodes.erase v)
  | deleteNone {heap heap' : Intrusive α} {nodes : Finset α} {fuel : ℕ} :
      Reached less heap nodes → heap.deleteMin less fuel = some (none, heap') →
      Reached less heap' nodes
  | remove {heap heap' : Intrusive α} {nodes : Finset α} {fuel : ℕ} {v : α} :
      Reached less heap nodes → v ∈ nodes → heap.remove less fuel v = some heap' →
      Reached less heap' (nodes.erase v)

/-- What the operations do to a heap with some nodes. -/
structure Intrusive.Queues (less : α → α → Bool) (heap : Intrusive α) (nodes : Finset α) :
    Prop where
  shape : ∃ f, heap.Holds less f ∧ f.nodes.toFinset = nodes
  peek : heap.root = none ↔ nodes = ∅
  deleteMin : ∃ enough, ∀ fuel ≥ enough, ∃ result heap',
    heap.deleteMin less fuel = some (result, heap') ∧ (result = none ↔ nodes = ∅) ∧
      ∀ v ∈ result, v ∈ nodes ∧ (∀ u ∈ nodes, less u v = false) ∧ heap'.fields v = {}
  remove : ∃ enough, ∀ fuel ≥ enough, ∀ v ∈ nodes, ∃ heap',
    heap.remove less fuel v = some heap' ∧ heap'.fields v = {}
  forEach : ∃ enough visited, (∀ fuel ≥ enough, heap.forEach fuel = some visited) ∧
    visited.Nodup ∧ visited.toFinset = nodes
  cleared : ∀ v ∉ nodes, heap.fields v = {}

variable [IsStrictWeakOrder α (less · · = true)] {nodes : Finset α}

open Intrusive

theorem Intrusive.Holds.queues (h : heap.Holds less f) : heap.Queues less f.nodes.toFinset where
  shape := ⟨f, h, rfl⟩
  peek := by
    rcases h.cases with ⟨rfl, hroot⟩ | ⟨r, kids, rfl, hroot⟩
    · simp [hroot, Forest.nodes]
    · simp [hroot, Forest.nodes]
  deleteMin := by
    refine ⟨f.nodes.length + 1, fun fuel hfuel => ?_⟩
    obtain ⟨result, heap', f', hcall, hholds, hperm, hfirst, hmin⟩ := deleteMin_spec h hfuel
    refine ⟨result, heap', hcall, ?_, fun v hv => ⟨?_, fun u hu => ?_, ?_⟩⟩
    · rw [hfirst]
      cases f <;> simp [Forest.first, Forest.nodes]
    · rw [mem_toFinset]
      exact Forest.first_mem (hfirst ▸ hv)
    · exact Bool.not_eq_true _ ▸ hmin v hv u (mem_toFinset.1 hu)
    · refine hholds.cleared v fun hv' => ?_
      have hnodup := hperm.nodup_iff.1 h.nodup
      rw [Option.mem_def.1 hv] at hnodup
      exact (nodup_cons.1 hnodup).1 hv'
  remove := by
    refine ⟨f.nodes.length + 1, fun fuel hfuel v hv => ?_⟩
    obtain ⟨heap', f', hcall, hholds, hperm⟩ := remove_spec h (mem_toFinset.1 hv) hfuel
    exact ⟨heap', hcall, hholds.cleared v (nodup_cons.1 (hperm.nodup_iff.1 h.nodup)).1⟩
  forEach := by
    obtain ⟨enough, hcall⟩ := forEach_spec h
    exact ⟨enough, f.nodes, hcall, h.nodup, rfl⟩
  cleared := fun v hv => h.cleared v fun h => hv (mem_toFinset.2 h)

omit [IsStrictWeakOrder α (less · · = true)] in
theorem toFinset_eq_erase {xs ys : List α} (hnodup : xs.Nodup) (h : xs.Perm (v :: ys)) :
    ys.toFinset = xs.toFinset.erase v := by
  have hv := (nodup_cons.1 (h.nodup_iff.1 hnodup)).1
  rw [toFinset_eq_of_perm _ _ h, toFinset_cons, Finset.erase_insert]
  rwa [mem_toFinset]

theorem deleteMin_call {fuel : ℕ} {result : Option α} {heap' : Intrusive α} (h : Holds less heap f)
    (hcall : heap.deleteMin less fuel = some (result, heap')) :
    ∃ f', Holds less heap' f' ∧ f.nodes.Perm (result.toList ++ f'.nodes) := by
  obtain ⟨result, heap'', f', hcall', hholds, hperm, -, -⟩ :=
    deleteMin_spec h (show f.nodes.length < fuel + (f.nodes.length + 1) by omega)
  rw [deleteMin_add _ hcall] at hcall'
  obtain ⟨rfl, rfl⟩ := Prod.mk.inj (Option.some.inj hcall')
  exact ⟨f', hholds, hperm⟩

theorem reached_holds (h : Reached less heap nodes) :
    ∃ f, heap.Holds less f ∧ f.nodes.toFinset = nodes := by
  induction h with
  | empty => exact ⟨.nil, holds_nil, rfl⟩
  | insert _ hv ih =>
    obtain ⟨f, hholds, rfl⟩ := ih
    obtain ⟨f', hholds', hperm⟩ := insert_spec hholds fun h => hv (mem_toFinset.2 h)
    exact ⟨f', hholds', by rw [toFinset_eq_of_perm _ _ hperm, toFinset_cons]⟩
  | deleteMin _ hcall ih =>
    obtain ⟨f, hholds, rfl⟩ := ih
    obtain ⟨f', hholds', hperm⟩ := deleteMin_call hholds hcall
    exact ⟨f', hholds', toFinset_eq_erase hholds.nodup hperm⟩
  | deleteNone _ hcall ih =>
    obtain ⟨f, hholds, rfl⟩ := ih
    obtain ⟨f', hholds', hperm⟩ := deleteMin_call hholds hcall
    exact ⟨f', hholds', (toFinset_eq_of_perm _ _ hperm).symm⟩
  | @remove heap heap' _ fuel v _ hv hcall ih =>
    obtain ⟨f, hholds, rfl⟩ := ih
    obtain ⟨heap'', f', hcall', hholds', hperm⟩ :=
      remove_spec hholds (mem_toFinset.1 hv)
        (show f.nodes.length < fuel + (f.nodes.length + 1) by omega)
    rw [remove_add _ hcall] at hcall'
    obtain rfl := Option.some.inj hcall'
    exact ⟨f', hholds', toFinset_eq_erase hholds.nodup hperm⟩

/-- The pairing heap is a priority queue. -/
theorem reached_queues (h : Reached less heap nodes) : heap.Queues less nodes := by
  obtain ⟨f, hholds, rfl⟩ := reached_holds h
  exact hholds.queues

/-- `3` and `1` are inserted, and the least is deleted. -/
theorem reached_queues_insert : ∃ heap : Intrusive ℕ,
    heap.Queues (fun a b => decide (a < b)) ((insert 1 (insert 3 ∅) : Finset ℕ).erase 1) ∧
      heap.root = some 3 := by
  have : IsStrictWeakOrder ℕ (fun a b => decide (a < b) = true) := by
    simp only [decide_eq_true_eq]
    exact { irrefl := lt_irrefl, trans := fun _ _ _ => lt_trans, incomp_trans := by omega }
  let heap : Intrusive ℕ := (({} : Intrusive ℕ).insert (fun a b => decide (a < b)) 3).insert
    (fun a b => decide (a < b)) 1
  have h : Reached (fun a b => decide (a < b)) heap (insert 1 (insert 3 ∅)) :=
    .insert (.insert .empty (by decide)) (by decide)
  have hdelete : heap.deleteMin (fun a b => decide (a < b)) 2 = some (some 1, _) := rfl
  exact ⟨_, reached_queues (.deleteMin h hdelete), rfl⟩

/-! ### Draining a heap -/

/-- What `delete_min` gives in at most `rounds` calls until there is nothing left, and the heap
then. -/
def Intrusive.drain (less : α → α → Bool) (fuel : ℕ) :
    ℕ → Intrusive α → Option (List α × Intrusive α)
  | 0, heap => some ([], heap)
  | rounds + 1, heap => do
    match ← heap.deleteMin less fuel with
    | (none, heap) => some ([], heap)
    | (some v, heap) =>
      let (vs, heap) ← drain less fuel rounds heap
      some (v :: vs, heap)

omit [DecidableEq α] [IsStrictWeakOrder α (less · · = true)] in
theorem Intrusive.Holds.eq_empty (h : heap.Holds less .nil) : heap = {} :=
  congrArg₂ Intrusive.mk h.linked (funext fun v => h.cleared v not_mem_nil)

theorem drain_spec (fuel : ℕ) : ∀ (rounds : ℕ) {heap : Intrusive α} {f : Forest α},
    heap.Holds less f → f.nodes.length ≤ rounds → f.nodes.length < fuel →
    ∃ vs, heap.drain less fuel rounds = some (vs, {}) ∧ f.nodes.Perm vs ∧
      vs.Pairwise fun u v => less v u = false
  | 0, heap, f, h, hrounds, _ => by
    cases f with
    | nil => exact ⟨[], by rw [drain, h.eq_empty], .refl _, .nil⟩
    | node v kids rest => simp [nodes] at hrounds
  | rounds + 1, heap, f, h, hrounds, hfuel => by
    obtain ⟨result, heap', f', hcall, hholds, hperm, hfirst, hmin⟩ := deleteMin_spec h hfuel
    cases result with
    | none =>
      cases f with
      | nil =>
        cases f' with
        | nil => exact ⟨[], by simp [drain, hcall, hholds.eq_empty], .refl _, .nil⟩
        | node v kids rest => simpa [nodes] using hperm.length_eq
      | node v kids rest => cases hfirst
    | some v =>
      have hlength := hperm.length_eq
      rw [Option.toList_some, singleton_append, length_cons] at hlength
      obtain ⟨vs, hdrain, hvs, hsorted⟩ := drain_spec fuel rounds hholds (by omega) (by omega)
      have hall := hperm.trans (hvs.cons v)
      refine ⟨v :: vs, by simp [drain, hcall, hdrain], hall,
        pairwise_cons.2 ⟨fun u hu => ?_, hsorted⟩⟩
      exact Bool.not_eq_true _ ▸ hmin v rfl u (hall.mem_iff.2 (mem_cons_of_mem v hu))

/-- After any operations, deleting the least node again and again gives every node of the heap once
and in order, and no links are left. -/
theorem drain_sorts (h : Reached less heap nodes) {fuel rounds : ℕ} (hfuel : nodes.card < fuel)
    (hrounds : nodes.card ≤ rounds) :
    ∃ vs, heap.drain less fuel rounds = some (vs, {}) ∧ vs.Nodup ∧ vs.toFinset = nodes ∧
      vs.Pairwise fun u v => less v u = false := by
  obtain ⟨f, hholds, rfl⟩ := reached_holds h
  rw [toFinset_card_of_nodup hholds.nodup] at hfuel hrounds
  obtain ⟨vs, hdrain, hperm, hsorted⟩ := drain_spec fuel rounds hholds hrounds hfuel
  exact ⟨vs, hdrain, hperm.nodup_iff.1 hholds.nodup, (toFinset_eq_of_perm _ _ hperm).symm, hsorted⟩

theorem drain_sorts_two : ∃ vs,
    ((({} : Intrusive ℕ).insert (fun a b => decide (a < b)) 3).insert
      (fun a b => decide (a < b)) 1).drain (fun a b => decide (a < b)) 3 2 = some (vs, {}) ∧
    vs.Nodup ∧ vs.toFinset = {1, 3} ∧ vs.Pairwise fun u v => decide (v < u) = false := by
  have : IsStrictWeakOrder ℕ (fun a b => decide (a < b) = true) := by
    simp only [decide_eq_true_eq]
    exact { irrefl := lt_irrefl, trans := fun _ _ _ => lt_trans, incomp_trans := by omega }
  exact drain_sorts (.insert (.insert .empty (by decide)) (by decide)) (by decide) (by decide)

end Soup.Collections
