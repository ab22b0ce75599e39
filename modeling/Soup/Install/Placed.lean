import Soup.Install.Tree

/-!
# Hoisting preserves resolution

`Holds` is the invariant of the whole run: every dependency that was walked is seen from its tree,
and a tree below the topmost one has exactly the rows that clash with what the tree above sees. A
row is only ever added to the tree that is being filled or to the topmost one, where a lookup comes
last, so what a folder finds never changes. `fill_holds` carries the invariant over a run.
-/

namespace Soup.Install

open Soup.Lib List Function Option Scopes

namespace Graph

open scoped Classical in
/-- What holds of the trees after some dependencies of each tree were walked. -/
structure Holds (g : Graph) (b : Builder) (walked : ℕ → List ℕ) : Prop extends g.Forest b where
  sees : ∀ i < b.list.length, ∀ d ∈ walked i, g.Sees b.list i d
  /-- The tree above finds the name of a dependency that was walked. -/
  foundAbove : ∀ i p, (scopes b.list).parent i = some p → ∀ d ∈ walked i,
    g.Sees b.list p d ∨ g.Clashes b.list p d
  rows : ∀ i p, (scopes b.list).parent i = some p →
    (scopes b.list).rows i = (walked i).filter fun d => g.Clashes b.list p d
  /-- A row whose package has dependencies is queued, has a tree, or needs none. -/
  covered : ∀ i, ∀ d ∈ (scopes b.list).rows i, g.resolutionList (g.resolution d) ≠ [] →
    { treeId := i, dependencyId := d } ∈ b.queue ∨
      (∃ j, (scopes b.list).parent j = some i ∧ depAt b.list j = some d) ∨
      walked i = g.depsOf b.list i ∧
        ∀ e ∈ g.resolutionList (g.resolution d), g.Sees b.list i e

variable {g : Graph} {b : Builder} {walked : ℕ → List ℕ} {i p d e r x : ℕ}

theorem Sees.not_clashes {list : List BuilderEntry} (h : g.Sees list i d) :
    ¬g.Clashes list i d := by
  rintro ⟨row', hrow', hne⟩
  obtain ⟨row, hrow, hres⟩ := h
  rw [hrow.unique hrow'] at hres
  exact hne hres

/-! ## One dependency -/

/-- What the walk of a dependency does to what the trees find. -/
structure Keeps (g : Graph) (b b' : Builder) (x d : ℕ) : Prop where
  before : ∀ {i n row}, i < x → g.Finds b.list i n row → g.Finds b'.list i n row
  other : ∀ {n row}, n ≠ g.nameHash d → g.Finds b.list x n row → g.Finds b'.list x n row
  twins : ∀ {i j}, i < x → j < x → g.Twins b.list i j → g.Twins b'.list i j

theorem keeps_place_self (h : g.Forest b) (hx : x < b.list.length) :
    g.Keeps b (g.place b x d) x d where
  before := fun hi hfinds => by
    rw [Finds, scopes_place hx]
    exact (finds_push_of_lt h.grounded hi).2 hfinds
  other := fun hn hfinds => by
    rw [Finds, scopes_place hx]
    exact (finds_push_of_ne (Ne.symm hn)).2 hfinds
  twins := fun hi hj htwins => by
    rw [Twins, scopes_place hx]
    exact htwins.push_of_lt h.grounded hi hj

theorem keeps_place_root (h : g.Forest b) (hx : x < b.list.length) (hr : r < b.list.length)
    (hparent : (scopes b.list).parent r = none) :
    g.Keeps b (g.place b r d) x d where
  before := fun _ hfinds => by
    rw [Finds, scopes_place hr]
    exact hfinds.push_root hparent
  other := fun _ hfinds => by
    rw [Finds, scopes_place hr]
    exact hfinds.push_root hparent
  twins := fun hi hj htwins => by
    obtain rfl := (h.root r hr hparent).1
    rw [Twins, scopes_place hr]
    exact htwins.push_root h.grounded hparent (fun _ _ hm => h.misses_eq (hi.trans hx) hm)
      fun _ _ hm => h.misses_eq (hj.trans hx) hm

variable {b' : Builder}

theorem Keeps.sees (h : g.Keeps b b' x d) (hi : i < x ∨ i = x ∧ g.nameHash e ≠ g.nameHash d)
    (hsees : g.Sees b.list i e) : g.Sees b'.list i e := by
  obtain ⟨row, hrow, hres⟩ := hsees
  rcases hi with hi | ⟨rfl, hne⟩
  · exact ⟨row, h.before hi hrow, hres⟩
  · exact ⟨row, h.other hne hrow, hres⟩

theorem Keeps.clashes (h : g.Keeps b b' x d) (hi : i < x) (hclashes : g.Clashes b.list i e) :
    g.Clashes b'.list i e := by
  obtain ⟨row, hrow, hres⟩ := hclashes
  exact ⟨row, h.before hi hrow, hres⟩

/-- What the walk of a dependency of the last tree has to leave. -/
structure Walks (g : Graph) (b b' : Builder) (x d : ℕ) : Prop extends g.Forest b',
    g.Keeps b b' x d where
  length : b'.list.length = b.list.length
  parent : ∀ i, (scopes b'.list).parent i = (scopes b.list).parent i
  depAt : ∀ i, Install.depAt b'.list i = Install.depAt b.list i
  queue : ∃ new, b'.queue = b.queue ++ new ∧
    ∀ item ∈ new, item.dependencyId ∉ (scopes b.list).rows item.treeId
  served : g.Sees b'.list x d
  found : ∀ p, (scopes b.list).parent x = some p → g.Sees b'.list p d ∨ g.Clashes b'.list p d
  mono : ∀ i, ∀ e ∈ (scopes b.list).rows i, e ∈ (scopes b'.list).rows i
  row : ∀ i, ∀ e ∈ (scopes b'.list).rows i, e ∈ (scopes b.list).rows i ∨
    e = d ∧ (g.resolutionList (g.resolution d) ≠ [] →
      { treeId := i, dependencyId := d } ∈ b'.queue)
  others : ∀ i p, (scopes b.list).parent i = some p → i ≠ x →
    (scopes b'.list).rows i = (scopes b.list).rows i
  last : ∀ p, (scopes b.list).parent x = some p →
    (g.Clashes b'.list p d ∧ (scopes b'.list).rows x = (scopes b.list).rows x ++ [d]) ∨
      (g.Sees b'.list p d ∧ (scopes b'.list).rows x = (scopes b.list).rows x)

theorem Walks.mem_queue (h : g.Walks b b' x d) {item : FillItem} (hitem : item ∈ b.queue) :
    item ∈ b'.queue := by
  obtain ⟨new, hnew, -⟩ := h.queue
  rw [hnew]
  exact mem_append_left _ hitem

/-- The invariant behind a dependency. -/
theorem Holds.walks (h : g.Holds b walked) (hx : x + 1 = b.list.length)
    (hnew : ∀ e ∈ walked x, g.nameHash e ≠ g.nameHash d) (hopen : walked x ≠ g.depsOf b.list x)
    (hw : g.Walks b b' x d) : g.Holds b' (update walked x (walked x ++ [d])) := by
  classical
  have habove : ∀ {i p}, (scopes b.list).parent i = some p → p < x := fun {i p} hp => by
    have := lt_length_of_parent hp
    have := h.grounded i p hp
    omega
  have hclashes : ∀ i p, (scopes b.list).parent i = some p → ∀ e ∈ walked i,
      (g.Clashes b'.list p e ↔ g.Clashes b.list p e) := fun i p hp e he => by
    rcases h.foundAbove i p hp e he with hs | hc
    · have hs' := hw.sees (.inl (habove hp)) hs
      exact iff_of_false hs'.not_clashes hs.not_clashes
    · exact iff_of_true (hw.clashes (habove hp) hc) hc
  refine ⟨hw.toForest, fun i hi e he => ?_, fun i p hp e he => ?_, fun i p hp => ?_,
    fun i e he hdeps => ?_⟩
  · by_cases hix : i = x
    · subst hix
      rw [update_self, mem_append, mem_singleton] at he
      rcases he with he | rfl
      · exact hw.sees (.inr ⟨rfl, hnew e he⟩) (h.sees i (by omega) e he)
      · exact hw.served
    · rw [update_of_ne hix] at he
      rw [hw.length] at hi
      exact hw.sees (.inl (by omega)) (h.sees i hi e he)
  · rw [hw.parent] at hp
    have hold : ∀ e ∈ walked i, g.Sees b'.list p e ∨ g.Clashes b'.list p e := fun e he =>
      (h.foundAbove i p hp e he).imp (hw.sees (.inl (habove hp))) (hw.clashes (habove hp))
    by_cases hix : i = x
    · subst hix
      rw [update_self, mem_append, mem_singleton] at he
      rcases he with he | rfl
      · exact hold e he
      · exact hw.found p hp
    · rw [update_of_ne hix] at he
      exact hold e he
  · rw [hw.parent] at hp
    have hfilter : (scopes b.list).rows i = (walked i).filter fun d => g.Clashes b'.list p d := by
      rw [h.rows i p hp]
      refine filter_congr fun e he => ?_
      simpa using (hclashes i p hp e he).symm
    by_cases hix : i = x
    · subst hix
      rw [update_self, filter_append, ← hfilter]
      rcases hw.last p hp with ⟨hc, hrows⟩ | ⟨hs, hrows⟩
      · rw [hrows]
        simp [hc]
      · rw [hrows]
        simp [hs.not_clashes]
    · rw [update_of_ne hix, ← hfilter, hw.others i p hp hix]
  · rcases hw.row i e he with he | ⟨rfl, hqueued⟩
    · rcases h.covered i e he hdeps with hq | ⟨j, hj, hdep⟩ | ⟨hall, hsees⟩
      · exact .inl (hw.mem_queue hq)
      · exact .inr (.inl ⟨j, by rw [hw.parent, hj], by rw [hw.depAt, hdep]⟩)
      · by_cases hix : i = x
        · subst hix
          exact absurd hall hopen
        · have hi := lt_length_of_mem he
          refine .inr (.inr ⟨?_, fun e' he' => hw.sees (.inl (by omega)) (hsees e' he')⟩)
          rw [update_of_ne hix, hall, depsOf, depsOf, hw.depAt]
    · exact .inl (hqueued hdeps)

/-- A row that is added to a tree. -/
theorem walks_place (h : g.Forest b) (hr : r < b.list.length)
    (hown : (scopes b.list).own g.nameHash r (g.nameHash d) = none)
    (hd : d < g.dependencies.length) (hkeeps : g.Keeps b (g.place b r d) x d)
    (hserved : g.Sees (g.place b r d).list x d) (hfound : ∀ p, (scopes b.list).parent x = some p →
      (r = x ∧ g.Clashes (g.place b r d).list p d) ∨ (r ≠ x ∧ g.Sees (g.place b r d).list p d))
    (hothers : ∀ p, (scopes b.list).parent r = some p → r = x) :
    g.Walks b (g.place b r d) x d where
  toForest := h.place hr hown hd
  toKeeps := hkeeps
  length := length_place
  parent := fun i => by rw [scopes_place hr]; rfl
  depAt := fun i => depAt_place
  queue := by
    rw [place]
    split
    · exact ⟨[], (append_nil _).symm, by simp⟩
    · refine ⟨_, rfl, fun item hitem hmem => ?_⟩
      rw [mem_singleton.1 hitem] at hmem
      exact own_eq_none.1 hown d hmem rfl
  served := hserved
  found := fun p hp => (hfound p hp).symm.imp And.right And.right
  mono := fun i e he => by
    rw [scopes_place hr]
    by_cases hi : i = r
    · subst hi
      rw [rows_push_self]
      exact mem_append_left _ he
    · rwa [rows_push_ne hi]
  row := fun i e he => by
    rw [scopes_place hr] at he
    by_cases hi : i = r
    · subst hi
      rw [rows_push_self, mem_append, mem_singleton] at he
      exact he.imp_right fun he => ⟨he, fun hdeps => mem_queue_place.2 (.inr ⟨hdeps, rfl⟩)⟩
    · rw [rows_push_ne hi] at he
      exact .inl he
  others := fun i p hp hi => by
    rw [scopes_place hr, rows_push_ne]
    rintro rfl
    exact hi (hothers p hp)
  last := fun p hp => by
    rcases hfound p hp with ⟨rfl, hc⟩ | ⟨hne, hs⟩
    · exact .inl ⟨hc, by rw [scopes_place hr, rows_push_self]⟩
    · exact .inr ⟨hs, by rw [scopes_place hr, rows_push_ne (Ne.symm hne)]⟩

theorem walks_hoist (h : g.Forest b) (hx : x < b.list.length)
    (hown : (scopes b.list).own g.nameHash x (g.nameHash d) = none)
    (hd : d < g.dependencies.length) : g.Walks b (g.hoist x b d) x d := by
  have hserved : g.Sees (g.place b x d).list x d := by
    refine ⟨d, .here ?_, rfl⟩
    rw [scopes_place hx, own_push_self, hown, if_pos rfl, none_or]
  rcases hoist_cases h.grounded hx hown with
    ⟨p, hp, ⟨hs, he⟩ | ⟨hc, he⟩ | ⟨r, hr, he⟩⟩ | ⟨hp, he⟩
  · rw [he]
    obtain ⟨row, hrow, hres⟩ := hs
    exact {
      h with
      before := fun _ hfinds => hfinds
      other := fun _ hfinds => hfinds
      twins := fun _ _ htwins => htwins
      length := rfl
      parent := fun _ => rfl
      depAt := fun _ => rfl
      queue := ⟨[], (append_nil _).symm, by simp⟩
      served := ⟨row, .above hown hp hrow, hres⟩
      found := fun p' hp' => .inl (by
        obtain rfl := some.inj (hp.symm.trans hp')
        exact ⟨row, hrow, hres⟩)
      mono := fun _ _ hrow => hrow
      row := fun _ _ hrow => .inl hrow
      others := fun _ _ _ _ => rfl
      last := fun p' hp' => .inr (by
        obtain rfl := some.inj (hp.symm.trans hp')
        exact ⟨⟨row, hrow, hres⟩, rfl⟩) }
  · rw [he]
    have hkeeps := keeps_place_self (d := d) h hx
    refine walks_place h hx hown hd hkeeps hserved (fun p' hp' => ?_) fun _ _ => rfl
    obtain rfl := some.inj (hp.symm.trans hp')
    exact .inl ⟨rfl, hkeeps.clashes (h.grounded x p hp) hc⟩
  · rw [he]
    obtain ⟨hle, hroot, hownr⟩ := hr.root_spec h.grounded
    have hlt : r < x := hle.trans_lt (h.grounded x p hp)
    have hrlen := hlt.trans hx
    have hfinds : g.Finds (g.place b r d).list p (g.nameHash d) d := by
      rw [Finds, scopes_place hrlen]
      exact hr.finds_push rfl
    refine walks_place h hrlen hownr hd (keeps_place_root h hx hrlen hroot) ⟨d, ?_, rfl⟩
      (fun p' hp' => ?_) fun p' hp' => ?_
    · rw [Finds, scopes_place hrlen] at hfinds ⊢
      refine .above ?_ hp hfinds
      rw [own_push_ne hlt.ne', hown]
    · obtain rfl := some.inj (hp.symm.trans hp')
      exact .inr ⟨hlt.ne, d, hfinds, rfl⟩
    · rw [hroot] at hp'
      cases hp'
  · rw [he]
    refine walks_place h hx hown hd (keeps_place_self h hx) hserved (fun p' hp' => ?_) fun _ _ =>
      rfl
    rw [hp] at hp'
    cases hp'

/-! ## The dependencies of a tree -/

/-- What the walk of the dependencies of the last tree does to the trees. -/
structure Grows (g : Graph) (b b' : Builder) (x : ℕ) : Prop where
  length : b'.list.length = b.list.length
  parent : ∀ i, (scopes b'.list).parent i = (scopes b.list).parent i
  depAt : ∀ i, Install.depAt b'.list i = Install.depAt b.list i
  mono : ∀ i, ∀ e ∈ (scopes b.list).rows i, e ∈ (scopes b'.list).rows i
  others : ∀ i p, (scopes b.list).parent i = some p → i ≠ x →
    (scopes b'.list).rows i = (scopes b.list).rows i
  before : ∀ {i n row}, i < x → g.Finds b.list i n row → g.Finds b'.list i n row
  twins : ∀ {i j}, i < x → j < x → g.Twins b.list i j → g.Twins b'.list i j
  queue : ∃ new, b'.queue = b.queue ++ new ∧
    ∀ item ∈ new, item.dependencyId ∉ (scopes b.list).rows item.treeId
  /-- A row that was added is queued. -/
  fresh : ∀ i, ∀ e ∈ (scopes b'.list).rows i, e ∈ (scopes b.list).rows i ∨
    (g.resolutionList (g.resolution e) ≠ [] → { treeId := i, dependencyId := e } ∈ b'.queue)

theorem Grows.refl (b : Builder) : g.Grows b b x where
  length := rfl
  parent := fun _ => rfl
  depAt := fun _ => rfl
  mono := fun _ _ he => he
  others := fun _ _ _ _ => rfl
  before := fun _ hfinds => hfinds
  twins := fun _ _ htwins => htwins
  queue := ⟨[], (append_nil _).symm, by simp⟩
  fresh := fun _ _ he => .inl he

theorem Walks.grows (h : g.Walks b b' x d) : g.Grows b b' x where
  length := h.length
  parent := h.parent
  depAt := h.depAt
  mono := h.mono
  others := h.others
  before := h.before
  twins := h.twins
  queue := h.queue
  fresh := fun i e he => by
    refine (h.row i e he).imp_right fun ⟨hed, hqueued⟩ hdeps => ?_
    rw [hed] at hdeps ⊢
    exact hqueued hdeps

theorem Grows.trans {b'' : Builder} (h : g.Grows b b' x) (h' : g.Grows b' b'' x) :
    g.Grows b b'' x where
  length := h'.length.trans h.length
  parent := fun i => (h'.parent i).trans (h.parent i)
  depAt := fun i => (h'.depAt i).trans (h.depAt i)
  mono := fun i e he => h'.mono i e (h.mono i e he)
  others := fun i p hp hi =>
    (h'.others i p ((h.parent i).trans hp) hi).trans (h.others i p hp hi)
  before := fun hi hfinds => h'.before hi (h.before hi hfinds)
  twins := fun hi hj htwins => h'.twins hi hj (h.twins hi hj htwins)
  queue := by
    obtain ⟨new, hnew, hfresh⟩ := h.queue
    obtain ⟨new', hnew', hfresh'⟩ := h'.queue
    refine ⟨new ++ new', by rw [hnew', hnew, append_assoc], fun item hitem hmem => ?_⟩
    rcases mem_append.1 hitem with hitem | hitem
    · exact hfresh item hitem hmem
    · exact hfresh' item hitem (h.mono _ _ hmem)
  fresh := fun i e he => by
    rcases h'.fresh i e he with he | hqueued
    · refine (h.fresh i e he).imp_right fun hqueued hdeps => ?_
      obtain ⟨new', hnew', -⟩ := h'.queue
      rw [hnew']
      exact mem_append_left _ (hqueued hdeps)
    · exact .inr hqueued

/-- The loop of `process_subtree`. -/
theorem foldl_hoist (hw : g.WellFormed) (todo : List ℕ) : ∀ {b : Builder} {walked : ℕ → List ℕ},
    g.Holds b walked → x + 1 = b.list.length → g.depsOf b.list x = walked x ++ todo →
    (∀ e ∈ (scopes b.list).rows x, e ∈ walked x) →
    g.Holds (todo.foldl (g.hoist x) b) (update walked x (g.depsOf b.list x)) ∧
      g.Grows b (todo.foldl (g.hoist x) b) x := by
  induction todo with
  | nil =>
    intro b walked h _ hdeps _
    rw [append_nil] at hdeps
    rw [foldl_nil, hdeps, update_eq_self]
    exact ⟨h, .refl b⟩
  | cons d todo ih =>
    intro b walked h hx hdeps hrows
    have hlt : x < b.list.length := by omega
    have hnodup : ((g.depsOf b.list x).map g.nameHash).Nodup := nodup_depsOf hw
    rw [hdeps, map_append, map_cons, nodup_append] at hnodup
    have hnew : ∀ e ∈ walked x, g.nameHash e ≠ g.nameHash d := fun e he =>
      hnodup.2.2 _ (mem_map_of_mem he) _ (by simp)
    have hopen : walked x ≠ g.depsOf b.list x := by
      rw [hdeps]
      simp
    have hmem : d ∈ g.depsOf b.list x := by
      rw [hdeps]
      simp
    have hd : d < g.dependencies.length := (hw _).1 d (mem_depsOf.1 hmem)
    have hown : (scopes b.list).own g.nameHash x (g.nameHash d) = none :=
      own_eq_none.2 fun e he => hnew e (hrows e he)
    have hstep := walks_hoist h.toForest hlt hown hd
    have hdeps' : g.depsOf (g.hoist x b d).list x = g.depsOf b.list x := by
      rw [depsOf, depsOf, hstep.depAt]
    obtain ⟨hholds, hgrows⟩ := ih (h.walks hx hnew hopen hstep) (hx.trans hstep.length.symm)
      (by rw [hdeps', update_self, hdeps, append_assoc]; rfl) (fun e he => by
        rw [update_self, mem_append, mem_singleton]
        exact (hstep.row x e he).imp (hrows e) And.left)
    rw [hdeps', update_idem] at hholds
    exact ⟨hholds, hstep.grows.trans hgrows⟩

/-! ## A tree -/

/-- The invariant between two trees: every dependency of every tree was walked, and no tree is
without rows. -/
structure Built (g : Graph) (b : Builder) : Prop extends g.Holds b (g.depsOf b.list) where
  nonempty : ∀ i < b.list.length, (scopes b.list).rows i ≠ []

section Append

variable {list : List BuilderEntry} {tree : BuilderEntry}

theorem getElem?_append_tree (i : ℕ) :
    (list ++ [tree])[i]? = if i = list.length then some tree else list[i]? := by
  rw [getElem?_append]
  split
  next hi =>
    rw [if_neg hi.ne]
  next hi =>
    by_cases he : i = list.length
    · simp [he]
    · rw [if_neg he, getElem?_eq_none (l := list) (by omega),
        getElem?_eq_none (by simp; omega)]

theorem parent_append (i : ℕ) : (scopes (list ++ [tree])).parent i =
    if i = list.length then tree.parent else (scopes list).parent i := by
  rw [parent_scopes, parent_scopes, getElem?_append_tree]
  split <;> rfl

theorem rows_append (i : ℕ) : (scopes (list ++ [tree])).rows i =
    if i = list.length then tree.rows else (scopes list).rows i := by
  rw [rows_scopes, rows_scopes, getElem?_append_tree]
  split <;> rfl

theorem depAt_append (i : ℕ) : depAt (list ++ [tree]) i =
    if i = list.length then tree.dependencyId else depAt list i := by
  rw [depAt, depAt, getElem?_append_tree]
  split <;> rfl

section

variable (hs : (scopes list).Grounded)
include hs

/-- A new tree changes nothing for the trees before. -/
theorem finds_append (hi : i < list.length) {n : UInt64} {row : ℕ} :
    g.Finds (list ++ [tree]) i n row ↔ g.Finds list i n row := by
  refine finds_congr hs (fun j hj => ?_) fun j hj => ?_
  · rw [parent_append, if_neg (hj.trans_lt hi).ne]
  · rw [rows_append, if_neg (hj.trans_lt hi).ne]

theorem sees_append (hi : i < list.length) : g.Sees (list ++ [tree]) i d ↔ g.Sees list i d := by
  simp only [Sees, finds_append hs hi]

theorem clashes_append (hi : i < list.length) :
    g.Clashes (list ++ [tree]) i d ↔ g.Clashes list i d := by
  simp only [Clashes, finds_append hs hi]

end

theorem depsOf_append (hi : i < list.length) : g.depsOf (list ++ [tree]) i = g.depsOf list i := by
  rw [depsOf, depsOf, depAt_append, if_neg hi.ne]

section Begin

variable {item : FillItem} {queue : List FillItem}
  (htree : tree = { parent := some item.treeId, dependencyId := some item.dependencyId })
include htree

theorem mem_rows_begin (he : e ∈ (scopes (list ++ [tree])).rows i) :
    i < list.length ∧ e ∈ (scopes list).rows i := by
  rw [rows_append] at he
  split at he
  · rw [htree] at he
    cases he
  · exact ⟨lt_length_of_mem he, he⟩

theorem parent_begin (hp : (scopes (list ++ [tree])).parent i = some p) :
    (i = list.length ∧ p = item.treeId) ∨
      (i < list.length ∧ i ≠ list.length ∧ (scopes list).parent i = some p) := by
  rw [parent_append] at hp
  split at hp
  next hi =>
    rw [htree] at hp
    exact .inl ⟨hi, (some.inj hp).symm⟩
  next hi =>
    exact .inr ⟨lt_length_of_parent hp, hi, hp⟩

theorem depAt_begin : depAt (list ++ [tree]) list.length = some item.dependencyId := by
  rw [depAt_append, if_pos rfl, htree]

/-- The tree of a queued row is the first one for it. -/
theorem Built.forest_append (h : g.Built { list, queue := item :: queue }) :
    g.Forest { list := list ++ [tree], queue } := by
  obtain ⟨hmem, hdeps, hnone⟩ := h.queued item (mem_cons_self ..)
  obtain ⟨hitem, hnodup⟩ := nodup_cons.1 h.nodup
  have hrows : ∀ {i e}, e ∈ (scopes list).rows i → e ∈ (scopes (list ++ [tree])).rows i :=
    fun {i e} he => by
      rwa [rows_append, if_neg (lt_length_of_mem he).ne]
  have hdep : depAt (list ++ [tree]) list.length = some item.dependencyId := depAt_begin htree
  have hdep' : ∀ {i}, i ≠ list.length → depAt (list ++ [tree]) i = depAt list i := fun hi => by
    rw [depAt_append, if_neg hi]
  refine ⟨?_, ?_, ?_, fun i => ?_, fun i e he => ?_, fun item' hitem' => ?_, hnodup⟩
  · intro i hi hp
    rw [parent_append] at hp
    split at hp
    · rw [htree] at hp
      cases hp
    next hne =>
      rw [hdep' hne]
      refine h.root i ?_ hp
      simp only [length_append, length_singleton] at hi
      show i < list.length
      omega
  · intro i p hp
    rcases parent_begin htree hp with ⟨rfl, rfl⟩ | ⟨hi, hne, hp⟩
    · exact ⟨lt_length_of_mem hmem, item.dependencyId, hdep, hrows hmem, hdeps⟩
    · obtain ⟨hpi, e, he, hmem, hdeps⟩ := h.below i p hp
      exact ⟨hpi, e, by rw [hdep' hne]; exact he, hrows hmem, hdeps⟩
  · intro i j p hi hj hsame
    rcases parent_begin htree hi with ⟨rfl, rfl⟩ | ⟨hi, hne, hp⟩
    · rcases parent_begin htree hj with ⟨rfl, -⟩ | ⟨-, hne', hp'⟩
      · rfl
      · rw [hdep, hdep' hne'] at hsame
        exact absurd hsame.symm (hnone j hp')
    · rcases parent_begin htree hj with ⟨rfl, rfl⟩ | ⟨-, hne', hp'⟩
      · rw [hdep, hdep' hne] at hsame
        exact absurd hsame (hnone i hp)
      · rw [hdep' hne, hdep' hne'] at hsame
        exact h.unique i j p hp hp' hsame
  · rw [rows_append]
    split
    · rw [htree]
      exact nodup_nil
    · exact h.names i
  · exact h.range i e (mem_rows_begin htree he).2
  · obtain ⟨hmem', hdeps', hnone'⟩ := h.queued item' (mem_cons_of_mem _ hitem')
    refine ⟨hrows hmem', hdeps', fun i hp => ?_⟩
    rcases parent_begin htree hp with ⟨rfl, hsame⟩ | ⟨-, hne, hp⟩
    · rw [hdep]
      intro hsame'
      refine hitem ?_
      have : item = item' := by
        cases item
        cases item'
        cases hsame
        cases hsame'
        rfl
      rwa [this]
    · rw [hdep' hne]
      exact hnone' i hp

/-- The invariant when the tree of a queued row is begun. -/
theorem Built.holds_append (h : g.Built { list, queue := item :: queue }) :
    g.Holds { list := list ++ [tree], queue }
      (update (g.depsOf (list ++ [tree])) list.length []) := by
  have hs := h.grounded
  refine ⟨h.forest_append htree, ?_, ?_, ?_, ?_⟩
  · intro i hi e he
    by_cases hne : i = list.length
    · subst hne
      rw [update_self] at he
      cases he
    · have hi' : i < list.length := by
        simp only [length_append, length_singleton] at hi
        omega
      rw [update_of_ne hne, depsOf_append hi'] at he
      exact (sees_append hs hi').2 (h.sees i hi' e he)
  · intro i p hp e he
    rcases parent_begin htree hp with ⟨rfl, -⟩ | ⟨hi, hne, hp⟩
    · rw [update_self] at he
      cases he
    · rw [update_of_ne hne, depsOf_append hi] at he
      have hpi := (hs i p hp).trans hi
      exact (h.foundAbove i p hp e he).imp (sees_append hs hpi).2 (clashes_append hs hpi).2
  · intro i p hp
    rw [rows_append]
    rcases parent_begin htree hp with ⟨rfl, -⟩ | ⟨hi, hne, hp⟩
    · rw [if_pos rfl, update_self, htree]
      rfl
    · have hpi := (hs i p hp).trans hi
      rw [if_neg hne, update_of_ne hne, depsOf_append hi, h.rows i p hp]
      exact filter_congr fun e _ => decide_eq_decide.2 (clashes_append hs hpi).symm
  · intro i e he hdeps'
    obtain ⟨hi, he⟩ := mem_rows_begin htree he
    rcases h.covered i e he hdeps' with hq | ⟨j, hj, hj'⟩ | ⟨-, hsees⟩
    · rcases mem_cons.1 hq with heq | hq
      · refine .inr (.inl ⟨list.length, ?_, ?_⟩)
        · rw [parent_append, if_pos rfl, htree, ← heq]
        · rw [depAt_begin htree, ← heq]
      · exact .inl hq
    · have hj'' := lt_length_of_parent hj
      refine .inr (.inl ⟨j, ?_, ?_⟩)
      · rwa [parent_append, if_neg hj''.ne]
      · rwa [depAt_append, if_neg hj''.ne]
    · refine .inr (.inr ⟨?_, fun e' he' => (sees_append hs hi).2 (hsees e' he')⟩)
      rw [update_of_ne hi.ne]

end Begin

/-- A tree without rows is dropped: the tree above serves its dependencies. -/
theorem Holds.dropLast {queue : List FillItem}
    (h : g.Holds { list := list ++ [tree], queue } (g.depsOf (list ++ [tree])))
    (hempty : tree.rows = []) : g.Holds { list, queue } (g.depsOf list) := by
  have hparent : ∀ {i p}, (scopes list).parent i = some p →
      (scopes (list ++ [tree])).parent i = some p := fun hp => by
    rwa [parent_append, if_neg (lt_length_of_parent hp).ne]
  have hs : (scopes list).Grounded := fun i p hp => h.grounded i p (hparent hp)
  have hrows : ∀ {i e}, e ∈ (scopes (list ++ [tree])).rows i ↔ e ∈ (scopes list).rows i :=
    fun {i e} => by
      rw [rows_append]
      split
      next hi =>
        rw [hempty]
        constructor
        · intro he
          cases he
        · intro he
          exact absurd (lt_length_of_mem he) (by omega)
      · rfl
  have hdep : ∀ {i}, i < list.length → depAt (list ++ [tree]) i = depAt list i := fun hi => by
    rw [depAt_append, if_neg hi.ne]
  have hlt : ∀ {i}, i < list.length → i < (list ++ [tree]).length := fun hi => by
    simp only [length_append, length_singleton]
    omega
  refine ⟨⟨?_, ?_, ?_, fun i => ?_, fun i e he => ?_, fun item hitem => ?_, h.nodup⟩, ?_, ?_, ?_,
    ?_⟩
  · intro i hi hp
    have := h.root i (hlt hi) (by rwa [parent_append, if_neg (ne_of_lt hi)])
    rwa [hdep hi] at this
  · intro i p hp
    obtain ⟨hpi, d, hd, hmem, hdeps⟩ := h.below i p (hparent hp)
    exact ⟨hpi, d, by rw [hdep (lt_length_of_parent hp)] at hd; exact hd, hrows.1 hmem, hdeps⟩
  · intro i j p hi hj hsame
    refine h.unique i j p (hparent hi) (hparent hj) ?_
    rwa [hdep (lt_length_of_parent hi), hdep (lt_length_of_parent hj)]
  · by_cases hi : i = list.length
    · have hnil : (scopes list).rows i = [] := by
        refine eq_nil_iff_forall_not_mem.2 fun e he => ?_
        exact absurd (lt_length_of_mem he) (by omega)
      rw [hnil]
      exact nodup_nil
    · have := h.names i
      rwa [rows_append, if_neg hi] at this
  · exact h.range i e (hrows.2 he)
  · obtain ⟨hmem, hdeps, hnone⟩ := h.queued item hitem
    refine ⟨hrows.1 hmem, hdeps, fun i hp => ?_⟩
    have := hnone i (hparent hp)
    rwa [hdep (lt_length_of_parent hp)] at this
  · intro i hi d hd
    have := h.sees i (hlt hi) d (by rwa [depsOf_append hi])
    exact (sees_append hs hi).1 this
  · intro i p hp d hd
    have hi := lt_length_of_parent hp
    have hpi := (hs i p hp).trans hi
    have := h.foundAbove i p (hparent hp) d (by rwa [depsOf_append hi])
    exact this.imp (sees_append hs hpi).1 (clashes_append hs hpi).1
  · intro i p hp
    have hi := lt_length_of_parent hp
    have hpi := (hs i p hp).trans hi
    have := h.rows i p (hparent hp)
    rw [rows_append, if_neg hi.ne, depsOf_append hi] at this
    rw [this]
    exact filter_congr fun e _ => decide_eq_decide.2 (clashes_append hs hpi)
  · intro i d hd hdeps
    have hi := lt_length_of_mem hd
    rcases h.covered i d (hrows.2 hd) hdeps with hq | ⟨j, hj, hj'⟩ | ⟨-, hsees⟩
    · exact .inl hq
    · by_cases hjx : j = list.length
      · subst hjx
        -- The tree that is dropped was for this row.
        refine .inr (.inr ⟨rfl, fun e he => ?_⟩)
        have hmem : e ∈ g.depsOf (list ++ [tree]) list.length := by
          rw [mem_depsOf, hj']
          exact he
        obtain ⟨row, hrow, hres⟩ := h.sees list.length (by simp) e hmem
        cases hrow with
        | here hown =>
          have := (own_mem hown).1
          rw [rows_append, if_pos rfl, hempty] at this
          cases this
        | above _ hp hrow =>
          obtain rfl := some.inj (hj.symm.trans hp)
          exact ⟨row, (finds_append hs hi).1 hrow, hres⟩
      · rw [parent_append, if_neg hjx] at hj
        rw [depAt_append, if_neg hjx] at hj'
        exact .inr (.inl ⟨j, hj, hj'⟩)
    · exact .inr (.inr ⟨rfl, fun e he => (sees_append hs hi).1 (hsees e he)⟩)

end Append

end Graph

end Soup.Install
