import Soup.Install.Placed

/-!
# Where packages end up

`Processed` is what one round of the queue does. A run keeps `Built` (`run_built`), and once the
queue is empty every dependency is found from the folder of its package
(`Built.sees_of_queue_eq_nil`), so that every package that can be reached is placed.
-/

namespace Soup.Install

open Soup.Lib List Function Option

namespace Graph

variable {g : Graph} {b b' : Builder} {list : List BuilderEntry} {tree : BuilderEntry}
  {queue : List FillItem} {i j p d e : ℕ}

/-! ## One round -/

/-- What a run leaves of the trees. -/
structure Extends (g : Graph) (b b' : Builder) : Prop where
  length : b.list.length ≤ b'.list.length
  parent : ∀ i < b.list.length, (scopes b'.list).parent i = (scopes b.list).parent i
  depAt : ∀ i < b.list.length, Install.depAt b'.list i = Install.depAt b.list i
  mono : ∀ i, ∀ e ∈ (scopes b.list).rows i, e ∈ (scopes b'.list).rows i
  others : ∀ i p, (scopes b.list).parent i = some p →
    (scopes b'.list).rows i = (scopes b.list).rows i
  finds : ∀ {i n row}, i < b.list.length → g.Finds b.list i n row → g.Finds b'.list i n row
  twins : ∀ {i j}, i < b.list.length → j < b.list.length → g.Twins b.list i j →
    g.Twins b'.list i j

/-- What `process_subtree` does with the first item of the queue. -/
structure Processed (g : Graph) (b : Builder) (item : FillItem) (rest : List FillItem)
    (b' : Builder) : Prop extends g.Built b', g.Extends b b' where
  queue : ∃ new, b'.queue = rest ++ new ∧
    ∀ item ∈ new, item.dependencyId ∉ (scopes b.list).rows item.treeId
  /-- The row gets a tree, unless its tree would have no row. -/
  tree : (∃ j, (scopes b'.list).parent j = some item.treeId ∧
      Install.depAt b'.list j = some item.dependencyId ∧ ∀ e ∈ (scopes b'.list).rows j,
        g.resolutionList (g.resolution e) ≠ [] → { treeId := j, dependencyId := e } ∈ b'.queue) ∨
    ∀ e ∈ g.resolutionList (g.resolution item.dependencyId), g.Sees b'.list item.treeId e
  /-- No other row gets one. -/
  only : ∀ j, b.list.length ≤ j → ∀ p, (scopes b'.list).parent j = some p →
    p = item.treeId ∧ Install.depAt b'.list j = some item.dependencyId

theorem Extends.refl (b : Builder) : g.Extends b b where
  length := le_rfl
  parent := fun _ _ => rfl
  depAt := fun _ _ => rfl
  mono := fun _ _ he => he
  others := fun _ _ _ => rfl
  finds := fun _ hfinds => hfinds
  twins := fun _ _ htwins => htwins

theorem Extends.trans {b'' : Builder} (h : g.Extends b b') (h' : g.Extends b' b'') :
    g.Extends b b'' where
  length := h.length.trans h'.length
  parent := fun i hi => (h'.parent i (hi.trans_le h.length)).trans (h.parent i hi)
  depAt := fun i hi => (h'.depAt i (hi.trans_le h.length)).trans (h.depAt i hi)
  mono := fun i e he => h'.mono i e (h.mono i e he)
  others := fun i p hp => by
    have hp' := (h.parent i (lt_length_of_parent hp)).trans hp
    exact (h'.others i p hp').trans (h.others i p hp)
  finds := fun hi hfinds => h'.finds (hi.trans_le h.length) (h.finds hi hfinds)
  twins := fun hi hj htwins =>
    h'.twins (hi.trans_le h.length) (hj.trans_le h.length) (h.twins hi hj htwins)

theorem popIfEmpty_append : popIfEmpty { list := list ++ [tree], queue } =
    if tree.rows = [] then { list, queue } else { list := list ++ [tree], queue } := by
  rw [popIfEmpty]
  simp

theorem twins_append (hs : (scopes list).Grounded) (hi : i < list.length) (hj : j < list.length) :
    g.Twins (list ++ [tree]) i j ↔ g.Twins list i j := by
  have hfinds : ∀ {i}, i < list.length → ∀ n row,
      g.Finds (list ++ [tree]) i n row ↔ g.Finds list i n row := fun hi _ _ => finds_append hs hi
  constructor
  · exact fun h n row => (hfinds hi n row).symm.trans ((h n row).trans (hfinds hj n row))
  · exact fun h n row => (hfinds hi n row).trans ((h n row).trans (hfinds hj n row).symm)

/-- What the walk of the dependencies of a new tree leaves. -/
theorem foldl_hoist_append (list : List BuilderEntry) (hw : g.WellFormed)
    (h : g.Holds { list := list ++ [tree], queue }
      (update (g.depsOf (list ++ [tree])) list.length []))
    (hrows : tree.rows = []) :
    ∃ list' tree' queue', (g.depsOf (list ++ [tree]) list.length).foldl (g.hoist list.length)
        { list := list ++ [tree], queue } = { list := list' ++ [tree'], queue := queue' } ∧
      list'.length = list.length ∧
      g.Holds { list := list' ++ [tree'], queue := queue' } (g.depsOf (list' ++ [tree'])) ∧
      g.Grows { list := list ++ [tree], queue } { list := list' ++ [tree'], queue := queue' }
        list.length := by
  obtain ⟨hholds, hgrows⟩ := foldl_hoist hw (g.depsOf (list ++ [tree]) list.length) h
    (x := list.length) (by simp) (by rw [update_self, nil_append]) (fun e he => by
      rw [rows_append, if_pos rfl, hrows] at he
      cases he)
  rw [update_idem, update_eq_self] at hholds
  generalize (g.depsOf (list ++ [tree]) list.length).foldl (g.hoist list.length)
    { list := list ++ [tree], queue } = b at hholds hgrows ⊢
  have hlength := hgrows.length
  rw [length_append, length_singleton] at hlength
  obtain ⟨list', tree', hlist⟩ : ∃ list' tree', b.list = list' ++ [tree'] := by
    refine ⟨b.list.dropLast, b.list.getLast (fun hnil => ?_), (dropLast_append_getLast _).symm⟩
    rw [hnil] at hlength
    cases hlength
  obtain ⟨blist, queue'⟩ := b
  obtain rfl : blist = list' ++ [tree'] := hlist
  refine ⟨list', tree', queue', rfl, ?_, ?_, hgrows⟩
  · rw [length_append, length_singleton] at hlength
    omega
  · have hdeps : g.depsOf (list ++ [tree]) = g.depsOf (list' ++ [tree']) := by
      funext i
      rw [depsOf, depsOf, ← hgrows.depAt i]
    rwa [hdeps] at hholds

/-- The new tree is kept if it has a row. -/
theorem Built.popIfEmpty (list₀ : List BuilderEntry) (hlen : list.length = list₀.length)
    (hnonempty : ∀ i < list₀.length, (scopes (list ++ [tree])).rows i ≠ [])
    (h : g.Holds { list := list ++ [tree], queue } (g.depsOf (list ++ [tree]))) :
    g.Built (popIfEmpty { list := list ++ [tree], queue }) := by
  rw [popIfEmpty_append]
  split
  next hempty =>
    refine ⟨h.dropLast hempty, fun i hi => ?_⟩
    have := hnonempty i (hi.trans_eq hlen)
    rwa [rows_append, if_neg (ne_of_lt hi)] at this
  next hrows =>
    refine ⟨h, fun i hi => ?_⟩
    by_cases hie : i = list.length
    · rwa [rows_append, if_pos hie]
    · refine hnonempty i ?_
      simp only [length_append, length_singleton] at hi
      omega

/-- A new tree leaves the trees before it as they are. -/
theorem extends_append {queue' : List FillItem} (hs : (scopes list).Grounded) :
    g.Extends { list, queue } { list := list ++ [tree], queue := queue' } where
  length := by simp
  parent := fun i hi => by rw [parent_append, if_neg (ne_of_lt hi)]
  depAt := fun i hi => by rw [depAt_append, if_neg (ne_of_lt hi)]
  mono := fun i e he => by rwa [rows_append, if_neg (lt_length_of_mem he).ne]
  others := fun i p hp => by rw [rows_append, if_neg (lt_length_of_parent hp).ne]
  finds := fun hi hfinds => (finds_append hs hi).2 hfinds
  twins := fun hi hj htwins => (twins_append hs hi hj).2 htwins

/-- The same when the new tree is dropped. -/
theorem Extends.dropLast {list' : List BuilderEntry}
    (h : g.Extends b { list := list' ++ [tree], queue })
    (hs : (scopes list').Grounded) (hlen : list'.length = b.list.length) :
    g.Extends b { list := list', queue } where
  length := hlen.ge
  parent := fun i hi => by
    have := h.parent i hi
    rwa [parent_append, if_neg (hi.trans_eq hlen.symm).ne] at this
  depAt := fun i hi => by
    have := h.depAt i hi
    rwa [depAt_append, if_neg (hi.trans_eq hlen.symm).ne] at this
  mono := fun i e he => by
    have := h.mono i e he
    rwa [rows_append, if_neg ((lt_length_of_mem he).trans_eq hlen.symm).ne] at this
  others := fun i p hp => by
    have := h.others i p hp
    rwa [rows_append, if_neg ((lt_length_of_parent hp).trans_eq hlen.symm).ne] at this
  finds := fun hi hfinds => (finds_append hs (hi.trans_eq hlen.symm)).1 (h.finds hi hfinds)
  twins := fun hi hj htwins =>
    (twins_append hs (hi.trans_eq hlen.symm) (hj.trans_eq hlen.symm)).1 (h.twins hi hj htwins)

theorem Extends.grows {b'' : Builder} (h : g.Extends b b') (hgrows : g.Grows b' b'' b.list.length) :
    g.Extends b b'' where
  length := h.length.trans_eq hgrows.length.symm
  parent := fun i hi => (hgrows.parent i).trans (h.parent i hi)
  depAt := fun i hi => (hgrows.depAt i).trans (h.depAt i hi)
  mono := fun i e he => hgrows.mono i e (h.mono i e he)
  others := fun i p hp => by
    have hi := lt_length_of_parent hp
    exact (hgrows.others i p ((h.parent i hi).trans hp) hi.ne).trans (h.others i p hp)
  finds := fun hi hfinds => hgrows.before hi (h.finds hi hfinds)
  twins := fun hi hj htwins => hgrows.twins hi hj (h.twins hi hj htwins)

theorem Built.process {item : FillItem} (hw : g.WellFormed)
    (h : g.Built { list, queue := item :: queue })
    (htree : tree = { parent := some item.treeId, dependencyId := some item.dependencyId }) :
    g.Processed { list, queue := item :: queue } item queue
      (Graph.popIfEmpty ((g.depsOf (list ++ [tree]) list.length).foldl (g.hoist list.length)
        { list := list ++ [tree], queue })) := by
  obtain ⟨list', tree', queue', hfold, hlen, hholds, hgrows⟩ :=
    foldl_hoist_append _ hw (h.holds_append htree) (by rw [htree])
  have hextends : g.Extends { list, queue := item :: queue }
      { list := list' ++ [tree'], queue := queue' } := (extends_append h.grounded).grows hgrows
  have hs' : (scopes list').Grounded := fun i p hp => hholds.grounded i p (by
    rwa [parent_append, if_neg (lt_length_of_parent hp).ne])
  have hnewParent : (scopes (list' ++ [tree'])).parent list.length = some item.treeId := by
    rw [hgrows.parent, parent_append, if_pos rfl, htree]
  have hnewDep : Install.depAt (list' ++ [tree']) list.length = some item.dependencyId := by
    rw [hgrows.depAt, depAt_append, if_pos rfl, htree]
  rw [hfold]
  refine ⟨Built.popIfEmpty _ hlen (fun i hi hnil => ?_) hholds, ?_, ?_, ?_, ?_⟩
  · obtain ⟨e, he⟩ := exists_mem_of_ne_nil _ (h.nonempty i hi)
    have := hextends.mono i e he
    rw [hnil] at this
    cases this
  all_goals rw [popIfEmpty_append]
  · split
    · exact hextends.dropLast hs' hlen
    · exact hextends
  · obtain ⟨new, hnew, hfresh⟩ := hgrows.queue
    refine ⟨new, ?_, fun item hitem hmem => hfresh item hitem ?_⟩
    · split <;> exact hnew
    · show item.dependencyId ∈ (scopes (list ++ [tree])).rows item.treeId
      rwa [rows_append, if_neg (lt_length_of_mem hmem).ne]
  · split
    next hempty =>
      refine .inr fun e he => ?_
      -- The tree has no row, so what its dependencies find is found above it.
      obtain ⟨row, hrow, hres⟩ := hholds.sees list.length (by simp [hlen]) e (by
        rw [mem_depsOf, hnewDep]
        exact he)
      cases hrow with
      | here hown =>
        have := (Scopes.own_mem hown).1
        rw [rows_append, if_pos hlen.symm, hempty] at this
        cases this
      | above _ hp hrow =>
        obtain rfl := some.inj (hnewParent.symm.trans hp)
        have hlt := (hholds.grounded _ _ hnewParent).trans_eq hlen.symm
        exact ⟨row, (finds_append hs' hlt).1 hrow, hres⟩
    · refine .inl ⟨list.length, hnewParent, hnewDep, fun e he hdeps => ?_⟩
      rcases hgrows.fresh list.length e he with he | hqueued
      · rw [rows_append, if_pos rfl, htree] at he
        cases he
      · exact hqueued hdeps
  · split
    · intro j hj p hp
      exact absurd (lt_length_of_parent hp) (not_lt.2 (hlen.trans_le hj))
    · intro j hj p hp
      have hlt := lt_length_of_parent hp
      simp only [length_append, length_singleton] at hlt
      obtain rfl : j = list.length := by
        have : list.length ≤ j := hj
        omega
      exact ⟨some.inj (hp.symm.trans hnewParent), hnewDep⟩

variable {guarded : Bool}

theorem processSubtree_eq (self dependencyId : Option ℕ)
    (hdeps : g.resolutionList (g.packageOf dependencyId) ≠ []) :
    g.processSubtree guarded self dependencyId { list, queue } =
      if guarded && (repeatingPeriod list self dependencyId).isSome then none
      else some (popIfEmpty
        ((g.depsOf (list ++ [{ parent := self, dependencyId }]) list.length).foldl
          (g.hoist list.length)
          { list := list ++ [{ parent := self, dependencyId }], queue })) := by
  rw [processSubtree, if_neg hdeps, depsOf, depAt_append, if_pos rfl]

/-! ## The root package -/

/-- The topmost tree is there for the dependencies of the root package. -/
def RootPlaced (g : Graph) (b : Builder) : Prop :=
  g.resolutionList 0 ≠ [] → 0 < b.list.length ∧ depAt b.list 0 = none

theorem holds_root : g.Holds { list := [{ parent := none, dependencyId := none }] }
    (update (g.depsOf [{ parent := none, dependencyId := none }]) 0 []) := by
  have hparent : ∀ i, (scopes [{ parent := none, dependencyId := none }]).parent i = none := by
    rintro (_ | i)
    · rfl
    · rfl
  have hrows : ∀ i, (scopes [{ parent := none, dependencyId := none }]).rows i = [] := by
    rintro (_ | i)
    · rfl
    · rfl
  refine ⟨⟨fun i hi _ => ?_, fun i p hp => ?_, fun i j p hp => ?_, fun i => ?_, fun i d hd => ?_,
    fun item hitem => ?_, nodup_nil⟩, fun i hi d hd => ?_, fun i p hp => ?_,
    fun i p hp => ?_, fun i d hd => ?_⟩
  · obtain rfl : i = 0 := Nat.lt_one_iff.1 hi
    exact ⟨rfl, rfl⟩
  · rw [hparent] at hp
    cases hp
  · rw [hparent] at hp
    cases hp
  · rw [hrows]
    exact nodup_nil
  · rw [hrows] at hd
    cases hd
  · cases hitem
  · obtain rfl : i = 0 := Nat.lt_one_iff.1 hi
    rw [update_self] at hd
    cases hd
  · rw [hparent] at hp
    cases hp
  · rw [hparent] at hp
    cases hp
  · rw [hrows] at hd
    cases hd

theorem built_nil : g.Built {} := by
  refine ⟨⟨⟨fun i hi => ?_, fun i p hp => ?_, fun i j p hp => ?_, fun i => nodup_nil,
    fun i d hd => ?_, fun item hitem => ?_, nodup_nil⟩, fun i hi => ?_,
    fun i p hp => ?_, fun i p hp => ?_, fun i d hd => ?_⟩, fun i hi => ?_⟩
  · cases hi
  · cases hp
  · cases hp
  · cases hd
  · cases hitem
  · cases hi
  · cases hp
  · cases hp
  · cases hd
  · cases hi

/-- The root package is never in the way of itself. -/
theorem start_spec (hw : g.WellFormed) (guarded : Bool) :
    ∃ b, g.start guarded = some b ∧ g.Built b ∧ g.RootPlaced b ∧ b.list.length ≤ 1 := by
  by_cases hdeps : g.resolutionList (g.packageOf none) = []
  · refine ⟨{}, by rw [start, processSubtree, if_pos hdeps], built_nil, fun h => absurd hdeps h, ?_⟩
    exact Nat.zero_le 1
  · obtain ⟨list', tree', queue', hfold, hlen, hholds, hgrows⟩ :=
      foldl_hoist_append [] hw holds_root rfl
    obtain rfl := eq_nil_of_length_eq_zero hlen
    have hdepAt : depAt ([] ++ [tree']) 0 = none := by
      rw [hgrows.depAt]
      rfl
    -- The first dependency of the root package has its row in the topmost tree.
    have hrows : tree'.rows ≠ [] := by
      intro hempty
      obtain ⟨d, hd⟩ := exists_mem_of_ne_nil _ hdeps
      obtain ⟨row, hrow, -⟩ := hholds.sees 0 (by simp) d (by
        rw [mem_depsOf, hdepAt]
        exact hd)
      cases hrow with
      | here hown =>
        have := (Scopes.own_mem hown).1
        rw [rows_append, length_nil, if_pos rfl, hempty] at this
        cases this
      | above _ hp =>
        rw [hgrows.parent] at hp
        cases hp
    have hpop : popIfEmpty { list := [] ++ [tree'], queue := queue' } =
        { list := [] ++ [tree'], queue := queue' } := by
      rw [popIfEmpty_append, if_neg hrows]
    refine ⟨{ list := [] ++ [tree'], queue := queue' }, ?_, ?_, fun _ => ⟨by simp, hdepAt⟩, le_rfl⟩
    · have hperiod : repeatingPeriod [] none none = none := rfl
      rw [start, processSubtree_eq none none hdeps, hperiod]
      simp only [isSome_none, Bool.and_false, Bool.false_eq_true, if_false]
      rw [length_nil] at hfold ⊢
      rw [hfold, hpop]
    · rw [← hpop]
      exact Built.popIfEmpty [] rfl (fun i hi => by cases hi) hholds

/-! ## Runs -/

/-- One round of the loop of `fill`. -/
def next (g : Graph) (guarded : Bool) (builder : Builder) : Option Builder :=
  match builder.queue with
  | [] => some builder
  | item :: queue =>
    g.processSubtree guarded (some item.treeId) (some item.dependencyId) { builder with queue }

theorem next_nil (h : b.queue = []) : g.next guarded b = some b := by
  rw [next, h]

theorem fill_nil (h : b.queue = []) (k : ℕ) : g.fill guarded k b = some b := by
  cases k with
  | zero => rfl
  | succ k => rw [fill, h]

theorem fill_succ (guarded : Bool) (k : ℕ) (b : Builder) :
    g.fill guarded (k + 1) b = (g.next guarded b).bind (g.fill guarded k) := by
  rw [fill, next]
  cases hq : b.queue with
  | nil => exact (fill_nil hq k).symm
  | cons item rest => rfl

theorem fill_succ' (guarded : Bool) (k : ℕ) (b : Builder) :
    g.fill guarded (k + 1) b = (g.fill guarded k b).bind (g.next guarded) := by
  induction k generalizing b with
  | zero =>
    rw [fill_succ, fill, bind_some]
    exact bind_fun_some _
  | succ k ih =>
    rw [fill_succ guarded (k + 1), fill_succ guarded k, bind_assoc]
    exact congrArg _ (funext ih)

theorem run_succ (guarded : Bool) (k : ℕ) :
    g.run guarded (k + 1) = (g.run guarded k).bind (g.next guarded) := by
  rw [run, run, bind_assoc]
  exact congrArg _ (funext (fill_succ' guarded k))

/-- One round stops where two rounds of trees repeat, and processes the item otherwise. -/
theorem Built.next (guarded : Bool) {item : FillItem} (hw : g.WellFormed) (h : g.Built b)
    (hq : b.queue = item :: queue) :
    (guarded && (repeatingPeriod b.list (some item.treeId) (some item.dependencyId)).isSome) =
      true ∧ g.next guarded b = none ∨
      (guarded && (repeatingPeriod b.list (some item.treeId) (some item.dependencyId)).isSome) =
        false ∧ ∃ b', g.next guarded b = some b' ∧ g.Processed b item queue b' := by
  obtain ⟨list, queue'⟩ := b
  obtain rfl : queue' = item :: queue := hq
  have hdeps := (h.queued item (mem_cons_self ..)).2.1
  have hnext : g.next guarded { list, queue := item :: queue } = _ :=
    processSubtree_eq (some item.treeId) (some item.dependencyId) hdeps
  rw [hnext]
  cases hguard : guarded &&
      (repeatingPeriod list (some item.treeId) (some item.dependencyId)).isSome with
  | true => exact .inl ⟨rfl, rfl⟩
  | false => exact .inr ⟨rfl, _, rfl, h.process hw rfl⟩

theorem run_built (hw : g.WellFormed) (guarded : Bool) (k : ℕ) :
    ∀ {b}, g.run guarded k = some b → g.Built b ∧ g.RootPlaced b := by
  obtain ⟨b₀, hstart, hbuilt, hroot, -⟩ := start_spec hw guarded
  induction k with
  | zero =>
    intro b hrun
    rw [run, hstart] at hrun
    obtain rfl := some.inj hrun
    exact ⟨hbuilt, hroot⟩
  | succ k ih =>
    intro b' hrun
    rw [run_succ] at hrun
    obtain ⟨b, hb, hnext⟩ := bind_eq_some_iff.1 hrun
    obtain ⟨hbuilt, hroot⟩ := ih hb
    cases hq : b.queue with
    | nil =>
      rw [next_nil hq] at hnext
      obtain rfl := some.inj hnext
      exact ⟨hbuilt, hroot⟩
    | cons item rest =>
      rcases hbuilt.next guarded hw hq with ⟨-, hnone⟩ | ⟨-, b'', hb'', hp⟩
      · rw [hnone] at hnext
        cases hnext
      · obtain rfl := some.inj (hb''.symm.trans hnext)
        refine ⟨hp.toBuilt, fun hdeps => ?_⟩
        obtain ⟨hlt, hdep⟩ := hroot hdeps
        exact ⟨hlt.trans_le hp.length, (hp.depAt 0 hlt).trans hdep⟩

/-! ## What a folder finds -/

/-- The folder that the package of a row looks from: its own if it has one. -/
def folderOf (list : List BuilderEntry) (i row : ℕ) : ℕ :=
  (list.findIdx? fun tree => tree.parent = some i ∧ tree.dependencyId = some row).getD i

/-- The packages that can be reached from the root package. -/
inductive Reachable (g : Graph) : ℕ → Prop
  | root {d : ℕ} : d ∈ g.resolutionList 0 → g.Reachable (g.resolution d)
  | step {package d : ℕ} : g.Reachable package → d ∈ g.resolutionList package →
    g.Reachable (g.resolution d)

theorem folderOf_cases (list : List BuilderEntry) (i row : ℕ) :
    ((scopes list).parent (folderOf list i row) = some i ∧
        depAt list (folderOf list i row) = some row) ∨
      folderOf list i row = i ∧
        ∀ j, (scopes list).parent j = some i → depAt list j ≠ some row := by
  rw [folderOf]
  cases hfind : list.findIdx? fun tree => tree.parent = some i ∧ tree.dependencyId = some row with
  | some j =>
    obtain ⟨hj, hspec, -⟩ := findIdx?_eq_some_iff_getElem.1 hfind
    obtain ⟨hparent, hdep⟩ := of_decide_eq_true hspec
    refine .inl ⟨?_, ?_⟩
    · rw [getD_some, parent_scopes, getElem?_eq_getElem hj, bind_some, hparent]
    · rw [getD_some, depAt, getElem?_eq_getElem hj, bind_some, hdep]
  | none =>
    refine .inr ⟨rfl, fun j hparent hdep => ?_⟩
    have hj := lt_length_of_parent hparent
    rw [parent_scopes, getElem?_eq_getElem hj, bind_some] at hparent
    rw [depAt, getElem?_eq_getElem hj, bind_some] at hdep
    have := findIdx?_eq_none_iff.1 hfind list[j] (getElem_mem hj)
    rw [decide_eq_false_iff_not] at this
    exact this ⟨hparent, hdep⟩

/-- Once the queue is empty, a package finds its dependencies. -/
theorem Built.sees_of_queue_eq_nil (h : g.Built b) (hq : b.queue = []) {row : ℕ}
    (hrow : row ∈ (scopes b.list).rows i) (hd : d ∈ g.resolutionList (g.resolution row)) :
    g.Sees b.list (folderOf b.list i row) d := by
  rcases folderOf_cases b.list i row with ⟨hparent, hdep⟩ | ⟨hfolder, hnone⟩
  · refine h.sees _ (lt_length_of_parent hparent) d ?_
    rw [mem_depsOf, hdep]
    exact hd
  · rw [hfolder]
    rcases h.covered i row hrow (ne_nil_of_mem hd) with hqueued | ⟨j, hj, hdep⟩ | ⟨-, hsees⟩
    · rw [hq] at hqueued
      cases hqueued
    · exact absurd hdep (hnone j hj)
    · exact hsees d hd

theorem Built.sees_root (h : g.Built b) (hroot : g.RootPlaced b) (hd : d ∈ g.resolutionList 0) :
    g.Sees b.list 0 d := by
  obtain ⟨hlt, hdep⟩ := hroot (ne_nil_of_mem hd)
  refine h.sees 0 hlt d ?_
  rw [mem_depsOf, hdep]
  exact hd

theorem Sees.exists_row (hs : (scopes list).Grounded) (h : g.Sees list i d) :
    ∃ j, ∃ row ∈ (scopes list).rows j, g.resolution row = g.resolution d := by
  obtain ⟨row, hrow, hres⟩ := h
  obtain ⟨j, -, hmem⟩ := hrow.exists_rows hs
  exact ⟨j, row, hmem, hres⟩

theorem Built.placed (h : g.Built b) (hroot : g.RootPlaced b) (hq : b.queue = []) {package : ℕ}
    (hr : g.Reachable package) :
    ∃ i, ∃ row ∈ (scopes b.list).rows i, g.resolution row = package := by
  induction hr with
  | root hd => exact (h.sees_root hroot hd).exists_row h.grounded
  | step _ hd ih =>
    obtain ⟨i, row, hrow, rfl⟩ := ih
    exact (h.sees_of_queue_eq_nil hq hrow hd).exists_row h.grounded

/-- Hoisting preserves resolution: once the queue is empty, a folder finds for every dependency of
its package, and the topmost folder for every dependency of the root package, exactly the package
that the dependency resolves to; every package that can be reached is placed; and no folder has two
rows of one name. -/
theorem run_preservesResolution (hw : g.WellFormed) {guarded : Bool} {rounds : ℕ}
    (hrun : g.run guarded rounds = some b) (hdone : b.queue = []) :
    (∀ i, ∀ row ∈ (scopes b.list).rows i, ∀ d ∈ g.resolutionList (g.resolution row),
        g.Sees b.list (folderOf b.list i row) d) ∧
      (∀ d ∈ g.resolutionList 0, g.Sees b.list 0 d) ∧
      (∀ package, g.Reachable package →
        ∃ i, ∃ row ∈ (scopes b.list).rows i, g.resolution row = package) ∧
      ∀ i, (((scopes b.list).rows i).map g.nameHash).Nodup := by
  obtain ⟨hbuilt, hroot⟩ := run_built hw guarded rounds hrun
  exact ⟨fun i row hrow d hd => hbuilt.sees_of_queue_eq_nil hdone hrow hd,
    fun d hd => hbuilt.sees_root hroot hd, fun package hr => hbuilt.placed hroot hdone hr,
    hbuilt.names⟩

/-- The root package needs `a` and `b@1`, `a` needs `b@2`, and `b@2` needs `a`. -/
def fooGraph : Graph where
  dependencies := [⟨1, 1⟩, ⟨2, 2⟩, ⟨2, 3⟩, ⟨1, 1⟩]
  resolutionLists := [⟨0, 2⟩, ⟨2, 1⟩, ⟨3, 0⟩, ⟨3, 1⟩]
  sort := id
  sort_perm := List.Perm.refl

theorem wellFormed_fooGraph : fooGraph.WellFormed := by
  rintro (_ | _ | _ | _ | package)
  · decide
  · decide
  · decide
  · decide
  · exact ⟨forall_mem_nil _, nodup_nil⟩

theorem run_preservesResolution_foo :
    ∃ b, fooGraph.run true 2 = some b ∧ b.queue = [] ∧ b.list.length = 2 ∧
      fooGraph.Sees b.list (folderOf b.list 1 2) 3 ∧
      ∀ i, (((scopes b.list).rows i).map fooGraph.nameHash).Nodup := by
  have hrun : fooGraph.run true 2 = some _ := rfl
  obtain ⟨hsees, -, -, hnames⟩ := run_preservesResolution wellFormed_fooGraph hrun rfl
  exact ⟨_, hrun, rfl, rfl, hsees 1 2 (by decide) 3 (by decide), hnames⟩

/-- Nothing is nested without need: at any time of a run a folder below the topmost one is the only
one of a row of the folder above, is not empty, and holds exactly the dependencies of its package
for whose name the folder above finds another package. -/
theorem run_nestsClashes (hw : g.WellFormed) {rounds : ℕ} (hrun : g.run guarded rounds = some b) :
    ∀ i p, (scopes b.list).parent i = some p → (scopes b.list).rows i ≠ [] ∧
      (∀ d, d ∈ (scopes b.list).rows i ↔
        d ∈ g.resolutionList (g.packageOf (depAt b.list i)) ∧ g.Clashes b.list p d) ∧
      ∃ d ∈ (scopes b.list).rows p, depAt b.list i = some d ∧
        ∀ j, (scopes b.list).parent j = some p → depAt b.list j = some d → j = i := by
  intro i p hp
  obtain ⟨hbuilt, -⟩ := run_built hw guarded rounds hrun
  obtain ⟨-, d, hd, hrow, -⟩ := hbuilt.below i p hp
  refine ⟨hbuilt.nonempty i (lt_length_of_parent hp), fun e => ?_, d, hrow, hd, fun j hj hdj => ?_⟩
  · classical
    rw [hbuilt.rows i p hp, mem_filter, mem_depsOf, decide_eq_true_iff]
  · exact hbuilt.unique j i p hj hp (hdj.trans hd.symm)

/-- `b@2` is nested in `a`, below `b@1`. -/
theorem run_nestsClashes_foo : ∃ b, fooGraph.run true 2 = some b ∧ fooGraph.Clashes b.list 0 2 := by
  have hrun : fooGraph.run true 2 = some _ := rfl
  obtain ⟨-, hrows, -⟩ := run_nestsClashes wellFormed_fooGraph hrun 1 0 rfl
  exact ⟨_, hrun, ((hrows 2).1 (by decide)).2⟩

end Graph

end Soup.Install
