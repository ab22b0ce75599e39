import Soup.Install.Hoisted

/-!
# Two identical rounds

`repeating_period` looks for two identical rounds of trees (`Repeats`, `repeatingPeriod_isSome`).
Where it finds them, the row at hand has a tree with a row that again ends two identical rounds, so
that without the check the queue is never empty (`runs_on_of_crash`): what a tree finds for a name
of a round is decided within that round (`finds_in_round`).
-/

namespace Soup.Install

open Soup.Lib List Option Nat Scopes

/-! ## The check -/

variable {list : List BuilderEntry}

theorem sameRounds_iff {period : ℕ} : ∀ {lower upper : Option ℕ},
    sameRounds list period lower upper = true ↔ ∀ k < period, ∃ lo up,
      lower.bind ((scopes list).above k) = some lo ∧ upper.bind ((scopes list).above k) = some up ∧
        lo < list.length ∧ up < list.length ∧ depAt list lo = depAt list up ∧
        (scopes list).rows lo <+: (scopes list).rows up := by
  induction period with
  | zero => exact fun {lower upper} => by simp [sameRounds]
  | succ period ih =>
    intro lower upper
    rw [forall_lt_succ_left']
    cases lower with
    | none => simp [sameRounds]
    | some lower =>
      cases upper with
      | none => simp [sameRounds]
      | some upper =>
        by_cases hlower : lower < list.length
        · by_cases hupper : upper < list.length
          · have hl := getElem?_eq_getElem hlower
            have hu := getElem?_eq_getElem hupper
            have hl' : (scopes list).parent lower = list[lower].parent := by
              rw [parent_scopes, hl, bind_some]
            have hu' : (scopes list).parent upper = list[upper].parent := by
              rw [parent_scopes, hu, bind_some]
            rw [sameRounds, hl, hu]
            simp only [Bool.and_eq_true, beq_iff_eq, isPrefixOf_iff_prefix, ih]
            have hfirst : (∃ lo up, (some lower).bind ((scopes list).above 0) = some lo ∧
                (some upper).bind ((scopes list).above 0) = some up ∧ lo < list.length ∧
                up < list.length ∧ depAt list lo = depAt list up ∧
                (scopes list).rows lo <+: (scopes list).rows up) ↔
                list[lower].dependencyId = list[upper].dependencyId ∧
                  list[lower].rows <+: list[upper].rows := by
              simp [above, depAt, rows_scopes, hlower, hupper]
            rw [hfirst]
            simp only [bind_some, above, hl', hu']
          · rw [sameRounds, getElem?_eq_none (l := list) (i := upper) (by omega)]
            simp [above, hupper]
        · rw [sameRounds, getElem?_eq_none (l := list) (i := lower) (by omega)]
          simp [above, hlower]

theorem repeatingPeriodFrom_isSome {parent dependencyId : Option ℕ} :
    ∀ {fuel : ℕ} {roundStart : Option ℕ} {period : ℕ},
      (repeatingPeriodFrom list parent dependencyId fuel roundStart period).isSome = true ↔
        ∃ n < fuel, ∃ t, roundStart.bind ((scopes list).above n) = some t ∧ t < list.length ∧
          depAt list t = dependencyId ∧
          sameRounds list (period + n) parent ((scopes list).parent t) = true := by
  intro fuel
  induction fuel with
  | zero => simp [repeatingPeriodFrom]
  | succ fuel ih =>
    intro roundStart period
    cases roundStart with
    | none => simp [repeatingPeriodFrom]
    | some i =>
      by_cases hi : i < list.length
      · have hget := getElem?_eq_getElem hi
        have hparent : (scopes list).parent i = list[i].parent := by
          rw [parent_scopes, hget, bind_some]
        have hdep : depAt list i = list[i].dependencyId := by
          rw [depAt, hget, bind_some]
        rw [repeatingPeriodFrom, hget]
        simp only
        split
        next h =>
          refine iff_of_true rfl ⟨0, succ_pos fuel, i, rfl, hi, hdep.trans h.1, ?_⟩
          rw [hparent]
          exact h.2
        next h =>
          rw [ih]
          constructor
          · rintro ⟨n, hn, t, ht, hlt, hdept, hsame⟩
            refine ⟨n + 1, succ_lt_succ hn, t, ?_, hlt, hdept, ?_⟩
            · rw [bind_some, above, hparent, ht]
            · rwa [add_comm n 1, ← add_assoc]
          · rintro ⟨_ | n, hn, t, ht, hlt, hdept, hsame⟩
            · obtain rfl : i = t := some.inj ht
              rw [hdep] at hdept
              rw [hparent] at hsame
              exact absurd ⟨hdept, hsame⟩ h
            · refine ⟨n, lt_of_succ_lt_succ hn, t, ?_, hlt, hdept, ?_⟩
              · rwa [bind_some, above, hparent] at ht
              · rwa [add_comm n 1, ← add_assoc] at hsame
      · rw [repeatingPeriodFrom, getElem?_eq_none (not_lt.1 hi)]
        refine iff_of_false (by simp) ?_
        rintro ⟨_ | n, -, t, ht, hlt, -⟩
        · obtain rfl : i = t := some.inj ht
          exact hi hlt
        · rw [bind_some, above, parent_scopes,
            getElem?_eq_none (not_lt.1 hi)] at ht
          cases ht

/-- Two identical rounds of `n + 1` trees end at `tree`, the later one with a row for a
dependency. -/
structure Repeats (list : List BuilderEntry) (n tree d : ℕ) : Prop where
  start : ∃ t, (scopes list).above n tree = some t ∧ depAt list t = some d
  same : ∀ k ≤ n, ∃ lo up, (scopes list).above k tree = some lo ∧
    (scopes list).above (k + (n + 1)) tree = some up ∧ depAt list lo = depAt list up ∧
    (scopes list).rows lo <+: (scopes list).rows up

theorem above_lt (hs : (scopes list).Grounded) {n i a : ℕ}
    (hi : i < list.length) (h : (scopes list).above n i = some a) : a < list.length := by
  have := above_le hs h
  omega

theorem repeatingPeriod_isSome (hs : (scopes list).Grounded)
    {tree d : ℕ} (htree : tree < list.length) :
    (repeatingPeriod list (some tree) (some d)).isSome = true ↔ ∃ n, Repeats list n tree d := by
  -- Both rounds, from the tree at the start of the later one.
  have hup : ∀ {n t k : ℕ}, (scopes list).above n tree = some t →
      ((scopes list).parent t).bind ((scopes list).above k) =
        (scopes list).above (k + (n + 1)) tree := by
    intro n t k ht
    rw [show k + (n + 1) = n + (k + 1) by omega, above_add, ht, bind_some,
      above]
  rw [repeatingPeriod, repeatingPeriodFrom_isSome]
  constructor
  · rintro ⟨n, -, t, ht, -, hdep, hsame⟩
    rw [bind_some] at ht
    refine ⟨n, ⟨t, ht, hdep⟩, fun k hk => ?_⟩
    obtain ⟨lo, up, hlo, hupper, -, -, h⟩ := sameRounds_iff.1 hsame k (by omega)
    rw [hup ht] at hupper
    exact ⟨lo, up, hlo, hupper, h⟩
  · rintro ⟨n, ⟨t, ht, hdep⟩, hsame⟩
    have hle := above_le hs ht
    refine ⟨n, by omega, t, ht, by omega, hdep, sameRounds_iff.2 fun k hk => ?_⟩
    obtain ⟨lo, up, hlo, hupper, h⟩ := hsame k (by omega)
    refine ⟨lo, up, hlo, by rwa [hup ht], above_lt hs htree hlo, above_lt hs htree hupper, h⟩

/-! ## A third round -/

/-- Two rounds of `n + 1` trees for the same dependencies end at `tree`. -/
structure Nests (list : List BuilderEntry) (n tree d : ℕ) : Prop where
  start : ∃ t, (scopes list).above n tree = some t ∧ depAt list t = some d
  same : ∀ k ≤ n, ∃ lo up, (scopes list).above k tree = some lo ∧
    (scopes list).above (k + (n + 1)) tree = some up ∧ depAt list lo = depAt list up

theorem Repeats.nests {n tree d : ℕ} (h : Repeats list n tree d) :
    Nests list n tree d where
  start := h.start
  same := fun k hk => by
    obtain ⟨lo, up, hlo, hup, hdep, -⟩ := h.same k hk
    exact ⟨lo, up, hlo, hup, hdep⟩

namespace Graph

variable {g : Graph} {b b' : Builder} {i n p d e tree : ℕ}

theorem parent_of_above {k m lo up : ℕ}
    (hlo : (scopes list).above k i = some lo)
    (hup : (scopes list).above (k + (m + 1)) i = some up) :
    ∃ p, (scopes list).parent lo = some p ∧ (scopes list).above m p = some up := by
  rw [above_add, hlo, bind_some, above] at hup
  exact bind_eq_some_iff.1 hup

/-- The trees above a tree stay where they are. -/
theorem Extends.above (h : g.Extends b b') (hs : (scopes b.list).Grounded) :
    ∀ {n i}, i < b.list.length → (scopes b'.list).above n i = (scopes b.list).above n i
  | 0, _, _ => rfl
  | n + 1, i, hi => by
    rw [Scopes.above, Scopes.above, h.parent i hi]
    cases hp : (scopes b.list).parent i with
    | none => rfl
    | some p => exact h.above hs ((hs i p hp).trans hi)

theorem Extends.nests (h : g.Extends b b') (hs : (scopes b.list).Grounded)
    (htree : tree < b.list.length) (hn : Nests b.list n tree d) : Nests b'.list n tree d where
  start := by
    obtain ⟨t, ht, hdep⟩ := hn.start
    exact ⟨t, by rw [h.above hs htree, ht], by rw [h.depAt t (above_lt hs htree ht), hdep]⟩
  same := fun k hk => by
    obtain ⟨lo, up, hlo, hup, hdep⟩ := hn.same k hk
    refine ⟨lo, up, by rw [h.above hs htree, hlo], by rw [h.above hs htree, hup], ?_⟩
    rw [h.depAt lo (above_lt hs htree hlo), h.depAt up (above_lt hs htree hup), hdep]

/-- A row below the topmost tree is a dependency that clashes with what the tree above finds. -/
theorem Built.mem_rows (h : g.Built b) (hp : (scopes b.list).parent i = some p) :
    d ∈ (scopes b.list).rows i ↔ d ∈ g.depsOf b.list i ∧ g.Clashes b.list p d := by
  rw [h.rows i p hp, mem_filter]
  simp only [decide_eq_true_eq]

/-- The first tree upwards whose package has a dependency of a name decides what is found. -/
theorem Built.sees_above (h : g.Built b) (hi : i < b.list.length) {c : ℕ}
    (hc : (scopes b.list).above n i = some c) (he : e ∈ g.depsOf b.list c)
    (hfirst : ∀ m < n, ∀ x, (scopes b.list).above m i = some x → ∀ e' ∈ g.depsOf b.list x,
      g.nameHash e' ≠ g.nameHash e) : g.Sees b.list i e := by
  obtain ⟨row, hrow, hres⟩ := h.sees c (above_lt h.grounded hi hc) e he
  refine ⟨row, finds_of_above hc (fun m hm x hx => ?_) hrow, hres⟩
  rw [own_eq_none]
  intro e' he'
  obtain ⟨k, rfl⟩ := Nat.exists_eq_add_of_lt hm
  obtain ⟨p, hp, -⟩ := parent_of_above (m := k) hx hc
  exact hfirst m hm x hx e' ((h.mem_rows hp).1 he').1

/-- What a tree finds for a name of the round that ends at it is what the tree a round above
finds. -/
theorem Built.clashes_of_round (h : g.Built b) (htree : tree < b.list.length)
    (hn : Nests b.list n tree d) {q t : ℕ} (hq : (scopes b.list).above (n + 1) tree = some q)
    (ht : (scopes b.list).above n tree = some t) (he : e ∈ g.depsOf b.list t)
    (hclash : g.Clashes b.list q e) : g.Clashes b.list tree e := by
  classical
  have hround : ∃ J, ∃ c, (scopes b.list).above J tree = some c ∧
      ∃ e' ∈ g.depsOf b.list c, g.nameHash e' = g.nameHash e := ⟨n, t, ht, e, he, rfl⟩
  obtain ⟨c, hc, e', he', hname⟩ := Nat.find_spec hround
  have hJ : Nat.find hround ≤ n := Nat.find_min' hround ⟨t, ht, e, he, rfl⟩
  have hmin : ∀ m < Nat.find hround, ∀ x, (scopes b.list).above m tree = some x →
      ∀ e'' ∈ g.depsOf b.list x, g.nameHash e'' ≠ g.nameHash e' := fun m hm x hx e'' he'' hne =>
    Nat.find_min hround hm ⟨x, hx, e'', he'', hne.trans hname⟩
  have habove : ∀ m, (scopes b.list).above m q = (scopes b.list).above (m + (n + 1)) tree :=
    fun m => by
      rw [add_comm, above_add, hq, bind_some]
  have hlower : g.Sees b.list tree e' := h.sees_above htree hc he' hmin
  have hupper : g.Sees b.list q e' := by
    obtain ⟨lo, up, hlo, hup, hdep⟩ := hn.same _ hJ
    obtain rfl := some.inj (hc.symm.trans hlo)
    refine h.sees_above (above_lt h.grounded htree hq) ((habove _).trans hup) ?_
      fun m hm x hx e'' he'' => ?_
    · rwa [depsOf, ← hdep]
    · obtain ⟨lo', up', hlo', hup', hdep'⟩ := hn.same m (hm.le.trans hJ)
      obtain rfl := some.inj (hx.symm.trans ((habove m).trans hup'))
      refine hmin m hm lo' hlo' e'' ?_
      rwa [depsOf, hdep']
  obtain ⟨row, hrow, hne⟩ := hclash
  obtain ⟨row', hrow', hres'⟩ := hupper
  rw [hname] at hrow'
  rw [hrow.unique hrow', hres'] at hne
  obtain ⟨row'', hrow'', hres''⟩ := hlower
  rw [hname] at hrow''
  exact ⟨row'', hrow'', by rwa [hres'']⟩

/-- The package of a row that ends two rounds has a dependency that the tree of the row keeps. -/
theorem Built.next_round (h : g.Built b) (hn : Nests b.list n tree d)
    (hrow : d ∈ (scopes b.list).rows tree) :
    ∃ d' ∈ g.resolutionList (g.resolution d), g.resolutionList (g.resolution d') ≠ [] ∧
      g.Clashes b.list tree d' ∧ ∃ m s, n = m + 1 ∧ (scopes b.list).above m tree = some s ∧
        depAt b.list s = some d' := by
  have htree := lt_length_of_mem hrow
  obtain ⟨t, ht, hdep⟩ := hn.start
  have hdeps : ∀ {e}, e ∈ g.depsOf b.list t → e ∈ g.resolutionList (g.resolution d) := by
    intro e he
    rw [mem_depsOf, hdep] at he
    exact he
  obtain ⟨lo, up, hlo, hup, hsame⟩ := hn.same n le_rfl
  obtain rfl := some.inj (ht.symm.trans hlo)
  obtain ⟨q, hq, hqup⟩ := parent_of_above ht hup
  have hq' : (scopes b.list).above (n + 1) tree = some q := by
    rw [above_add, ht, bind_some, above, hq, bind_some, above]
  cases n with
  | zero =>
    -- A package that needs itself finds itself.
    obtain rfl : tree = t := some.inj ht
    obtain rfl : q = up := some.inj hqup
    obtain ⟨hmem, hclash⟩ := (h.mem_rows hq).1 hrow
    have hsees : g.Sees b.list q d :=
      h.sees q (above_lt h.grounded htree hq') d (by rwa [depsOf, ← hsame])
    exact absurd hclash hsees.not_clashes
  | succ m =>
    obtain ⟨s, -, hs, -⟩ := hn.same m m.le_succ
    have hst : (scopes b.list).parent s = some t := by
      obtain ⟨p, hp, hpt⟩ := parent_of_above (m := 0) hs ht
      rw [hp, ← hpt, above]
    obtain ⟨-, d', hd', hmem, hne⟩ := h.below s t hst
    obtain ⟨hmem', hclash⟩ := (h.mem_rows hq).1 hmem
    exact ⟨d', hdeps hmem', hne, h.clashes_of_round htree hn hq' ht hmem' hclash, m, s, rfl, hs,
      hd'⟩

/-- Where two rounds end at a row, its tree has a row at which two rounds end. -/
theorem Processed.nests {item : FillItem} {rest : List FillItem}
    (hp : g.Processed b item rest b') (h : g.Built b)
    (hrow : item.dependencyId ∈ (scopes b.list).rows item.treeId)
    (hn : Nests b.list n item.treeId item.dependencyId) :
    ∃ item' ∈ b'.queue, Nests b'.list n item'.treeId item'.dependencyId := by
  have htree := lt_length_of_mem hrow
  have hn' := hp.toExtends.nests h.grounded htree hn
  obtain ⟨d', hd', hne, hclash, m, s, rfl, hs, hdep⟩ :=
    hp.toBuilt.next_round hn' (hp.mono _ _ hrow)
  rcases hp.tree with ⟨j, hj, hdepj, hqueued⟩ | hsees
  · have hmem : d' ∈ (scopes b'.list).rows j := by
      rw [hp.toBuilt.mem_rows hj, mem_depsOf, hdepj]
      exact ⟨hd', hclash⟩
    have habove : ∀ k, (scopes b'.list).above (k + 1) j = (scopes b'.list).above k item.treeId :=
      fun k => by rw [above, hj, bind_some]
    refine ⟨_, hqueued d' hmem hne, ⟨s, by rw [habove, hs], hdep⟩, ?_⟩
    rintro (_ | k) hk
    · obtain ⟨t, ht, hdept⟩ := hn'.start
      refine ⟨j, t, rfl, ?_, hdepj.trans hdept.symm⟩
      rw [zero_add, habove, ht]
    · obtain ⟨lo, up, hlo, hup, hsame⟩ := hn'.same k (by omega)
      refine ⟨lo, up, by rw [habove, hlo], ?_, hsame⟩
      rw [show k + 1 + (m + 1 + 1) = k + (m + 1 + 1) + 1 by omega, habove, hup]
  · exact absurd hclash (hsees d' hd').not_clashes

/-! ## Without the check -/

/-- Two rounds end at some row in the queue. -/
def Endless (b : Builder) : Prop :=
  ∃ item ∈ b.queue, ∃ n, Nests b.list n item.treeId item.dependencyId

theorem endless_next (hw : g.WellFormed) (h : g.Built b) (he : Endless b) :
    ∃ b', g.next false b = some b' ∧ g.Built b' ∧ Endless b' := by
  obtain ⟨item, hitem, n, hn⟩ := he
  cases hq : b.queue with
  | nil =>
    rw [hq] at hitem
    cases hitem
  | cons first rest =>
    rcases h.next false hw hq with ⟨hguard, -⟩ | ⟨-, b', hb', hp⟩
    · cases hguard
    · refine ⟨b', hb', hp.toBuilt, ?_⟩
      have hrow := (h.queued item hitem).1
      rw [hq] at hitem
      rcases mem_cons.1 hitem with rfl | hitem
      · obtain ⟨item', hitem', hn'⟩ := hp.nests h hrow hn
        exact ⟨item', hitem', n, hn'⟩
      · obtain ⟨new, hnew, -⟩ := hp.queue
        refine ⟨item, ?_, n, hp.toExtends.nests h.grounded (lt_length_of_mem hrow) hn⟩
        rw [hnew]
        exact mem_append_left _ hitem

theorem endless_fill (hw : g.WellFormed) (k : ℕ) : ∀ {b}, g.Built b → Endless b →
    ∃ b', g.fill false k b = some b' ∧ g.Built b' ∧ Endless b' := by
  induction k with
  | zero => exact fun {b} h he => ⟨b, rfl, h, he⟩
  | succ k ih =>
    intro b h he
    obtain ⟨b', hb', h', he'⟩ := endless_next hw h he
    obtain ⟨b'', hb'', h'', he''⟩ := ih h' he'
    exact ⟨b'', by rw [fill_succ, hb', bind_some, hb''], h'', he''⟩

theorem processSubtree_unguarded {self dependencyId : Option ℕ}
    (h : g.processSubtree true self dependencyId b = some b') :
    g.processSubtree false self dependencyId b = some b' := by
  rw [processSubtree] at h ⊢
  split at h
  next hdeps =>
    rw [if_pos hdeps]
    exact h
  next hdeps =>
    rw [if_neg hdeps]
    split at h
    · cases h
    · exact h

theorem next_unguarded (h : g.next true b = some b') : g.next false b = some b' := by
  rw [next] at h ⊢
  split
  next hq =>
    rwa [hq] at h
  next item rest hq =>
    rw [hq] at h
    exact processSubtree_unguarded h

/-- As far as the run with the check goes, it is the run without. -/
theorem run_unguarded (k : ℕ) : ∀ {b}, g.run true k = some b → g.run false k = some b := by
  induction k with
  | zero =>
    intro b h
    obtain ⟨b', hb', hfill⟩ := bind_eq_some_iff.1 h
    rw [run, start, processSubtree_unguarded hb']
    exact hfill
  | succ k ih =>
    intro b' h
    rw [run_succ] at h ⊢
    obtain ⟨b, hb, hnext⟩ := bind_eq_some_iff.1 h
    rw [ih hb]
    exact next_unguarded hnext

theorem run_add (guarded : Bool) (k m : ℕ) :
    g.run guarded (k + m) = (g.run guarded k).bind (g.fill guarded m) := by
  induction m with
  | zero => exact (bind_fun_some _).symm
  | succ m ih =>
    rw [← add_assoc, run_succ, ih, bind_assoc]
    exact congrArg _ (funext fun b => (fill_succ' guarded m b).symm)

/-- A run that stops does so where two rounds end. -/
theorem exists_endless_of_crash (hw : g.WellFormed) {k : ℕ} (h : g.run true k = none) :
    ∃ m b, g.run true m = some b ∧ g.Built b ∧ Endless b := by
  induction k with
  | zero =>
    obtain ⟨b, hb, -⟩ := start_spec hw true
    rw [run, hb] at h
    cases h
  | succ k ih =>
    cases hrun : g.run true k with
    | none => exact ih hrun
    | some b =>
      obtain ⟨hbuilt, -⟩ := run_built hw true k hrun
      rw [run_succ, hrun, bind_some] at h
      cases hq : b.queue with
      | nil =>
        rw [next_nil hq] at h
        cases h
      | cons item rest =>
        rcases hbuilt.next true hw hq with ⟨hguard, -⟩ | ⟨-, b', hb', -⟩
        · have hitem : item ∈ b.queue := by
            rw [hq]
            exact mem_cons_self ..
          have htree := lt_length_of_mem (hbuilt.queued item hitem).1
          obtain ⟨n, hn⟩ := (repeatingPeriod_isSome hbuilt.grounded htree).1 hguard
          exact ⟨k, b, hrun, hbuilt, item, hitem, n, hn.nests⟩
        · rw [hb'] at h
          cases h

theorem runs_on_of_crash (hw : g.WellFormed) {k : ℕ} (h : g.run true k = none) (m : ℕ) :
    ∃ b, g.run false m = some b ∧ b.queue ≠ [] := by
  obtain ⟨n, b, hb, hbuilt, he⟩ := exists_endless_of_crash hw h
  obtain ⟨b', hb', -, item, hitem, -⟩ := endless_fill hw m hbuilt he
  have hlater : g.run false (m + n) = some b' := by
    rw [add_comm, run_add, run_unguarded n hb, bind_some, hb']
  rw [run_add] at hlater
  obtain ⟨b'', hb'', hfill⟩ := bind_eq_some_iff.1 hlater
  refine ⟨b'', hb'', fun hq => ?_⟩
  obtain rfl := some.inj ((fill_nil hq n).symm.trans hfill)
  rw [hq] at hitem
  cases hitem

end Graph

end Soup.Install
