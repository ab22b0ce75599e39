import Mathlib.Data.Finset.Card
import Soup.Trim.Decide

/-!
# Reasons and the closure

Each step of `decide` that adds a feature records one reason for it. Where it is needed by another
feature, that one is recorded before (`Recorded`), which holds of the seed with everything that is
retained before the edges are followed (`seedOf_recorded`).
-/

set_option linter.unusedSectionVars false

namespace Soup.Trim

open List

variable {Feature TrimFeature : Type} [LinearOrder Feature]

/-! ## Reasons -/

/-- Each retained feature has one reason; a feature that needs another one is recorded before it. -/
structure Recorded (retained : RetainedFeatures Feature TrimFeature) : Prop where
  mem : ∀ feature, feature ∈ retained.set ↔ feature ∈ retained.reasons.map Retained.feature
  nodup : (retained.reasons.map Retained.feature).Nodup
  before : ∀ (i : ℕ) kept, retained.reasons[i]? = some kept → ∀ dependent strength,
    kept.reason = .neededBy dependent strength →
      ∃ j < i, (retained.reasons.map Retained.feature)[j]? = some dependent

/-- A feature that the reason names is retained. -/
def Names (reason : RetainReason Feature TrimFeature) (set : Finset Feature) : Prop :=
  ∀ dependent strength, reason = .neededBy dependent strength → dependent ∈ set

section Reasons

variable {retained : RetainedFeatures Feature TrimFeature} {feature : Feature}
  {reason : RetainReason Feature TrimFeature}

theorem set_insert : (retained.insert feature reason).set = Insert.insert feature retained.set := by
  rw [RetainedFeatures.insert]
  split
  next h => exact (Finset.insert_eq_of_mem h).symm
  next => rfl

theorem Recorded.insert (h : Recorded retained) (hreason : Names reason retained.set) :
    Recorded (retained.insert feature reason) := by
  rw [RetainedFeatures.insert]
  split
  next => exact h
  next hnew =>
    refine ⟨fun other => ?_, ?_, fun i kept hkept dependent strength hneeded => ?_⟩
    · rw [Finset.mem_insert, h.mem, map_append, mem_append, map_singleton, mem_singleton]
      exact or_comm
    · rw [map_append, map_singleton, nodup_append]
      refine ⟨h.nodup, nodup_singleton _, fun a ha b hb heq => hnew ?_⟩
      have hb' : b = feature := mem_singleton.1 hb
      rw [h.mem, ← hb', ← heq]
      exact ha
    · rw [map_append]
      rcases lt_or_ge i retained.reasons.length with hlt | hge
      · rw [getElem?_append_left hlt] at hkept
        obtain ⟨j, hj, hget⟩ := h.before i kept hkept dependent strength hneeded
        exact ⟨j, hj, by rw [getElem?_append_left (by rw [length_map]; omega), hget]⟩
      · rw [getElem?_append_right hge, getElem?_singleton] at hkept
        split at hkept
        next =>
          rw [← Option.some.inj hkept] at hneeded
          obtain ⟨j, hget⟩ :=
            mem_iff_getElem?.1 ((h.mem dependent).1 (hreason dependent strength hneeded))
          have hj := (List.getElem?_eq_some_iff.1 hget).1
          exact ⟨j, by rw [length_map] at hj; omega, by rw [getElem?_append_left hj, hget]⟩
        next => cases hkept

theorem recorded_empty :
    Recorded ({ set := ∅, reasons := [] } : RetainedFeatures Feature TrimFeature) :=
  ⟨fun _ => iff_of_false (Finset.notMem_empty _) not_mem_nil, nodup_nil, fun i kept h => by cases h⟩

/-- What comes of adding features. -/
structure Grows (before after : RetainedFeatures Feature TrimFeature) : Prop where
  subset : before.set ⊆ after.set
  recorded : Recorded before → Recorded after

theorem Grows.refl (retained : RetainedFeatures Feature TrimFeature) : Grows retained retained :=
  ⟨Finset.Subset.refl _, id⟩

theorem Grows.trans {a b c : RetainedFeatures Feature TrimFeature} (h : Grows a b)
    (h' : Grows b c) : Grows a c :=
  ⟨h.subset.trans h'.subset, fun hrecorded => h'.recorded (h.recorded hrecorded)⟩

theorem Names.mono {set set' : Finset Feature} (h : Names reason set) (hsubset : set ⊆ set') :
    Names reason set' :=
  fun dependent strength heq => hsubset (h dependent strength heq)

theorem grows_insert (hreason : Names reason retained.set) :
    Grows retained (retained.insert feature reason) :=
  ⟨by rw [set_insert]; exact Finset.subset_insert _ _, fun h => h.insert hreason⟩

/-- A fold over steps that grow. -/
theorem grows_foldl {α : Type}
    {step : RetainedFeatures Feature TrimFeature → α → RetainedFeatures Feature TrimFeature}
    (l : List α)
    (hstep : ∀ r, retained.set ⊆ r.set → ∀ a ∈ l, Grows r (step r a)) :
    Grows retained (l.foldl step retained) := by
  induction l generalizing retained with
  | nil => exact Grows.refl retained
  | cons a l ih =>
    have hfirst := hstep retained (Finset.Subset.refl _) a mem_cons_self
    rw [foldl_cons]
    exact hfirst.trans
      (ih fun r hr b hb => hstep r (hfirst.subset.trans hr) b (mem_cons_of_mem a hb))

theorem grows_insertAll (features : List Feature) (hreason : Names reason retained.set) :
    Grows retained (retained.insertAll features reason) :=
  grows_foldl features fun _ hr _ _ => grows_insert (hreason.mono hr)

theorem names_of_ne (h : ∀ dependent strength, reason ≠ .neededBy dependent strength)
    (set : Finset Feature) :
    Names reason set := fun dependent strength heq => absurd heq (h dependent strength)

end Reasons

/-! ## The seed -/

section Seed

variable (T : FeatureTable Feature TrimFeature)

/-- What `compute_seed` starts with. -/
def seedAllowed (request : TrimRequest Feature TrimFeature) :
    RetainedFeatures Feature TrimFeature :=
  request.allow.foldl (fun seed name => seed.insertSet T (T.features name).toFinset (.allowed name))
    { set := ∅, reasons := [] }

variable {retained : RetainedFeatures Feature TrimFeature}

theorem grows_insertSet {reason : RetainReason Feature TrimFeature}
    (features : Finset Feature) (hreason : Names reason retained.set) :
    Grows retained (retained.insertSet T features reason) := grows_insertAll _ hreason

/-- A fold that adds features, none because of another one. -/
theorem grows_foldl_insertSet {α : Type} (l : List α) (features : α → Finset Feature)
    (reason : α → RetainReason Feature TrimFeature) (hreason : ∀ a dependent strength,
      reason a ≠ .neededBy dependent strength) (retained : RetainedFeatures Feature TrimFeature) :
    Grows retained (l.foldl (fun r a => r.insertSet T (features a) (reason a)) retained) :=
  grows_foldl l fun _ _ a _ => grows_insertSet T _ (names_of_ne (hreason a) _)

theorem grows_foldl_used (l : List (UsedFeature Feature))
    (retained : RetainedFeatures Feature TrimFeature) :
    Grows retained (l.foldl (fun seed used => seed.insert used.feature (.used used.witness))
      retained) :=
  grows_foldl l fun _ _ _ _ => grows_insert (names_of_ne (fun _ _ h => by cases h) _)

variable {feature : Feature}

theorem mem_foldl_used (l : List (UsedFeature Feature))
    (retained : RetainedFeatures Feature TrimFeature)
    (h : feature ∈ retained.set ∨ ∃ used ∈ l, used.feature = feature) :
    feature ∈ (l.foldl (fun seed used => seed.insert used.feature (.used used.witness))
      retained).set := by
  induction l generalizing retained with
  | nil =>
    rcases h with h | ⟨used, hused, -⟩
    · exact h
    · exact absurd hused not_mem_nil
  | cons used l ih =>
    refine ih _ ?_
    rw [set_insert, Finset.mem_insert]
    rcases h with h | ⟨other, hother, rfl⟩
    · exact .inl (.inr h)
    · rcases mem_cons.1 hother with rfl | hother
      · exact .inl (.inl rfl)
      · exact .inr ⟨other, hother, rfl⟩

theorem grows_seedUncompiled (used : UsedFeatures Feature)
    (seed : RetainedFeatures Feature TrimFeature)
    (hused : ∀ named ∈ used.features, named.feature ∈ seed.set) :
    Grows seed (T.seedUncompiled used seed) := by
  have hmem : ∀ feature, used.uses feature = true → feature ∈ seed.set := fun feature huses => by
    obtain ⟨named, hnamed, heq⟩ := any_eq_true.1 huses
    exact of_decide_eq_true heq ▸ hused named hnamed
  have hrealm : used.names T.CREATES_REALMS = true → T.CREATES_REALMS ∈ seed.set := fun hnames => by
    obtain ⟨named, hnamed, heq⟩ := any_eq_true.1 hnames
    exact of_decide_eq_true (Bool.and_eq_true_iff.1 heq).1 ▸ hused named hnamed
  have hneeds {feature : Feature} {set : Finset Feature} (h : feature ∈ set) :
      Names (.neededBy feature .recoverableGuard : RetainReason Feature TrimFeature) set :=
        fun dependent _ heq => by
    cases heq
    exact h
  have hfirst : Grows seed (if used.names T.CREATES_REALMS then
      seed.insert T.RUNS_BUILTIN_MODULES_FROM_TEXT (.neededBy T.CREATES_REALMS .recoverableGuard)
      else seed) := by
    split
    next h => exact grows_insert (hneeds (hrealm h))
    next => exact Grows.refl seed
  rw [FeatureTable.seedUncompiled]
  split
  next h =>
    have hworker := hfirst.subset (hmem _ (Bool.and_eq_true_iff.1 h).2)
    have hsecond := grows_insertSet T (T.featuresReachableBy .loadsCodeByName) (hneeds hworker)
    exact hfirst.trans (hsecond.trans (grows_insertSet T _ (hneeds (hsecond.subset hworker))))
  next => exact hfirst

variable (input : TrimInput Feature TrimFeature)

theorem computeSeed_recorded
    (requirements : List (OptionRequirement Feature)) :
    Recorded (computeSeed T input requirements) := by
  rw [computeSeed]
  have hallowed :=
    grows_foldl_insertSet T input.request.allow (fun name => (T.features name).toFinset) .allowed
    (fun _ _ _ h => by cases h) { set := ∅, reasons := [] }
  have hused := grows_foldl_used input.used.features (seedAllowed T input.request)
  have huncompiled := grows_seedUncompiled T input.used _ fun named hnamed =>
    mem_foldl_used input.used.features (seedAllowed T input.request) (.inr ⟨named, hnamed, rfl⟩)
  have hrequired :=
    grows_foldl_insertSet T requirements.zipIdx (fun p => T.requiredFeatures p.1.requirement)
    (fun p => .requiredByOption p.2) (fun _ _ _ h => by cases h)
  have hentered (retained : RetainedFeatures Feature TrimFeature) :
      Grows retained (retained.insertAll T.ALWAYS_ENTERED .alwaysEntered) :=
    grows_insertAll _ (names_of_ne (fun _ _ h => by cases h) _)
  have hcauses :=
    grows_foldl_insertSet T input.used.causes.zipIdx (fun p => T.featuresReachableBy p.1.cause)
    (fun p => .reachableByUnseenCode p.2) (fun _ _ _ h => by cases h)
  exact (hcauses _).recorded ((hentered _).recorded ((hrequired _).recorded
    (huncompiled.recorded (hused.recorded (hallowed.recorded recorded_empty)))))

theorem Recorded.mem_of_isAllowed (h : Recorded retained)
    (hallowed : isAllowed retained feature = true) : feature ∈ retained.set := by
  obtain ⟨kept, hkept, heq⟩ := any_eq_true.1 hallowed
  rw [h.mem, ← of_decide_eq_true (Bool.and_eq_true_iff.1 heq).1]
  exact mem_map_of_mem hkept

theorem retainWhatAllowedBuiltinsNeed_recorded (edges : FeatureEdges Feature)
    (h : Recorded retained) : Recorded (retainWhatAllowedBuiltinsNeed edges retained) := by
  rw [retainWhatAllowedBuiltinsNeed]
  generalize edges.needsOfBuiltins = needs
  induction needs generalizing retained with
  | nil => exact h
  | cons need needs ih =>
    refine ih ?_
    dsimp only
    split
    next hallowed =>
      refine h.insert fun dependent strength heq => ?_
      cases heq
      exact h.mem_of_isAllowed hallowed
    next => exact h

theorem grows_retainAllAProgramCanEnter (retained : RetainedFeatures Feature TrimFeature) :
    Grows retained (retainAllAProgramCanEnter T retained) := by
  rw [retainAllAProgramCanEnter]
  refine Grows.trans ?_ (grows_insertSet T _ (names_of_ne (fun _ _ h => by cases h) _))
  split
  next h =>
    refine grows_insertAll _ fun dependent strength heq => ?_
    cases heq
    exact h
  next => exact Grows.refl retained

theorem seedOf_recorded (edges : FeatureEdges Feature) : Recorded (seedOf T input edges) := by
  have h := retainWhatAllowedBuiltinsNeed_recorded edges
    (computeSeed_recorded T input (T.collectRequirements input.settings))
  rw [seedOf]
  split
  · exact (grows_retainAllAProgramCanEnter T _).recorded h
  · exact h

end Seed

/-!
## The closure

`FeatureEdges` are sorted, so the edges between the two partition points of `leaving` are those that
leave the feature. The loop of `close` takes each retained feature from the worklist once, so it
ends, with the least set that has the seed and is closed under the edges that are followed
(`close_isLeast`).
-/

variable {Feature TrimFeature : Type} [LinearOrder Feature]

/-! ### The edges that leave a feature -/

theorem lt_partitionPoint {α : Type} {r : α → α → Prop} {p : α → Bool}
    (hp : ∀ a b, r a b → p b = true → p a = true)
    {l : List α} (hl : l.Pairwise r) (i : ℕ) (h : i < l.length) :
    i < partitionPoint l p ↔ p l[i] = true := by
  rw [partitionPoint]
  induction l generalizing i with
  | nil => exact absurd h (Nat.not_lt_zero i)
  | cons a l ih =>
    obtain ⟨hhead, hl⟩ := pairwise_cons.1 hl
    cases ha : p a with
    | true =>
      rw [takeWhile_cons_of_pos ha, length_cons]
      cases i with
      | zero => exact iff_of_true (Nat.succ_pos _) ha
      | succ i =>
        rw [Nat.add_lt_add_iff_right]
        exact ih hl i (Nat.lt_of_succ_lt_succ h)
    | false =>
      rw [takeWhile_cons_of_neg (by rw [ha]; exact Bool.false_ne_true)]
      refine iff_of_false (Nat.not_lt_zero i) fun hpi => ?_
      cases i with
      | zero => exact Bool.false_ne_true (ha.symm.trans hpi)
      | succ i => exact Bool.false_ne_true (ha.symm.trans (hp a _ (hhead _ (getElem_mem _)) hpi))

theorem mem_leaving (edges : FeatureEdges Feature) (feature : Feature)
    (edge : FeatureEdge Feature) :
    edge ∈ edges.leaving feature ↔ edge ∈ edges.edges ∧ edge.source = feature := by
  have hle := lt_partitionPoint (p := fun edge : FeatureEdge Feature => edge.source ≤ feature)
    (fun a b hab hb => decide_eq_true (hab.trans (of_decide_eq_true hb))) edges.sorted
  have hlt := lt_partitionPoint (p := fun edge : FeatureEdge Feature => edge.source < feature)
    (fun a b hab hb => decide_eq_true (hab.trans_lt (of_decide_eq_true hb))) edges.sorted
  rw [FeatureEdges.leaving, mem_iff_getElem]
  constructor
  · rintro ⟨i, hi, rfl⟩
    have hi' := hi
    rw [length_drop, length_take] at hi'
    rw [getElem_drop, getElem_take]
    have hbelow :=
      (hle _ (by omega)).1 (lt_of_lt_of_le (Nat.add_lt_of_lt_sub' hi') (Nat.min_le_left _ _))
    have habove := (hlt _ (by omega)).not.1 (not_lt.2 (Nat.le_add_right _ i))
    exact ⟨getElem_mem _,
      le_antisymm (of_decide_eq_true hbelow) (not_lt.1 fun h => habove (decide_eq_true h))⟩
  · rintro ⟨hedge, rfl⟩
    obtain ⟨k, hk, rfl⟩ := mem_iff_getElem.1 hedge
    have hbelow := (hle k hk).2 (decide_eq_true le_rfl)
    have habove := (hlt k hk).not.2 fun h => lt_irrefl _ (of_decide_eq_true h)
    refine ⟨k - partitionPoint edges.edges fun edge => edge.source < (edges.edges[k]).source, ?_,
      ?_⟩
    · rw [length_drop, length_take]
      omega
    · rw [getElem_drop, getElem_take]
      congr 1
      omega

/-! ### One feature of the worklist -/

/-- `S` has with a feature whatever it needs. -/
def ClosedUnder (edges : FeatureEdges Feature) (S : Set Feature) : Prop :=
  ∀ edge ∈ edges.edges, edge.isFollowed = true → edge.source ∈ S → edge.target ∈ S

/-- What following edges of `feature` does. -/
structure Follows (feature : Feature) (l : List (FeatureEdge Feature))
    (s s' : Closing Feature TrimFeature) (new : List Feature) : Prop where
  grows : Grows s.1 s'.1
  worklist : s'.2 = s.2 ++ new
  set : s'.1.set = s.1.set ∪ new.toFinset
  card : s'.1.set.card = s.1.set.card + new.length
  target : ∀ edge ∈ l, edge.isFollowed = true → edge.target ∈ s'.1.set
  needed : ∀ f ∈ new, ∃ edge ∈ l, edge.isFollowed = true ∧ edge.target = f

theorem followEdge_cases (feature : Feature) (s : Closing Feature TrimFeature)
    (edge : FeatureEdge Feature) :
    (followEdge feature s edge = s ∧ (edge.isFollowed = true → edge.target ∈ s.1.set)) ∨
      (edge.isFollowed = true ∧ edge.target ∉ s.1.set ∧ followEdge feature s edge =
          (s.1.insert edge.target (.neededBy feature edge.strength), s.2 ++ [edge.target])) := by
  rw [followEdge]
  cases hfollowed : edge.isFollowed with
  | false => exact .inl ⟨rfl, fun h => by cases h⟩
  | true =>
    by_cases hmem : edge.target ∈ s.1.set
    · left
      rw [RetainedFeatures.insert, if_pos hmem, if_pos hmem]
      exact ⟨rfl, fun _ => hmem⟩
    · right
      rw [if_neg hmem]
      exact ⟨rfl, hmem, rfl⟩

theorem follows_foldl {feature : Feature} (l : List (FeatureEdge Feature))
    (s : Closing Feature TrimFeature)
    (hfeature : feature ∈ s.1.set) :
    ∃ new, Follows feature l s (l.foldl (followEdge feature) s) new := by
  induction l generalizing s with
  | nil =>
    exact ⟨[], Grows.refl _, (append_nil _).symm, (Finset.union_empty _).symm, rfl,
      fun edge h => absurd h not_mem_nil, fun f h => absurd h not_mem_nil⟩
  | cons edge l ih =>
    rw [foldl_cons]
    rcases followEdge_cases feature s edge with ⟨hstep, htarget⟩ | ⟨hfollowed, hnew, hstep⟩
    · rw [hstep]
      obtain ⟨new, h⟩ := ih s hfeature
      refine ⟨new, h.grows, h.worklist, h.set, h.card, forall_mem_cons.2 ⟨fun hf => ?_, h.target⟩,
        fun f hf => ?_⟩
      · exact h.grows.subset (htarget hf)
      · obtain ⟨other, hother, hneeded⟩ := h.needed f hf
        exact ⟨other, mem_cons_of_mem _ hother, hneeded⟩
    · rw [hstep]
      have hreason :
          Names (.neededBy feature edge.strength : RetainReason Feature TrimFeature) s.1.set :=
        fun dependent strength heq => by
          cases heq
          exact hfeature
      have hfirst : Grows s.1 (s.1.insert edge.target _) := grows_insert hreason
      obtain ⟨new, h⟩ :=
        ih (s.1.insert edge.target (.neededBy feature edge.strength), s.2 ++ [edge.target])
        (hfirst.subset hfeature)
      refine ⟨edge.target :: new, hfirst.trans h.grows, ?_, ?_, ?_,
        forall_mem_cons.2 ⟨fun _ => ?_, h.target⟩,
        forall_mem_cons.2 ⟨⟨edge, mem_cons_self, hfollowed, rfl⟩, fun f hf => ?_⟩⟩
      · rw [h.worklist, List.append_assoc, singleton_append]
      · rw [h.set, set_insert, toFinset_cons, Finset.insert_union, Finset.union_insert]
      · rw [h.card, set_insert, Finset.card_insert_of_notMem hnew, length_cons]
        omega
      · refine h.grows.subset ?_
        rw [set_insert]
        exact Finset.mem_insert_self _ _
      · obtain ⟨other, hother, hneeded⟩ := h.needed f hf
        exact ⟨other, mem_cons_of_mem _ hother, hneeded⟩

/-! ### The loop -/

/-- What holds of `close` at each round. -/
structure Closing.Inv (edges : FeatureEdges Feature) (seed : Finset Feature)
    (s : Closing Feature TrimFeature) : Prop where
  recorded : Recorded s.1
  seed_subset : seed ⊆ s.1.set
  waiting : ∀ feature ∈ s.2, feature ∈ s.1.set
  needed : ∀ S : Set Feature, ↑seed ⊆ S → ClosedUnder edges S → ↑s.1.set ⊆ S
  followed : ∀ edge ∈ edges.edges, edge.isFollowed = true → edge.source ∈ s.1.set →
    edge.source ∉ s.2 → edge.target ∈ s.1.set

variable {edges : FeatureEdges Feature} {seed : Finset Feature}

theorem Closing.Inv.step
    {retained : RetainedFeatures Feature TrimFeature} {feature : Feature}
    {worklist new : List Feature}
    {s' : Closing Feature TrimFeature} (h : Closing.Inv edges seed (retained, feature :: worklist))
    (hfollows : Follows feature (edges.leaving feature) (retained, worklist) s' new) :
    Closing.Inv edges seed s' where
  recorded := hfollows.grows.recorded h.recorded
  seed_subset := h.seed_subset.trans hfollows.grows.subset
  waiting := fun other hother => by
    rw [hfollows.worklist, mem_append] at hother
    rw [hfollows.set, Finset.mem_union, mem_toFinset]
    exact hother.imp_left fun hother => h.waiting other (mem_cons_of_mem _ hother)
  needed := fun S hseed hclosed other hother => by
    have hbefore := h.needed S hseed hclosed
    rw [Finset.mem_coe, hfollows.set, Finset.mem_union, mem_toFinset] at hother
    rcases hother with hother | hother
    · exact hbefore hother
    · obtain ⟨edge, hedge, hfollowed, rfl⟩ := hfollows.needed other hother
      obtain ⟨hmem, rfl⟩ := (mem_leaving edges feature edge).1 hedge
      exact hclosed edge hmem hfollowed (hbefore (h.waiting _ mem_cons_self))
  followed := fun edge hedge hfollowed hsource hwaiting => by
    rw [hfollows.worklist, mem_append, not_or] at hwaiting
    rw [hfollows.set, Finset.mem_union, mem_toFinset] at hsource
    have hold : edge.source ∈ retained.set := hsource.resolve_right hwaiting.2
    by_cases heq : edge.source = feature
    · exact hfollows.target edge ((mem_leaving edges feature edge).2 ⟨hedge, heq⟩) hfollowed
    · refine hfollows.grows.subset (h.followed edge hedge hfollowed hold fun hmem => ?_)
      exact (mem_cons.1 hmem).elim heq hwaiting.1

theorem closeLoop_inv (bound : ℕ)
    (hbound : ∀ set : Finset Feature, set.card ≤ bound) (fuel : ℕ) (s : Closing Feature TrimFeature)
    (h : Closing.Inv edges seed s) (hfuel : s.2.length + bound ≤ fuel + s.1.set.card) :
    ∃ retained, closeLoop edges fuel s = some retained ∧ Closing.Inv edges seed (retained, []) := by
  induction fuel generalizing s with
  | zero =>
    obtain ⟨retained, worklist⟩ := s
    cases worklist with
    | nil => exact ⟨retained, rfl, h⟩
    | cons feature worklist =>
      have hcard := hbound retained.set
      have hlength : worklist.length + 1 + bound ≤ 0 + retained.set.card := hfuel
      omega
  | succ fuel ih =>
    obtain ⟨retained, worklist⟩ := s
    cases worklist with
    | nil => exact ⟨retained, rfl, h⟩
    | cons feature worklist =>
      obtain ⟨new, hfollows⟩ := follows_foldl (edges.leaving feature) (retained, worklist)
        (h.waiting feature mem_cons_self)
      have hlength : worklist.length + 1 + bound ≤ fuel + 1 + retained.set.card := hfuel
      refine ih _ (h.step hfollows) ?_
      rw [hfollows.worklist, hfollows.card, length_append]
      dsimp only
      omega

variable (T : FeatureTable Feature TrimFeature)

variable (set : Finset Feature)

theorem mem_iter (feature : Feature) : feature ∈ T.iter set ↔ feature ∈ set := by
  rw [FeatureTable.iter, mem_filter]
  exact ⟨fun h => of_decide_eq_true h.2, fun h => ⟨T.mem_all feature, decide_eq_true h⟩⟩

theorem iter_nodup : (T.iter set).Nodup :=
  (T.all_sorted.imp fun h => ne_of_lt h).filter _

theorem toFinset_iter : (T.iter set).toFinset = set := by
  ext feature
  rw [mem_toFinset, mem_iter]

theorem card_le_all : set.card ≤ T.all.length := by
  rw [← toFinset_iter T set, toFinset_card_of_nodup (iter_nodup T set)]
  exact length_filter_le _ _

theorem mem_allFeatures (feature : Feature) : feature ∈ T.allFeatures :=
  mem_toFinset.2 (T.mem_all feature)

theorem close_spec (edges : FeatureEdges Feature) {seed : RetainedFeatures Feature TrimFeature}
    (hseed : Recorded seed) : ∃ retained, close T edges seed = some retained ∧ Recorded retained ∧
      IsLeast {S : Set Feature | ↑seed.set ⊆ S ∧ ClosedUnder edges S} ↑retained.set := by
  have hinv : Closing.Inv edges seed.set (seed, T.iter seed.set) :=
    ⟨hseed, Finset.Subset.refl _, fun feature h => (mem_iter T _ feature).1 h, fun S h _ => h,
      fun edge _ _ hsource hwaiting => absurd ((mem_iter T _ _).2 hsource) hwaiting⟩
  have hlength : (T.iter seed.set).length = seed.set.card := by
    rw [← toFinset_card_of_nodup (iter_nodup T _), toFinset_iter]
  obtain ⟨retained, hclose, h⟩ := closeLoop_inv T.all.length (card_le_all T) T.all.length _ hinv
    (by rw [hlength, add_comm])
  refine ⟨retained, hclose, h.recorded, ⟨h.seed_subset, fun edge hedge hfollowed hsource => ?_⟩,
    fun S hS => ?_⟩
  · exact h.followed edge hedge hfollowed hsource not_mem_nil
  · exact h.needed S hS.1 hS.2

end Soup.Trim
