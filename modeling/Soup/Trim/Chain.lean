import Mathlib.Data.List.Chain
import Soup.Trim.Closed

/-!
# The seed and the decision

Which features are in the seed does not depend on the order that its sources come in, only their
reasons do (`mem_seed`). A feature that the request allows has that reason, since those come first,
so the built-ins of just these features have their needs in the seed.
-/

set_option linter.unusedSectionVars false

namespace Soup.Trim

open List

variable {Feature TrimFeature : Type} [LinearOrder Feature] (T : FeatureTable Feature TrimFeature)

/-- The request allows the feature. -/
def TrimRequest.Allows (request : TrimRequest Feature TrimFeature) (feature : Feature) : Prop :=
  ∃ name ∈ request.allow, feature ∈ T.features name

/-- Why a feature is in the seed. -/
inductive Seeded (input : TrimInput Feature TrimFeature) (edges : FeatureEdges Feature)
    (feature : Feature) : Prop
  | allowed (h : input.request.Allows T feature)
  | used (named : UsedFeature Feature) (h : named ∈ input.used.features)
      (heq : named.feature = feature)
  | realm (h : input.used.names T.CREATES_REALMS = true)
      (heq : feature = T.RUNS_BUILTIN_MODULES_FROM_TEXT)
  | worker (h : T.canStartWorkerFromUnseenCode input.used = true)
    (hfeature : feature ∈ T.featuresReachableBy .loadsCodeByName ∨
      feature ∈ T.ENTERED_BY_EACH_WORKER)
  | required (option : OptionRequirement Feature)
      (h : option ∈ T.collectRequirements input.settings)
    (hfeature : feature ∈ T.requiredFeatures option.requirement)
  | alwaysEntered (h : feature ∈ T.ALWAYS_ENTERED)
  | reachable (unseen : UnseenCode) (h : unseen ∈ input.used.causes)
    (hfeature : feature ∈ T.featuresReachableBy unseen.cause)
  | builtin (source : Feature) (h : (source, feature) ∈ edges.needsOfBuiltins)
    (hallowed : input.request.Allows T source)

/-! ## Folds -/

variable {α : Type}
  {step : RetainedFeatures Feature TrimFeature → α → RetainedFeatures Feature TrimFeature}

theorem mem_foldl {feature : Feature} {adds : α → Prop}
    (hstep : ∀ r a, feature ∈ (step r a).set ↔ feature ∈ r.set ∨ adds a) (l : List α)
    (retained : RetainedFeatures Feature TrimFeature) :
    feature ∈ (l.foldl step retained).set ↔ feature ∈ retained.set ∨ ∃ a ∈ l, adds a := by
  induction l generalizing retained with
  | nil => exact (or_iff_left fun ⟨_, h, _⟩ => not_mem_nil h).symm
  | cons a l ih =>
    rw [foldl_cons, ih, hstep, or_assoc]
    exact or_congr_right (exists_mem_cons_iff _ a l).symm

section

variable (retained : RetainedFeatures Feature TrimFeature)

theorem mem_insert (added feature : Feature) (reason : RetainReason Feature TrimFeature) :
    feature ∈ (retained.insert added reason).set ↔ feature ∈ retained.set ∨ feature = added := by
  rw [set_insert, Finset.mem_insert, or_comm]

theorem mem_insertAll (features : List Feature) (feature : Feature)
    (reason : RetainReason Feature TrimFeature) :
    feature ∈ (retained.insertAll features reason).set ↔ feature ∈ retained.set ∨
      feature ∈ features := by
  rw [RetainedFeatures.insertAll, mem_foldl fun r a => mem_insert r a feature reason]
  exact or_congr_right ⟨fun ⟨a, ha, heq⟩ => heq ▸ ha, fun h => ⟨feature, h, rfl⟩⟩

theorem mem_insertSet (features : Finset Feature)
    (feature : Feature) (reason : RetainReason Feature TrimFeature) :
    feature ∈ (retained.insertSet T features reason).set ↔ feature ∈ retained.set ∨
      feature ∈ features := by
  rw [RetainedFeatures.insertSet, mem_insertAll, mem_iter]

theorem mem_foldl_insertSet (features : α → Finset Feature)
    (reason : α → RetainReason Feature TrimFeature) (l : List α)
    (retained : RetainedFeatures Feature TrimFeature) (feature : Feature) :
    feature ∈ (l.foldl (fun r a => r.insertSet T (features a) (reason a)) retained).set ↔
      feature ∈ retained.set ∨ ∃ a ∈ l, feature ∈ features a :=
  mem_foldl (fun r a => mem_insertSet T r (features a) feature (reason a)) l retained

theorem exists_mem_zipIdx {p : α → Prop} (l : List α) (n : ℕ) :
    (∃ a ∈ l.zipIdx n, p a.1) ↔ ∃ a ∈ l, p a := by
  induction l generalizing n with
  | nil => exact iff_of_false (fun ⟨_, h, _⟩ => not_mem_nil h) fun ⟨_, h, _⟩ => not_mem_nil h
  | cons a l ih =>
    rw [zipIdx_cons, exists_mem_cons_iff, exists_mem_cons_iff, ih]

/-! ## The features that are allowed -/

def RetainReason.isAllowed : RetainReason Feature TrimFeature → Bool
  | .allowed _ => true
  | _ => false

theorem isAllowed_iff (feature : Feature) : isAllowed retained feature = true ↔
      ∃ kept ∈ retained.reasons, kept.feature = feature ∧ kept.reason.isAllowed = true := by
  rw [isAllowed, any_eq_true]
  refine exists_congr fun kept => and_congr_right fun _ => ?_
  rw [Bool.and_eq_true, decide_eq_true_iff]
  exact and_congr_right fun _ => by cases kept.reason <;> exact Iff.rfl

end

variable {reason : RetainReason Feature TrimFeature}

section

variable (retained : RetainedFeatures Feature TrimFeature)

theorem isAllowed_insert (added feature : Feature) (h : reason.isAllowed = false) :
    isAllowed (retained.insert added reason) feature = isAllowed retained feature := by
  rw [RetainedFeatures.insert]
  split
  · rfl
  · rw [Bool.eq_iff_iff, isAllowed_iff, isAllowed_iff]
    constructor
    · rintro ⟨kept, hkept, heq, hallowed⟩
      rcases mem_append.1 hkept with hkept | hkept
      · exact ⟨kept, hkept, heq, hallowed⟩
      · rw [mem_singleton.1 hkept, h] at hallowed
        cases hallowed
    · rintro ⟨kept, hkept, heq, hallowed⟩
      exact ⟨kept, mem_append_left _ hkept, heq, hallowed⟩

theorem isAllowed_foldl
    {feature : Feature} (hstep : ∀ r a, isAllowed (step r a) feature = isAllowed r feature)
    (l : List α) (retained : RetainedFeatures Feature TrimFeature) :
    isAllowed (l.foldl step retained) feature = isAllowed retained feature := by
  induction l generalizing retained with
  | nil => rfl
  | cons a l ih => rw [foldl_cons, ih, hstep]

theorem isAllowed_insertAll
    (features : List Feature) (feature : Feature) (h : reason.isAllowed = false) :
    isAllowed (retained.insertAll features reason) feature = isAllowed retained feature :=
  isAllowed_foldl (fun r a => isAllowed_insert r a feature h) features retained

theorem isAllowed_insertSet
    (features : Finset Feature) (feature : Feature) (h : reason.isAllowed = false) :
    isAllowed (retained.insertSet T features reason) feature = isAllowed retained feature :=
  isAllowed_insertAll retained _ feature h

end

/-- Everything retained is retained because it is allowed. -/
def AllAllowed (retained : RetainedFeatures Feature TrimFeature) : Prop :=
  ∀ feature, isAllowed retained feature = true ↔ feature ∈ retained.set

variable {retained : RetainedFeatures Feature TrimFeature}

theorem AllAllowed.insert (h : AllAllowed retained)
    (added : Feature) (name : TrimFeature) :
    AllAllowed (retained.insert added (.allowed name)) := by
  intro feature
  rw [mem_insert, ← h feature, isAllowed_iff, isAllowed_iff, RetainedFeatures.insert]
  split
  next hmem =>
    refine ⟨.inl, fun hor => hor.elim id fun heq => ?_⟩
    rw [← isAllowed_iff, heq]
    exact (h added).2 hmem
  next =>
    constructor
    · rintro ⟨kept, hkept, heq, hallowed⟩
      rcases mem_append.1 hkept with hkept | hkept
      · exact .inl ⟨kept, hkept, heq, hallowed⟩
      · exact .inr (heq ▸ congrArg Retained.feature (mem_singleton.1 hkept))
    · rintro (⟨kept, hkept, heq, hallowed⟩ | rfl)
      · exact ⟨kept, mem_append_left _ hkept, heq, hallowed⟩
      · exact ⟨_, mem_append_right _ (mem_singleton_self _), rfl, rfl⟩

theorem AllAllowed.insertAll (features : List Feature) (name : TrimFeature)
    (h : AllAllowed retained) : AllAllowed (retained.insertAll features (.allowed name)) := by
  induction features generalizing retained with
  | nil => exact h
  | cons feature features ih => exact ih (h.insert feature name)

theorem AllAllowed.foldl (allow : List TrimFeature) (h : AllAllowed retained) :
    AllAllowed (allow.foldl (fun seed name =>
      seed.insertSet T (T.features name).toFinset (.allowed name)) retained) := by
  induction allow generalizing retained with
  | nil => exact h
  | cons name allow ih => exact ih (h.insertAll _ name)

variable (request : TrimRequest Feature TrimFeature)

theorem mem_seedAllowed (feature : Feature) :
    feature ∈ (seedAllowed T request).set ↔ request.Allows T feature := by
  rw [seedAllowed, mem_foldl_insertSet T (fun name => (T.features name).toFinset) .allowed]
  refine (or_iff_right (Finset.notMem_empty _)).trans
    (exists_congr fun name => and_congr_right fun _ => ?_)
  rw [mem_toFinset]

theorem isAllowed_seedAllowed (feature : Feature) :
    isAllowed (seedAllowed T request) feature = true ↔ request.Allows T feature := by
  have hempty : AllAllowed ({ set := ∅, reasons := [] } : RetainedFeatures Feature TrimFeature) :=
    fun feature =>
    iff_of_false Bool.false_ne_true (Finset.notMem_empty _)
  exact (hempty.foldl T request.allow feature).trans (mem_seedAllowed T request feature)

/-! ## All sources of the seed -/

theorem mem_seedUncompiled (used : UsedFeatures Feature)
    (seed : RetainedFeatures Feature TrimFeature)
    (feature : Feature) : feature ∈ (T.seedUncompiled used seed).set ↔
      feature ∈ seed.set ∨
        (used.names T.CREATES_REALMS = true ∧ feature = T.RUNS_BUILTIN_MODULES_FROM_TEXT) ∨
        (T.canStartWorkerFromUnseenCode used = true ∧
          (feature ∈ T.featuresReachableBy .loadsCodeByName ∨
            feature ∈ T.ENTERED_BY_EACH_WORKER)) := by
  have hrealm : feature ∈
    (if used.names T.CREATES_REALMS = true then seed.insert T.RUNS_BUILTIN_MODULES_FROM_TEXT
        (.neededBy T.CREATES_REALMS .recoverableGuard) else seed).set ↔
      feature ∈ seed.set ∨
        (used.names T.CREATES_REALMS = true ∧ feature = T.RUNS_BUILTIN_MODULES_FROM_TEXT) := by
    split
    next h => rw [mem_insert, h, and_iff_right rfl]
    next h => exact (or_iff_left fun hand => h hand.1).symm
  rw [← or_assoc, ← hrealm, FeatureTable.seedUncompiled]
  split
  next h => rw [mem_insertSet, mem_insertSet, mem_toFinset, h, and_iff_right rfl, or_assoc]
  next h => exact (or_iff_left fun hand => h hand.1).symm

theorem isAllowed_seedUncompiled (used : UsedFeatures Feature)
    (seed : RetainedFeatures Feature TrimFeature)
    (feature : Feature) :
    isAllowed (T.seedUncompiled used seed) feature = isAllowed seed feature := by
  rw [FeatureTable.seedUncompiled]
  have hrealm : isAllowed
    (if used.names T.CREATES_REALMS = true then seed.insert T.RUNS_BUILTIN_MODULES_FROM_TEXT
      (.neededBy T.CREATES_REALMS .recoverableGuard) else seed) feature =
      isAllowed seed feature := by
    split
    · exact isAllowed_insert seed _ feature rfl
    · rfl
  split
  · rw [isAllowed_insertSet _ _ _ _ rfl, isAllowed_insertSet _ _ _ _ rfl, hrealm]
  · exact hrealm

section

variable (input : TrimInput Feature TrimFeature)

variable (requirements : List (OptionRequirement Feature))

theorem isAllowed_computeSeed (feature : Feature) :
    isAllowed (computeSeed T input requirements) feature = true ↔
      input.request.Allows T feature := by
  rw [← isAllowed_seedAllowed, computeSeed]
  rw [isAllowed_foldl fun r p => isAllowed_insertSet T r _ feature rfl,
    isAllowed_insertAll _ _ _ rfl,
    isAllowed_foldl fun r p => isAllowed_insertSet T r _ feature rfl, isAllowed_seedUncompiled,
    isAllowed_foldl fun r used => isAllowed_insert r _ feature rfl]
  exact Iff.rfl

theorem mem_computeSeed (feature : Feature) : feature ∈ (computeSeed T input requirements).set ↔
      ((((input.request.Allows T feature ∨ ∃ named ∈ input.used.features, feature = named.feature) ∨
        (input.used.names T.CREATES_REALMS = true ∧ feature = T.RUNS_BUILTIN_MODULES_FROM_TEXT) ∨
          (T.canStartWorkerFromUnseenCode input.used = true ∧
            (feature ∈ T.featuresReachableBy .loadsCodeByName ∨
              feature ∈ T.ENTERED_BY_EACH_WORKER))) ∨
        ∃ option ∈ requirements, feature ∈ T.requiredFeatures option.requirement) ∨
        feature ∈ T.ALWAYS_ENTERED) ∨ ∃ unseen ∈ input.used.causes,
          feature ∈ T.featuresReachableBy unseen.cause := by
  rw [computeSeed]
  rw [mem_foldl_insertSet T (fun p : UnseenCode × ℕ => T.featuresReachableBy p.1.cause)
      fun p => .reachableByUnseenCode p.2,
    exists_mem_zipIdx
    (p := fun unseen : UnseenCode => feature ∈ T.featuresReachableBy unseen.cause), mem_insertAll,
    mem_foldl_insertSet T
    (fun p : OptionRequirement Feature × ℕ => T.requiredFeatures p.1.requirement)
      fun p => .requiredByOption p.2,
    exists_mem_zipIdx (p := fun option : OptionRequirement Feature => feature ∈
    T.requiredFeatures option.requirement),
    mem_seedUncompiled,
    mem_foldl fun r (used : UsedFeature Feature) => mem_insert r used.feature feature
    (.used used.witness),
    ← mem_seedAllowed]
  exact Iff.rfl

theorem mem_retainWhatAllowedBuiltinsNeed (edges : FeatureEdges Feature)
    (retained : RetainedFeatures Feature TrimFeature) (feature : Feature) :
    feature ∈ (retainWhatAllowedBuiltinsNeed edges retained).set ↔ feature ∈ retained.set ∨
      ∃ source, (source, feature) ∈ edges.needsOfBuiltins ∧ isAllowed retained source = true := by
  rw [retainWhatAllowedBuiltinsNeed]
  generalize edges.needsOfBuiltins = needs
  induction needs generalizing retained with
  | nil => exact (or_iff_left fun h => not_mem_nil h.choose_spec.1).symm
  | cons need needs ih =>
    rw [foldl_cons, ih]
    dsimp only
    split
    next h =>
      have hkeep (source : Feature) :
          isAllowed (retained.insert need.2 (.neededBy need.1 .abortingGuard)) source =
            isAllowed retained source :=
        isAllowed_insert _ _ source rfl
      simp only [mem_insert, hkeep, mem_cons, or_and_right, exists_or]
      rw [or_assoc]
      have hneed : feature = need.2 ↔ ∃ source, (source, feature) = need ∧
          isAllowed retained source = true := by
        refine ⟨fun heq => ⟨need.1, by rw [heq], h⟩, ?_⟩
        rintro ⟨source, rfl, -⟩
        rfl
      rw [hneed]
    next h =>
      refine or_congr_right (exists_congr fun source => and_congr_left fun hallowed => ?_)
      rw [mem_cons]
      refine (or_iff_right fun heq => h ?_).symm
      rw [← heq]
      exact hallowed

/-- The seed, whatever the order of its sources. -/
theorem mem_seed (edges : FeatureEdges Feature) (feature : Feature) :
    feature ∈ (retainWhatAllowedBuiltinsNeed
      edges (computeSeed T input (T.collectRequirements input.settings))).set ↔
      Seeded T input edges feature := by
  rw [mem_retainWhatAllowedBuiltinsNeed, mem_computeSeed]
  simp only [isAllowed_computeSeed]
  constructor
  · rintro ((((((h | ⟨named, hnamed, rfl⟩) | ⟨h, heq⟩ | ⟨h, hfeature⟩) | ⟨option, h, hfeature⟩) | h)
      | ⟨unseen, h, hfeature⟩) | ⟨source, h, hallowed⟩)
    · exact .allowed h
    · exact .used named hnamed rfl
    · exact .realm h heq
    · exact .worker h hfeature
    · exact .required option h hfeature
    · exact .alwaysEntered h
    · exact .reachable unseen h hfeature
    · exact .builtin source h hallowed
  · intro h
    cases h with
    | allowed h => exact .inl (.inl (.inl (.inl (.inl (.inl h)))))
    | used named h heq => exact .inl (.inl (.inl (.inl (.inl (.inr ⟨named, h, heq.symm⟩)))))
    | realm h heq => exact .inl (.inl (.inl (.inl (.inr (.inl ⟨h, heq⟩)))))
    | worker h hfeature => exact .inl (.inl (.inl (.inl (.inr (.inr ⟨h, hfeature⟩)))))
    | required option h hfeature => exact .inl (.inl (.inl (.inr ⟨option, h, hfeature⟩)))
    | alwaysEntered h => exact .inl (.inl (.inr h))
    | reachable unseen h hfeature => exact .inl (.inr ⟨unseen, h, hfeature⟩)
    | builtin source h hallowed => exact .inr ⟨source, h, hallowed⟩

end

/-!
## The decision

`chain_of` follows the reasons of a decision. The feature that needs another one is recorded before
it, so a chain has no repetition, and it ends where the reason is another one, or where the feature
is removed itself (`chainOf_path`). With this, `decide_closed` says what a decision is.
-/

variable {Feature TrimFeature : Type} [LinearOrder Feature]

/-! ### Chains -/

variable {feature : Feature}

namespace Decision

variable (decision : Decision Feature TrimFeature)

/-- The recorded reason of `feature` is that `dependent` needs it. -/
def Needs (feature dependent : Feature) : Prop :=
  ∃ strength, decision.reasonOf feature = some (.neededBy dependent strength)

/-- The feature is removed, or has another reason than being needed. -/
def Ends (feature : Feature) : Prop :=
  feature ∈ decision.unused ∨
    ∃ reason, decision.reasonOf feature = some reason ∧ ∀ dependent strength,
      reason ≠ .neededBy dependent strength

/-- `chain` goes from `feature` over recorded needs to where they end. -/
structure PathOfNeeds (feature : Feature) (chain : List Feature) : Prop where
  head : chain.head? = some feature
  nodup : chain.Nodup
  needs : chain.IsChain decision.Needs
  ends : ∀ last ∈ chain.getLast?, decision.Ends last

variable {decision}

theorem mem_retained_of_needs {dependent : Feature} (h : decision.Needs feature dependent) :
    feature ∈ decision.retained.map Retained.feature := by
  obtain ⟨strength, hreason⟩ := h
  rw [reasonOf, findReason, Option.map_eq_some_iff] at hreason
  obtain ⟨kept, hfind, -⟩ := hreason
  have heq := find?_some hfind
  exact mem_map.2 ⟨kept, mem_of_find?_eq_some hfind, of_decide_eq_true heq⟩

variable {chain : List Feature}

theorem mem_retained_of_isChain {last : Feature}
    (h : (chain ++ [last]).IsChain decision.Needs) (hmem : feature ∈ chain) :
    feature ∈ decision.retained.map Retained.feature := by
  induction chain with
  | nil => exact absurd hmem not_mem_nil
  | cons first chain ih =>
    rw [cons_append, isChain_cons] at h
    rcases mem_cons.1 hmem with rfl | hmem
    · cases chain with
      | nil => exact mem_retained_of_needs (h.1 last rfl)
      | cons second chain => exact mem_retained_of_needs (h.1 second rfl)
    · exact ih h.2 hmem

theorem chainLoop_of_not_needed {current : Feature}
    (h : ∀ dependent strength, decision.reasonOf current ≠ some (.neededBy dependent strength))
    (fuel : ℕ)
    (chain : List Feature) : decision.chainLoop (fuel + 1) chain current = some chain := by
  rw [chainLoop]
  split
  next heq => exact absurd heq (h _ _)
  next => rfl

theorem chainLoop_of_needed {current dependent : Feature} {strength : EdgeStrength}
    (h : decision.reasonOf current = some (.neededBy dependent strength)) (fuel : ℕ)
    (hnew : dependent ∉ chain) :
    decision.chainLoop (fuel + 1) chain current = decision.chainLoop fuel (chain ++ [dependent])
      dependent := by
  rw [chainLoop, h]
  dsimp only
  rw [if_neg fun hcontains => hnew (contains_iff_mem.1 hcontains)]

/-- The loop from `current`, behind the features of `chain`; what needs a feature has a lower rank.
-/
theorem chainLoop_path (rank : Feature → ℕ) (hrank : ∀ a b, decision.Needs a b → rank b < rank a)
    (hends : ∀ f, decision.reasonOf f = none → f ∈ decision.unused) (fuel : ℕ)
    (chain : List Feature) (current : Feature) (hhead : (chain ++ [current]).head? = some feature)
    (hneeds : (chain ++ [current]).IsChain decision.Needs)
    (hsorted : (chain ++ [current]).Pairwise fun a b => rank b < rank a)
    (hfuel : decision.retained.length < fuel + chain.length) :
    ∃ path, decision.chainLoop fuel (chain ++ [current]) current = some path ∧
      decision.PathOfNeeds feature path := by
  have hnodup : (chain ++ [current]).Nodup :=
    hsorted.imp fun hlt heq => by rw [heq] at hlt; exact lt_irrefl _ hlt
  induction fuel generalizing chain current with
  | zero =>
    have hsub : chain.Subperm (decision.retained.map Retained.feature) :=
      subperm_of_subset (nodup_append.1 hnodup).1 fun f hf => mem_retained_of_isChain hneeds hf
    have hle := hsub.length_le
    rw [length_map] at hle
    omega
  | succ fuel ih =>
    by_cases hneeded : ∃ dependent strength,
      decision.reasonOf current = some (.neededBy dependent strength)
    · obtain ⟨dependent, strength, hreason⟩ := hneeded
      have hlt := hrank current dependent ⟨strength, hreason⟩
      have hbelow : ∀ f ∈ chain ++ [current], rank dependent < rank f := fun f hf => by
        rcases mem_append.1 hf with hf | hf
        · exact hlt.trans ((pairwise_append.1 hsorted).2.2 f hf current (mem_singleton_self _))
        · exact mem_singleton.1 hf ▸ hlt
      rw [chainLoop_of_needed hreason fuel fun hmem => lt_irrefl _ (hbelow dependent hmem)]
      have hsorted' : ((chain ++ [current]) ++ [dependent]).Pairwise fun a b => rank b < rank a :=
        pairwise_append.2 ⟨hsorted, pairwise_singleton _ _, fun f hf d hd =>
          mem_singleton.1 hd ▸ hbelow f hf⟩
      refine ih (chain ++ [current]) dependent ?_ ?_ hsorted' ?_ ?_
      · rw [List.head?_append, hhead, Option.some_or]
      · refine isChain_append.2 ⟨hneeds, isChain_singleton _, fun a ha b hb => ?_⟩
        rw [getLast?_concat, Option.mem_some_iff] at ha
        rw [head?_cons, Option.mem_some_iff] at hb
        exact ha ▸ hb ▸ ⟨strength, hreason⟩
      · rw [length_append, length_singleton]
        omega
      · exact hsorted'.imp fun hlt heq => by rw [heq] at hlt; exact lt_irrefl _ hlt
    · have hother :
          ∀ dependent strength, decision.reasonOf current ≠ some (.neededBy dependent strength) :=
        fun dependent strength heq => hneeded ⟨dependent, strength, heq⟩
      refine ⟨_, chainLoop_of_not_needed hother fuel _, hhead, hnodup, hneeds, fun last hlast => ?_⟩
      rw [getLast?_concat, Option.mem_some_iff] at hlast
      rw [← hlast]
      cases hreason : decision.reasonOf current with
      | none => exact .inl (hends current hreason)
      | some reason =>
        exact .inr ⟨reason, hreason, fun dependent strength heq => hother dependent strength
          (heq ▸ hreason)⟩

theorem chainOf_path (rank : Feature → ℕ) (hrank : ∀ a b, decision.Needs a b → rank b < rank a)
    (hends : ∀ f, decision.reasonOf f = none → f ∈ decision.unused) (feature : Feature) :
    ∃ path, decision.chainOf feature = some path ∧ decision.PathOfNeeds feature path :=
  chainLoop_path rank hrank hends (decision.retained.length + 1) [] feature rfl
    (isChain_singleton _) (pairwise_singleton _ _) (Nat.lt_succ_self _)

end Decision

/-! ### The reasons of a decision -/

/-- How early a feature is recorded. -/
def RetainedFeatures.rank (retained : RetainedFeatures Feature TrimFeature) (feature : Feature) :
    ℕ :=
  (retained.reasons.map Retained.feature).idxOf feature

variable {retained : RetainedFeatures Feature TrimFeature}

theorem Recorded.rank_lt (h : Recorded retained) {dependent : Feature} {strength : EdgeStrength}
    (hfind : findReason retained.reasons feature = some (.neededBy dependent strength)) :
    retained.rank dependent < retained.rank feature := by
  rw [findReason, Option.map_eq_some_iff] at hfind
  obtain ⟨kept, hkept, hreason⟩ := hfind
  have heq := find?_some hkept
  obtain ⟨i, hi⟩ := mem_iff_getElem?.1 (mem_of_find?_eq_some hkept)
  obtain ⟨j, hj, hget⟩ := h.before i kept hi dependent strength hreason
  have hfeature : (retained.reasons.map Retained.feature)[i]? = some feature := by
    rw [getElem?_map, hi, Option.map_some, of_decide_eq_true heq]
  obtain ⟨hlength, hget⟩ := List.getElem?_eq_some_iff.1 hget
  obtain ⟨hlength', hfeature⟩ := List.getElem?_eq_some_iff.1 hfeature
  rw [RetainedFeatures.rank, RetainedFeatures.rank, ← hget, ← hfeature, h.nodup.idxOf_getElem,
    h.nodup.idxOf_getElem]
  exact hj

variable (T : FeatureTable Feature TrimFeature)

theorem findReason_map (reason : Feature → RetainReason Feature TrimFeature)
    (features : List Feature) (feature : Feature) :
    findReason (features.map fun f => { feature := f, reason := reason f }) feature =
      if feature ∈ features then some (reason feature) else none := by
  induction features with
  | nil => rfl
  | cons first features ih =>
    rw [findReason, map_cons, find?_cons]
    by_cases heq : first = feature
    · rw [if_pos (mem_cons.2 (.inl heq.symm))]
      simp [heq]
    · rw [decide_eq_false heq]
      simp only [mem_cons, Ne.symm heq, false_or]
      exact ih

theorem findReason_collectRetained (present : Finset Feature)
    (reasons : List (Retained Feature TrimFeature))
    (feature : Feature) : findReason (collectRetained T present reasons) feature =
      if feature ∈ present then some ((findReason reasons feature).getD .notRequested)
        else none := by
  rw [collectRetained, findReason_map fun f => (findReason reasons f).getD .notRequested]
  simp only [mem_iter]

/-! ### The decision -/

variable {edges : FeatureEdges Feature}

variable (input : TrimInput Feature TrimFeature)

/-- A decision comes of what `close` retains. -/
theorem decide_eq_some (hclose : close T edges (seedOf T input edges) = some retained) :
    ∃ decision, T.decide input edges = some decision ∧
      decision.unretained =
        (if input.request.removesUnused || input.isProgramCompiled then T.allFeatures \ retained.set
          else ∅) ∧
      decision.retained = collectRetained T (T.allFeatures \ decision.unused) retained.reasons := by
  rw [FeatureTable.decide, hclose, Option.map_some]
  exact ⟨_, rfl, rfl, rfl⟩

variable {decision : Decision Feature TrimFeature}

theorem decision_path (hrecorded : Recorded retained)
    (hretained : decision.retained = collectRetained T (T.allFeatures \ decision.unused)
      retained.reasons)
    (feature : Feature) :
    ∃ chain, decision.chainOf feature = some chain ∧ decision.PathOfNeeds feature chain := by
  have hreason (f : Feature) : decision.reasonOf f =
      if f ∈ T.allFeatures \ decision.unused
        then some ((findReason retained.reasons f).getD .notRequested)
      else none := by
    rw [Decision.reasonOf, hretained, findReason_collectRetained]
  refine Decision.chainOf_path retained.rank (fun a b hneeds => ?_) (fun f hnone => ?_) feature
  · obtain ⟨strength, hneeds⟩ := hneeds
    rw [hreason] at hneeds
    split at hneeds
    · suffices hfind : findReason retained.reasons a = some (.neededBy b strength)
        from hrecorded.rank_lt hfind
      cases hfind : findReason retained.reasons a with
      | none =>
        rw [hfind] at hneeds
        cases Option.some.inj hneeds
      | some reason =>
        rw [hfind] at hneeds
        exact congrArg some (Option.some.inj hneeds)
    · cases hneeds
  · by_contra hpresent
    rw [hreason, if_pos (Finset.mem_sdiff.2 ⟨mem_allFeatures T f, hpresent⟩)] at hnone
    cases hnone

theorem unretained_eq_of_request {input : TrimInput Feature TrimFeature}
    (h : T.decide input edges = some decision)
    (remove : List TrimFeature) (removeInternal : List Feature) :
    ∃ other, T.decide { input with request := { input.request with remove, removeInternal } }
      edges = some other ∧ other.unretained = decision.unretained := by
  rw [FeatureTable.decide, Option.map_eq_some_iff] at h
  obtain ⟨retained, hclose, rfl⟩ := h
  obtain ⟨other, hother, hunretained, -⟩ :=
    decide_eq_some T { input with request := { input.request with remove, removeInternal } } hclose
  exact ⟨other, hother, hunretained⟩

/-- What stays is the least closed set that has the seed, whatever the request removes besides; and
the chain of each feature that is present goes over recorded needs, without repetition, to where
they end. -/
theorem decide_closed (edges : FeatureEdges Feature) :
    ∃ decision, T.decide input edges = some decision ∧
      (input.request.removesUnused = true →
        IsLeast {S : Set Feature | {feature | Seeded T input edges feature} ⊆ S ∧
          ClosedUnder edges S}
          {feature | feature ∉ decision.unretained}) ∧
      (∀ remove removeInternal, ∃ other,
        T.decide { input with request := { input.request with remove, removeInternal } } edges =
          some other ∧ other.unretained = decision.unretained) ∧
      ∀ feature, feature ∉ decision.unused →
        ∃ chain, decision.chainOf feature = some chain ∧ decision.PathOfNeeds feature chain := by
  obtain ⟨retained, hclose, hrecorded, hleast⟩ := close_spec T edges (seedOf_recorded T input edges)
  obtain ⟨decision, hdecide, hunretained, hretained⟩ := decide_eq_some T input hclose
  refine ⟨decision, hdecide, fun hremoves => ?_, unretained_eq_of_request T hdecide,
    fun feature _ =>
    decision_path T hrecorded hretained feature⟩
  have hseed : (↑(seedOf T input edges).set : Set Feature) =
      {feature | Seeded T input edges feature} := by
    ext feature
    rw [Finset.mem_coe, seedOf, hremoves]
    exact mem_seed T input edges feature
  have hset : {feature | feature ∉ decision.unretained} = (↑retained.set : Set Feature) := by
    ext feature
    rw [hunretained, hremoves, Bool.true_or, if_pos rfl, Set.mem_ofPred_eq, Finset.mem_sdiff,
      Finset.mem_coe, not_and_not_right]
    exact ⟨fun h => h (mem_allFeatures T feature), fun h _ => h⟩
  rw [hset, ← hseed]
  exact hleast

end Soup.Trim
