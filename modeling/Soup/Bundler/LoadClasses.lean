import Soup.Bundler.Preceded

/-!
# The class of a key

`load_class` drops the redundant entries of a key, and it takes the same decision whether or not it
looks at the tree of dominators first (`loadClasses_spec`). A walk leaves marks with its own epoch,
so that a later one does not see them.
-/

namespace Soup.Bundler

open Lib List Function

namespace EntryGraph

variable {graph : EntryGraph} {key : ℕ → Bool} {idom : Nodes} {epoch e x y : ℕ}

/-! ## The importers of one node -/

variable (graph) in
/-- The number of the entries that were not seen. -/
def unseen (epoch : ℕ) (seen : ℕ → ℕ) : ℕ :=
  ((Finset.range graph.len).filter fun x => seen x ≠ epoch).card

variable {seen : ℕ → ℕ}

theorem unseen_update (hx : x < graph.len) (hnew : seen x ≠ epoch) :
    graph.unseen epoch (update seen x epoch) < graph.unseen epoch seen := by
  refine Finset.card_lt_card (Finset.ssubset_iff_subset_ne.2 ⟨fun y hy => ?_, fun heq => ?_⟩)
  · rw [Finset.mem_filter] at hy ⊢
    have hne : y ≠ x := by
      rintro rfl
      exact hy.2 (update_self ..)
    rwa [update_of_ne hne] at hy
  · have hmem : x ∈ (Finset.range graph.len).filter fun x => seen x ≠ epoch :=
      Finset.mem_filter.2 ⟨Finset.mem_range.2 hx, hnew⟩
    rw [← heq] at hmem
    exact (Finset.mem_filter.1 hmem).2 (update_self ..)

variable (graph key idom epoch) in
/-- What the loop over some importers did where it met no root. -/
structure Pushed (importers : List ℕ) (seen : ℕ → ℕ) (worklist : List ℕ) (seen' : ℕ → ℕ)
    (worklist' : List ℕ) : Prop where
  bounded : (∀ x, seen x ≤ epoch) → ∀ x, seen' x ≤ epoch
  keeps : ∀ x, seen x = epoch → seen' x = epoch
  marks : ∀ x, seen' x = epoch → seen x = epoch ∨ x ∈ importers ∧ x ∈ worklist' ∧ key x = false ∧
    idom x ≠ none ∧ graph.guaranteed x = true
  settled : ∀ x ∈ importers, key x = true ∨ seen' x = epoch ∨ idom x = none
  waiting : ∀ x ∈ worklist', x ∈ worklist ∨ seen' x = epoch
  waits : ∀ x ∈ worklist, x ∈ worklist'
  less : graph.unseen epoch seen' + worklist'.length ≤ graph.unseen epoch seen + worklist.length

theorem pushImporters_spec : ∀ (importers : List ℕ) (seen : ℕ → ℕ) (worklist : List ℕ),
    (∀ x ∈ importers, x < graph.len) →
    match graph.pushImporters idom key epoch importers seen worklist with
    | (true, seen', worklist') => graph.Pushed key idom epoch importers seen worklist seen'
        worklist'
    | (false, seen', _) => ((∀ x, seen x ≤ epoch) → ∀ x, seen' x ≤ epoch) ∧
        ∃ x ∈ importers, key x = false ∧ graph.guaranteed x = false
  | [], seen, worklist, _ =>
    ⟨fun h => h, fun _ h => h, fun _ h => .inl h, by simp, fun _ h => .inl h, fun _ h => h,
      le_rfl⟩
  | importer :: importers, seen, worklist, hlt => by
    have hrest : ∀ x ∈ importers, x < graph.len := fun x hx => hlt x (mem_cons_of_mem _ hx)
    rw [pushImporters]
    by_cases hskip : key importer ∨ seen importer = epoch ∨ idom importer = none
    · rw [if_pos hskip]
      have ih := pushImporters_spec importers seen
        worklist hrest
      generalize graph.pushImporters idom key epoch importers seen worklist = result at ih
      obtain ⟨_ | _, seen', worklist'⟩ := result
      · obtain ⟨hbounded, x, hx, hspec⟩ := ih
        exact ⟨hbounded, x, mem_cons_of_mem _ hx, hspec⟩
      · refine ⟨ih.bounded, ih.keeps, fun x hx => ?_, fun x hx => ?_, ih.waiting, ih.waits, ih.less⟩
        · exact (ih.marks x hx).imp_right fun h => ⟨mem_cons_of_mem _ h.1, h.2⟩
        · rcases mem_cons.1 hx with rfl | hx
          · exact hskip.imp_right (Or.imp_left (ih.keeps x))
          · exact ih.settled x hx
    rw [if_neg hskip]
    obtain ⟨hfree, hnew, hreached⟩ : key importer = false ∧ seen importer ≠ epoch ∧
        idom importer ≠ none := by
      simpa using hskip
    cases hguaranteed : graph.guaranteed importer with
    | false => exact ⟨fun h => h, importer, mem_cons_self, hfree, hguaranteed⟩
    | true =>
      have ih := pushImporters_spec importers
        (update seen importer epoch) (importer :: worklist) hrest
      rw [Bool.not_true, if_neg Bool.false_ne_true]
      generalize graph.pushImporters idom key epoch importers (update seen importer epoch)
        (importer :: worklist) = result at ih
      have hle : (∀ x, seen x ≤ epoch) → ∀ x, update seen importer epoch x ≤ epoch := by
        intro h x
        by_cases hx : x = importer
        · rw [hx, update_self]
        · rw [update_of_ne hx]
          exact h x
      obtain ⟨_ | _, seen', worklist'⟩ := result
      · obtain ⟨hbounded, x, hx, hspec⟩ := ih
        exact ⟨fun h => hbounded (hle h), x, mem_cons_of_mem _ hx, hspec⟩
      · have hmarked : seen' importer = epoch := ih.keeps _ (update_self ..)
        refine ⟨fun h => ih.bounded (hle h), fun x hx => ih.keeps x ?_, fun x hx => ?_,
          fun x hx => ?_, fun x hx => ?_, fun x hx => ih.waits x (mem_cons_of_mem _ hx), ?_⟩
        · by_cases hne : x = importer
          · rw [hne, update_self]
          · rwa [update_of_ne hne]
        · by_cases hne : x = importer
          · subst hne
            exact .inr ⟨mem_cons_self, ih.waits x mem_cons_self, hfree, hreached, hguaranteed⟩
          · rcases ih.marks x hx with hold | ⟨hin, hspec⟩
            · rw [update_of_ne hne] at hold
              exact .inl hold
            · exact .inr ⟨mem_cons_of_mem _ hin, hspec⟩
        · rcases mem_cons.1 hx with rfl | hx
          · exact .inr (.inl hmarked)
          · exact ih.settled x hx
        · rcases ih.waiting x hx with hin | hseen
          · rcases mem_cons.1 hin with rfl | hin
            · exact .inr hmarked
            · exact .inl hin
          · exact .inr hseen
        · have := unseen_update (hlt importer mem_cons_self) hnew
          have := ih.less
          rw [length_cons] at this
          omega

/-! ## The walk -/

variable (graph key) in
/-- A path of `import()`s without an entry of the key leads from the node to the entry. -/
inductive LeadsTo (e : ℕ) : ℕ → Prop
  | refl : LeadsTo e e
  | step {x y : ℕ} (leads : LeadsTo e y) (lt : x < graph.len) (imports : graph.imports x y = true)
      (free : key x = false) : LeadsTo e x

/-- What imports a node that leads to the entry, and loads, makes the entry load. -/
theorem Loads.along (h : graph.Loads key x) (hleads : graph.LeadsTo key e y)
    (himports : graph.imports x y = true) :
    ∃ importer, graph.Loads key importer ∧ graph.imports importer e = true := by
  induction hleads generalizing x with
  | refl => exact ⟨x, h, himports⟩
  | @step y z _ hlt hnext hfree ih => exact ih (h.step hlt himports hfree) hnext

variable (graph key idom epoch) in
/-- The walk back from `e`. -/
structure Walking (e : ℕ) (seen : ℕ → ℕ) (worklist : List ℕ) : Prop where
  bounded : ∀ x, seen x ≤ epoch
  marks : ∀ x, seen x = epoch → graph.LeadsTo key e x ∧ graph.guaranteed x = true
  waiting : ∀ x ∈ worklist, x = e ∨ seen x = epoch
  settled : ∀ y, y = e ∨ seen y = epoch → y ∉ worklist →
    ∀ x ∈ graph.ids (graph.importerBits y), key x = true ∨ seen x = epoch ∨ idom x = none

theorem Walking.leadsTo {worklist : List ℕ} (h : graph.Walking key idom epoch e seen worklist)
    (hx : x = e ∨ seen x = epoch) : graph.LeadsTo key e x := by
  rcases hx with rfl | hx
  · exact .refl
  · exact (h.marks x hx).1

/-- Nothing that loads imports what the walk saw. -/
theorem Walking.no_loads (h : graph.Walking key idom epoch e seen []) (hkey : key e = true)
    (hidom : ∀ x, graph.Loads key x → idom x ≠ none) (hx : graph.Loads key x) :
    ∀ y, y = e ∨ seen y = epoch → graph.imports x y = true → False := by
  -- what loads and imports a seen node is seen
  have hseen : ∀ x, graph.Loads key x → ∀ y, y = e ∨ seen y = epoch →
      graph.imports x y = true → seen x = epoch := by
    intro x hx y hy himports
    by_cases hself : x = y
    · subst hself
      refine hy.resolve_left ?_
      rintro rfl
      exact Bool.false_ne_true (hx.free.symm.trans hkey)
    have hmem : x ∈ graph.ids (graph.importerBits y) := by
      rw [mem_ids, importerBits, Bool.and_eq_true, decide_eq_true_eq]
      exact ⟨hx.lt, himports, hself⟩
    rcases h.settled y hy not_mem_nil x hmem with hin | hseen | hnone
    · exact absurd (hx.free.symm.trans hin) Bool.false_ne_true
    · exact hseen
    · exact absurd hnone (hidom x hx)
  induction hx with
  | @root x hlt hroot hfree =>
    intro y hy himports
    have hmark := hseen x (.root hlt hroot hfree) y hy himports
    exact Bool.false_ne_true (hroot.symm.trans (h.marks x hmark).2)
  | @step z x hloads hlt hnext hfree ih =>
    intro y hy himports
    exact ih x (.inr (hseen x (hloads.step hlt hnext hfree) y hy himports)) hnext

theorem Walking.step {seen' : ℕ → ℕ} {below : ℕ} {worklist worklist' : List ℕ}
    (h : graph.Walking key idom epoch e seen (below :: worklist))
    (hpushed : graph.Pushed key idom epoch (graph.ids (graph.importerBits below)) seen worklist
      seen' worklist') :
    graph.Walking key idom epoch e seen' worklist' := by
  have hbelow := h.leadsTo (h.waiting below mem_cons_self)
  refine ⟨hpushed.bounded h.bounded, fun x hx => ?_, fun x hx => ?_, fun y hy hnot x hx => ?_⟩
  · rcases hpushed.marks x hx with hold | ⟨hmem, -, hfree, -, hguaranteed⟩
    · exact h.marks x hold
    · obtain ⟨hlt, himports⟩ := mem_ids.1 hmem
      rw [importerBits, Bool.and_eq_true] at himports
      exact ⟨.step hbelow hlt himports.1 hfree, hguaranteed⟩
  · rcases hpushed.waiting x hx with hin | hseen
    · exact (h.waiting x (mem_cons_of_mem _ hin)).imp_right (hpushed.keeps x)
    · exact .inr hseen
  · by_cases hyb : y = below
    · exact hpushed.settled x (hyb ▸ hx)
    have hold : y = e ∨ seen y = epoch := by
      rcases hy with rfl | hseen
      · exact .inl rfl
      · exact (hpushed.marks y hseen).elim .inr fun hin => absurd hin.2.1 hnot
    have hwait : y ∉ below :: worklist := by
      rw [mem_cons, not_or]
      exact ⟨hyb, fun hin => hnot (hpushed.waits y hin)⟩
    exact (h.settled y hold hwait x hx).imp_right (Or.imp_left (hpushed.keeps x))

/-- The walk ends, and says whether something that loads imports the entry. -/
theorem exists_walkBack (hkey : key e = true) (hidom : ∀ x, graph.Loads key x → idom x ≠ none)
    (seen : ℕ → ℕ) (worklist : List ℕ) (h : graph.Walking key idom epoch e seen worklist) :
    ∃ preceded seen', (∀ᶠ fuel in Filter.atTop,
        graph.walkBack idom key epoch fuel seen worklist = .ok (preceded, seen')) ∧
      (∀ x, seen' x ≤ epoch) ∧
      (preceded = true ↔ ¬∃ importer, graph.Loads key importer ∧
        graph.imports importer e = true) := by
  match worklist, h with
  | [], h =>
    refine ⟨true, seen, eventually_succ (.of_forall fun _ => rfl), h.bounded,
      iff_of_true rfl fun ⟨importer, hloads, himports⟩ => ?_⟩
    exact h.no_loads hkey hidom hloads e (.inl rfl) himports
  | below :: worklist, h =>
    have hspec := @pushImporters_spec graph key idom epoch
      (graph.ids (graph.importerBits below)) seen worklist fun x hx => (mem_ids.1 hx).1
    cases hresult : graph.pushImporters idom key epoch (graph.ids (graph.importerBits below)) seen
      worklist with
    | mk more result =>
      obtain ⟨seen', worklist'⟩ := result
      rw [hresult] at hspec
      cases more with
      | false =>
        obtain ⟨hbounded, x, hx, hfree, hroot⟩ := hspec
        refine ⟨false, seen', eventually_succ (.of_forall fun fuel => ?_), hbounded h.bounded,
          iff_of_false Bool.false_ne_true (not_not_intro ?_)⟩
        · rw [walkBack, hresult]
        · obtain ⟨hlt, himports⟩ := mem_ids.1 hx
          rw [importerBits, Bool.and_eq_true] at himports
          have hloads : graph.Loads key x := .root hlt hroot hfree
          exact hloads.along (h.leadsTo (h.waiting below mem_cons_self)) himports.1
      | true =>
        have hless := hspec.less
        obtain ⟨preceded, seen'', hloop, hend⟩ :=
          exists_walkBack hkey hidom seen' worklist' (h.step hspec)
        refine ⟨preceded, seen'', eventually_succ ?_, hend⟩
        filter_upwards [hloop] with fuel hloop
        rw [walkBack, hresult]
        exact hloop
termination_by graph.unseen epoch seen + worklist.length
decreasing_by
  rw [length_cons]
  omega

/-! ## The class -/

/-- Marks of earlier walks. -/
def Marks.Bounded (marks : Marks) : Prop := ∀ x, marks.seen x ≤ marks.epoch

variable {last : ℕ} {node parent : ℕ → ℕ}

variable {marks : Marks}

theorem exists_preceded (h : graph.Tree last node parent idom) (hmarks : marks.Bounded)
    (he : e < graph.len) (hkey : key e = true) (hguaranteed : graph.guaranteed e = true)
    (shortcut : Bool) : ∃ preceded marks',
    (∀ᶠ fuel in Filter.atTop, graph.preceded shortcut fuel idom key marks e =
      .ok (preceded, marks')) ∧ marks'.Bounded ∧ (preceded = true ↔ graph.Redundant key e) := by
  obtain ⟨fast, hfast, hsound⟩ : ∃ fast, (∀ᶠ fuel in Filter.atTop,
      graph.fastPath shortcut fuel idom key e = .ok fast) ∧
        (fast = true → graph.Redundant key e) := by
    cases shortcut with
    | false => exact ⟨false, .of_forall fun _ => rfl, fun h => absurd h Bool.false_ne_true⟩
    | true => exact h.exists_fast he hkey hguaranteed
  cases fast with
  | true =>
    refine ⟨true, marks, ?_, hmarks, iff_of_true rfl (hsound rfl)⟩
    filter_upwards [hfast] with fuel hfast
    rw [preceded, hfast, ok_bind, if_pos rfl]
  | false =>
    -- no mark has the new epoch
    have hnone : ∀ x, marks.seen x ≠ marks.epoch + 1 := fun x =>
      ne_of_lt (Nat.lt_succ_of_le (hmarks x))
    have hwalking : graph.Walking key idom (marks.epoch + 1) e marks.seen [e] := by
      refine ⟨fun x => (hmarks x).trans (Nat.le_succ _), fun x hx => absurd hx (hnone x),
        fun x hx => .inl (mem_singleton.1 hx), fun y hy hnot => ?_⟩
      exact absurd (mem_singleton.2 (hy.resolve_right (hnone y))) hnot
    obtain ⟨preceded, seen', hwalk, hbounded, hspec⟩ :=
      exists_walkBack hkey (fun _ hx => h.idom_of_loads hx) _ _ hwalking
    refine ⟨preceded, ⟨seen', marks.epoch + 1⟩, ?_, hbounded,
      hspec.trans ⟨fun hnot => ⟨hguaranteed, hnot⟩, fun hredundant => hredundant.2⟩⟩
    filter_upwards [hfast, hwalk] with fuel hfast hwalk
    rw [EntryGraph.preceded, hfast, ok_bind, if_neg Bool.false_ne_true]
    dsimp only
    rw [hwalk, ok_bind]

variable (graph key) in
/-- What the loop over the entries of the key did: the redundant ones that are done are out. -/
structure Dropping (done : List ℕ) (cls : ℕ → Bool) (dropped : Bool) : Prop where
  cls_iff : ∀ x, cls x = true ↔ key x = true ∧ ¬(x ∈ done ∧ graph.Redundant key x)
  dropped_iff : dropped = true ↔ ∃ x ∈ done, graph.Redundant key x

variable {done : List ℕ} {cls : ℕ → Bool} {dropped : Bool}

theorem Dropping.keep (h : graph.Dropping key done cls dropped) (he : ¬graph.Redundant key e) :
    graph.Dropping key (done ++ [e]) cls dropped := by
  have hmem : ∀ x, x ∈ done ++ [e] ∧ graph.Redundant key x ↔ x ∈ done ∧ graph.Redundant key x := by
    intro x
    rw [mem_append, mem_singleton, and_congr_left_iff]
    exact fun hx => or_iff_left fun heq => he (heq ▸ hx)
  refine ⟨fun x => (h.cls_iff x).trans ?_, h.dropped_iff.trans ?_⟩
  · rw [hmem]
  · exact exists_congr fun x => (hmem x).symm

theorem Dropping.drop (h : graph.Dropping key done cls dropped) (he : graph.Redundant key e) :
    graph.Dropping key (done ++ [e]) (update cls e false) true := by
  refine ⟨fun x => ?_, iff_of_true rfl ⟨e, by simp, he⟩⟩
  by_cases hx : x = e
  · subst hx
    rw [update_self]
    exact iff_of_false Bool.false_ne_true fun hnot => hnot.2 ⟨by simp, he⟩
  · rw [update_of_ne hx, h.cls_iff, mem_append, mem_singleton, or_iff_left hx]

theorem exists_visitCandidate (h : graph.Tree last node parent idom) (shortcut : Bool)
    (hmarks : marks.Bounded) (hdone : graph.Dropping key done cls dropped) (he : e < graph.len)
    (hkey : key e = true) :
    ∃ cls' dropped' marks', (∀ᶠ fuel in Filter.atTop,
        graph.visitCandidate shortcut fuel idom key (cls, dropped, marks) e =
          .ok (cls', dropped', marks')) ∧ marks'.Bounded ∧
      graph.Dropping key (done ++ [e]) cls' dropped' := by
  cases hguaranteed : graph.guaranteed e with
  | false =>
    refine ⟨cls, dropped, marks, .of_forall fun fuel => ?_, hmarks, hdone.keep fun hredundant => ?_⟩
    · rw [visitCandidate, hguaranteed, if_pos (by simp)]
    · exact Bool.false_ne_true (hguaranteed.symm.trans hredundant.1)
  | true =>
    obtain ⟨preceded, marks', hloop, hbounded, hspec⟩ :=
      exists_preceded h hmarks he hkey hguaranteed shortcut
    cases preceded with
    | true =>
      refine ⟨_, true, marks', ?_, hbounded, hdone.drop (hspec.1 rfl)⟩
      filter_upwards [hloop] with fuel hloop
      rw [visitCandidate, hguaranteed, if_neg (by simp), hloop, ok_bind]
      rfl
    | false =>
      refine ⟨cls, dropped, marks', ?_, hbounded, hdone.keep fun hredundant => ?_⟩
      · filter_upwards [hloop] with fuel hloop
        rw [visitCandidate, hguaranteed, if_neg (by simp), hloop, ok_bind]
        rfl
      · exact Bool.false_ne_true (hspec.2 hredundant)

variable (graph) in
/-- The class of a key: what is not redundant, or all of it where nothing would be left. -/
def IsClass (key cls : ℕ → Bool) : Prop :=
  ∀ e < graph.len, cls e = true ↔ key e = true ∧
    (¬graph.Redundant key e ∨ ∀ other < graph.len, key other = true → graph.Redundant key other)

theorem Dropping.isClass (h : graph.Dropping key (graph.ids key) cls dropped) :
    graph.IsClass key (if dropped ∧ graph.ids cls = [] then key else cls) := by
  have hcls : ∀ x < graph.len, cls x = true ↔ key x = true ∧ ¬graph.Redundant key x := by
    intro x hx
    rw [h.cls_iff, mem_ids, and_congr_right_iff]
    exact fun hkey => not_congr (and_iff_right ⟨hx, hkey⟩)
  have hempty : graph.ids cls = [] ↔
      ∀ x < graph.len, key x = true → graph.Redundant key x := by
    rw [eq_nil_iff_forall_not_mem]
    refine forall_congr' fun x => ?_
    rw [mem_ids, not_and]
    refine forall_congr' fun hx => ?_
    rw [hcls x hx, not_and_not_right]
  intro e he
  by_cases hall : graph.ids cls = []
  · have hredundant := hempty.1 hall
    by_cases hdropped : dropped = true
    · rw [if_pos ⟨hdropped, hall⟩]
      exact (and_iff_left (.inr hredundant)).symm
    · rw [if_neg fun hcond => hdropped hcond.1]
      have hkey : key e ≠ true := fun hkey =>
        hdropped (h.dropped_iff.2 ⟨e, mem_ids.2 ⟨he, hkey⟩, hredundant e he hkey⟩)
      rw [hcls e he]
      exact iff_of_false (fun hin => hkey hin.1) fun hin => hkey hin.1
  · rw [if_neg fun hcond => hall hcond.2, hcls e he]
    exact and_congr_right fun _ => (or_iff_left fun hredundant => hall (hempty.2 hredundant)).symm

theorem exists_loadClass (h : graph.Tree last node parent idom) (shortcut : Bool)
    (hmarks : marks.Bounded) (key : ℕ → Bool) : ∃ cls dropped marks',
    graph.Dropping key (graph.ids key) cls dropped ∧ marks'.Bounded ∧
      ∀ᶠ fuel in Filter.atTop, graph.loadClass shortcut fuel idom marks key =
        .ok (if dropped ∧ graph.ids cls = [] then key else cls, marks') := by
  obtain ⟨⟨cls, dropped, marks'⟩, hloop, hbounded, hdone⟩ := eventually_foldlM (graph.ids key)
    (f := fun fuel => graph.visitCandidate shortcut fuel idom key) (s := (key, false, marks))
    (P := fun done state => state.2.2.Bounded ∧ graph.Dropping key done state.1 state.2.1)
    ⟨hmarks, fun x => by simp, by simp⟩
    (by
      rintro done e rest hids ⟨cls, dropped, marks⟩ ⟨hbounded, hdone⟩
      obtain ⟨he, hkey⟩ := mem_ids.1 (show e ∈ graph.ids key by rw [hids]; simp)
      obtain ⟨cls', dropped', marks', hstep, hspec⟩ :=
        exists_visitCandidate h shortcut hbounded hdone he hkey
      exact ⟨(cls', dropped', marks'), hstep, hspec⟩)
  refine ⟨cls, dropped, marks', hdone, hbounded, ?_⟩
  filter_upwards [hloop] with fuel hloop
  rw [loadClass, hloop, ok_bind]
  dsimp only
  split <;> rfl

/-- What is left of a key is the same however it was found. -/
theorem Dropping.unique {cls' : ℕ → Bool} {dropped' : Bool}
    (h : graph.Dropping key done cls dropped) (h' : graph.Dropping key done cls' dropped') :
    cls = cls' ∧ dropped = dropped' := by
  refine ⟨funext fun x => ?_, ?_⟩
  · rw [Bool.eq_iff_iff, h.cls_iff, h'.cls_iff]
  · rw [Bool.eq_iff_iff, h.dropped_iff, h'.dropped_iff]

theorem exists_loadClasses (h : graph.Tree last node parent idom) : ∀ keys : List (ℕ → Bool),
    ∃ classes, List.Forall₂ graph.IsClass keys classes ∧ ∀ shortcut (marks : Marks), marks.Bounded →
      ∀ᶠ fuel in Filter.atTop, graph.loadClasses shortcut fuel idom marks keys = .ok classes
  | [] => ⟨[], .nil, fun _ _ _ => .of_forall fun _ => rfl⟩
  | key :: keys => by
    obtain ⟨classes, hclasses, hrest⟩ := exists_loadClasses h keys
    have hmarks : Marks.Bounded ⟨fun _ => 0, 0⟩ := fun _ => Nat.le_refl 0
    obtain ⟨cls, dropped, _, hdropping, -⟩ := exists_loadClass h false hmarks key
    refine ⟨_, .cons hdropping.isClass hclasses, fun shortcut marks hmarks => ?_⟩
    obtain ⟨cls', dropped', marks', hdropping', hbounded, hloop⟩ :=
      exists_loadClass h shortcut hmarks key
    obtain ⟨rfl, rfl⟩ := hdropping.unique hdropping'
    filter_upwards [hloop, hrest shortcut marks' hbounded] with fuel hloop hrest
    rw [loadClasses, hloop, ok_bind]
    dsimp only
    rw [hrest, ok_bind]

variable (graph) in
/-- The calls of `load_class` for some keys, one after the other, find the classes of the keys, with
the shortcut and without it. -/
theorem loadClasses_spec : ∃ idom, (∀ᶠ fuel in Filter.atTop, graph.idom fuel = .ok idom) ∧
    ∀ keys : List (ℕ → Bool), ∃ classes, List.Forall₂ graph.IsClass keys classes ∧
      ∀ shortcut, ∀ᶠ fuel in Filter.atTop,
        graph.loadClasses shortcut fuel idom ⟨fun _ => 0, 0⟩ keys = .ok classes := by
  obtain ⟨last, node, parent, idom, hidom, htree⟩ := graph.exists_tree
  refine ⟨idom, hidom, fun keys => ?_⟩
  obtain ⟨classes, hclasses, hrun⟩ := exists_loadClasses htree keys
  exact ⟨classes, hclasses, fun shortcut => hrun shortcut _ fun _ => Nat.le_refl 0⟩

end EntryGraph

end Soup.Bundler
