import Soup.Bundler.Walked

/-!
# The order of the parts

A part is laid out after the files that it imports (`Walks.before`), and a file that is entered from
a part after the run that ends there (`Walks.after`). The walk of a chunk lays it out
(`EntryChunk.run_laysOut`).
-/

namespace Soup.Bundler

open List Option Nat

/-! ## Runs before runs -/

/-- The runs with `P` come before the ones with `Q`. -/
def Before (P Q : PartRun → Prop) (runs : List PartRun) : Prop :=
  runs.Pairwise fun earlier later => Q earlier → ¬P later

variable {runs : List PartRun} {P Q : PartRun → Prop} {more : List PartRun}

theorem before_append (hQ : ∀ run ∈ runs, ¬Q run)
    (hP : ∀ run ∈ more, ¬P run) : Before P Q (runs ++ more) := by
  refine pairwise_append.2 ⟨?_, ?_, fun run hrun _ _ hQrun => absurd hQrun (hQ run hrun)⟩
  · exact pairwise_of_forall_mem_list fun run hrun _ _ hQrun => absurd hQrun (hQ run hrun)
  · exact pairwise_of_forall_mem_list fun _ _ run hrun _ => hP run hrun

theorem Before.append (h : Before P Q runs)
    (hP : ∀ run ∈ more, ¬P run) : Before P Q (runs ++ more) :=
  pairwise_append.2 ⟨h, pairwise_of_forall_mem_list fun _ _ run hrun _ => hP run hrun,
    fun _ _ run hrun _ => hP run hrun⟩

/-- A run of a file. -/
def PartRun.Of (f : ℕ) (run : PartRun) : Prop := run.sourceIndex = f

/-- A run of a file with a part. -/
def PartRun.With (f q : ℕ) (run : PartRun) : Prop :=
  run.sourceIndex = f ∧ run.begin ≤ q ∧ ∀ next ∈ run.end, q < next

/-- A run of a file that ends at a part. -/
def PartRun.Till (f q : ℕ) (run : PartRun) : Prop := run.sourceIndex = f ∧ run.end = some q

theorem not_of {f : ℕ} (h : runsOf f runs = []) :
    ∀ run ∈ runs, ¬run.Of f := runsOf_eq_nil.1 h

variable {f q : ℕ}

theorem not_with (h : runsOf f runs = []) :
    ∀ run ∈ runs, ¬run.With f q := fun run hrun hwith => runsOf_eq_nil.1 h run hrun hwith.1

theorem not_till (h : runsOf f runs = []) :
    ∀ run ∈ runs, ¬run.Till f q := fun run hrun htill => runsOf_eq_nil.1 h run hrun htill.1

theorem Chain.not_with (h : Chain 0 (runsOf f runs) q) : ∀ run ∈ runs, ¬run.With f q := by
  rintro run hrun ⟨hsource, -, hend⟩
  obtain ⟨-, next, hnext, hle⟩ := h.mem (mem_runsOf.2 ⟨hrun, hsource⟩)
  exact not_lt.2 hle (hend next hnext)

theorem Covers.lt_end {len start : ℕ} (h : Covers len start runs) :
    ∀ run ∈ runs, ∀ next ∈ run.end, start < next := by
  induction runs generalizing start with
  | nil => exact forall_mem_nil _
  | cons first runs ih =>
    intro run hrun
    obtain ⟨-, h⟩ := h
    rcases mem_cons.1 hrun with rfl | hrun
    · intro next hnext
      rw [mem_def.1 hnext] at h
      exact h.1
    · split at h
      · rw [h.2] at hrun
        exact absurd hrun not_mem_nil
      · exact fun next hnext => h.1.trans (ih h.2 run hrun next hnext)

theorem Covers.not_till {f q len : ℕ} (h : Covers len q (runsOf f runs)) :
    ∀ run ∈ runs, ¬run.Till f q := fun run hrun htill =>
  lt_irrefl q (h.lt_end run (mem_runsOf.2 ⟨hrun, htill.1⟩) q htill.2)

namespace ModuleGraph

variable {graph : ModuleGraph} {entryId : ℕ} {frames rest : List WalkFrame}
  {walk walk' walk₁ : EntryWalk} {f g z q : ℕ} {importer : Option (ℕ × ℕ)}

variable (graph entryId) in
/-- A file whose runs are behind a frame leads to the file that is entered there. -/
def Pending (frames : List WalkFrame) : Prop :=
  frames.Pairwise fun earlier later => ∀ z importer run, earlier = .enter z importer →
    later = .place run → Relation.ReflTransGen (graph.Leads entryId) run.sourceIndex z

theorem pending_enterFile : graph.Pending entryId (graph.enterFile entryId walk z importer).2 := by
  refine pairwise_of_forall_mem_list fun earlier hearlier later hlater => ?_
  rintro other importer' run rfl rfl
  obtain ⟨partIndex, hedge, hne, -⟩ := (enterFile_spec walk z importer).enter _ _ hearlier
  rw [((enterFile_spec walk z importer).place run hlater).2]
  exact .single ⟨partIndex, hedge, hne⟩

/-! ## One file -/

section

variable (hspec : graph.EnterFile entryId walk.seen z frames)
include hspec

section

variable (h : graph.Walks entryId frames walk walk')
include h

section

variable (howned : Owned frames walk)
include howned

/-- A file is entered while what `z` pushed is worked off: the runs of `z` before and after that. -/
theorem EnterFile.walks_split (hz : walk.seen z = true) (hnone : runsOf z walk.runs = [])
    (hloads : graph.loads entryId z = true) {before behind : List WalkFrame}
    (hframes : frames = before ++ .enter g (some (z, q)) :: behind) :
    ∃ walk₁ new, graph.Walks entryId before walk walk₁ ∧
      graph.Walks entryId (.enter g (some (z, q)) :: behind) walk₁ walk' ∧
      Owned before walk ∧ Owned (.enter g (some (z, q)) :: behind) walk₁ ∧
      Chain 0 (runsOf z walk₁.runs) q ∧ walk'.runs = walk₁.runs ++ new ∧
      Covers (graph.file z).parts.length q (runsOf z new) ∧
      (∀ f, f ≠ z → walk₁.seen f = true → runsOf f new = []) ∧
      ∀ f, f ≠ z → runsOf f (placesOf behind) = [] := by
  obtain ⟨hbefore, hbehind⟩ := hspec.split hloads before g q behind hframes
  have hplace : ∀ {run}, run ∈ placesOf before ∨ run ∈ placesOf behind → run.sourceIndex = z := by
    intro run hrun
    refine (hspec.place run ?_).2
    rw [hframes]
    rcases hrun with hrun | hrun
    · exact mem_append_left _ (mem_placesOf.1 hrun)
    · exact mem_append_right _ (mem_cons_of_mem _ (mem_placesOf.1 hrun))
  subst hframes
  obtain ⟨walk₁, h₁, h₂⟩ := walks_append.1 h
  have howned₁ : Owned before walk := fun run hrun => howned run (mem_append_left _ hrun)
  have howned₂ : Owned (.enter g (some (z, q)) :: behind) walk₁ := fun run hrun =>
    h₁.seen_mono (howned run (mem_append_right _ hrun))
  obtain ⟨new₁, hnew₁, hold₁⟩ := h₁.runs howned₁
  obtain ⟨new₂, hnew₂, hold₂⟩ := h₂.runs howned₂
  have hnot : ∀ f, f ≠ z → runsOf f (placesOf behind) = [] := fun f hf =>
    Bundler.runsOf_eq_nil.2 fun run hrun hsource => hf (hsource.symm.trans (hplace (.inr hrun)))
  refine ⟨walk₁, new₂, h₁, h₂, howned₁, howned₂, ?_, hnew₂, ?_, fun f hf hf₁ => ?_, hnot⟩
  · rw [hnew₁, runsOf_append, hnone, nil_append, hold₁ z hz,
      Bundler.runsOf_eq_self.2 fun run hrun => hplace (.inl hrun)]
    exact hbefore
  · rw [hold₂ z (h₁.seen_mono hz)]
    exact (Bundler.runsOf_eq_self.2 fun run hrun => hplace (.inr hrun)).symm ▸ hbehind
  · rw [hold₂ f hf₁]
    exact hnot f hf

/-- A file that `z` leads to from a part is placed before this part. -/
theorem EnterFile.before (hz : walk.seen z = true) (hnone : runsOf z walk.runs = [])
    (hedge : (q, g) ∈ graph.edges entryId z) (hne : g ≠ runtimeIndex) (hgz : g ≠ z) :
    Before (PartRun.Of g) (PartRun.With z q) walk'.runs := by
  cases hloads : graph.loads entryId z with
  | false =>
    obtain ⟨new, hnew, hold⟩ := h.runs howned
    have hlaid := hspec.laidOut
    rw [LaidOut, if_neg (Bool.not_eq_true _ ▸ hloads), hspec.runsOf_eq_self] at hlaid
    have hruns : runsOf z walk'.runs = [] := by
      rw [hnew, runsOf_append, hnone, hold z hz, hlaid]
      rfl
    rw [← append_nil walk'.runs]
    exact before_append (not_with hruns) (forall_mem_nil _)
  | true =>
    cases hg : walk.seen g with
    | true =>
      obtain ⟨new, hnew, hold⟩ := h.runs howned
      rw [hnew]
      refine before_append (not_with hnone) (not_of ?_)
      rw [hold g hg, hspec.runsOf_eq_nil hgz]
    | false =>
      obtain ⟨before, behind, hframes⟩ := append_of_mem (hspec.edge (q, g) hedge hne hg)
      obtain ⟨walk₁, new, h₁, h₂, -, howned₂, hchain, hnew, -, hother, hnot⟩ :=
        hspec.walks_split h howned hz hnone hloads hframes
      cases h₂ with
      | seen hseen h₂ =>
        rw [hnew]
        exact before_append hchain.not_with (not_of (hother g hgz hseen))
      | @enter _ _ _ _ walk₂ _ hseen hpushed h₂ =>
        have hz₁ := h₁.seen_mono hz
        have hz₂ : runsOf z walk₂.runs = runsOf z walk₁.runs :=
          hpushed.runsOf_eq owned_enterFile (seen_enterFile.2 (.inr hz₁))
            ((enterFile_spec walk₁ g _).runsOf_eq_nil hgz.symm)
        have hg₂ : walk₂.seen g = true := hpushed.seen_mono (seen_enterFile.2 (.inl rfl))
        obtain ⟨new₂, hnew₂, hold₂⟩ := h₂.runs (howned₂.enter hpushed)
        rw [hnew₂]
        refine before_append (Chain.not_with ?_) (not_of ?_)
        · rw [hz₂]
          exact hchain
        · rw [hold₂ g hg₂]
          exact hnot g hgz

/-- A file that is entered from a part of `z` is placed after the run that ends there. -/
theorem EnterFile.after (hplaced : Placed walk) (hentered : Entered walk) (hz : walk.seen z = true)
    (hnone : runsOf z walk.runs = []) (hloads : graph.loads entryId z = true)
    (hg : walk.seen g = false) (hmem : (g, some (z, q)) ∈ walk'.entered) :
    Before (PartRun.Till z q) (PartRun.Of g) walk'.runs ∧
      (0 < q → ∃ run ∈ walk'.runs, run.Till z q) := by
  have hnotMem : (g, some (z, q)) ∉ walk.entered := fun hmem =>
    Bool.false_ne_true (hg.symm.trans (hentered _ _ hmem))
  have hz' : walk.seen z ≠ false := fun hz' => Bool.false_ne_true (hz'.symm.trans hz)
  have hframe : .enter g (some (z, q)) ∈ frames := by
    obtain ⟨-, -, hframe | ⟨f, partIndex, himporter, hf, -⟩⟩ :=
      (h.entered hmem).resolve_left hnotMem
    · exact hframe
    · obtain ⟨rfl, -⟩ := Prod.mk.inj (some.inj himporter)
      exact absurd hf hz'
  -- the first frame that enters `g` from the part: the file is not seen when it is reached
  obtain ⟨before, behind, hframes, hfirst⟩ := eq_append_cons_of_mem hframe
  obtain ⟨walk₁, new, h₁, h₂, howned₁, -, hchain, hnew, hcovers, -, -⟩ :=
    hspec.walks_split h howned hz hnone hloads hframes
  have hg₁ : walk₁.seen g = false := by
    rcases h₂.entered hmem with hmem₁ | ⟨hg₁, -⟩
    · obtain ⟨-, -, hframe | ⟨f, partIndex, himporter, hf, -⟩⟩ :=
        (h₁.entered hmem₁).resolve_left hnotMem
      · exact absurd hframe hfirst
      · obtain ⟨rfl, -⟩ := Prod.mk.inj (some.inj himporter)
        exact absurd hf hz'
    · exact hg₁
  rw [hnew]
  refine ⟨before_append (not_of ((h₁.layout howned₁ hplaced).1 g hg₁)) hcovers.not_till,
    fun hq => ?_⟩
  obtain ⟨run, hrun, hend⟩ := hchain.exists_end hq
  obtain ⟨hrun, hsource⟩ := mem_runsOf.1 hrun
  exact ⟨run, mem_append_left _ hrun, hsource, hend⟩

end

end

end

/-! ## All files -/

/-- The walk goes on behind what a file pushed. -/
theorem Walks.enterOne (hseen : walk.seen z = false)
    (hpushed : graph.Walks entryId (graph.enterFile entryId walk z importer).2
      (graph.enterFile entryId walk z importer).1 walk₁) :
    graph.Walks entryId [.enter z importer] walk walk₁ :=
  .enter hseen hpushed (.nil walk₁)

/-- The files that a part leads to are placed before it, if they do not lead back. -/
theorem Walks.before (h : graph.Walks entryId frames walk walk') (howned : Owned frames walk)
    (hplaced : Placed walk) (hpending : graph.Pending entryId frames) (hf : walk.seen f = false)
    (hf' : walk'.seen f = true) (hedge : (q, g) ∈ graph.edges entryId f) (hne : g ≠ runtimeIndex)
    (hback : ¬Relation.ReflTransGen (graph.Leads entryId) g f) :
    Before (PartRun.Of g) (PartRun.With f q) walk'.runs := by
  induction h with
  | nil walk => exact absurd (hf.symm.trans hf') Bool.false_ne_true
  | place h ih => exact ih howned.tail (hplaced.place (howned _ mem_cons_self)) hpending.tail hf hf'
  | seen hseen h ih => exact ih howned.tail hplaced hpending.tail hf hf'
  | @enter z importer rest walk walk₁ walk' hseen hpushed h ihPushed ih =>
    have hone := Walks.enterOne hseen hpushed
    have howned₁ := howned.enter hpushed
    cases hf₁ : walk₁.seen f with
    | false =>
      exact ih howned₁ (hpushed.layout owned_enterFile hplaced.enterFile).1 hpending.tail hf₁ hf'
    | true =>
      have hbefore : Before (PartRun.Of g) (PartRun.With f q) walk₁.runs := by
        rcases eq_or_ne f z with rfl | hfz
        · exact (enterFile_spec walk f importer).before hpushed owned_enterFile
            (seen_enterFile.2 (.inl rfl)) (hplaced f hf) hedge hne fun heq => hback (heq ▸ .refl)
        · exact ihPushed owned_enterFile hplaced.enterFile pending_enterFile
            (unseen_enterFile.2 ⟨hfz, hf⟩) hf₁
      obtain ⟨new, hnew, hold⟩ := h.runs howned₁
      rw [hnew]
      refine hbefore.append (not_of ?_)
      rw [hold g (hone.closed hf hf₁ hedge hne)]
      -- a run of `g` behind `z` would make `g` lead to `z`, and so to `f`
      refine runsOf_eq_nil.2 fun run hrun hsource => hback ?_
      obtain ⟨other, importer', hframe, hleads⟩ := hone.reached hf hf₁
      obtain ⟨rfl, -⟩ := WalkFrame.enter.inj (mem_singleton.1 hframe)
      have hpend := rel_of_pairwise_cons hpending (mem_placesOf.1 hrun) _ _ run rfl rfl
      exact (hsource ▸ hpend).trans hleads

/-- A file that is entered from a part is placed after the run that ends there. -/
theorem Walks.after (h : graph.Walks entryId frames walk walk') (howned : Owned frames walk)
    (hplaced : Placed walk) (hentered : Entered walk)
    (himporters : ∀ g f q, .enter g (some (f, q)) ∈ frames → walk.seen f = true)
    (hloads : graph.loads entryId f = true) (hf : walk.seen f = false) (hg : walk.seen g = false)
    (hmem : (g, some (f, q)) ∈ walk'.entered) :
    Before (PartRun.Till f q) (PartRun.Of g) walk'.runs ∧
      (0 < q → ∃ run ∈ walk'.runs, run.Till f q) := by
  induction h with
  | nil walk => exact absurd (hg.symm.trans (hentered _ _ hmem)) Bool.false_ne_true
  | place h ih =>
    exact ih howned.tail (hplaced.place (howned _ mem_cons_self)) hentered
      (fun g f q hframe => himporters g f q (mem_cons_of_mem _ hframe)) hf hg hmem
  | seen hseen h ih =>
    exact ih howned.tail hplaced hentered
      (fun g f q hframe => himporters g f q (mem_cons_of_mem _ hframe)) hf hg hmem
  | @enter z importer rest walk walk₁ walk' hseen hpushed h ihPushed ih =>
    have hone := Walks.enterOne hseen hpushed
    have howned₁ := howned.enter hpushed
    have hnotMem : (g, some (f, q)) ∉ walk.entered := fun hmem =>
      Bool.false_ne_true (hg.symm.trans (hentered _ _ hmem))
    have hnotFrame : .enter g (some (f, q)) ∉ WalkFrame.enter z importer :: rest := fun hframe =>
      Bool.false_ne_true (hf.symm.trans (himporters g f q hframe))
    rcases h.entered hmem with hmem₁ | ⟨hg₁, -, hfrom⟩
    · obtain ⟨-, -, hframe | ⟨f', partIndex, himporter, -, hf₁⟩⟩ :=
        (hone.entered hmem₁).resolve_left hnotMem
      · exact absurd (mem_cons.2 (.inl (mem_singleton.1 hframe))) hnotFrame
      obtain ⟨rfl, rfl⟩ := Prod.mk.inj (some.inj himporter)
      have hgz : g ≠ z := by
        rintro rfl
        rcases hpushed.entered hmem₁ with hmem | ⟨hg', -⟩
        · rw [enterFile_entered, mem_append, mem_singleton] at hmem
          rcases hmem with hmem | heq
          · exact hnotMem hmem
          · obtain ⟨-, rfl⟩ := Prod.mk.inj heq
            exact hnotFrame mem_cons_self
        · exact (unseen_enterFile.1 hg').1 rfl
      have hafter : Before (PartRun.Till f q) (PartRun.Of g) walk₁.runs ∧
          (0 < q → ∃ run ∈ walk₁.runs, run.Till f q) := by
        rcases eq_or_ne f z with rfl | hfz
        · exact (enterFile_spec walk f importer).after hpushed owned_enterFile hplaced.enterFile
            hentered.enterFile (seen_enterFile.2 (.inl rfl)) (hplaced f hf) hloads
            (unseen_enterFile.2 ⟨hgz, hg⟩) hmem₁
        · refine ihPushed owned_enterFile hplaced.enterFile hentered.enterFile ?_
            (unseen_enterFile.2 ⟨hfz, hf⟩) (unseen_enterFile.2 ⟨hgz, hg⟩) hmem₁
          intro other f' q' hframe
          obtain ⟨_, -, -, -, himporter⟩ := (enterFile_spec walk z importer).enter _ _ hframe
          obtain ⟨rfl, -⟩ := Prod.mk.inj (some.inj himporter)
          exact seen_enterFile.2 (.inl rfl)
      obtain ⟨new, hnew, hold⟩ := h.runs howned₁
      rw [hnew]
      refine ⟨hafter.1.append (not_till ?_), fun hq => ?_⟩
      · rw [hold f hf₁, howned.tail.runsOf_eq_nil hf]
      · obtain ⟨run, hrun, htill⟩ := hafter.2 hq
        exact ⟨run, mem_append_left _ hrun, htill⟩
    · rcases hfrom with hframe | ⟨f', partIndex, himporter, hf₁, -⟩
      · exact absurd (mem_cons_of_mem _ hframe) hnotFrame
      obtain ⟨rfl, rfl⟩ := Prod.mk.inj (some.inj himporter)
      exact ih howned₁ (hpushed.layout owned_enterFile hplaced.enterFile).1
        (hone.entered_seen hentered)
        (fun g f q hframe => hone.seen_mono (himporters g f q (mem_cons_of_mem _ hframe)))
        hf₁ hg₁ hmem

/-! ## The walk of a chunk -/

/-- The walk starts at files that are not there for another one. -/
def rootFrames (roots : List ℕ) : List WalkFrame := roots.map fun root => .enter root none

theorem placesOf_rootFrames (roots : List ℕ) : ∀ run, .place run ∉ rootFrames roots := by
  intro run hrun
  obtain ⟨root, -, hframe⟩ := mem_map.1 hrun
  exact nomatch hframe

/-- The roots are walked one after the other. -/
theorem Walks.runWalks (roots : List ℕ) (h : graph.Walks entryId (rootFrames roots) walk walk') :
    ∀ᶠ fuel in Filter.atTop, graph.runWalks entryId fuel roots walk = some walk' := by
  induction roots generalizing walk with
  | nil =>
    cases h
    exact .of_forall fun _ => rfl
  | cons root roots ih =>
    cases h with
    | seen hseen h =>
      filter_upwards [ih h] with fuel hfuel
      rw [ModuleGraph.runWalks, foldlM_cons, if_pos hseen]
      exact hfuel
    | enter hseen hpushed h =>
      filter_upwards [ih h, (Walks.enterOne hseen hpushed).eventually] with fuel hfuel hloop
      rw [ModuleGraph.runWalks, foldlM_cons, if_neg (Bool.not_eq_true _ ▸ hseen), hloop]
      exact hfuel

end ModuleGraph

namespace EntryChunk

variable {graph : ModuleGraph} (chunk : EntryChunk graph)

/-- The walk gets to the file. -/
def Reaches (f : ℕ) : Prop :=
  ∃ root ∈ chunk.roots, Relation.ReflTransGen (graph.Leads chunk.entryId) root f

/-- The chunk is laid out: the files of it and the ones that are reached, if the load runs them,
each once and part after part, and every part after what it imports. -/
structure LaysOut (walk : EntryWalk) : Prop where
  covers : ∀ f, chunk.Reaches f → graph.loads chunk.entryId f = true →
    Covers (graph.file f).parts.length 0 (runsOf f walk.runs)
  files : ∀ f ∈ chunk.files, f ≠ runtimeIndex →
    Covers (graph.file f).parts.length 0 (runsOf f walk.runs)
  only : ∀ f, runsOf f walk.runs ≠ [] → chunk.Reaches f ∧ graph.loads chunk.entryId f = true
  entered : (walk.entered.map Prod.fst).Nodup
  before : ∀ f partIndex g, (graph.file f).ImportsBy partIndex g → g ≠ runtimeIndex →
    ¬Relation.ReflTransGen (graph.Leads chunk.entryId) g f →
    Before (PartRun.Of g) (PartRun.With f ((graph.file f).position partIndex)) walk.runs
  after : ∀ f partIndex g, (graph.file f).ImportsBy partIndex g →
    graph.loads chunk.entryId f = true →
    (g, some (f, (graph.file f).position partIndex)) ∈ walk.entered →
    Before (PartRun.Till f ((graph.file f).position partIndex)) (PartRun.Of g) walk.runs ∧
      ∃ run ∈ walk.runs, run.Till f ((graph.file f).position partIndex)

theorem roots_lt {z : ℕ} {importer : Option (ℕ × ℕ)}
    (h : .enter z importer ∈ ModuleGraph.rootFrames chunk.roots) : z < graph.files.length := by
  obtain ⟨root, hroot, hframe⟩ := mem_map.1 h
  obtain ⟨rfl, -⟩ := WalkFrame.enter.inj hframe
  rcases mem_cons.1 hroot with rfl | hroot
  · exact chunk.root_lt
  · exact chunk.files_lt _ (mem_of_mem_filter hroot)

variable {chunk} in
/-- A file that is reached is seen in the end. -/
theorem seen_of_leads {walk : EntryWalk}
    (h : graph.Walks chunk.entryId (ModuleGraph.rootFrames chunk.roots) .empty walk) {z f : ℕ}
    (hleads : Relation.ReflTransGen (graph.Leads chunk.entryId) z f) (hz : walk.seen z = true) :
    walk.seen f = true := by
  induction hleads with
  | refl => exact hz
  | tail _ hlead ih =>
    obtain ⟨partIndex, hedge, hne⟩ := hlead
    exact h.closed rfl ih hedge hne

variable {chunk} in
theorem laysOut {walk : EntryWalk}
    (h : graph.Walks chunk.entryId (ModuleGraph.rootFrames chunk.roots) .empty walk) :
    chunk.LaysOut walk := by
  have howned : ModuleGraph.Owned (ModuleGraph.rootFrames chunk.roots) .empty :=
    fun run hrun => absurd hrun (ModuleGraph.placesOf_rootFrames _ run)
  have hentered : ModuleGraph.Entered .empty := fun _ _ hmem => absurd hmem not_mem_nil
  have hpending : graph.Pending chunk.entryId (ModuleGraph.rootFrames chunk.roots) :=
    pairwise_of_forall_mem_list fun _ _ later hlater _ _ run _ hrun =>
      absurd (hrun ▸ hlater) (ModuleGraph.placesOf_rootFrames _ run)
  have himporters : ∀ g f q, .enter g (some (f, q)) ∈ ModuleGraph.rootFrames chunk.roots →
      EntryWalk.empty.seen f = true := by
    intro g f q hframe
    obtain ⟨root, -, hroot⟩ := mem_map.1 hframe
    exact nomatch hroot
  obtain ⟨hplaced, hlaid⟩ := h.layout howned fun _ _ => rfl
  have hseen : ∀ f, chunk.Reaches f → walk.seen f = true := by
    rintro f ⟨root, hroot, hleads⟩
    exact seen_of_leads h hleads (h.seen_frames (mem_map.2 ⟨root, hroot, rfl⟩))
  have hcovers : ∀ f, chunk.Reaches f → graph.loads chunk.entryId f = true →
      Covers (graph.file f).parts.length 0 (runsOf f walk.runs) := by
    intro f hreaches hloads
    have := hlaid f rfl (hseen f hreaches)
    rwa [ModuleGraph.LaidOut, if_pos hloads] at this
  refine ⟨hcovers, fun f hf hne => ?_, fun f hruns => ?_, h.entered_nodup hentered nodup_nil,
    fun f partIndex g himports hne hback => ?_, fun f partIndex g himports hloads hmem => ?_⟩
  · refine hcovers f ⟨f, mem_cons_of_mem _ (mem_filter.2 ⟨hf, ?_⟩), .refl⟩
      (chunk.files_load f hf)
    exact decide_eq_true hne
  · have hf : walk.seen f = true := by
      cases hf : walk.seen f with
      | true => rfl
      | false => exact absurd (hplaced f hf) hruns
    obtain ⟨z, importer, hframe, hleads⟩ := h.reached rfl hf
    obtain ⟨root, hroot, heq⟩ := mem_map.1 hframe
    obtain ⟨rfl, -⟩ := WalkFrame.enter.inj heq
    refine ⟨⟨root, hroot, hleads⟩, Bool.of_not_eq_false fun hloads => hruns ?_⟩
    have := hlaid f rfl hf
    rwa [ModuleGraph.LaidOut, if_neg (Bool.not_eq_true _ ▸ hloads)] at this
  · cases hf : walk.seen f with
    | true => exact h.before howned (fun _ _ => rfl) hpending rfl hf himports.mem_edges hne hback
    | false =>
      rw [← append_nil walk.runs]
      exact before_append (not_with (hplaced f hf)) (forall_mem_nil _)
  · obtain ⟨hbefore, hexists⟩ :=
      h.after howned (fun _ _ => rfl) hentered himporters hloads rfl rfl hmem
    obtain ⟨-, part, hpart, -⟩ := himports
    exact ⟨hbefore, hexists (ModuleFile.position_mod (List.getElem?_eq_some_iff.1 hpart).1).1⟩

/-- The walk of a chunk ends, and lays out the chunk. -/
theorem run_laysOut : ∃ walk, (∀ᶠ fuel in Filter.atTop, chunk.run fuel = some walk) ∧
    chunk.LaysOut walk := by
  have hexists : ∃ walk,
      graph.Walks chunk.entryId (ModuleGraph.rootFrames chunk.roots) .empty walk :=
    ModuleGraph.exists_walks _ .empty _ (lt_succ_self _) fun _ _ => chunk.roots_lt
  obtain ⟨walk, h⟩ := hexists
  exact ⟨walk, h.runWalks, laysOut h⟩

end EntryChunk

/-! ## What imports in the namespace export part do -/

/-- The second file has two parts: the namespace export part, which imports the fourth file, and a
part that imports the third one. -/
def namespaceGraph : ModuleGraph where
  files := [
    ⟨false, [], [⟨[], true⟩], true, [0]⟩,
    ⟨false, [⟨.stmt, some 3⟩, ⟨.stmt, some 2⟩], [⟨[0], true⟩, ⟨[1], true⟩], true, [0]⟩,
    ⟨false, [], [⟨[], true⟩], true, [0]⟩,
    ⟨false, [], [⟨[], true⟩], true, [0]⟩]
  targets_lt := by decide

def namespaceChunk : EntryChunk namespaceGraph where
  entryId := 0
  root := 1
  files := [0, 1, 2, 3]
  root_lt := by decide
  files_lt := by decide
  files_load := by decide

/-- The runtime is not placed, and the fourth file comes after the part that imports it. -/
theorem namespaceChunk_run : ∃ walk, namespaceChunk.run 20 = some walk ∧
    (runtimeIndex ∈ namespaceChunk.files ∧ runsOf runtimeIndex walk.runs = []) ∧
    ((namespaceGraph.file 1).ImportsBy 0 3 ∧
      ¬Relation.ReflTransGen (namespaceGraph.Leads 0) 3 1 ∧
      ¬Before (PartRun.Of 3) (PartRun.With 1 0) walk.runs) := by
  refine ⟨_, rfl, ⟨by decide, rfl⟩, ?_, ?_, ?_⟩
  · exact ⟨rfl, _, rfl, 0, by decide, _, rfl, rfl, rfl⟩
  · intro h
    rcases Relation.ReflTransGen.cases_head h with h | ⟨other, ⟨partIndex, hedge, -⟩, -⟩
    · exact absurd h (by decide)
    · exact absurd (hedge : (partIndex, other) ∈ []) not_mem_nil
  · intro h
    have hlater := (pairwise_cons.1 h).1 ⟨3, 0, none⟩ (by decide)
    exact hlater ⟨rfl, le_refl 0, by decide⟩ rfl

end Soup.Bundler
