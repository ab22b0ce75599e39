import Soup.Bundler.Pushes

/-!
# What a walk places

The runs of a file that is seen are those of the frames; a file that the walk enters is placed in
full, from its first part to its last one (`Walks.layout`). The files that are entered are those
that the frames lead to (`Walks.reached`, `Walks.closed`).
-/

namespace Soup.Bundler

open List

/-- The runs of a file. -/
def runsOf (f : ℕ) (runs : List PartRun) :
    List PartRun := runs.filter fun run => run.sourceIndex = f

theorem mem_runsOf {f : ℕ} {runs : List PartRun} {run : PartRun} :
    run ∈ runsOf f runs ↔ run ∈ runs ∧ run.sourceIndex = f := by
  rw [runsOf, mem_filter, decide_eq_true_eq]

theorem runsOf_append (f : ℕ) (runs more : List PartRun) :
    runsOf f (runs ++ more) = runsOf f runs ++ runsOf f more := filter_append ..

theorem runsOf_eq_nil {f : ℕ} {runs : List PartRun} :
    runsOf f runs = [] ↔ ∀ run ∈ runs, run.sourceIndex ≠ f := by
  rw [runsOf, filter_eq_nil_iff]
  exact forall₂_congr fun run _ => not_congr decide_eq_true_iff

theorem runsOf_eq_self {f : ℕ} {runs : List PartRun} :
    runsOf f runs = runs ↔ ∀ run ∈ runs, run.sourceIndex = f := by
  rw [runsOf, filter_eq_self]
  exact forall₂_congr fun run _ => decide_eq_true_iff

namespace ModuleGraph

variable {graph : ModuleGraph} {entryId : ℕ} {frames rest : List WalkFrame}
  {walk walk' walk₁ : EntryWalk} {f g z q : ℕ} {importer : Option (ℕ × ℕ)}

/-- The runs of the frames are of files that are seen. -/
def Owned (frames : List WalkFrame) (walk : EntryWalk) : Prop :=
  ∀ run, .place run ∈ frames → walk.seen run.sourceIndex = true

/-- A file that is not seen has no run yet. -/
def Placed (walk : EntryWalk) : Prop := ∀ f, walk.seen f = false → runsOf f walk.runs = []

variable (graph entryId) in
/-- A file is placed in full if the load runs it, and otherwise not at all. -/
def LaidOut (f : ℕ) (runs : List PartRun) : Prop :=
  if graph.loads entryId f then Covers (graph.file f).parts.length 0 (runsOf f runs)
  else runsOf f runs = []

theorem Owned.tail {frame : WalkFrame} (h : Owned (frame :: rest) walk) : Owned rest walk :=
  fun run hrun => h run (mem_cons_of_mem _ hrun)

theorem Owned.runsOf_eq_nil (h : Owned frames walk) (hf : walk.seen f = false) :
    runsOf f (placesOf frames) = [] :=
  Bundler.runsOf_eq_nil.2 fun run hrun hsource =>
    Bool.false_ne_true (hf.symm.trans (hsource ▸ h run (mem_placesOf.1 hrun)))

theorem owned_enterFile : Owned (graph.enterFile entryId walk z importer).2
    (graph.enterFile entryId walk z importer).1 :=
  fun run hrun => seen_enterFile.2 (.inl ((enterFile_spec walk z importer).place run hrun).2)

theorem Owned.enter (h : Owned (.enter z importer :: rest) walk)
    (hpushed : graph.Walks entryId (graph.enterFile entryId walk z importer).2
      (graph.enterFile entryId walk z importer).1 walk₁) : Owned rest walk₁ :=
  fun run hrun => hpushed.seen_mono (seen_enterFile.2 (.inr (h.tail run hrun)))

variable {seen : ℕ → Bool}

section

variable (h : graph.EnterFile entryId seen z frames)
include h

/-- What a file pushes places nothing of another one. -/
theorem EnterFile.runsOf_eq_nil (hne : f ≠ z) : runsOf f (placesOf frames) = [] :=
  Bundler.runsOf_eq_nil.2 fun run hrun hsource =>
    hne (hsource.symm.trans (h.place run (mem_placesOf.1 hrun)).2)

theorem EnterFile.runsOf_eq_self : runsOf z (placesOf frames) = placesOf frames :=
  Bundler.runsOf_eq_self.2 fun run hrun => (h.place run (mem_placesOf.1 hrun)).2

theorem EnterFile.laidOut : graph.LaidOut entryId z (placesOf frames) := by
  rw [LaidOut, h.runsOf_eq_self]
  split
  · exact h.covers ‹_›
  next hloads =>
    refine eq_nil_iff_forall_not_mem.2 fun run hrun => hloads ?_
    exact (h.place run (mem_placesOf.1 hrun)).1

end

section

variable (h : graph.Walks entryId frames walk walk')
include h

/-- The walk places, of the files that are seen, what the frames do. -/
theorem Walks.runs (howned : Owned frames walk) : ∃ new, walk'.runs = walk.runs ++ new ∧
      ∀ f, walk.seen f = true → runsOf f new = runsOf f (placesOf frames) := by
  induction h with
  | nil walk => exact ⟨[], (append_nil _).symm, fun _ _ => rfl⟩
  | @place run rest walk walk' h ih =>
    obtain ⟨new, hnew, hold⟩ := ih howned.tail
    refine ⟨run :: new, hnew.trans (append_assoc ..), fun f hf => ?_⟩
    rw [← singleton_append, runsOf_append, hold f hf, ← runsOf_append]
    rfl
  | seen hseen h ih => exact ih howned.tail
  | @enter z importer rest walk walk₁ walk' hseen hpushed h ihPushed ih =>
    obtain ⟨new₁, hnew₁, hold₁⟩ := ihPushed owned_enterFile
    have hmono : ∀ {f}, walk.seen f = true → walk₁.seen f = true :=
      fun hf => hpushed.seen_mono (seen_enterFile.2 (.inr hf))
    obtain ⟨new₂, hnew₂, hold₂⟩ := ih (howned.enter hpushed)
    refine ⟨new₁ ++ new₂, ?_, fun f hf => ?_⟩
    · rw [hnew₂, hnew₁, enterFile_runs, append_assoc]
    · have hne : f ≠ z := fun h => Bool.false_ne_true (hseen.symm.trans (h ▸ hf))
      rw [runsOf_append, hold₂ f (hmono hf), hold₁ f (seen_enterFile.2 (.inr hf)),
        (enterFile_spec walk z importer).runsOf_eq_nil hne]
      rfl

/-- A walk goes on, and places nothing more of a file that is not in the frames. -/
theorem Walks.runsOf_eq (howned : Owned frames walk)
    (hseen : walk.seen f = true) (hf : runsOf f (placesOf frames) = []) :
    runsOf f walk'.runs = runsOf f walk.runs := by
  obtain ⟨new, hnew, hold⟩ := h.runs howned
  rw [hnew, runsOf_append, hold f hseen, hf, append_nil]

omit h in
theorem Placed.enterFile (h : Placed walk) : Placed (graph.enterFile entryId walk z importer).1 :=
  fun f hf => h f (unseen_enterFile.1 hf).2

omit h in
theorem Placed.place {run : PartRun} (h : Placed walk) (hrun : walk.seen run.sourceIndex = true) :
    Placed (placeRun walk run) := by
  intro f hf
  have hne : run.sourceIndex ≠ f := fun heq => Bool.false_ne_true (hf.symm.trans (heq ▸ hrun))
  rw [placeRun, runsOf_append, h f hf, runsOf_eq_nil.2 fun other hother => by
    rwa [mem_singleton.1 hother]]
  rfl

/-- A file that is entered in a walk is placed as a whole, and the others are not. -/
theorem Walks.layout (howned : Owned frames walk)
    (hplaced : Placed walk) : Placed walk' ∧ ∀ f, walk.seen f = false → walk'.seen f = true →
      graph.LaidOut entryId f walk'.runs := by
  induction h with
  | nil walk => exact ⟨hplaced, fun f hf hf' => absurd (hf.symm.trans hf') Bool.false_ne_true⟩
  | @place run rest walk walk' h ih =>
    exact ih howned.tail (hplaced.place (howned run mem_cons_self))
  | seen hseen h ih => exact ih howned.tail hplaced
  | @enter z importer rest walk walk₁ walk' hseen hpushed h ihPushed ih =>
    have howned₁ : Owned rest walk₁ := howned.enter hpushed
    obtain ⟨hplaced₁, hlaid₁⟩ := ihPushed owned_enterFile hplaced.enterFile
    obtain ⟨hplaced', hlaid⟩ := ih howned₁ hplaced₁
    refine ⟨hplaced', fun f hf hf' => ?_⟩
    cases hf₁ : walk₁.seen f with
    | false => exact hlaid f hf₁ hf'
    | true =>
      have heq : runsOf f walk'.runs = runsOf f walk₁.runs :=
        h.runsOf_eq howned₁ hf₁ (howned.tail.runsOf_eq_nil hf)
      rw [LaidOut, heq]
      rcases eq_or_ne f z with rfl | hne
      · obtain ⟨new, hnew, hold⟩ := hpushed.runs owned_enterFile
        rw [hnew, enterFile_runs, runsOf_append, hplaced f hf, nil_append,
          hold f (seen_enterFile.2 (.inl rfl))]
        exact (enterFile_spec walk f importer).laidOut
      · exact hlaid₁ f (unseen_enterFile.2 ⟨hne, hf⟩) hf₁

/-! ## The files that are entered -/

theorem Walks.seen_frames (hframe : .enter z importer ∈ frames) : walk'.seen z = true := by
  induction h with
  | nil walk => exact absurd hframe not_mem_nil
  | place h ih => exact ih ((mem_cons.1 hframe).resolve_left nofun)
  | seen hseen h ih =>
    rcases mem_cons.1 hframe with heq | hframe
    · exact h.seen_mono ((WalkFrame.enter.inj heq).1 ▸ hseen)
    · exact ih hframe
  | enter hseen hpushed h ihPushed ih =>
    rcases mem_cons.1 hframe with heq | hframe
    · exact h.seen_mono (hpushed.seen_mono (seen_enterFile.2 (.inl (WalkFrame.enter.inj heq).1)))
    · exact ih hframe

/-- A file that is entered leads to files that are seen. -/
theorem Walks.closed (hf : walk.seen f = false)
    (hf' : walk'.seen f = true) (hedge : (q, g) ∈ graph.edges entryId f) (hne : g ≠ runtimeIndex) :
    walk'.seen g = true := by
  induction h with
  | nil walk => exact absurd (hf.symm.trans hf') Bool.false_ne_true
  | place h ih => exact ih hf hf'
  | seen hseen h ih => exact ih hf hf'
  | @enter z importer rest walk walk₁ walk' hseen hpushed h ihPushed ih =>
    cases hf₁ : walk₁.seen f with
    | false => exact ih hf₁ hf'
    | true =>
      refine h.seen_mono ?_
      rcases eq_or_ne f z with rfl | hfz
      · cases hg : (graph.enterFile entryId walk f importer).1.seen g with
        | true => exact hpushed.seen_mono hg
        | false => exact hpushed.seen_frames ((enterFile_spec walk f importer).edge
          (q, g) hedge hne hg)
      · exact ihPushed (unseen_enterFile.2 ⟨hfz, hf⟩) hf₁

/-- A file that is entered is reached from one of the frames. -/
theorem Walks.reached (hf : walk.seen f = false) (hf' : walk'.seen f = true) :
    ∃ z importer, .enter z importer ∈ frames ∧
      Relation.ReflTransGen (graph.Leads entryId) z f := by
  induction h with
  | nil walk => exact absurd (hf.symm.trans hf') Bool.false_ne_true
  | place h ih =>
    obtain ⟨z, importer, hframe, hleads⟩ := ih hf hf'
    exact ⟨z, importer, mem_cons_of_mem _ hframe, hleads⟩
  | seen hseen h ih =>
    obtain ⟨z, importer, hframe, hleads⟩ := ih hf hf'
    exact ⟨z, importer, mem_cons_of_mem _ hframe, hleads⟩
  | @enter z importer rest walk walk₁ walk' hseen hpushed h ihPushed ih =>
    cases hf₁ : walk₁.seen f with
    | false =>
      obtain ⟨other, importer', hframe, hleads⟩ := ih hf₁ hf'
      exact ⟨other, importer', mem_cons_of_mem _ hframe, hleads⟩
    | true =>
      refine ⟨z, importer, mem_cons_self, ?_⟩
      rcases eq_or_ne f z with rfl | hfz
      · exact .refl
      · obtain ⟨other, importer', hframe, hleads⟩ := ihPushed (unseen_enterFile.2 ⟨hfz, hf⟩) hf₁
        obtain ⟨partIndex, hedge, hne, -⟩ := (enterFile_spec walk z importer).enter _ _ hframe
        exact .head ⟨partIndex, hedge, hne⟩ hleads

/-- A file is entered from a frame, or from a file that is entered itself. -/
theorem Walks.entered (hmem : (g, importer) ∈ walk'.entered) : (g, importer) ∈ walk.entered ∨
      walk.seen g = false ∧ walk'.seen g = true ∧ (.enter g importer ∈ frames ∨
        ∃ f partIndex, importer = some (f, partIndex) ∧ walk.seen f = false ∧
          walk'.seen f = true) := by
  induction h with
  | nil walk => exact .inl hmem
  | place h ih =>
    exact (ih hmem).imp_right fun ⟨hg, hg', hfrom⟩ =>
      ⟨hg, hg', hfrom.imp_left (mem_cons_of_mem _)⟩
  | seen hseen h ih =>
    exact (ih hmem).imp_right fun ⟨hg, hg', hfrom⟩ =>
      ⟨hg, hg', hfrom.imp_left (mem_cons_of_mem _)⟩
  | @enter z importer' rest walk walk₁ walk' hseen hpushed h ihPushed ih =>
    have hz : walk₁.seen z = true := hpushed.seen_mono (seen_enterFile.2 (.inl rfl))
    have hunseen : ∀ {f}, walk₁.seen f = false → walk.seen f = false :=
      fun hf => (unseen_enterFile.1 (hpushed.unseen hf)).2
    rcases ih hmem with hmem₁ | ⟨hg, hg', hfrom⟩
    · rcases ihPushed hmem₁ with hmem | ⟨hg, hg', hframe | ⟨f, partIndex, rfl, hf, hf'⟩⟩
      · rw [enterFile_entered, mem_append, mem_singleton] at hmem
        rcases hmem with hmem | heq
        · exact .inl hmem
        · obtain ⟨rfl, rfl⟩ := Prod.mk.inj heq
          exact .inr ⟨hseen, h.seen_mono hz, .inl mem_cons_self⟩
      · obtain ⟨partIndex, -, -, -, rfl⟩ := (enterFile_spec walk z importer').enter _ _ hframe
        exact .inr ⟨(unseen_enterFile.1 hg).2, h.seen_mono hg',
          .inr ⟨z, partIndex, rfl, hseen, h.seen_mono hz⟩⟩
      · exact .inr ⟨(unseen_enterFile.1 hg).2, h.seen_mono hg',
          .inr ⟨f, partIndex, rfl, (unseen_enterFile.1 hf).2, h.seen_mono hf'⟩⟩
    · refine .inr ⟨hunseen hg, hg', hfrom.imp (mem_cons_of_mem _) ?_⟩
      rintro ⟨f, partIndex, rfl, hf, hf'⟩
      exact ⟨f, partIndex, rfl, hunseen hf, hf'⟩

end

/-- What has been entered is seen. -/
def Entered (walk : EntryWalk) : Prop :=
  ∀ g importer, (g, importer) ∈ walk.entered → walk.seen g = true

theorem Entered.enterFile (h : Entered walk) :
    Entered (graph.enterFile entryId walk z importer).1 := by
  intro g importer' hmem
  rw [enterFile_entered, mem_append, mem_singleton] at hmem
  rcases hmem with hmem | heq
  · exact seen_enterFile.2 (.inr (h g importer' hmem))
  · exact seen_enterFile.2 (.inl (Prod.mk.inj heq).1)

theorem Walks.entered_seen (h : graph.Walks entryId frames walk walk') (hentered : Entered walk) :
    Entered walk' := by
  intro g importer hmem
  rcases h.entered hmem with hmem | ⟨-, hseen, -⟩
  · exact h.seen_mono (hentered g importer hmem)
  · exact hseen

/-- A file is entered once. -/
theorem Walks.entered_nodup (h : graph.Walks entryId frames walk walk') (hentered : Entered walk)
    (hnodup : (walk.entered.map Prod.fst).Nodup) : (walk'.entered.map Prod.fst).Nodup := by
  induction h with
  | nil walk => exact hnodup
  | place h ih => exact ih hentered hnodup
  | seen hseen h ih => exact ih hentered hnodup
  | @enter z importer rest walk walk₁ walk' hseen hpushed h ihPushed ih =>
    refine ih (hpushed.entered_seen hentered.enterFile) (ihPushed hentered.enterFile ?_)
    rw [enterFile_entered, map_append]
    refine nodup_append.2 ⟨hnodup, nodup_singleton z, ?_⟩
    rintro f hf g hg rfl
    obtain ⟨⟨f, importer'⟩, hmem, rfl⟩ := mem_map.1 hf
    obtain rfl : f = z := mem_singleton.1 hg
    exact Bool.false_ne_true (hseen.symm.trans (hentered f importer' hmem))

end ModuleGraph

end Soup.Bundler
