import Mathlib.Data.Finset.Card
import Mathlib.Data.List.Flatten
import Mathlib.Data.List.Range
import Soup.Bundler.EntryWalk

/-!
# What a file pushes

The runs that a file pushes follow each other (`Chain`), and the frame of an import stands between
the runs of the parts before the one that imports and the runs from this part on (`Pushes.split`).
-/

namespace Soup.Bundler

open List Option Function

/-! ## Runs one behind the other -/

/-- The runs go from a part up to a part. -/
def Chain : ℕ → List PartRun → ℕ → Prop
  | start, [], stop => start = stop
  | start, run :: runs, stop =>
    run.begin = start ∧ ∃ next, run.end = some next ∧ start < next ∧ Chain next runs stop

variable {runs : List PartRun}

theorem Chain.snoc {z start mid stop : ℕ} (h : Chain start runs mid)
    (hlt : mid < stop) : Chain start (runs ++ [⟨z, mid, some stop⟩]) stop := by
  induction runs generalizing start with
  | nil =>
    obtain rfl : start = mid := h
    exact ⟨rfl, stop, rfl, hlt, rfl⟩
  | cons run runs ih =>
    obtain ⟨hbegin, next, hend, hnext, hrest⟩ := h
    exact ⟨hbegin, next, hend, hnext, ih hrest⟩

variable {start stop : ℕ}

section

variable (h : Chain start runs stop)
include h

theorem Chain.le : start ≤ stop := by
  induction runs generalizing start with
  | nil => exact le_of_eq h
  | cons run runs ih =>
    obtain ⟨-, next, -, hnext, hrest⟩ := h
    exact (le_of_lt hnext).trans (ih hrest)

/-- A run of a chain is between its ends. -/
theorem Chain.mem {run : PartRun}
    (hrun : run ∈ runs) : start ≤ run.begin ∧ ∃ next, run.end = some next ∧ next ≤ stop := by
  induction runs generalizing start with
  | nil => exact absurd hrun not_mem_nil
  | cons first runs ih =>
    obtain ⟨hbegin, next, hend, hnext, hrest⟩ := h
    rcases mem_cons.1 hrun with rfl | hrun
    · exact ⟨le_of_eq hbegin.symm, next, hend, hrest.le⟩
    · obtain ⟨hle, hstop⟩ := ih hrest hrun
      exact ⟨(le_of_lt hnext).trans hle, hstop⟩

/-- The last run of a chain ends where the chain does. -/
theorem Chain.exists_end
    (hlt : start < stop) : ∃ run ∈ runs, run.end = some stop := by
  induction runs generalizing start with
  | nil => exact absurd (h : start = stop) (ne_of_lt hlt)
  | cons run runs ih =>
    obtain ⟨-, next, hend, -, hrest⟩ := h
    rcases eq_or_lt_of_le hrest.le with rfl | hnext
    · exact ⟨run, mem_cons_self, hend⟩
    · obtain ⟨last, hlast, hstop⟩ := ih hrest hnext
      exact ⟨last, mem_cons_of_mem _ hlast, hstop⟩

end

/-- The runs of a file with `len` parts: from its first part to its last one, one behind the other.
-/
def Covers (len : ℕ) : ℕ → List PartRun → Prop
  | _, [] => False
  | start, run :: runs =>
    run.begin = start ∧ match run.end with
      | none => start ≤ len ∧ runs = []
      | some next => start < next ∧ Covers len next runs

theorem Chain.covers {len z start stop : ℕ} (h : Chain start runs stop)
    (hle : stop ≤ len) : Covers len start (runs ++ [⟨z, stop, none⟩]) := by
  induction runs generalizing start with
  | nil =>
    obtain rfl : start = stop := h
    exact ⟨rfl, hle, rfl⟩
  | cons run runs ih =>
    obtain ⟨hbegin, next, hend, hnext, hrest⟩ := h
    rw [cons_append, Covers, hend]
    exact ⟨hbegin, hnext, ih hrest⟩

/-! ## Frames -/

def WalkFrame.run? : WalkFrame → Option PartRun
  | .place run => some run
  | .enter _ _ => none

/-- The runs that some frames place. -/
def placesOf (frames : List WalkFrame) : List PartRun := frames.filterMap WalkFrame.run?

theorem mem_placesOf {frames : List WalkFrame} {run : PartRun} :
    run ∈ placesOf frames ↔ .place run ∈ frames := by
  rw [placesOf, mem_filterMap]
  constructor
  · rintro ⟨frame, hframe, hrun⟩
    cases frame with
    | enter z importer => exact nomatch hrun
    | place other => exact some.inj hrun ▸ hframe
  · exact fun h => ⟨.place run, h, rfl⟩

theorem placesOf_append (frames rest : List WalkFrame) :
    placesOf (frames ++ rest) = placesOf frames ++ placesOf rest := filterMap_append

/-- Where one more frame is cut. -/
theorem snoc_eq_append {α : Type*} {xs before behind : List α} {x y : α}
    (h : xs ++ [x] = before ++ y :: behind) :
    before = xs ∧ y = x ∧ behind = [] ∨ ∃ ys, behind = ys ++ [x] ∧ xs = before ++ y :: ys := by
  rcases eq_nil_or_concat behind with rfl | ⟨ys, z, rfl⟩
  · obtain ⟨hxs, hx⟩ := append_inj' h rfl
    exact .inl ⟨hxs.symm, (singleton_inj.1 hx).symm, rfl⟩
  · rw [concat_eq_append] at h ⊢
    have h' : xs ++ [x] = (before ++ y :: ys) ++ [z] := by rw [h, List.append_assoc]; rfl
    obtain ⟨hxs, hx⟩ := append_inj' h' rfl
    exact .inr ⟨ys, by rw [singleton_inj.1 hx], hxs⟩

namespace ModuleGraph

variable (graph : ModuleGraph) (entryId : ℕ)

/-- What is pushed for some edges of the file `z`, up to the part `bound`. -/
structure Pushes (walk : EntryWalk) (z bound : ℕ) (edges : List (ℕ × ℕ)) (pushed : Pushed) :
    Prop where
  begin_le : pushed.begin ≤ bound
  place : ∀ run, .place run ∈ pushed.frames → graph.loads entryId z = true ∧ run.sourceIndex = z
  chain : Chain 0 (placesOf pushed.frames) pushed.begin
  enter : ∀ other importer, .enter other importer ∈ pushed.frames → ∃ partIndex,
    (partIndex, other) ∈ edges ∧ other ≠ runtimeIndex ∧ walk.seen other = false ∧
    importer = some (z, partIndex)
  edge : ∀ edge ∈ edges, edge.2 ≠ runtimeIndex → walk.seen edge.2 = false →
    .enter edge.2 (some (z, edge.1)) ∈ pushed.frames
  split : graph.loads entryId z = true → ∀ before other partIndex behind,
    pushed.frames = before ++ WalkFrame.enter other (some (z, partIndex)) :: behind →
    Chain 0 (placesOf before) partIndex ∧ Chain partIndex (placesOf behind) pushed.begin

variable {graph entryId} {walk : EntryWalk} {z bound : ℕ} {edges : List (ℕ × ℕ)} {pushed : Pushed}

theorem pushes_nil (hasCycle : Bool) : graph.Pushes entryId walk z bound [] ⟨0, [], hasCycle⟩ :=
  ⟨Nat.zero_le _, nofun, rfl, nofun, nofun, fun _ before _ _ _ h => by simp at h⟩

section

variable (h : graph.Pushes entryId walk z bound edges pushed)
include h

theorem Pushes.mono {bound' : ℕ}
    (hle : bound ≤ bound') : graph.Pushes entryId walk z bound' edges pushed :=
  ⟨h.begin_le.trans hle, h.place, h.chain, h.enter, h.edge, h.split⟩

/-- An edge that pushes nothing. -/
theorem Pushes.skip {edge : ℕ × ℕ}
    (hskip : edge.2 = runtimeIndex ∨ walk.seen edge.2 = true) (hasCycle : Bool) :
    graph.Pushes entryId walk z bound (edges ++ [edge]) { pushed with hasCycle := hasCycle } := by
  refine ⟨h.begin_le, h.place, h.chain, fun other importer hframe => ?_, fun other hother => ?_,
    h.split⟩
  · obtain ⟨partIndex, hedge, hrest⟩ := h.enter other importer hframe
    exact ⟨partIndex, mem_append_left _ hedge, hrest⟩
  · rcases mem_append.1 hother with hother | hother
    · exact h.edge other hother
    · obtain rfl := mem_singleton.1 hother
      intro hne hseen
      rcases hskip with hruntime | hskip
      · exact absurd hruntime hne
      · exact absurd (hseen.symm.trans hskip) Bool.false_ne_true

/-- The parts before the one that imports are placed. -/
theorem Pushes.placeBefore (hloads : graph.loads entryId z = true) (hlt : pushed.begin < bound) :
    graph.Pushes entryId walk z bound edges { pushed with
      frames := pushed.frames ++ [WalkFrame.place ⟨z, pushed.begin, some bound⟩], begin :=
        bound } := by
  have hmem : ∀ {frame : WalkFrame},
      frame ∈ pushed.frames ++ [WalkFrame.place ⟨z, pushed.begin, some bound⟩] ↔
        frame ∈ pushed.frames ∨ frame = .place ⟨z, pushed.begin, some bound⟩ := by
    intro frame
    rw [mem_append, mem_singleton]
  refine ⟨le_rfl, fun run hrun => ?_, ?_, fun other importer hframe => ?_,
    fun edge hedge hne hseen => hmem.2 (.inl (h.edge edge hedge hne hseen)), ?_⟩
  · rcases hmem.1 hrun with hrun | hrun
    · exact h.place run hrun
    · obtain rfl := WalkFrame.place.inj hrun
      exact ⟨hloads, rfl⟩
  · rw [placesOf_append]
    exact h.chain.snoc hlt
  · exact h.enter other importer ((hmem.1 hframe).resolve_right nofun)
  · intro _ before other partIndex behind hsplit
    rcases snoc_eq_append hsplit with ⟨-, hframe, -⟩ | ⟨ys, rfl, hframes⟩
    · exact nomatch hframe
    · obtain ⟨hbefore, hbehind⟩ := h.split hloads before other partIndex ys hframes
      rw [placesOf_append]
      exact ⟨hbefore, hbehind.snoc hlt⟩

/-- The file that is imported is entered, where all the parts before are placed. -/
theorem Pushes.enterOther {other : ℕ} (hne : other ≠ runtimeIndex) (hseen : walk.seen other = false)
    (hbegin : graph.loads entryId z = true → pushed.begin = bound) :
    graph.Pushes entryId walk z bound (edges ++ [(bound, other)]) { pushed with
      frames := pushed.frames ++ [WalkFrame.enter other (some (z, bound))] } := by
  have hplaces : placesOf (pushed.frames ++ [WalkFrame.enter other (some (z, bound))]) =
      placesOf pushed.frames := by
    rw [placesOf_append]
    exact append_nil _
  refine ⟨h.begin_le, fun run hrun => ?_, hplaces ▸ h.chain, fun next importer hframe => ?_,
    fun edge hedge hne' hseen' => ?_, fun hloads before next partIndex behind hsplit => ?_⟩
  · rcases mem_append.1 hrun with hrun | hrun
    · exact h.place run hrun
    · exact nomatch mem_singleton.1 hrun
  · rcases mem_append.1 hframe with hframe | hframe
    · obtain ⟨partIndex, hedge, hrest⟩ := h.enter next importer hframe
      exact ⟨partIndex, mem_append_left _ hedge, hrest⟩
    · obtain ⟨rfl, rfl⟩ := WalkFrame.enter.inj (mem_singleton.1 hframe)
      exact ⟨bound, mem_append_right _ (mem_singleton_self _), hne, hseen, rfl⟩
  · rcases mem_append.1 hedge with hedge | hedge
    · exact mem_append_left _ (h.edge edge hedge hne' hseen')
    · obtain rfl := mem_singleton.1 hedge
      exact mem_append_right _ (mem_singleton_self _)
  · rcases snoc_eq_append hsplit with ⟨rfl, hframe, rfl⟩ | ⟨ys, rfl, hframes⟩
    · obtain ⟨rfl, himporter⟩ := WalkFrame.enter.inj hframe
      obtain ⟨-, rfl⟩ := Prod.mk.inj (some.inj himporter)
      exact ⟨hbegin hloads ▸ h.chain, (hbegin hloads).symm⟩
    · obtain ⟨hbefore, hbehind⟩ := h.split hloads before next partIndex ys hframes
      rw [placesOf_append]
      exact ⟨hbefore, (append_nil _).symm ▸ hbehind⟩

end

theorem Pushes.importEdge {edge : ℕ × ℕ} (h : graph.Pushes entryId walk z edge.1 edges pushed) :
    graph.Pushes entryId walk z edge.1 (edges ++ [edge])
      (graph.importEdge entryId walk z pushed edge) := by
  obtain ⟨partIndex, other⟩ := edge
  rw [ModuleGraph.importEdge]
  split
  · exact h.skip (.inl ‹_›) pushed.hasCycle
  rename_i hne
  split
  · exact h.skip (.inr ‹_›) _
  rename_i hseen
  split
  next hplace =>
    exact (h.placeBefore hplace.1 hplace.2).enterOther hne (Bool.not_eq_true _ ▸ hseen) fun _ => rfl
  next hplace =>
    refine h.enterOther hne (Bool.not_eq_true _ ▸ hseen) fun hloads => ?_
    exact le_antisymm h.begin_le (not_lt.1 fun hlt => hplace ⟨hloads, hlt⟩)

theorem pushes_foldl (hasCycle : Bool) (edges : List (ℕ × ℕ)) :
    ∀ bound, edges.Pairwise (fun a b => a.1 ≤ b.1) → (∀ edge ∈ edges, edge.1 ≤ bound) →
      graph.Pushes entryId walk z bound edges
        (edges.foldl (graph.importEdge entryId walk z) ⟨0, [], hasCycle⟩) := by
  induction edges using reverseRecOn with
  | nil => exact fun _ _ _ => pushes_nil hasCycle
  | append_singleton edges edge ih =>
    intro bound hsorted hbound
    obtain ⟨hsorted, -, hlast⟩ := pairwise_append.1 hsorted
    rw [foldl_append, foldl_cons, foldl_nil]
    have hstep := (ih edge.1 hsorted fun earlier hearlier =>
      hlast earlier hearlier edge (mem_singleton_self _)).importEdge
    exact hstep.mono (hbound edge (mem_append_right _ (mem_singleton_self _)))

end ModuleGraph

/-!
## Entered files

What `enterFile` pushes: the runs of the file, from its first part to its last one, and between them
the files that its edges lead to (`EnterFile.split`). As a file is entered once, every stack of
frames is worked off (`exists_walks`).
-/

/-! ### Edges -/

namespace ModuleFile

variable (file : ModuleFile) (runs : Bool)

theorem edges_sorted : (file.edges runs).Pairwise fun a b => a.1 ≤ b.1 := by
  rw [edges]
  split
  · exact pairwise_map.2 (pairwise_of_forall fun _ _ => Nat.le_refl 0)
  refine pairwise_flatMap.2 ⟨fun partIndex _ => ?_, ?_⟩
  · split
    · exact List.Pairwise.nil
    · exact pairwise_map.2 (pairwise_of_forall fun _ _ => Nat.le_refl partIndex)
  · refine (pairwise_lt_range' 1).imp fun {first second} hlt a ha b hb => ?_
    have hfirst : a.1 = first := by
      split at ha
      · exact absurd ha not_mem_nil
      · obtain ⟨other, -, rfl⟩ := mem_map.1 ha
        rfl
    have hsecond : b.1 = second := by
      split at hb
      · exact absurd hb not_mem_nil
      · obtain ⟨other, -, rfl⟩ := mem_map.1 hb
        rfl
    rw [hfirst, hsecond]
    exact le_of_lt hlt

variable {file runs}

theorem mem_edges {edge : ℕ × ℕ} (h : edge ∈ file.edges runs) :
    edge.1 ≤ file.parts.length ∧ ∃ record ∈ file.records, record.sourceIndex = some edge.2 := by
  rw [edges] at h
  split at h
  · obtain ⟨other, hother, rfl⟩ := mem_map.1 h
    obtain ⟨record, hrecord, hsource⟩ := mem_filterMap.1 hother
    exact ⟨Nat.zero_le _, record, hrecord, hsource⟩
  · obtain ⟨partIndex, hpart, hedge⟩ := mem_flatMap.1 h
    have hle := mem_range'_1.1 hpart
    split at hedge
    · exact absurd hedge not_mem_nil
    obtain ⟨other, hother, rfl⟩ := mem_map.1 hedge
    obtain ⟨recordId, -, hrecord⟩ := mem_filterMap.1 hother
    obtain ⟨record, hget, hsource⟩ := bind_eq_some_iff.1 hrecord
    split at hsource
    · exact ⟨by omega, record, mem_of_getElem? hget, hsource⟩
    · exact nomatch hsource

/-- Where a part counts: the namespace export part after all the others. -/
def position (file : ModuleFile) (partIndex : ℕ) : ℕ :=
  if partIndex = 0 then file.parts.length else partIndex

theorem position_mod {partIndex : ℕ} (h : partIndex < file.parts.length) :
    1 ≤ file.position partIndex ∧ file.position partIndex ≤ file.parts.length ∧
      file.position partIndex % file.parts.length = partIndex := by
  rw [position]
  split
  next hzero =>
    exact ⟨by omega, le_rfl, hzero ▸ Nat.mod_self _⟩
  · exact ⟨by omega, le_of_lt h, Nat.mod_eq_of_lt h⟩

/-- A part imports a file by statement. -/
def ImportsBy (file : ModuleFile) (partIndex other : ℕ) : Prop :=
  file.isHtml = false ∧ ∃ part, file.parts[partIndex]? = some part ∧
    ∃ recordId ∈ part.importRecordIndices, ∃ record, file.records[recordId]? = some record ∧
      record.kind = .stmt ∧ record.sourceIndex = some other

theorem ImportsBy.mem_edges {partIndex other : ℕ} (h : file.ImportsBy partIndex other) :
    (file.position partIndex, other) ∈ file.edges runs := by
  obtain ⟨hhtml, part, hpart, recordId, hid, record, hrecord, hkind, hsource⟩ := h
  obtain ⟨hpos, hle, hmod⟩ := position_mod (List.getElem?_eq_some_iff.1 hpart).1
  rw [edges, if_neg (Bool.not_eq_true _ ▸ hhtml)]
  refine mem_flatMap.2 ⟨file.position partIndex, mem_range'_1.2 ⟨hpos, by omega⟩, ?_⟩
  rw [hmod, hpart]
  refine mem_map.2 ⟨other, mem_filterMap.2 ⟨recordId, hid, ?_⟩, rfl⟩
  rw [hrecord, bind_some, if_pos (.inl hkind), hsource]

end ModuleFile

namespace ModuleGraph

variable {graph : ModuleGraph} {entryId : ℕ}

theorem edges_lt {z : ℕ} {edge : ℕ × ℕ} (h : edge ∈ graph.edges entryId z) :
    edge.2 < graph.files.length := by
  obtain ⟨-, record, hrecord, hsource⟩ := ModuleFile.mem_edges h
  rw [file, getD_eq_getElem?_getD] at hrecord
  cases hfile : graph.files[z]? with
  | none =>
    rw [hfile] at hrecord
    exact absurd hrecord not_mem_nil
  | some file =>
    rw [hfile] at hrecord
    exact graph.targets_lt file (mem_of_getElem? hfile) record hrecord _ hsource

variable (graph entryId) in
/-- A file leads to another one in one step. -/
def Leads (f g : ℕ) : Prop := ∃ partIndex, (partIndex, g) ∈ graph.edges entryId f ∧ g ≠ runtimeIndex

/-! ### What is pushed -/

variable {walk : EntryWalk} {z : ℕ} {importer : Option (ℕ × ℕ)}

theorem pushEdges_pushes (walk : EntryWalk) (z : ℕ) :
    graph.Pushes entryId walk z (graph.file z).parts.length (graph.edges entryId z)
      (graph.pushEdges entryId walk z) :=
  pushes_foldl _ _ _ (ModuleFile.edges_sorted _ _) fun _ hedge => (ModuleFile.mem_edges hedge).1

variable (graph entryId) in
/-- The frames are what `z` pushes, where `seen` are the files that are seen then. -/
structure EnterFile (seen : ℕ → Bool) (z : ℕ) (frames : List WalkFrame) : Prop where
  place : ∀ run, .place run ∈ frames → graph.loads entryId z = true ∧ run.sourceIndex = z
  covers : graph.loads entryId z = true → Covers (graph.file z).parts.length 0 (placesOf frames)
  enter : ∀ other importer, .enter other importer ∈ frames → ∃ partIndex,
    (partIndex, other) ∈ graph.edges entryId z ∧ other ≠ runtimeIndex ∧ seen other = false ∧
    importer = some (z, partIndex)
  edge : ∀ edge ∈ graph.edges entryId z, edge.2 ≠ runtimeIndex → seen edge.2 = false →
    .enter edge.2 (some (z, edge.1)) ∈ frames
  split : graph.loads entryId z = true → ∀ before other partIndex behind,
    frames = before ++ WalkFrame.enter other (some (z, partIndex)) :: behind →
    Chain 0 (placesOf before) partIndex ∧
      Covers (graph.file z).parts.length partIndex (placesOf behind)

theorem Pushes.enterFile {pushed : Pushed}
    (h : graph.Pushes entryId walk z (graph.file z).parts.length (graph.edges entryId z) pushed) :
    graph.EnterFile entryId walk.seen z (if graph.loads entryId z then
      pushed.frames ++ [WalkFrame.place ⟨z, pushed.begin, none⟩] else pushed.frames) := by
  split
  next hloads =>
    have hmem : ∀ {frame : WalkFrame},
      frame ∈ pushed.frames ++ [WalkFrame.place ⟨z, pushed.begin, none⟩] ↔
        frame ∈ pushed.frames ∨ frame = .place ⟨z, pushed.begin, none⟩ := by
      intro frame
      rw [mem_append, mem_singleton]
    refine ⟨fun run hrun => ?_, fun _ => ?_, fun other importer hframe => ?_,
      fun edge hedge hne hseen => hmem.2 (.inl (h.edge edge hedge hne hseen)), ?_⟩
    · rcases hmem.1 hrun with hrun | hrun
      · exact h.place run hrun
      · obtain rfl := WalkFrame.place.inj hrun
        exact ⟨hloads, rfl⟩
    · rw [placesOf_append]
      exact h.chain.covers h.begin_le
    · exact h.enter other importer ((hmem.1 hframe).resolve_right nofun)
    · intro _ before other partIndex behind hsplit
      rcases snoc_eq_append hsplit with ⟨-, hframe, -⟩ | ⟨ys, rfl, hframes⟩
      · exact nomatch hframe
      · obtain ⟨hbefore, hbehind⟩ := h.split hloads before other partIndex ys hframes
        rw [placesOf_append]
        exact ⟨hbefore, hbehind.covers h.begin_le⟩
  next hloads =>
    exact ⟨h.place, fun hloads' => absurd hloads' hloads, h.enter, h.edge,
      fun hloads' => absurd hloads' hloads⟩

theorem enterFile_spec (walk : EntryWalk) (z : ℕ) (importer : Option (ℕ × ℕ)) :
    graph.EnterFile entryId (update walk.seen z true) z
      (graph.enterFile entryId walk z importer).2 := by
  rw [enterFile]
  exact (pushEdges_pushes { walk with
    seen := update walk.seen z true
    entered := walk.entered ++ [(z, importer)] } z).enterFile

theorem enterFile_seen : (graph.enterFile entryId walk z importer).1.seen =
    update walk.seen z true := rfl

theorem enterFile_runs : (graph.enterFile entryId walk z importer).1.runs = walk.runs := rfl

theorem enterFile_entered : (graph.enterFile entryId walk z importer).1.entered =
    walk.entered ++ [(z, importer)] := rfl

variable {f : ℕ}

theorem seen_enterFile : (graph.enterFile entryId walk z importer).1.seen f = true ↔
    f = z ∨ walk.seen f = true := by
  rw [enterFile_seen]
  rcases eq_or_ne f z with rfl | hne
  · exact iff_of_true (update_self ..) (.inl rfl)
  · rw [update_of_ne hne]
    exact ⟨.inr, fun h => h.resolve_left hne⟩

theorem unseen_enterFile : (graph.enterFile entryId walk z importer).1.seen f = false ↔
    f ≠ z ∧ walk.seen f = false := by
  rw [← Bool.not_eq_true, seen_enterFile, not_or, Bool.not_eq_true]

/-! ### Every stack is worked off -/

variable {frames : List WalkFrame} {walk' : EntryWalk}

theorem Walks.seen_mono (h : graph.Walks entryId frames walk walk') (hf : walk.seen f = true) :
    walk'.seen f = true := by
  induction h with
  | nil walk => exact hf
  | place h ih => exact ih hf
  | seen hseen h ih => exact ih hf
  | enter hseen hpushed h ihPushed ih => exact ih (ihPushed (seen_enterFile.2 (.inr hf)))

theorem Walks.unseen (h : graph.Walks entryId frames walk walk')
    (hf : walk'.seen f = false) : walk.seen f = false :=
  Bool.not_eq_true _ ▸ fun hseen => Bool.false_ne_true (hf.symm.trans (h.seen_mono hseen))

/-- The files that are not seen. -/
def unseenFiles (graph : ModuleGraph) (walk : EntryWalk) : Finset ℕ :=
  (Finset.range graph.files.length).filter fun f => walk.seen f = false

theorem Walks.unseenFiles_subset (h : graph.Walks entryId frames walk walk') :
    graph.unseenFiles walk' ⊆ graph.unseenFiles walk :=
  Finset.monotone_filter_right _ fun _ _ hf => h.unseen hf

theorem card_enterFile (hlt : z < graph.files.length) (hseen : walk.seen z = false) :
    (graph.unseenFiles (graph.enterFile entryId walk z importer).1).card <
      (graph.unseenFiles walk).card := by
  refine Finset.card_lt_card (Finset.ssubset_iff_subset_ne.2
    ⟨Finset.monotone_filter_right _ fun f _ hf => (unseen_enterFile.1 hf).2, fun heq => ?_⟩)
  have hmem : z ∈ graph.unseenFiles walk := Finset.mem_filter.2 ⟨Finset.mem_range.2 hlt, hseen⟩
  rw [← heq] at hmem
  exact (unseen_enterFile.1 (Finset.mem_filter.1 hmem).2).1 rfl

/-- The induction is on the files that are not seen, and for each of their numbers on the frames. -/
theorem exists_walks (bound : ℕ) : ∀ walk frames, (graph.unseenFiles walk).card < bound →
    (∀ z importer, .enter z importer ∈ frames → z < graph.files.length) →
    ∃ walk', graph.Walks entryId frames walk walk' := by
  induction bound with
  | zero => exact fun _ _ h => absurd h (Nat.not_lt_zero _)
  | succ bound ih =>
    intro walk frames
    induction frames generalizing walk with
    | nil => exact fun _ _ => ⟨walk, .nil walk⟩
    | cons frame rest ihRest =>
      intro hcard hlt
      have hrest : ∀ z importer, .enter z importer ∈ rest → z < graph.files.length :=
        fun z importer h => hlt z importer (mem_cons_of_mem _ h)
      cases frame with
      | place run =>
        obtain ⟨walk', h⟩ := ihRest (placeRun walk run) hcard hrest
        exact ⟨walk', .place h⟩
      | enter z importer =>
        cases hseen : walk.seen z with
        | true =>
          obtain ⟨walk', h⟩ := ihRest walk hcard hrest
          exact ⟨walk', .seen hseen h⟩
        | false =>
          have hless : (graph.unseenFiles (graph.enterFile entryId walk z importer).1).card <
              (graph.unseenFiles walk).card :=
            card_enterFile (hlt z importer mem_cons_self) hseen
          obtain ⟨walk₁, h₁⟩ := ih (graph.enterFile entryId walk z importer).1
            (graph.enterFile entryId walk z importer).2 (by omega) fun other importer' hframe => by
              obtain ⟨partIndex, hedge, -⟩ := (enterFile_spec walk z importer).enter _ _ hframe
              exact edges_lt hedge
          have hless₁ := Finset.card_le_card h₁.unseenFiles_subset
          obtain ⟨walk', h⟩ := ihRest walk₁ (by omega) hrest
          exact ⟨walk', .enter hseen h₁ h⟩

end ModuleGraph

end Soup.Bundler
