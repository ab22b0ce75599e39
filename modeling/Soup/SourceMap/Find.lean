import Soup.Lib.Boundary
import Soup.SourceMap.Blob
import Soup.SourceMap.Parse

/-!
# Looking up a position

`List::find` is a binary search in a list of mappings. `InternalSourceMap::find` is one in the sync
entries of a blob, and a walk through the window it ends in. Both have the last mapping at or before
the position, if it is on its line (`lastOnLine`), so that they agree (`find_eq_find`).
-/

namespace Soup.SourceMap

open Soup.Lib List Option

/-- The last of the mappings at or before a position, if it is on its line. -/
def lastOnLine (line column : ℤ) (states : List SourceMapState) : Option SourceMapState :=
  (states.filter (·.lessOrEqual line column)).getLast?.filter (·.generatedLine = line)

variable {line column : ℤ}

theorem lessOrEqual_iff {s : SourceMapState} :
    s.lessOrEqual line column = true ↔
      s.generatedLine < line ∨ s.generatedLine = line ∧ s.generatedColumn ≤ column := by
  simp [SourceMapState.lessOrEqual]

/-- The states at or before a position are before the others. -/
theorem lessOrEqual_of_atOrBefore {s t : SourceMapState} (h : s.atOrBefore t = true)
    (ht : t.lessOrEqual line column = true) : s.lessOrEqual line column = true := by
  rw [atOrBefore_iff] at h
  rw [lessOrEqual_iff] at ht ⊢
  omega

theorem filter_cons_lessOrEqual {s : SourceMapState}
    (h : s.lessOrEqual line column = true) (states : List SourceMapState) :
    (s :: states).filter (·.lessOrEqual line column) =
      s :: states.filter (·.lessOrEqual line column) :=
  filter_cons_of_pos h

/-! ## The list -/

namespace MappingList

/-- The loop of `find_index_from_generated`, with `count` as fuel. The index is in bounds. -/
def findIndexLoop (generated : List LineColumnOffset) (line column : ℤ) : ℕ → ℕ → ℕ → ℕ
  | 0, index, _ => index
  | fuel + 1, index, count =>
    if count > 0 then
      let step := count / 2
      let i := index + step
      let mapping := generated.getD i {}
      if mapping.lines < line ∨ (mapping.lines = line ∧ mapping.columns ≤ column) then
        findIndexLoop generated line column fuel (i + 1) (count - (step + 1))
      else findIndexLoop generated line column fuel index step
    else index

def findIndexFromGenerated (generated : List LineColumnOffset) (line column : ℤ) : Option ℕ :=
  let index := findIndexLoop generated line column generated.length 0 generated.length
  if index > 0 then
    if (generated.getD (index - 1) {}).lines = line then some (index - 1) else none
  else none

/-- `List::find`. A list without names has mappings with the name index -1. -/
def find (list : List Mapping) (line column : ℤ) : Option Mapping :=
  match findIndexFromGenerated (list.map Mapping.generated) line column with
  | some i => list[i]?
  | none => none

/-- `self.generated <= (line, column)`. -/
def atOrBefore (line column : ℤ) (generated : LineColumnOffset) : Bool :=
  generated.lines < line ∨ (generated.lines = line ∧ generated.columns ≤ column)

theorem atOrBefore_generated (line column : ℤ) (m : Mapping) :
    atOrBefore line column m.generated = m.state.lessOrEqual line column := by
  rw [Bool.eq_iff_iff, lessOrEqual_iff, atOrBefore, decide_eq_true_iff]
  rfl

theorem findIndexLoop_brackets {generated : List LineColumnOffset}
    (hp : Antitone (holdsAt (atOrBefore line column) generated)) {fuel index count : ℕ}
    (h : Brackets (holdsAt (atOrBefore line column) generated) index (index + count))
    (hlen : index + count ≤ generated.length) (hfuel : count ≤ fuel) :
    Brackets (holdsAt (atOrBefore line column) generated)
      (findIndexLoop generated line column fuel index count)
      (findIndexLoop generated line column fuel index count) := by
  induction fuel generalizing index count with
  | zero =>
    obtain rfl : count = 0 := Nat.le_zero.1 hfuel
    exact h
  | succ fuel ih =>
    unfold findIndexLoop
    split
    next hpos =>
      have hi : index + count / 2 < generated.length := by omega
      have hholds := @holdsAt_of_lt _ (atOrBefore line column) generated _ hi
      have hmapping : generated.getD (index + count / 2) {} = generated[index + count / 2] := by
        rw [getD_eq_getElem?_getD, getElem?_eq_getElem hi, Option.getD_some]
      dsimp only
      rw [hmapping]
      split
      next hle =>
        have hnext := h.right hp (show index + count / 2 < index + count by omega)
          (hholds.trans (decide_eq_true hle))
        refine ih ?_ (by omega) (by omega)
        rwa [show index + count / 2 + 1 + (count - (count / 2 + 1)) = index + count by omega]
      next hgt =>
        exact ih (h.left hp (Nat.le_add_right _ _) (hholds.trans (decide_eq_false hgt)))
          (by omega) (by omega)
    next hzero =>
      obtain rfl : count = 0 := by omega
      exact h

/-- The search has the last mapping at or before the position, if it is on its line. -/
theorem find_eq_lastOnLine {list : List Mapping}
    (h : (list.map Mapping.state).Pairwise fun m n => m.atOrBefore n = true) (line column : ℤ) :
    (find list line column).map Mapping.state =
      lastOnLine line column (list.map Mapping.state) := by
  have hpairwise : (list.map Mapping.generated).Pairwise fun m n =>
      atOrBefore line column n = true → atOrBefore line column m = true := by
    rw [pairwise_map] at h ⊢
    refine h.imp fun {m n} hmn hn => ?_
    rw [atOrBefore_generated] at hn ⊢
    exact lessOrEqual_of_atOrBefore hmn hn
  have hstart := brackets_length (atOrBefore line column) (list.map Mapping.generated)
  rw [← Nat.zero_add (length _)] at hstart
  have hend := findIndexLoop_brackets (antitone_holdsAt hpairwise) hstart (Nat.zero_add _).le le_rfl
  obtain ⟨ys, zs, hlist, hlength, hys, hzs⟩ := hend.split
  unfold find findIndexFromGenerated
  generalize findIndexLoop (list.map Mapping.generated) line column
    (list.map Mapping.generated).length 0 (list.map Mapping.generated).length = index at hlength
  obtain ⟨before, after, rfl, rfl, rfl⟩ := map_eq_append_iff.1 hlist
  rw [length_map] at hlength
  have hfilter : ((before ++ after).map Mapping.state).filter (·.lessOrEqual line column) =
      before.map Mapping.state := by
    rw [map_append]
    refine filter_eq_left (fun s hs => ?_) (fun s hs => ?_)
    · obtain ⟨m, hm, rfl⟩ := mem_map.1 hs
      exact (atOrBefore_generated line column m).symm.trans (hys _ (mem_map_of_mem hm))
    · obtain ⟨m, hm, rfl⟩ := mem_map.1 hs
      exact (atOrBefore_generated line column m).symm.trans (hzs _ (mem_map_of_mem hm))
  unfold lastOnLine
  rw [hfilter]
  rcases eq_nil_or_concat before with rfl | ⟨init, last, rfl⟩
  · obtain rfl : index = 0 := hlength.symm
    rfl
  · rw [concat_eq_append] at hlength hfilter ⊢
    rw [length_append, length_singleton] at hlength
    have hlast : ((init ++ [last] ++ after).map Mapping.generated).getD (index - 1) {} =
        last.generated := by
      rw [← hlength]
      simp
    have hget : (init ++ [last] ++ after)[index - 1]? = some last := by
      rw [← hlength]
      simp
    rw [if_pos (by omega), hlast, map_append, map_singleton, getLast?_concat,
      filter_some]
    by_cases hline : last.generated.lines = line
    · rw [if_pos hline, if_pos (decide_eq_true (by exact hline))]
      dsimp only
      rw [hget]
      rfl
    · have hstate : ¬decide (last.state.generatedLine = line) = true :=
        fun h => hline (of_decide_eq_true h)
      rw [if_neg hline, if_neg hstate]
      rfl

end MappingList

/-! ## The blob -/

namespace Blob

/-- The search in the sync entries has the number of windows that start at or before the
position. -/
theorem locateLoop_brackets {blob : Bytes} {p : ℕ → Bool} {n : ℕ} (hp : Antitone p)
    (hentry : ∀ i < n, (syncEntry blob i).toState.lessOrEqual line column = p i)
    {fuel lo hi : ℕ} (h : Brackets p lo hi) (hlen : hi ≤ n) (hfuel : hi - lo ≤ fuel) :
    Brackets p (locateLoop blob line column fuel lo hi)
      (locateLoop blob line column fuel lo hi) := by
  induction fuel generalizing lo hi with
  | zero =>
    obtain rfl : hi = lo := le_antisymm (Nat.sub_eq_zero_iff_le.1 (Nat.le_zero.1 hfuel)) h.le
    exact h
  | succ fuel ih =>
    unfold locateLoop
    split
    next hlt =>
      dsimp only
      rw [hentry _ (by omega)]
      split
      next hle =>
        exact ih (h.right hp (by omega) hle) hlen (by omega)
      next hgt =>
        exact ih (h.left hp (Nat.le_add_right _ _) (Bool.eq_false_iff.2 hgt)) (by omega) (by omega)
    next hge =>
      obtain rfl : hi = lo := le_antisymm (not_lt.1 hge) h.le
      exact h

/-- The walk through a window ends at its last mapping at or before the position. -/
theorem findLoop_window {r : WindowReader} {k : ℕ} {prev : SourceMapState}
    {rest : List SourceMapState} (h : r.Reads k (deltas prev rest)) (hp : prev.Valid)
    (hrest : ∀ s ∈ rest, s.Valid)
    (hsorted : (prev :: rest).Pairwise fun m n => m.atOrBefore n = true)
    (hprev : prev.lessOrEqual line column = true) {fuel : ℕ} (hfuel : rest.length ≤ fuel) :
    ∃ r' best, findLoop line column fuel r prev = (r', best) ∧ r'.count ≠ 0 ∧
      ((prev :: rest).filter (·.lessOrEqual line column)).getLast? = some best := by
  induction rest generalizing r k prev fuel with
  | nil =>
    refine ⟨r, prev, ?_, h.count_ne, ?_⟩
    · cases fuel with
      | zero => rfl
      | succ fuel => rw [findLoop, if_pos h.done]
    · rw [filter_cons_lessOrEqual hprev, filter_nil, getLast?_singleton]
  | cons current rest ih =>
    obtain ⟨hc, hrest⟩ := forall_mem_cons.1 hrest
    obtain ⟨hfirst, hsorted⟩ := pairwise_cons.1 hsorted
    obtain ⟨fuel, rfl⟩ : ∃ m, fuel = m + 1 := ⟨fuel - 1, by simp at hfuel; omega⟩
    obtain ⟨r', hnext, hreads⟩ := WindowReader.next_reads h hp hc
    have hnot : r.done = false := h.not_done
    rw [findLoop, if_neg (by simp [hnot]), hnext]
    dsimp only
    rw [filter_cons_lessOrEqual hprev]
    by_cases hcurrent : current.lessOrEqual line column = true
    · obtain ⟨r'', best, hloop, hcount, hbest⟩ :=
        ih hreads hc hrest hsorted hcurrent (by simpa using hfuel)
      rw [if_pos hcurrent]
      refine ⟨r'', best, hloop, hcount, ?_⟩
      rw [filter_cons_lessOrEqual hcurrent] at hbest ⊢
      rwa [getLast?_cons_cons]
    · have hnone : (current :: rest).filter (·.lessOrEqual line column) = [] := by
        refine filter_eq_nil_iff.2 fun s hs hle => hcurrent ?_
        rcases mem_cons.1 hs with rfl | hs
        · exact hle
        · exact lessOrEqual_of_atOrBefore ((pairwise_cons.1 hsorted).1 s hs) hle
      rw [if_neg hcurrent]
      refine ⟨r', prev, rfl, hreads.count_ne, ?_⟩
      rw [hnone, getLast?_singleton]

/-- The lookup in a blob has the last mapping at or before the position, if it is on its line. -/
theorem find_eq_lastOnLine {blob : Bytes} {ws : List Window} (h : Blob.Holds blob ws)
    (hsorted : (ws.flatMap Window.states).Pairwise fun m n => m.atOrBefore n = true)
    (line column : ℤ) :
    (find blob line column).map Mapping.state =
      lastOnLine line column (ws.flatMap Window.states) := by
  have hantitone : Antitone (holdsAt (fun w : Window => w.1.lessOrEqual line column) ws) := by
    refine antitone_holdsAt ?_
    obtain ⟨-, hpairwise⟩ := pairwise_flatMap.1 hsorted
    refine hpairwise.imp fun {v w} hvw hw => ?_
    exact lessOrEqual_of_atOrBefore (hvw _ mem_cons_self _ mem_cons_self) hw
  have hentry : ∀ i < ws.length, (syncEntry blob i).toState.lessOrEqual line column =
      holdsAt (fun w : Window => w.1.lessOrEqual line column) ws i := by
    intro i hi
    have hsplit : ws = ws.take i ++ ws[i] :: ws.drop (i + 1) := by simp
    have hstate := h.entry hsplit
    rw [length_take_of_le hi.le] at hstate
    rw [hstate, holdsAt_of_lt hi]
  have hend := locateLoop_brackets hantitone hentry (brackets_length _ ws) le_rfl
    (Nat.sub_zero _).le
  obtain ⟨before, after, rfl, hlength, hbefore, hafter⟩ := hend.split
  have hnone : (after.flatMap Window.states).filter (·.lessOrEqual line column) = [] := by
    refine filter_eq_nil_iff.2 fun s hs hle => ?_
    obtain ⟨w, hw, hmem⟩ := mem_flatMap.1 hs
    have hfalse := hafter w hw
    rw [Bool.eq_false_iff] at hfalse
    rcases mem_cons.1 hmem with rfl | hmem
    · exact hfalse hle
    · obtain ⟨hwindows, -⟩ := pairwise_flatMap.1 hsorted
      have hwindow := hwindows w (mem_append_right before hw)
      exact hfalse (lessOrEqual_of_atOrBefore ((pairwise_cons.1 hwindow).1 s hmem) hle)
  unfold find locateWindow lastOnLine
  rw [h.syncCount, ← hlength, flatMap_append, filter_append, hnone, append_nil]
  rcases eq_nil_or_concat before with rfl | ⟨init, w, rfl⟩
  · rfl
  rw [concat_eq_append] at *
  rw [append_assoc, singleton_append] at h
  obtain ⟨r, hseed, hreads⟩ := h.seed rfl
  have hw := h.windows w (by simp)
  obtain ⟨hfirst, hrest⟩ := forall_mem_cons.1 hw.states
  have hpairwise : w.states.Pairwise fun m n => m.atOrBefore n = true :=
    (pairwise_flatMap.1 hsorted).1 w (by simp)
  have hfuel : w.2.length ≤ r.count := by
    rw [hreads.count, length_deltas]
    omega
  obtain ⟨r', best, hloop, hcount, hbest⟩ := findLoop_window hreads hfirst hrest hpairwise
    (hbefore w (by simp)) hfuel
  have hindex : (init ++ [w]).length - 1 = init.length := by simp
  rw [if_neg (by simp), hindex]
  dsimp only
  rw [hseed]
  dsimp only
  rw [hloop]
  have hlast : ((init ++ [w]).flatMap Window.states).filter (·.lessOrEqual line column) =
      (init.flatMap Window.states).filter (·.lessOrEqual line column) ++
        (w.1 :: w.2).filter (·.lessOrEqual line column) := by
    rw [flatMap_append, filter_append]
    simp [Window.states]
  rw [hlast, getLast?_append, hbest, some_or, filter_some]
  by_cases hline : best.generatedLine = line
  · rw [if_neg (by simp [hcount, hline]), if_pos (decide_eq_true hline)]
    rfl
  · rw [if_pos (Or.inr hline), if_neg (fun h => hline (of_decide_eq_true h))]
    rfl

end Blob

/-! ## Building a list -/

/-- The calls on the builder that append `states` from a line on. -/
def calls : ℤ → List SourceMapState → List Op
  | _, [] => []
  | line, s :: states =>
    replicate (s.generatedLine - line).toNat .lineSeparator ++
      .mapping s :: calls s.generatedLine states

theorem calls_append (n : ℕ) (line : ℤ) (ops : List Op) :
    mappings (replicate n Op.lineSeparator ++ ops) = mappings ops ∧
      written (replicate n Op.lineSeparator ++ ops) = written ops ∧
      (Counted line (replicate n Op.lineSeparator ++ ops) ↔ Counted (line + n) ops) := by
  induction n generalizing line with
  | zero => exact ⟨rfl, rfl, by simp⟩
  | succ n ih =>
    obtain ⟨hmappings, hwritten, hcounted⟩ := ih (line + 1)
    refine ⟨hmappings, hwritten, ?_⟩
    rw [Nat.cast_succ, add_comm (n : ℤ), ← add_assoc]
    exact hcounted

theorem calls_spec {line : ℤ} {states : List SourceMapState} (hvalid : ∀ s ∈ states, s.Valid)
    (hsorted : states.Pairwise fun m n => m.atOrBefore n = true)
    (hline : ∀ s ∈ states, line ≤ s.generatedLine) :
    Counted line (calls line states) ∧ mappings (calls line states) = states ∧
      written (calls line states) = states.length := by
  induction states generalizing line with
  | nil => exact ⟨trivial, rfl, rfl⟩
  | cons s states ih =>
    obtain ⟨hs, hvalid⟩ := forall_mem_cons.1 hvalid
    obtain ⟨hfirst, hsorted⟩ := pairwise_cons.1 hsorted
    have hnext : ∀ t ∈ states, s.generatedLine ≤ t.generatedLine := by
      intro t ht
      have hst := atOrBefore_iff.1 (hfirst t ht)
      omega
    obtain ⟨hcounted, hmappings, hwritten⟩ := ih hvalid hsorted hnext
    obtain ⟨hmappings', hwritten', hcounted'⟩ := calls_append (s.generatedLine - line).toNat line
      (.mapping s :: calls s.generatedLine states)
    have hsum : line + ((s.generatedLine - line).toNat : ℤ) = s.generatedLine := by
      have hle := hline s mem_cons_self
      omega
    rw [hsum] at hcounted'
    unfold calls
    refine ⟨hcounted'.2 ⟨rfl, hs, hcounted⟩, ?_, ?_⟩
    · rw [hmappings', mappings, hmappings]
    · rw [hwritten', written, hwritten, length_cons]

/-- On a list of mappings in order, the lookup in a blob that was built from it has the answer of
the lookup in the list. Lists of less than a hundred million mappings always have a blob. -/
theorem find_eq_find {list : List Mapping} (hvalid : ∀ m ∈ list, m.state.Valid)
    (hsorted : (list.map Mapping.state).Pairwise fun m n => m.atOrBefore n = true) :
    (∃ ops, Counted 0 ops ∧ mappings ops = list.map Mapping.state ∧
      (41 * list.length + 32 ≤ u32Max →
        ∃ blob, (Builder.run ops).finalize = some blob ∧ (Builder.run ops).StreamFits)) ∧
    ∀ ops blob, Counted 0 ops → mappings ops = list.map Mapping.state →
      (Builder.run ops).finalize = some blob → (Builder.run ops).StreamFits →
        ∀ line column, (Blob.find blob line column).map Mapping.state =
          (MappingList.find list line column).map Mapping.state := by
  constructor
  · have hstates : ∀ s ∈ list.map Mapping.state, s.Valid := by
      intro s hs
      obtain ⟨m, hm, rfl⟩ := mem_map.1 hs
      exact hvalid m hm
    obtain ⟨hcounted, hmappings, hwritten⟩ := calls_spec hstates hsorted
      fun s hs => (hstates s hs).generatedLine.1
    refine ⟨_, hcounted, hmappings, fun hlen => finalize_isSome hcounted ?_⟩
    rwa [hwritten, length_map]
  · intro ops blob hops hmappings hblob hfits line column
    obtain ⟨ws, _, hholds⟩ := run_holds hops
    obtain ⟨ws', hlayout, hstates⟩ := finalize_layout hholds hblob hfits
    rw [hmappings] at hstates
    rw [MappingList.find_eq_lastOnLine hsorted, ← hstates]
    exact Blob.find_eq_lastOnLine hlayout.holds (hstates ▸ hsorted) line column

/-- Two mappings, two lines apart. -/
def twoLines : List Mapping :=
  [SourceMapState.toMapping {},
    SourceMapState.toMapping { generatedLine := 2, generatedColumn := 4, sourceIndex := 1 }]

theorem twoLines_valid : ∀ s ∈ twoLines.map Mapping.state, s.Valid := by
  refine forall_mem_cons.2 ⟨?_, forall_mem_singleton.2 ?_⟩ <;> constructor <;> decide

theorem find_eq_find_two_lines : ∃ ops blob, mappings ops = twoLines.map Mapping.state ∧
    (Builder.run ops).finalize = some blob ∧
    ∀ line column, (Blob.find blob line column).map Mapping.state =
      (MappingList.find twoLines line column).map Mapping.state := by
  obtain ⟨⟨ops, hops, hmappings, hsome⟩, hall⟩ :=
    find_eq_find (fun m hm => twoLines_valid _ (mem_map_of_mem hm)) (by decide)
  obtain ⟨blob, hblob, hfits⟩ := hsome (by decide)
  exact ⟨ops, blob, hmappings, hblob, hall ops blob hops hmappings hblob hfits⟩

/-- The lookup in a blob has exactly the last mapping at or before the position, if it is on its
line. -/
theorem find_last {ops : List Op} {blob : Bytes} (hops : Counted 0 ops)
    (hsorted : (mappings ops).Pairwise fun m n => m.atOrBefore n = true)
    (hblob : (Builder.run ops).finalize = some blob) (hfits : (Builder.run ops).StreamFits)
    (line column : ℤ) (s : SourceMapState) :
    (Blob.find blob line column).map Mapping.state = some s ↔
      ∃ before after, mappings ops = before ++ s :: after ∧ s.generatedLine = line ∧
        s.generatedColumn ≤ column ∧ ∀ t ∈ after, t.lessOrEqual line column = false := by
  obtain ⟨ws, _, hholds⟩ := run_holds hops
  obtain ⟨ws', hlayout, hstates⟩ := finalize_layout hholds hblob hfits
  rw [← hstates] at hsorted ⊢
  rw [Blob.find_eq_lastOnLine hlayout.holds hsorted, lastOnLine, filter_eq_some_iff,
    getLast?_filter, find?_eq_some_iff_append, decide_eq_true_eq]
  constructor
  · rintro ⟨⟨hs, after, before, hsplit, hafter⟩, hline⟩
    refine ⟨before.reverse, after.reverse, by simpa using congrArg reverse hsplit, hline, ?_,
      by simpa using hafter⟩
    rw [lessOrEqual_iff] at hs
    omega
  · rintro ⟨before, after, hsplit, hline, hcolumn, hafter⟩
    exact ⟨⟨lessOrEqual_iff.2 (.inr ⟨hline, hcolumn⟩), after.reverse, before.reverse,
      by simp [hsplit], by simpa using hafter⟩, hline⟩

theorem find_last_two_lines : ∃ ops blob, mappings ops = twoLines.map Mapping.state ∧
    (Builder.run ops).finalize = some blob ∧
    (Blob.find blob 2 9).map Mapping.state =
      some { generatedLine := 2, generatedColumn := 4, sourceIndex := 1 } := by
  obtain ⟨hops, hmappings, hwritten⟩ := calls_spec twoLines_valid (by decide)
    fun s hs => (twoLines_valid s hs).generatedLine.1
  obtain ⟨blob, hblob, hfits⟩ := finalize_isSome hops (by rw [hwritten]; decide)
  have hlast := find_last hops (by rw [hmappings]; decide) hblob hfits 2 9
    { generatedLine := 2, generatedColumn := 4, sourceIndex := 1 }
  rw [hmappings] at hlast
  exact ⟨_, blob, hmappings, hblob, hlast.2 ⟨[{}], [], by decide⟩⟩

end Soup.SourceMap
