import Soup.Bundler.ReadTables

/-!
# Searches that share their marks

The searches of `LoadTimeReads.isBrokenBy` mark the parts that they come to, and a later search
stops at a mark. That loses nothing when a part that a later search would hit is one that the
earlier searches hit as well (`searchAll_iff`): what leads on from a mark was seen by some earlier
search (`Marks`).
-/

namespace Soup.Bundler.LoadTimeReads

open List

variable {reads : LoadTimeReads} {position : List (Option ℕ)} {k w x y : ℕ} {done : List (ℕ × ℕ)}
  {queue queue' dependents : List ℕ} {visited visited' : List Bool}

/-- `y` names a binding of `x`, itself or through parts that evaluate nothing. -/
inductive ReadBy (reads : LoadTimeReads) : ℕ → ℕ → Prop
  | direct {x y : ℕ} (h : y ∈ reads.dependentsOf x) : ReadBy reads x y
  | through {x y z : ℕ} (hxy : y ∈ reads.dependentsOf x) (hy : reads.effect y ≠ .evaluates)
      (hyz : ReadBy reads y z) : ReadBy reads x z

theorem ReadBy.snoc {z : ℕ} (h : ReadBy reads x y) (hy : reads.effect y ≠ .evaluates)
    (hz : z ∈ reads.dependentsOf y) : ReadBy reads x z := by
  induction h with
  | direct h => exact .through h hy (.direct hz)
  | through hxy hx _ ih => exact .through hxy hx (ih hy hz)

/-- A part that a search from the part `w` of the run `k` stops at. -/
def Hit (reads : LoadTimeReads) (position : List (Option ℕ)) (s : ℕ × ℕ) (y : ℕ) : Prop :=
  reads.effect y = .evaluates ∧ reads.isBefore position s.1 s.2 y = true

/-! ## One part's dependents -/

/-- The loop returns at a dependent that is hit. -/
theorem visitDependents_eq_none
    (h : reads.visitDependents position k w dependents (queue, visited) = none) :
    ∃ y ∈ dependents, Hit reads position (k, w) y := by
  induction dependents generalizing queue visited with
  | nil => cases h
  | cons y dependents ih =>
    rw [visitDependents] at h
    split at h
    next hevaluates =>
      split at h
      next hbefore => exact ⟨y, mem_cons_self, hevaluates, hbefore⟩
      next =>
        obtain ⟨z, hz, hhit⟩ := ih h
        exact ⟨z, mem_cons_of_mem _ hz, hhit⟩
    next =>
      split at h
      all_goals
        obtain ⟨z, hz, hhit⟩ := ih h
        exact ⟨z, mem_cons_of_mem _ hz, hhit⟩

/-- What the loop over some dependents does. -/
structure Visits (reads : LoadTimeReads) (position : List (Option ℕ)) (k w : ℕ)
    (dependents queue queue' : List ℕ) (visited visited' : List Bool) : Prop where
  length : visited'.length = visited.length
  marks : ∀ x : ℕ, visited[x]? = some true → visited'[x]? = some true
  queued : ∀ x ∈ queue, x ∈ queue'
  new : ∀ x : ℕ, visited'[x]? = some true → visited[x]? = some true ∨ x ∈ queue'
  origin : ∀ x ∈ queue', x ∈ queue ∨ x ∈ dependents ∧ reads.effect x ≠ .evaluates
  miss : ∀ y ∈ dependents, ¬Hit reads position (k, w) y
  marked : ∀ y ∈ dependents, reads.effect y ≠ .evaluates → y < visited.length →
    visited'[y]? = some true

theorem visits (h : reads.visitDependents position k w dependents (queue, visited) =
    some (queue', visited')) :
    Visits reads position k w dependents queue queue' visited visited' := by
  induction dependents generalizing queue visited with
  | nil =>
    obtain ⟨rfl, rfl⟩ := Prod.mk.inj (Option.some.inj h)
    exact ⟨rfl, fun _ h => h, fun _ h => h, fun _ h => .inl h, fun _ h => .inl h,
      fun y hy => (by cases hy), fun y hy => by cases hy⟩
  | cons y dependents ih =>
    rw [visitDependents] at h
    split at h
    next hevaluates =>
      split at h
      · cases h
      next hbefore =>
        have hvisits := ih h
        refine { hvisits with origin := fun x hx => ?_, miss := fun z hz => ?_
                              marked := fun z hz hne => ?_ }
        · exact (hvisits.origin x hx).imp_right fun h => ⟨mem_cons_of_mem _ h.1, h.2⟩
        · rcases mem_cons.1 hz with rfl | hz
          · exact fun hhit => hbefore hhit.2
          · exact hvisits.miss z hz
        · rcases mem_cons.1 hz with rfl | hz
          · exact absurd hevaluates hne
          · exact hvisits.marked z hz hne
    next hne =>
      split at h
      next hfalse =>
        obtain ⟨hlt, -⟩ := List.getElem?_eq_some_iff.1 hfalse
        have hvisits := ih h
        have hmark : ∀ x, visited[x]? = some true → (visited.set y true)[x]? = some true :=
          fun x hx => by
          have hyx : y ≠ x := by
            rintro rfl
            rw [hfalse] at hx
            cases hx
          rw [getElem?_set_ne hyx]
          exact hx
        have hy : visited'[y]? = some true := hvisits.marks y (getElem?_set_self hlt)
        refine
          { length := hvisits.length.trans length_set
            marks := fun x hx => hvisits.marks x (hmark x hx)
            queued := fun x hx => hvisits.queued x (mem_cons_of_mem _ hx)
            new := fun x hx => ?_
            origin := fun x hx => ?_
            miss := fun z hz => ?_
            marked := fun z hz hz' hlt => ?_ }
        · by_cases hyx : y = x
          · exact .inr (hvisits.queued x (hyx ▸ mem_cons_self))
          · have hnew := hvisits.new x hx
            rw [getElem?_set_ne hyx] at hnew
            exact hnew
        · rcases hvisits.origin x hx with hx | hx
          · rcases mem_cons.1 hx with rfl | hx
            · exact .inr ⟨mem_cons_self, hne⟩
            · exact .inl hx
          · exact .inr ⟨mem_cons_of_mem _ hx.1, hx.2⟩
        · rcases mem_cons.1 hz with rfl | hz
          · exact fun hhit => hne hhit.1
          · exact hvisits.miss z hz
        · rcases mem_cons.1 hz with rfl | hz
          · exact hy
          · exact hvisits.marked z hz hz' (by rw [length_set]; exact hlt)
      next htrue =>
        have hvisits := ih h
        refine { hvisits with origin := fun x hx => ?_, miss := fun z hz => ?_
                              marked := fun z hz hz' hlt => ?_ }
        · exact (hvisits.origin x hx).imp_right fun h => ⟨mem_cons_of_mem _ h.1, h.2⟩
        · rcases mem_cons.1 hz with rfl | hz
          · exact fun hhit => hne hhit.1
          · exact hvisits.miss z hz
        · rcases mem_cons.1 hz with rfl | hz
          · refine hvisits.marks z ?_
            rw [getElem?_eq_getElem hlt] at htrue ⊢
            cases hget : visited[z] with
            | true => rfl
            | false => exact absurd (congrArg some hget) htrue
          · exact hvisits.marked z hz hz' hlt

/-! ## One search -/

/-- What leads on from `x` was seen: no search done hits all of it, and the rest has marks. -/
def Seen (reads : LoadTimeReads) (position : List (Option ℕ)) (done : List (ℕ × ℕ))
    (visited : List Bool) (x : ℕ) : Prop :=
  ∀ y ∈ reads.dependentsOf x, (reads.effect y = .evaluates → ∃ s ∈ done, ¬Hit reads position s y) ∧
    (reads.effect y ≠ .evaluates → visited[y]? = some true)

/-- The marks after the searches in `done`, the last of which still has its queue. -/
structure Marks (reads : LoadTimeReads) (position : List (Option ℕ)) (done : List (ℕ × ℕ))
    (queue : List ℕ) (visited : List Bool) : Prop where
  length : visited.length = reads.visited.length
  range : ∀ x < visited.length, ∀ y ∈ reads.dependentsOf x, y < visited.length
  queued : ∀ x ∈ queue, x < visited.length
  seen : ∀ x : ℕ, visited[x]? = some true ∨ x ∈ done.map Prod.snd → x ∈ queue ∨
    Seen reads position done visited x

variable {id : ℕ}

/-- The dependents of the queue's first part. -/
theorem Marks.step (h : Marks reads position done (id :: queue) visited) (hdone : (k, w) ∈ done)
    (hvisits : Visits reads position k w (reads.dependentsOf id) queue queue' visited visited') :
    Marks reads position done queue' visited' where
  length := hvisits.length.trans h.length
  range x hx y hy := by
    rw [hvisits.length] at hx ⊢
    exact h.range x hx y hy
  queued x hx := by
    rw [hvisits.length]
    rcases hvisits.origin x hx with hx | ⟨hx, -⟩
    · exact h.queued x (mem_cons_of_mem _ hx)
    · exact h.range id (h.queued id mem_cons_self) x hx
  seen x hx := by
    have hid : Seen reads position done visited' id := fun y hy =>
      ⟨fun _ => ⟨(k, w), hdone, hvisits.miss y hy⟩,
        fun hne => hvisits.marked y hy hne (h.range id (h.queued id mem_cons_self) y hy)⟩
    have hold : visited[x]? = some true ∨ x ∈ done.map Prod.snd → x ∈ queue' ∨
        Seen reads position done visited' x := by
      intro hx
      rcases h.seen x hx with hx | hseen
      · rcases mem_cons.1 hx with rfl | hx
        · exact .inr hid
        · exact .inl (hvisits.queued x hx)
      · exact .inr fun y hy => (hseen y hy).imp_right fun h hne => hvisits.marks y (h hne)
    rcases hx with hx | hx
    · rcases hvisits.new x hx with hx | hx
      · exact hold (.inl hx)
      · exact .inl hx
    · exact hold (.inr hx)

theorem search_nil : reads.search position k w [] visited = (false, visited) := by
  rw [search]

theorem search_cons_none
    (h : reads.visitDependents position k w (reads.dependentsOf id) (queue, visited) = none) :
    reads.search position k w (id :: queue) visited = (true, visited) := by
  rw [search]
  split
  next => rfl
  next s hsome =>
    rw [dependentsOf, hsome] at h
    cases h

theorem search_cons_some {s : List ℕ × List Bool}
    (h : reads.visitDependents position k w (reads.dependentsOf id) (queue, visited) = some s) :
    reads.search position k w (id :: queue) visited = reads.search position k w s.1 s.2 := by
  rw [search]
  split
  next hnone =>
    rw [dependentsOf, hnone] at h
    cases h
  next s' hsome =>
    rw [dependentsOf, hsome] at h
    rw [Option.some.inj h]

/-- A search that returns found a part that it hits. -/
theorem search_eq_true (hqueue : ∀ x ∈ queue, x = w ∨ ReadBy reads w x ∧
    reads.effect x ≠ .evaluates)
    (h : (reads.search position k w queue visited).1 = true) :
    ∃ y, Hit reads position (k, w) y ∧ ReadBy reads w y := by
  induction queue, visited using search.induct reads position k w with
  | case1 visited =>
    rw [search_nil] at h
    cases h
  | case2 id queue visited hnone =>
    obtain ⟨y, hy, hhit⟩ := visitDependents_eq_none hnone
    refine ⟨y, hhit, ?_⟩
    rcases hqueue id mem_cons_self with rfl | ⟨hread, hne⟩
    · exact .direct hy
    · exact hread.snoc hne hy
  | case3 id queue visited s hsome ih =>
    have hvisits := visits hsome
    rw [search_cons_some hsome] at h
    refine ih (fun x hx => ?_) h
    rcases hvisits.origin x hx with hx | ⟨hx, hne⟩
    · exact hqueue x (mem_cons_of_mem _ hx)
    · rcases hqueue id mem_cons_self with rfl | ⟨hread, hid⟩
      · exact .inr ⟨.direct hx, hne⟩
      · exact .inr ⟨hread.snoc hid hx, hne⟩

/-- A search that ends has marked all that it leads to. -/
theorem Marks.search (hmarks : Marks reads position done queue visited) (hdone : (k, w) ∈ done)
    (h : (reads.search position k w queue visited).1 = false) :
    Marks reads position done [] (reads.search position k w queue visited).2 := by
  induction queue, visited using search.induct reads position k w with
  | case1 visited =>
    rw [search_nil]
    exact hmarks
  | case2 id queue visited hnone =>
    rw [search_cons_none hnone] at h
    cases h
  | case3 id queue visited s hsome ih =>
    rw [search_cons_some hsome] at h ⊢
    exact ih (hmarks.step hdone (visits hsome)) h

/-! ## All searches -/

/-- What a mark leads to was missed by some search done. -/
theorem Marks.miss (h : Marks reads position done [] visited) (hxy : ReadBy reads x y)
    (hx : visited[x]? = some true ∨ x ∈ done.map Prod.snd) (hy : reads.effect y = .evaluates) :
    ∃ s ∈ done, ¬Hit reads position s y := by
  induction hxy with
  | @direct x y hmem =>
    have hseen := (h.seen x hx).resolve_left not_mem_nil
    exact (hseen y hmem).1 hy
  | @through x z y hmem hz _ ih =>
    have hseen := (h.seen x hx).resolve_left not_mem_nil
    exact ih (.inl ((hseen z hmem).2 hz)) hy

/-- Searches that share their marks find a hit if there is one, when what a search would hit is hit
by every search before it. -/
theorem searchAll_iff {parts : List (ℕ × ℕ)} (hmarks : Marks reads position done [] visited)
    (hlt : ∀ s ∈ parts, s.2 < reads.visited.length)
    (hmono : ∀ before s after, done ++ parts = before ++ s :: after → ∀ t ∈ before, ∀ y,
      Hit reads position s y → ReadBy reads s.2 y → Hit reads position t y) :
    reads.searchAll position parts visited = true ↔ ∃ s ∈ parts, ∃ y, Hit reads position s y ∧
      ReadBy reads s.2 y := by
  induction parts generalizing done visited with
  | nil =>
    refine iff_of_false Bool.false_ne_true ?_
    rintro ⟨s, hs, -⟩
    exact not_mem_nil hs
  | cons s parts ih =>
    obtain ⟨k, w⟩ := s
    rw [searchAll, Bool.or_eq_true, exists_mem_cons_iff]
    cases hsearch : (reads.search position k w [w] visited).1 with
    | true =>
      refine iff_of_true (.inl rfl)
        (.inl (search_eq_true (fun x hx => .inl (mem_singleton.1 hx)) hsearch))
    | false =>
      have hdone : (k, w) ∈ done ++ [(k, w)] := mem_append_right _ mem_cons_self
      have hfirst : Marks reads position (done ++ [(k, w)]) [w] visited :=
        { length := hmarks.length
          range := hmarks.range
          queued := fun x hx => by
            rw [mem_singleton.1 hx, hmarks.length]
            exact hlt _ mem_cons_self
          seen := fun x hx => by
            rw [map_append, mem_append, map_singleton, mem_singleton, ← or_assoc] at hx
            rcases hx with hx | rfl
            · refine .inr fun y hy => ?_
              have hseen := (hmarks.seen x hx).resolve_left not_mem_nil y hy
              refine ⟨fun hevaluates => ?_, hseen.2⟩
              obtain ⟨t, ht, hmiss⟩ := hseen.1 hevaluates
              exact ⟨t, mem_append_left _ ht, hmiss⟩
            · exact .inl mem_cons_self }
      have hafter := hfirst.search hdone hsearch
      rw [ih hafter (fun s hs => hlt s (mem_cons_of_mem _ hs)) fun before s after h =>
        hmono before s after ((append_cons ..).trans h)]
      have hmiss : ¬∃ y, Hit reads position (k, w) y ∧ ReadBy reads w y := by
        rintro ⟨y, hhit, hread⟩
        obtain ⟨t, ht, hmiss⟩ := hafter.miss hread (.inr (mem_map_of_mem hdone)) hhit.1
        rcases mem_append.1 ht with ht | ht
        · exact hmiss (hmono done (k, w) parts rfl t ht y hhit hread)
        · exact hmiss (mem_singleton.1 ht ▸ hhit)
      exact ⟨fun h => .inr (h.resolve_left Bool.false_ne_true),
        fun h => .inr (h.resolve_left hmiss)⟩

end Soup.Bundler.LoadTimeReads
