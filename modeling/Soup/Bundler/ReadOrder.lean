import Soup.Bundler.ReadSearch

/-!
# Runs that are broken by a read at load

A run list is broken when a part that evaluates code names, itself or through parts that evaluate
nothing, a binding that a part of another file gives its value in a later run
(`LoadGraph.IsBroken`). `LoadTimeReads.isBrokenBy` finds that out for run lists where between two
runs of a file that evaluates code there are no files that it names (`LoadGraph.Separated`), and
leaves its scratch tables as they were.
-/

namespace Soup.Bundler

open List

namespace LoadGraph

variable (c : LoadGraph)

/-- The part `q` names a binding of the part `p`, itself or through parts that evaluate nothing. -/
inductive NamesThrough : ℕ × ℕ → ℕ × ℕ → Prop
  | direct {q p : ℕ × ℕ} (h : c.Names q p) : NamesThrough q p
  | through {q r p : ℕ × ℕ} (hqr : NamesThrough q r) (hr : c.effect r ≠ .evaluates)
      (hrp : c.Names r p) : NamesThrough q p

variable {c} in
theorem NamesThrough.isPart {q p : ℕ × ℕ} (h : c.NamesThrough q p) : c.IsPart q := by
  induction h with
  | direct h => exact h.isPart_left
  | through _ _ _ ih => exact ih

/-- The part is one of the run. -/
def InRun (run : PartRun) (p : ℕ × ℕ) : Prop :=
  c.IsPart p ∧ p.1 = run.sourceIndex ∧ run.begin ≤ p.2 ∧ ∀ stop ∈ run.end, p.2 < stop

/-- A part that evaluates code names a binding that a part of another file in a later run gives its
value. -/
def IsBroken (runs : List PartRun) : Prop :=
  ∃ (k l : ℕ) (run later : PartRun) (q p : ℕ × ℕ), k < l ∧ runs[k]? = some run ∧
    runs[l]? = some later ∧
    c.InRun run q ∧ c.InRun later p ∧ q.1 ≠ p.1 ∧ c.effect q = .evaluates ∧ c.effect p ≠ .hoisted ∧
      c.NamesThrough q p

/-- The runs of a file that evaluates code are next to each other, or apart by files that none of
its parts names, itself or through parts that evaluate nothing. -/
def Separated (runs : List PartRun) : Prop :=
  ∀ (k l m : ℕ) (before between after : PartRun), k < l → l < m → runs[k]? = some before →
    runs[l]? = some between →
    runs[m]? = some after → before.sourceIndex = after.sourceIndex →
      between.sourceIndex ≠ before.sourceIndex →
    (∃ i, c.effect (before.sourceIndex, i) = .evaluates) →
    ∀ i j, ¬c.NamesThrough (before.sourceIndex, i) (between.sourceIndex, j)

end LoadGraph

namespace LoadTimeReads

variable {c : LoadGraph} {runs : List PartRun} {p q : ℕ × ℕ} {k id : ℕ}

/-! ## The parts of the runs -/

theorem mem_partsOfRun {run : PartRun} :
    id ∈ (new c).partsOfRun c run ↔ ∃ p, c.InRun run p ∧ c.effect p ≠ .hoisted ∧ id = c.idOf p := by
  rw [partsOfRun, mem_filter, mem_map]
  constructor
  · rintro ⟨⟨i, hi, rfl⟩, heffect⟩
    obtain ⟨hbegin, hend⟩ := mem_range'_1.1 hi
    cases hfile : c.files[run.sourceIndex]? with
    | none =>
      rw [hfile] at hend
      simp only [Option.map_none, Option.getD_none, Nat.min_zero] at hend
      omega
    | some file =>
      rw [hfile] at hend
      simp only [Option.map_some, Option.getD_some] at hend
      have hpart : c.IsPart (run.sourceIndex, i) := ⟨file, hfile, by simp only; omega⟩
      refine ⟨(run.sourceIndex, i), ⟨hpart, rfl, hbegin, fun stop hstop => ?_⟩, ?_, rfl⟩
      · rw [hstop, Option.getD_some] at hend
        simp only
        omega
      · rw [← effect_new hpart]
        exact bne_iff_ne.1 heffect
  · rintro ⟨⟨f, i⟩, ⟨hpart, hf, hbegin, hend⟩, heffect, rfl⟩
    simp only at hf hbegin hend
    subst hf
    obtain ⟨file, hfile, hlt⟩ := hpart
    refine ⟨⟨i, mem_range'_1.2 ⟨hbegin, ?_⟩, rfl⟩, bne_iff_ne.2 ?_⟩
    · rw [hfile]
      simp only [Option.map_some, Option.getD_some] at hlt ⊢
      cases hstop : run.end with
      | none =>
        rw [Option.getD_none]
        omega
      | some stop =>
        have := hend stop hstop
        rw [Option.getD_some]
        omega
    · rw [← effect_new ⟨file, hfile, hlt⟩] at heffect
      exact heffect

theorem mem_partsBackward : (k, id) ∈ (new c).partsBackward c runs ↔
    ∃ run p, runs[k]? = some run ∧ c.InRun run p ∧ c.effect p ≠ .hoisted ∧ id = c.idOf p := by
  rw [partsBackward, mem_flatMap]
  constructor
  · rintro ⟨⟨run, k'⟩, hrun, h⟩
    obtain ⟨id', hid, heq⟩ := mem_map.1 h
    obtain ⟨rfl, rfl⟩ := Prod.mk.inj heq
    obtain ⟨p, hp⟩ := mem_partsOfRun.1 hid
    exact ⟨run, p, mk_mem_zipIdx_iff_getElem?.1 (mem_reverse.1 hrun), hp⟩
  · rintro ⟨run, p, hrun, hp⟩
    exact ⟨(run, k), mem_reverse.2 (mk_mem_zipIdx_iff_getElem?.2 hrun),
      mem_map.2 ⟨id, mem_partsOfRun.2 ⟨p, hp⟩, rfl⟩⟩

/-- Later runs come first. -/
theorem pairwise_partsBackward : ((new c).partsBackward c runs).Pairwise fun s t => t.1 ≤ s.1 := by
  rw [partsBackward, pairwise_flatMap]
  refine ⟨fun run _ => pairwise_map.2 (pairwise_of_forall fun _ _ => le_rfl), ?_⟩
  rw [pairwise_reverse]
  have hsorted : runs.zipIdx.Pairwise fun s t => s.2 ≤ t.2 := by
    rw [← pairwise_map (f := Prod.snd) (R := fun i j : ℕ => i ≤ j), zipIdx_map_snd]
    exact pairwise_le_range'
  refine hsorted.imp fun h x hx y hy => ?_
  obtain ⟨_, _, rfl⟩ := mem_map.1 hx
  obtain ⟨_, _, rfl⟩ := mem_map.1 hy
  exact h

/-! ## Positions -/

variable {parts : List (ℕ × ℕ)} {position : List (Option ℕ)}

theorem length_foldl_set (f : ℕ × ℕ → Option ℕ) (parts : List (ℕ × ℕ))
    (position : List (Option ℕ)) :
    (parts.foldl (fun position s => position.set s.2 (f s)) position).length = position.length := by
  induction parts generalizing position with
  | nil => rfl
  | cons s parts ih => rw [foldl_cons, ih, length_set]

/-- After the first pass a part has its first run. -/
theorem any_position (hclean : ∀ id, position.getD id none = none)
    (hlt : ∀ s ∈ parts, s.2 < position.length)
    (hsorted : parts.Pairwise fun s t => t.1 ≤ s.1) (l : ℕ) :
    ((parts.foldl (fun position s => position.set s.2 (some s.1)) position).getD id none).any
      (· < l) = true ↔ ∃ k < l, (k, id) ∈ parts := by
  induction parts using reverseRecOn with
  | nil =>
    rw [foldl_nil, hclean]
    refine iff_of_false Bool.false_ne_true ?_
    rintro ⟨k, -, h⟩
    exact not_mem_nil h
  | append_singleton parts s ih =>
    obtain ⟨hparts, -, hlast⟩ := pairwise_append.1 hsorted
    have hrange : s.2 <
        (parts.foldl (fun position s => position.set s.2 (some s.1)) position).length := by
      rw [length_foldl_set]
      exact hlt s (mem_append_right _ mem_cons_self)
    rw [foldl_append, foldl_cons, foldl_nil, getD_eq_getElem?_getD]
    by_cases hid : s.2 = id
    · rw [← hid, getElem?_set_self hrange, Option.getD_some, Option.any_some, decide_eq_true_eq]
      refine ⟨fun h => ⟨s.1, h, mem_append_right _ mem_cons_self⟩, ?_⟩
      rintro ⟨k, hk, hmem⟩
      rcases mem_append.1 hmem with hmem | hmem
      · exact (hlast _ hmem s mem_cons_self).trans_lt hk
      · rw [← mem_singleton.1 hmem]
        exact hk
    · rw [getElem?_set_ne hid, ← getD_eq_getElem?_getD,
        ih (fun t ht => hlt t (mem_append_left _ ht)) hparts]
      refine exists_congr fun k => and_congr_right fun _ => ⟨mem_append_left _, fun hmem => ?_⟩
      refine (mem_append.1 hmem).resolve_right fun h => ?_
      exact hid (congrArg Prod.snd (mem_singleton.1 h)).symm

/-- The last pass takes back what the first has written. -/
theorem foldl_set_none (h : ∀ id, position.getD id none ≠ none → id ∈ parts.map Prod.snd) :
    parts.foldl (fun position s => position.set s.2 none) position =
      replicate position.length none := by
  induction parts generalizing position with
  | nil =>
    rw [foldl_nil]
    refine eq_replicate_iff.2 ⟨rfl, fun entry hentry => ?_⟩
    obtain ⟨id, hid⟩ := mem_iff_getElem?.1 hentry
    by_contra hne
    refine not_mem_nil (h id ?_)
    rw [getD_eq_getElem?_getD, hid]
    exact hne
  | cons s parts ih =>
    rw [foldl_cons, ih fun id hid => ?_, length_set]
    rw [getD_eq_getElem?_getD] at hid
    by_cases heq : s.2 = id
    · rw [heq, getElem?_set_self'] at hid
      cases hget : position[id]? with
      | none =>
        rw [hget] at hid
        exact absurd rfl hid
      | some entry =>
        rw [hget] at hid
        exact absurd rfl hid
    · rw [getElem?_set_ne heq, ← getD_eq_getElem?_getD] at hid
      refine (mem_cons.1 (h id hid)).resolve_left (Ne.symm heq)

theorem mem_of_foldl_set (hclean : ∀ id, position.getD id none = none) (id : ℕ)
    (h : (parts.foldl (fun position s => position.set s.2 (some s.1)) position).getD id none ≠
      none) :
    id ∈ parts.map Prod.snd := by
  induction parts using reverseRecOn with
  | nil => exact absurd (hclean id) h
  | append_singleton parts s ih =>
    rw [map_append, mem_append]
    rw [foldl_append, foldl_cons, foldl_nil, getD_eq_getElem?_getD] at h
    by_cases heq : s.2 = id
    · exact .inr (mem_singleton.2 heq.symm)
    · rw [getElem?_set_ne heq, ← getD_eq_getElem?_getD] at h
      exact .inl (ih h)

/-! ## The reads -/

theorem clean_new (c : LoadGraph) (id : ℕ) : (new c).position.getD id none = none := by
  rw [getD_eq_getElem?_getD, new, getElem?_replicate]
  split <;> rfl

/-- The scratch tables are left as they were. -/
theorem isBrokenBy_new (c : LoadGraph) (runs : List PartRun) :
    ((new c).isBrokenBy c runs).2 = new c := by
  have hposition : ((new c).partsBackward c runs).foldl _ _ = _ :=
    foldl_set_none (mem_of_foldl_set (clean_new c))
  rw [length_foldl_set] at hposition
  rw [isBrokenBy, hposition]
  simp only [new, length_replicate]

/-- What reads a part's bindings, in the words of the graph. -/
theorem readBy_iff (hp : c.IsPart p) : ReadBy (new c) (c.idOf p) id ↔ ∃ q, c.NamesThrough q p ∧
    id = c.idOf q := by
  constructor
  · intro h
    generalize hx : c.idOf p = x at h
    induction h generalizing p with
    | direct hmem =>
      subst hx
      obtain ⟨q, hnames, rfl⟩ := (mem_dependentsOf hp).1 hmem
      exact ⟨q, .direct hnames, rfl⟩
    | through hmem hne _ ih =>
      subst hx
      obtain ⟨r, hnames, rfl⟩ := (mem_dependentsOf hp).1 hmem
      obtain ⟨q, hq, rfl⟩ := ih hnames.isPart_left rfl
      rw [effect_new hnames.isPart_left] at hne
      exact ⟨q, .through hq hne hnames, rfl⟩
  · rintro ⟨q, hq, rfl⟩
    induction hq with
    | direct hnames => exact .direct ((mem_dependentsOf hp).2 ⟨_, hnames, rfl⟩)
    | through hqr hr hnames ih =>
      refine .through ((mem_dependentsOf hp).2 ⟨_, hnames, rfl⟩) ?_ (ih hnames.isPart_left)
      rw [effect_new hnames.isPart_left]
      exact hr

/-- The positions in the search. -/
def positions (c : LoadGraph) (runs : List PartRun) : List (Option ℕ) :=
  ((new c).partsBackward c runs).foldl (fun position s => position.set s.2 (some s.1))
    (new c).position

/-- What is hit, in the words of the graph. -/
theorem hit_iff (hp : c.IsPart p) (hq : c.IsPart q) (l : ℕ) :
    Hit (new c) (positions c runs) (l, c.idOf p) (c.idOf q) ↔
      c.effect q = .evaluates ∧ q.1 ≠ p.1 ∧ ∃ k < l, ∃ run, runs[k]? = some run ∧
        c.InRun run q := by
  have hlt : ∀ s ∈ (new c).partsBackward c runs, s.2 < (new c).position.length := fun s hs => by
    obtain ⟨run, p, -, hrun, -, hid⟩ := mem_partsBackward.1 hs
    rw [hid, new, length_replicate]
    exact hrun.1.idOf_lt
  have hfile : ∀ {r}, c.IsPart r → (new c).fileOfPart.getD (c.idOf r) 0 = r.1 := fun hr => by
    rw [getD_eq_getElem?_getD]
    exact congrArg (Option.getD · 0) hr.fileOfPart
  rw [Hit, isBefore, Bool.and_eq_true, positions,
    any_position (clean_new c) hlt pairwise_partsBackward, bne_iff_ne,
    hfile hp, hfile hq, effect_new hq]
  refine and_congr_right fun heffect =>
    and_comm.trans (and_congr_right fun _ => exists_congr fun k =>
    and_congr_right fun _ => ?_)
  rw [mem_partsBackward]
  constructor
  · rintro ⟨run, r, hrun, hr, -, hid⟩
    obtain rfl := LoadGraph.idOf_inj hq hr.1 hid
    exact ⟨run, hrun, hr⟩
  · rintro ⟨run, hrun, hq'⟩
    exact ⟨run, q, hrun, hq', by rw [heffect]; decide, rfl⟩

/-- What a search would hit is hit by every search before it. -/
theorem hit_of_separated (h : c.Separated runs) {before after : List (ℕ × ℕ)} {s t : ℕ × ℕ}
    (hparts : (new c).partsBackward c runs = before ++ s :: after) (ht : t ∈ before) {id : ℕ}
    (hhit : Hit (new c) (positions c runs) s id) (hread : ReadBy (new c) s.2 id) :
    Hit (new c) (positions c runs) t id := by
  obtain ⟨l, x⟩ := s
  obtain ⟨m, y⟩ := t
  have hlm : l ≤ m := (pairwise_append.1 (hparts ▸ pairwise_partsBackward)).2.2 _ ht _ mem_cons_self
  obtain ⟨between, p, hl, hp, -, rfl⟩ :=
    mem_partsBackward.1 (hparts.symm ▸ mem_append_right _ mem_cons_self : (l, x) ∈ _)
  obtain ⟨last, r, hm, hr, -, rfl⟩ :=
    mem_partsBackward.1 (hparts.symm ▸ mem_append_left _ ht : (m, y) ∈ _)
  obtain ⟨q, hq, rfl⟩ := (readBy_iff hp.1).1 hread
  obtain ⟨heffect, hne, k, hk, run, hrun, hrunq⟩ := (hit_iff hp.1 hq.isPart l).1 hhit
  refine (hit_iff hr.1 hq.isPart m).2 ⟨heffect, fun hfile => ?_, k, hk.trans_le hlm, run, hrun,
    hrunq⟩
  have hlt : l < m := by
    refine lt_of_le_of_ne hlm ?_
    rintro rfl
    obtain rfl := Option.some.inj (hl.symm.trans hm)
    exact hne (hfile.trans (hr.2.1.trans hp.2.1.symm))
  have hq1 := hrunq.2.1
  have hp1 := hp.2.1
  refine h k l m run between last hk hlt hrun hl hm (hq1.symm.trans (hfile.trans hr.2.1)) ?_
    ⟨q.2, hq1 ▸ heffect⟩ q.2 p.2 (hq1 ▸ hp1 ▸ hq)
  exact fun heq => hne (hq1.trans (heq.symm.trans hp1.symm))

/-- The check is exact on run lists whose runs are separated, after any checks before it, and every
check leaves the tables as they were. -/
theorem isBrokenBy_iff (c : LoadGraph) (earlier : List (List PartRun)) (runs : List PartRun)
    (h : c.Separated runs) :
    let reads := earlier.foldl (fun reads runs => (reads.isBrokenBy c runs).2) (new c)
    reads = new c ∧ ((reads.isBrokenBy c runs).1 = true ↔ c.IsBroken runs) ∧
      (reads.isBrokenBy c runs).2 = reads := by
  intro reads
  have hreads : reads = new c := by
    simp only [reads]
    induction earlier with
    | nil => rfl
    | cons runs earlier ih =>
      rw [foldl_cons, isBrokenBy_new]
      exact ih
  rw [hreads]
  refine ⟨rfl, ?_, isBrokenBy_new c runs⟩
  have hlen : (new c).visited.length = c.partIds.2.length := length_replicate
  have hmarks : Marks (new c) (positions c runs) [] [] (new c).visited :=
    { length := rfl
      range := fun x hx y hy => by
        rw [hlen] at hx ⊢
        exact dependentsOf_lt hx hy
      queued := fun x hx => (by cases hx)
      seen := fun x hx => by
        rcases hx with hx | hx
        · rw [new, getElem?_replicate] at hx
          split at hx
          · cases hx
          · cases hx
        · cases hx }
  have hlt : ∀ s ∈ (new c).partsBackward c runs, s.2 < (new c).visited.length := fun s hs => by
    obtain ⟨run, p, -, hrun, -, hid⟩ := mem_partsBackward.1 hs
    rw [hid, hlen]
    exact hrun.1.idOf_lt
  have hall : (new c).searchAll (positions c runs) ((new c).partsBackward c runs) (new c).visited =
    true ↔
      ∃ s ∈ (new c).partsBackward c runs, ∃ y, Hit (new c) (positions c runs) s y ∧
        ReadBy (new c) s.2 y :=
    searchAll_iff hmarks hlt fun before s after hparts t ht y => hit_of_separated h hparts ht
  refine hall.trans ?_
  constructor
  · rintro ⟨⟨l, x⟩, hs, y, hhit, hread⟩
    obtain ⟨later, p, hl, hp, heffect, rfl⟩ := mem_partsBackward.1 hs
    obtain ⟨q, hq, rfl⟩ := (readBy_iff hp.1).1 hread
    obtain ⟨hevaluates, hne, k, hk, run, hrun, hrunq⟩ := (hit_iff hp.1 hq.isPart l).1 hhit
    exact ⟨k, l, run, later, q, p, hk, hrun, hl, hrunq, hp, hne, hevaluates, heffect, hq⟩
  · rintro ⟨k, l, run, later, q, p, hk, hrun, hl, hrunq, hp, hne, hevaluates, heffect, hq⟩
    exact ⟨(l, c.idOf p), mem_partsBackward.2 ⟨later, p, hl, hp, heffect, rfl⟩, c.idOf q,
      (hit_iff hp.1 hrunq.1 l).2 ⟨hevaluates, hne, k, hk, run, hrun, hrunq⟩,
      (readBy_iff hp.1).2 ⟨q, hq, rfl⟩⟩

/-- The second file calls a function of the third at once, and the function reads a binding of its
own file. -/
def callsAhead : LoadGraph where
  files := [⟨[], .none, false, true⟩,
    ⟨[⟨[], [], true⟩, ⟨[.other], [⟨2, 1⟩], true⟩, ⟨[.other], [], true⟩], .none, false, true⟩,
    ⟨[⟨[], [], true⟩, ⟨[.sFunction], [⟨2, 2⟩], true⟩, ⟨[.sLocal [some .eNumber]], [], true⟩], .none,
    false, true⟩,
    ⟨[⟨[], [], true⟩, ⟨[.other], [], true⟩], .none, false, true⟩]
  reachableFiles := [0, 1, 2, 3]
  dependencies_lt := by
    simp

/-- A run list with the second file in two runs and the third behind them. -/
theorem isBrokenBy_iff_callsAhead :
    callsAhead.Separated [⟨1, 0, some 2⟩, ⟨3, 0, none⟩, ⟨1, 2, none⟩, ⟨2, 0, none⟩] ∧
      ((new callsAhead).isBrokenBy callsAhead [⟨1, 0, some 2⟩, ⟨3, 0, none⟩, ⟨1, 2, none⟩,
        ⟨2, 0, none⟩]).1 = true := by
  have hfile : ∀ {q p}, callsAhead.NamesThrough q p → p.1 = 2 := by
    have hnames : ∀ {q p}, callsAhead.Names q p → p.1 = 2 := by
      rintro q p ⟨part, hpart, hmem⟩
      obtain ⟨-, file, hfile, -, hpart, -⟩ := LoadGraph.livePart?_eq_some.1 hpart
      have hall : (callsAhead.files.all fun file => file.parts.all fun part => part.dependencies.all
        fun d =>
        d.sourceIndex == 2) = true := by rfl
      have hpart := all_eq_true.1 (all_eq_true.1 hall file (mem_of_getElem? hfile)) part
        (mem_of_getElem? hpart)
      exact beq_iff_eq.1 (all_eq_true.1 hpart _ hmem)
    intro q p h
    cases h with
    | direct h => exact hnames h
    | through _ _ h => exact hnames h
  have hseparated :
      callsAhead.Separated [⟨1, 0, some 2⟩, ⟨3, 0, none⟩, ⟨1, 2, none⟩, ⟨2, 0, none⟩] := by
    intro k l m before between after hkl hlm hk hl hm _ _ _ i j h
    have hbetween := hfile h
    have hm := (List.getElem?_eq_some_iff.1 hm).1
    simp only [length_cons, length_nil] at hm
    have hcases : l = 1 ∨ l = 2 := by omega
    rcases hcases with rfl | rfl
    · cases Option.some.inj hl
      cases hbetween
    · cases Option.some.inj hl
      cases hbetween
  refine ⟨hseparated, (isBrokenBy_iff callsAhead [] _ hseparated).2.1.2 ?_⟩
  refine ⟨0, 3, _, _, (1, 1), (2, 2), by decide, rfl, rfl,
    ⟨⟨_, rfl, by decide⟩, rfl, by decide, ?_⟩,
    ⟨⟨_, rfl, by decide⟩, rfl, by decide, ?_⟩, by decide, rfl, by decide, ?_⟩
  · exact fun stop hstop => by cases hstop; decide
  · exact fun stop hstop => by cases hstop
  · refine .through (r := (2, 1)) (.direct ⟨_, rfl, ?_⟩) (by decide) ⟨_, rfl, ?_⟩
    · exact mem_cons_self
    · exact mem_cons_self

end LoadTimeReads

end Soup.Bundler
