import Mathlib.Data.List.Induction
import Soup.Bundler.LoadTimeReads

/-!
# The tables of the reads at load

What the tables of `LoadTimeReads.new` hold, in the words of the graph: a part is a file and an
index, it does something where it prints (`LoadGraph.effect`), and it names bindings of other parts
(`LoadGraph.Names`).
-/

namespace Soup.Bundler

open List

/-! ## Parts -/

/-- The live part of a file that is reached, live and not of CSS. -/
def LoadGraph.livePart? (c : LoadGraph) (p : ℕ × ℕ) : Option LoadPart :=
  if p.1 ∈ c.reachableFiles then
    c.files[p.1]?.bind fun file => if !file.live || file.isCss then none
      else file.parts[p.2]?.filter (·.live)
  else none

/-- The part runs where it prints. -/
def LoadGraph.runsInPlace (c : LoadGraph) (p : ℕ × ℕ) : Bool :=
  c.wrapOf p.1 = .none && p.1 != runtimeIndex && p.2 != namespaceExportPartIndex

/-- What a part does where it prints. -/
def LoadGraph.effect (c : LoadGraph) (p : ℕ × ℕ) : LoadEffect :=
  ((c.livePart? p).filter fun _ => c.runsInPlace p).elim .hoisted fun part =>
    LoadEffect.of part.stmts

/-- The part `q` names a binding of the part `p`. -/
def LoadGraph.Names (c : LoadGraph) (q p : ℕ × ℕ) : Prop :=
  ∃ part ∈ c.livePart? q, ⟨p.1, p.2⟩ ∈ part.dependencies

/-- A part of some file. -/
def LoadGraph.IsPart (c : LoadGraph) (p : ℕ × ℕ) : Prop :=
  ∃ file, c.files[p.1]? = some file ∧ p.2 < file.parts.length

/-- The id of a part. -/
def LoadGraph.idOf (c : LoadGraph) (p : ℕ × ℕ) : ℕ := c.partIds.1.getD p.1 0 + p.2

variable {c : LoadGraph} {p q : ℕ × ℕ}

theorem LoadGraph.livePart?_eq_some {part : LoadPart} : c.livePart? p = some part ↔
    p.1 ∈ c.reachableFiles ∧ ∃ file, c.files[p.1]? = some file ∧
      (!file.live || file.isCss) = false ∧ file.parts[p.2]? = some part ∧ part.live = true := by
  rw [livePart?]
  constructor
  · intro h
    split at h
    next hmem =>
      obtain ⟨file, hfile, h⟩ := Option.bind_eq_some_iff.1 h
      split at h
      · cases h
      next hlive => exact ⟨hmem, file, hfile, Bool.eq_false_iff.2 hlive,
        Option.filter_eq_some_iff.1 h⟩
    next => cases h
  · rintro ⟨hmem, file, hfile, hlive, hpart⟩
    rw [if_pos hmem, hfile, Option.bind_some, hlive, if_neg Bool.false_ne_true]
    exact Option.filter_eq_some_iff.2 hpart

theorem LoadGraph.isPart_of_live {part : LoadPart} (h : c.livePart? p = some part) :
    c.IsPart p := by
  obtain ⟨-, file, hfile, -, hpart, -⟩ := livePart?_eq_some.1 h
  exact ⟨file, hfile, (List.getElem?_eq_some_iff.1 hpart).1⟩

theorem LoadGraph.Names.isPart_left (h : c.Names q p) : c.IsPart q := by
  obtain ⟨part, hpart, -⟩ := h
  exact isPart_of_live hpart

theorem LoadGraph.Names.isPart_right (h : c.Names q p) : c.IsPart p := by
  obtain ⟨part, hpart, hmem⟩ := h
  obtain ⟨-, file, hfile, -, hpart, -⟩ := livePart?_eq_some.1 hpart
  exact c.dependencies_lt file (mem_of_getElem? hfile) part (mem_of_getElem? hpart) _ hmem

/-! ## Ids -/

/-- The first ids of the files and the files of the ids. -/
structure NumbersParts (files : List LoadFile) (ids : List ℕ × List ℕ) : Prop where
  length : ids.1.length = files.length
  file : ∀ f file i, files[f]? = some file → i < file.parts.length →
    ids.2[ids.1.getD f 0 + i]? = some f

/-- One more file. -/
theorem NumbersParts.step {files : List LoadFile} {ids : List ℕ × List ℕ}
    (h : NumbersParts files ids) (last : LoadFile) : NumbersParts (files ++ [last])
      (ids.1 ++ [ids.2.length], ids.2 ++ replicate last.parts.length files.length) where
  length := by rw [length_append, length_append, h.length, length_singleton, length_singleton]
  file f file i hf hi := by
    rcases lt_trichotomy f files.length with hlt | rfl | hgt
    · rw [getElem?_append_left hlt] at hf
      have hid := h.file f file i hf hi
      have hlt' : f < ids.1.length := by
        rw [h.length]
        exact hlt
      rw [getD_eq_getElem?_getD, getElem?_append_left hlt', ← getD_eq_getElem?_getD,
        getElem?_append_left (List.getElem?_eq_some_iff.1 hid).1]
      exact hid
    · rw [getElem?_concat_length] at hf
      obtain rfl := Option.some.inj hf
      rw [← h.length, getD_eq_getElem?_getD, getElem?_concat_length, Option.getD_some,
        getElem?_append_right (Nat.le_add_right _ _), Nat.add_sub_cancel_left, getElem?_replicate,
        if_pos hi]
    · rw [getElem?_eq_none (by rw [length_append, length_singleton]; omega)] at hf
      cases hf

theorem numbersParts (c : LoadGraph) : NumbersParts c.files c.partIds := by
  rw [LoadGraph.partIds]
  generalize c.files = files
  induction files using reverseRecOn with
  | nil => exact ⟨rfl, fun f file i h => by cases h⟩
  | append_singleton files last ih =>
    have hstep := ih.step last
    rw [zipIdx_append, foldl_append]
    exact (zero_add files.length).symm ▸ hstep

/-- The file of a part's id. -/
theorem LoadGraph.IsPart.fileOfPart (h : c.IsPart p) : c.partIds.2[c.idOf p]? = some p.1 := by
  obtain ⟨file, hfile, hlt⟩ := h
  exact (numbersParts c).file p.1 file p.2 hfile hlt

theorem LoadGraph.IsPart.idOf_lt (h : c.IsPart p) : c.idOf p < c.partIds.2.length :=
  (List.getElem?_eq_some_iff.1 h.fileOfPart).1

/-- Different parts have different ids. -/
theorem LoadGraph.idOf_inj (hp : c.IsPart p) (hq : c.IsPart q) (h : c.idOf p = c.idOf q) :
    p = q := by
  have hfile : p.1 = q.1 := Option.some.inj (hp.fileOfPart.symm.trans (h ▸ hq.fileOfPart))
  rw [idOf, idOf, hfile] at h
  exact Prod.ext hfile (Nat.add_left_cancel h)

variable {l : LivePart}

/-- What `for_each_live_part` hands out. -/
theorem LoadGraph.mem_liveParts : l ∈ c.liveParts c.partIds.1 ↔
    ∃ p, c.livePart? p = some l.part ∧ l.file = p.1 ∧ l.id = c.idOf p := by
  rw [liveParts, mem_flatMap]
  constructor
  · rintro ⟨f, hf, h⟩
    split at h
    · cases h
    next file hfile =>
      split at h
      · cases h
      next hlive =>
        obtain ⟨⟨part, i⟩, hpart, rfl⟩ := mem_map.1 h
        obtain ⟨hget, hpart⟩ := mem_filter.1 hpart
        refine ⟨(f, i), livePart?_eq_some.2 ⟨hf, file, hfile, Bool.eq_false_iff.2 hlive, ?_, hpart⟩,
          rfl, rfl⟩
        exact mk_mem_zipIdx_iff_getElem?.1 hget
  · rintro ⟨p, hpart, hfile, hid⟩
    obtain ⟨hmem, file, hget, hlive, hpart, hl⟩ := livePart?_eq_some.1 hpart
    refine ⟨p.1, hmem, ?_⟩
    rw [hget]
    simp only [hlive, Bool.false_eq_true, if_false]
    refine mem_map.2 ⟨(l.part, p.2), mem_filter.2 ⟨mk_mem_zipIdx_iff_getElem?.2 hpart, hl⟩, ?_⟩
    cases l
    simp only at hfile hid
    rw [hfile, hid]
    rfl

/-! ## Effects -/

namespace LoadTimeReads

/-- The effect that the first pass writes. -/
def written? (c : LoadGraph) (l : LivePart) : Option LoadEffect :=
  if c.wrapOf l.file = .none && l.file != runtimeIndex &&
      l.id - c.partIds.1.getD l.file 0 != namespaceExportPartIndex then
    some (LoadEffect.of l.part.stmts)
  else none

/-- The effects after some parts. -/
structure Effects (c : LoadGraph) (live : List LivePart) (effects : List LoadEffect) : Prop where
  length : effects.length = c.partIds.2.length
  some : ∀ l ∈ live, ∀ effect ∈ written? c l, effects[l.id]? = some effect
  none : ∀ id, (∀ l ∈ live, l.id = id → written? c l = none) → effects.getD id .hoisted = .hoisted

variable {live : List LivePart}

/-- One more part. -/
theorem Effects.step {s : List LoadEffect × List ℕ}
    (h : Effects c live s.1) (hlt : l.id < c.partIds.2.length)
    (hinj : ∀ m ∈ live, l.id = m.id → written? c l = written? c m) :
    Effects c (live ++ [l]) (countPart c c.partIds.1 s l).1 := by
  cases hwritten : written? c l with
  | none =>
    have heffects : (countPart c c.partIds.1 s l).1 = s.1 := by
      refine if_neg fun hif => ?_
      rw [written?, if_pos hif] at hwritten
      cases hwritten
    rw [heffects]
    refine ⟨h.length, fun m hm effect heffect => ?_, fun id hid => h.none id fun m hm =>
      hid m (mem_append_left _ hm)⟩
    rcases mem_append.1 hm with hm | hm
    · exact h.some m hm effect heffect
    · rw [mem_singleton.1 hm, hwritten] at heffect
      cases heffect
  | some effect =>
    have heffects : (countPart c c.partIds.1 s l).1 = s.1.set l.id effect := by
      rw [written?] at hwritten
      split at hwritten
      next hif =>
        cases hwritten
        exact if_pos hif
      next => cases hwritten
    rw [heffects]
    refine ⟨by rw [length_set, h.length], fun m hm effect' heffect => ?_, fun id hid => ?_⟩
    · by_cases heq : l.id = m.id
      · have hsame : written? c m = Option.some effect := by
          rcases mem_append.1 hm with hm | hm
          · exact (hinj m hm heq).symm.trans hwritten
          · rw [mem_singleton.1 hm, hwritten]
        rw [← heq, getElem?_set_self (by rw [h.length]; exact hlt)]
        exact hsame.symm.trans heffect
      · rw [getElem?_set_ne heq]
        rcases mem_append.1 hm with hm | hm
        · exact h.some m hm effect' heffect
        · exact absurd (congrArg LivePart.id (mem_singleton.1 hm)).symm heq
    · have hne : l.id ≠ id := fun heq => by
        rw [hid l (mem_append_right _ mem_cons_self) heq] at hwritten
        cases hwritten
      rw [getD_eq_getElem?_getD, getElem?_set_ne hne, ← getD_eq_getElem?_getD]
      exact h.none id fun m hm => hid m (mem_append_left _ hm)

theorem effects_foldl (hlt : ∀ l ∈ live, l.id < c.partIds.2.length)
    (hinj : ∀ l ∈ live, ∀ m ∈ live, l.id = m.id → written? c l = written? c m) (starts : List ℕ) :
    Effects c live
      (live.foldl (countPart c c.partIds.1) (replicate c.partIds.2.length .hoisted, starts)).1 := by
  induction live using reverseRecOn with
  | nil =>
    refine ⟨length_replicate, fun l hl => (by cases hl), fun id _ => ?_⟩
    rw [foldl_nil, getD_eq_getElem?_getD, getElem?_replicate]
    split <;> rfl
  | append_singleton live l ih =>
    have hl : l ∈ live ++ [l] := mem_append_right _ mem_cons_self
    rw [foldl_append]
    exact (ih (fun m hm => hlt m (mem_append_left _ hm)) fun m hm m' hm' =>
      hinj m (mem_append_left _ hm) m' (mem_append_left _ hm')).step (hlt l hl) fun m hm =>
        hinj l hl m (mem_append_left _ hm)

theorem written?_eq (hpart : c.livePart? p = some l.part) (hfile : l.file = p.1)
    (hid : l.id = c.idOf p) :
    written? c l = ((c.livePart? p).filter fun _ => c.runsInPlace p).map fun part =>
      LoadEffect.of part.stmts := by
  rw [written?, hfile, hid, LoadGraph.idOf, Nat.add_sub_cancel_left, hpart, Option.filter_some]
  change (if c.runsInPlace p then _ else _) = _
  split <;> rfl

/-- The table of effects. -/
theorem effect_new (hp : c.IsPart p) : (new c).effect (c.idOf p) = c.effect p := by
  have hlive : ∀ l ∈ c.liveParts c.partIds.1, ∃ q, c.IsPart q ∧ l.id = c.idOf q ∧
      written? c l =
        ((c.livePart? q).filter fun _ => c.runsInPlace q).map fun part =>
          LoadEffect.of part.stmts := fun l hl => by
    obtain ⟨q, hpart, hfile, hid⟩ := LoadGraph.mem_liveParts.1 hl
    exact ⟨q, LoadGraph.isPart_of_live hpart, hid, written?_eq hpart hfile hid⟩
  have heffects := @effects_foldl c (c.liveParts c.partIds.1)
    (fun l hl => by
      obtain ⟨q, hq, hid, -⟩ := hlive l hl
      exact hid ▸ hq.idOf_lt)
    (fun l hl m hm heq => by
      obtain ⟨q, hq, hid, hwritten⟩ := hlive l hl
      obtain ⟨q', hq', hid', hwritten'⟩ := hlive m hm
      rw [hwritten, hwritten', LoadGraph.idOf_inj hq hq' (hid.symm.trans (heq.trans hid'))])
    (replicate (c.partIds.2.length + 2) 0)
  rw [LoadGraph.effect]
  cases hwritten : (c.livePart? p).filter fun _ => c.runsInPlace p with
  | none =>
    refine heffects.none _ fun l hl hid => ?_
    obtain ⟨q, hq, hid', hwritten'⟩ := hlive l hl
    rw [hwritten', LoadGraph.idOf_inj hq hp (hid'.symm.trans hid), hwritten]
    rfl
  | some part =>
    have hpart := (Option.filter_eq_some_iff.1 hwritten).1
    have hmem : (⟨p.1, c.idOf p, part⟩ : LivePart) ∈ c.liveParts c.partIds.1 :=
      LoadGraph.mem_liveParts.2 ⟨p, hpart, rfl, rfl⟩
    have heffect := heffects.some _ hmem (LoadEffect.of part.stmts) (by
      rw [written?_eq (p := p) hpart rfl rfl, hwritten]
      rfl)
    exact (getD_eq_getElem?_getD ..).trans (congrArg (Option.getD · _) heffect)

/-! ## Dependents -/

/-- A dependency's id with the id of the part that has it, in the order of the passes. -/
def edges (c : LoadGraph) : List (ℕ × ℕ) :=
  (c.liveParts c.partIds.1).flatMap fun l => l.part.dependencies.map fun d =>
    (idOf c.partIds.1 d, l.id)

variable {k id : ℕ}

theorem mem_edges : (k, id) ∈ edges c ↔ ∃ q p, c.Names q p ∧ k = c.idOf p ∧ id = c.idOf q := by
  rw [edges, mem_flatMap]
  constructor
  · rintro ⟨l, hl, h⟩
    obtain ⟨q, hpart, -, hid⟩ := LoadGraph.mem_liveParts.1 hl
    obtain ⟨d, hd, h⟩ := mem_map.1 h
    obtain ⟨rfl, rfl⟩ := Prod.mk.inj h
    exact ⟨q, (d.sourceIndex, d.partIndex), ⟨l.part, hpart, hd⟩, rfl, hid⟩
  · rintro ⟨q, p, ⟨part, hpart, hmem⟩, rfl, rfl⟩
    exact ⟨⟨q.1, c.idOf q, part⟩, LoadGraph.mem_liveParts.2 ⟨q, hpart, rfl, rfl⟩,
      mem_map.2 ⟨_, hmem, rfl⟩⟩

theorem countPart_foldl (live : List LivePart) (s : List LoadEffect × List ℕ) :
    (live.foldl (countPart c c.partIds.1) s).2 =
      (live.flatMap fun l => l.part.dependencies.map fun d => (idOf c.partIds.1 d, l.id)).foldl
        (fun starts e => Lib.countBucket starts e.1) s.2 := by
  induction live generalizing s with
  | nil => rfl
  | cons l live ih =>
    rw [foldl_cons, ih, flatMap_cons, foldl_append, foldl_map]
    rfl

theorem fillPart_foldl (live : List LivePart) (s : List ℕ × List ℕ) :
    live.foldl (fillPart c.partIds.1) s =
      (live.flatMap fun l => l.part.dependencies.map fun d => (idOf c.partIds.1 d, l.id)).foldl
        (fun s e => Lib.fillBucket e.1 e.2 s.1 s.2) s := by
  induction live generalizing s with
  | nil => rfl
  | cons l live ih =>
    rw [foldl_cons, ih, flatMap_cons, foldl_append, foldl_map]
    rfl

/-- The parts that are in the table next to each other for a part. -/
def dependentsOf (reads : LoadTimeReads) (id : ℕ) : List ℕ :=
  Lib.bucket reads.dependentsStart reads.dependents id

/-- The table of dependents. -/
theorem mem_dependentsOf_iff (hk : k < c.partIds.2.length) :
    id ∈ (new c).dependentsOf k ↔ (k, id) ∈ edges c := by
  have hkeys : ∀ e ∈ edges c, e.1 < c.partIds.2.length := fun e he => by
    obtain ⟨q, p, hnames, hk, -⟩ := mem_edges.1 he
    exact hk ▸ hnames.isPart_right.idOf_lt
  have hlen : (Lib.sumBuckets ((edges c).foldl (fun starts e => Lib.countBucket starts e.1)
      (replicate (c.partIds.2.length + 2) 0))).getD (c.partIds.2.length + 1) 0 =
      (edges c).length := by
    rw [getD_eq_getElem?_getD, Lib.getElem?_sumBuckets (Nat.lt_succ_self _), Option.getD_some]
    exact countP_eq_length.2 fun e he => decide_eq_true (hkeys e he)
  have hbucket := Lib.bucket_eq hkeys (replicate (edges c).length 0) length_replicate hk
  rw [← hlen] at hbucket
  have hdependents : (new c).dependentsOf k = ((edges c).filter fun e => e.1 = k).map Prod.snd := by
    rw [← hbucket, edges, ← fillPart_foldl,
      ← countPart_foldl _ (replicate c.partIds.2.length .hoisted, _)]
    rfl
  rw [hdependents, mem_map]
  constructor
  · rintro ⟨⟨k', id⟩, h, rfl⟩
    obtain ⟨hmem, hk'⟩ := mem_filter.1 h
    obtain rfl : k' = k := of_decide_eq_true hk'
    exact hmem
  · exact fun h => ⟨(k, id), mem_filter.2 ⟨h, decide_eq_true rfl⟩, rfl⟩

theorem mem_dependentsOf (hp : c.IsPart p) {id : ℕ} :
    id ∈ (new c).dependentsOf (c.idOf p) ↔ ∃ q, c.Names q p ∧ id = c.idOf q := by
  rw [mem_dependentsOf_iff hp.idOf_lt, mem_edges]
  constructor
  · rintro ⟨q, p', hnames, hid, rfl⟩
    obtain rfl := LoadGraph.idOf_inj hnames.isPart_right hp hid.symm
    exact ⟨q, hnames, rfl⟩
  · rintro ⟨q, hnames, rfl⟩
    exact ⟨q, p, hnames, rfl, rfl⟩

theorem dependentsOf_lt (hk : k < c.partIds.2.length) (h : id ∈ (new c).dependentsOf k) :
    id < c.partIds.2.length := by
  obtain ⟨q, p, hnames, -, rfl⟩ := mem_edges.1 ((mem_dependentsOf_iff hk).1 h)
  exact hnames.isPart_left.idOf_lt

end LoadTimeReads

end Soup.Bundler
