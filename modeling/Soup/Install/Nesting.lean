import Mathlib.Data.Fintype.Pigeonhole
import Mathlib.Data.Set.Finite.List
import Mathlib.SetTheory.Cardinal.Finite
import Soup.Install.Rounds

/-!
# Hoisting always ends

A run that neither empties the queue nor stops would have trees of any depth, since a row has one
tree and a path one end (`Path`). Deep enough, a tree is for the dependency of a tree above it, and
the trees above both find the same (`exists_twins`). Whatever grew from the upper one then grows
from the lower one too (`Endures.copied`), until two identical rounds end at a row that has a tree,
which `repeating_period` does not let pass (`Endures.no_twins`).
-/

namespace Soup.Install

open Soup.Lib List Nat Finset Scopes

namespace Graph

variable {g : Graph}

/-! ## Paths -/

/-- The dependencies of a tree and of the trees above it, without the root package. -/
inductive Path (list : List BuilderEntry) : ℕ → List ℕ → Prop
  | top {i : ℕ} : (scopes list).parent i = none → Path list i []
  | under {i p d : ℕ} {l : List ℕ} : (scopes list).parent i = some p → depAt list i = some d →
    Path list p l → Path list i (d :: l)

section Path

variable {b : Builder} {i j : ℕ} {l : List ℕ}

theorem exists_path (h : g.Forest b) (i : ℕ) :
    ∃ l, Path b.list i l ∧ ∀ d ∈ l, d < g.dependencies.length := by
  induction i using Nat.strong_induction_on with
  | _ i ih =>
    cases hp : (scopes b.list).parent i with
    | none => exact ⟨[], .top hp, by simp⟩
    | some p =>
      obtain ⟨hlt, d, hd, hmem, -⟩ := h.below i p hp
      obtain ⟨l, hl, hrange⟩ := ih p hlt
      refine ⟨d :: l, .under hp hd hl, fun e he => ?_⟩
      rcases mem_cons.1 he with rfl | he
      · exact h.range p e hmem
      · exact hrange e he

/-- A path has one end. -/
theorem Path.unique (h : g.Forest b) (hi : Path b.list i l) (hlti : i < b.list.length) :
    ∀ {j}, Path b.list j l → j < b.list.length → i = j := by
  induction hi with
  | top hp =>
    intro j hj hltj
    cases hj with
    | top hp' => rw [(h.root _ hlti hp).1, (h.root _ hltj hp').1]
  | @under i p d l hp hd _ ih =>
    intro j hj hltj
    cases hj with
    | @under _ p' _ _ hp' hd' hl' =>
      obtain rfl := ih ((h.grounded i p hp).trans hlti) hl' ((h.grounded j p' hp').trans hltj)
      exact h.unique i j p hp hp' (hd.trans hd'.symm)

theorem Path.above (h : Path b.list i l) : ∀ m < l.length, ∃ a p d,
    (scopes b.list).above m i = some a ∧ (scopes b.list).parent a = some p ∧
      depAt b.list a = some d := by
  induction h with
  | top => exact fun m hm => absurd hm (not_lt_zero m)
  | @under i p d l hp hd _ ih =>
    rintro (_ | m) hm
    · exact ⟨i, p, d, rfl, hp, hd⟩
    · obtain ⟨a, q, e, ha, hq, he⟩ := ih m (lt_of_succ_lt_succ hm)
      exact ⟨a, q, e, by rw [Scopes.above, hp, Option.bind_some, ha], hq, he⟩

theorem finite_paths (n m : ℕ) : {l : List ℕ | l.length ≤ n ∧ ∀ d ∈ l, d < m}.Finite := by
  refine ((finite_length_le (Fin m) n).image (List.map Fin.val)).subset ?_
  rintro l ⟨hlen, hrange⟩
  refine ⟨l.pmap Fin.mk hrange, ?_, ?_⟩
  · show (l.pmap Fin.mk hrange).length ≤ n
    rwa [length_pmap]
  · rw [map_pmap]
    simp

/-- Trees that are not deep are not many. -/
theorem length_le_of_paths (h : g.Forest b) {n : ℕ} (hn : ∀ i l, Path b.list i l → l.length ≤ n) :
    b.list.length ≤ Nat.card {l : List ℕ | l.length ≤ n ∧ ∀ d ∈ l, d < g.dependencies.length} := by
  choose path hpath hrange using exists_path h
  have := (finite_paths n g.dependencies.length).to_subtype
  have hinj : Function.Injective fun i : Fin b.list.length =>
      (⟨path i, hn _ _ (hpath i), hrange i⟩ :
        {l : List ℕ | l.length ≤ n ∧ ∀ d ∈ l, d < g.dependencies.length}) := by
    intro i j hij
    have hsame : path i = path j := congrArg Subtype.val hij
    exact Fin.ext ((hpath i).unique h i.2 (hsame ▸ hpath j) j.2)
  have hcard := card_le_card_of_injective _ hinj
  rwa [Nat.card_eq_fintype_card, Fintype.card_fin] at hcard

/-- How many trees a tree can be below without repeating what is found above a tree. -/
def depthBound (g : Graph) : ℕ := 2 ^ g.dependencies.length * g.dependencies.length

theorem twins_of_finds (h : g.Forest b) (hrows : ∀ r < g.dependencies.length,
    g.Finds b.list i (g.nameHash r) r ↔ g.Finds b.list j (g.nameHash r) r) :
    g.Twins b.list i j := by
  have hrange : ∀ {i n row}, g.Finds b.list i n row →
      row < g.dependencies.length ∧ g.nameHash row = n := fun {i n row} hf => by
    obtain ⟨k, -, hmem⟩ := hf.exists_rows h.grounded
    exact ⟨h.range k row hmem, hf.key_eq⟩
  refine fun n row => ⟨fun hf => ?_, fun hf => ?_⟩
  · obtain ⟨hlt, rfl⟩ := hrange hf
    exact (hrows row hlt).1 hf
  · obtain ⟨hlt, rfl⟩ := hrange hf
    exact (hrows row hlt).2 hf

/-- A deep tree repeats what is found above a tree. -/
theorem exists_twins (h : g.Forest b) (hpath : Path b.list i l) (hlen : g.depthBound < l.length) :
    ∃ n V U p q, (scopes b.list).above (n + 1) V = some U ∧
      (scopes b.list).parent U = some p ∧ (scopes b.list).parent V = some q ∧
      g.Twins b.list p q ∧ depAt b.list U = depAt b.list V := by
  classical
  choose a p d ha hp hd using fun m : Fin l.length => hpath.above m m.2
  have hrange : ∀ m, d m < g.dependencies.length := fun m => by
    obtain ⟨-, e, he, hmem, -⟩ := h.below _ _ (hp m)
    obtain rfl := Option.some.inj ((hd m).symm.trans he)
    exact h.range _ _ hmem
  let seen : Fin l.length → (Fin g.dependencies.length → Prop) × Fin g.dependencies.length :=
    fun m => (fun r => g.Finds b.list (p m) (g.nameHash r) r, ⟨d m, hrange m⟩)
  have hcard : Fintype.card ((Fin g.dependencies.length → Prop) × Fin g.dependencies.length) <
      Fintype.card (Fin l.length) := by
    rwa [Fintype.card_prod, Fintype.card_fun, Fintype.card_prop, Fintype.card_fin, Fintype.card_fin]
  obtain ⟨m, m', hne, hsame⟩ := Fintype.exists_ne_map_eq_of_card_lt seen hcard
  wlog hlt : m < m' generalizing m m'
  · exact this m' m hne.symm hsame.symm (lt_of_le_of_ne (not_lt.1 hlt) hne.symm)
  obtain ⟨n, hn⟩ := Nat.exists_eq_add_of_lt hlt
  obtain ⟨hfinds, hdep⟩ := Prod.mk.inj hsame
  refine ⟨n, a m, a m', p m', p m, ?_, hp m', hp m, ?_, ?_⟩
  · have := ha m'
    rwa [hn, add_assoc, above_add, ha m, Option.bind_some] at this
  · refine twins_of_finds h fun r hr => ?_
    exact (congrFun hfinds ⟨r, hr⟩).symm.to_iff
  · rw [hd, hd, Fin.mk.inj hdep]

end Path

/-! ## A run that does not end -/

/-- A run whose queue is never empty and that never stops. -/
structure Endures (g : Graph) (b : ℕ → Builder) (item : ℕ → FillItem)
    (rest : ℕ → List FillItem) : Prop where
  first : (b 0).list.length ≤ 1
  built : ∀ k, g.Built (b k)
  queue : ∀ k, (b k).queue = item k :: rest k
  processed : ∀ k, g.Processed (b k) (item k) (rest k) (b (k + 1))
  unrepeated : ∀ k n, ¬Repeats (b k).list n (item k).treeId (item k).dependencyId

theorem exists_endures (hw : g.WellFormed) (hrun : ∀ k, ∃ b, g.run true k = some b ∧ b.queue ≠ []) :
    ∃ b item rest, g.Endures b item rest := by
  choose b hb hne using hrun
  choose item rest hqueue using fun k => exists_cons_of_ne_nil (hne k)
  have hbuilt : ∀ k, g.Built (b k) := fun k => (run_built hw true k (hb k)).1
  have hround : ∀ k, g.Processed (b k) (item k) (rest k) (b (k + 1)) ∧
      ∀ n, ¬Repeats (b k).list n (item k).treeId (item k).dependencyId := fun k => by
    have hnext : g.next true (b k) = some (b (k + 1)) := by
      rw [← hb (k + 1), run_succ, hb k, Option.bind_some]
    rcases (hbuilt k).next true hw (hqueue k) with ⟨-, hnone⟩ | ⟨hguard, b', hb', hp⟩
    · rw [hnone] at hnext
      cases hnext
    · obtain rfl := Option.some.inj (hb'.symm.trans hnext)
      refine ⟨hp, fun n hn => ?_⟩
      have hitem : item k ∈ (b k).queue := by
        rw [hqueue k]
        exact mem_cons_self ..
      have htree := lt_length_of_mem ((hbuilt k).queued _ hitem).1
      have hsome := (repeatingPeriod_isSome (hbuilt k).grounded htree).2 ⟨n, hn⟩
      rw [Bool.true_and, hsome] at hguard
      cases hguard
  refine ⟨b, item, rest, ?_, hbuilt, hqueue, fun k => (hround k).1, fun k => (hround k).2⟩
  obtain ⟨b₀, hstart, -, -, hlen⟩ := start_spec hw true
  have hfirst := hb 0
  rw [run, hstart] at hfirst
  obtain rfl := Option.some.inj hfirst
  exact hlen

/-- Rounds stay as they are. -/
theorem Extends.repeats {b b' : Builder} {n tree d : ℕ} (hext : g.Extends b b') (h : g.Forest b)
    (htree : tree < b.list.length) : Repeats b'.list n tree d ↔ Repeats b.list n tree d := by
  have habove : ∀ k, (scopes b'.list).above k tree = (scopes b.list).above k tree :=
    fun k => hext.above h.grounded htree
  have hdep : ∀ {k c}, (scopes b.list).above k tree = some c →
      Install.depAt b'.list c = Install.depAt b.list c := fun hc =>
    hext.depAt _ (above_lt h.grounded htree hc)
  -- Neither tree is the topmost one.
  have hrows : ∀ {k lo up}, (scopes b.list).above k tree = some lo →
      (scopes b.list).above (k + (n + 1)) tree = some up →
        Install.depAt b.list lo = Install.depAt b.list up →
      (scopes b'.list).rows lo = (scopes b.list).rows lo ∧
        (scopes b'.list).rows up = (scopes b.list).rows up := by
    intro k lo up hlo hup hsame
    obtain ⟨p, hp, -⟩ := parent_of_above hlo hup
    refine ⟨hext.others lo p hp, ?_⟩
    cases hq : (scopes b.list).parent up with
    | some q => exact hext.others up q hq
    | none =>
      obtain ⟨-, e, he, -⟩ := h.below lo p hp
      rw [hsame, (h.root up (above_lt h.grounded htree hup) hq).2] at he
      cases he
  constructor
  · rintro ⟨⟨t, ht, hdept⟩, hsame⟩
    rw [habove] at ht
    refine ⟨⟨t, ht, by rwa [hdep ht] at hdept⟩, fun k hk => ?_⟩
    obtain ⟨lo, up, hlo, hup, hlu, hleads⟩ := hsame k hk
    rw [habove] at hlo hup
    rw [hdep hlo, hdep hup] at hlu
    obtain ⟨hrlo, hrup⟩ := hrows hlo hup hlu
    exact ⟨lo, up, hlo, hup, hlu, by rwa [hrlo, hrup] at hleads⟩
  · rintro ⟨⟨t, ht, hdept⟩, hsame⟩
    refine ⟨⟨t, (habove n).trans ht, (hdep ht).trans hdept⟩, fun k hk => ?_⟩
    obtain ⟨lo, up, hlo, hup, hlu, hleads⟩ := hsame k hk
    obtain ⟨hrlo, hrup⟩ := hrows hlo hup hlu
    exact ⟨lo, up, (habove k).trans hlo, (habove _).trans hup, by rw [hdep hlo, hdep hup, hlu],
      by rwa [hrlo, hrup]⟩

/-- Trees for one dependency below trees that find the same have the same rows. -/
theorem Built.rows_eq {b : Builder} {i j p q : ℕ} (h : g.Built b)
    (hi : (scopes b.list).parent i = some p) (hj : (scopes b.list).parent j = some q)
    (htwins : g.Twins b.list p q) (hdep : depAt b.list i = depAt b.list j) :
    (scopes b.list).rows i = (scopes b.list).rows j := by
  rw [h.rows i p hi, h.rows j q hj, depsOf, depsOf, hdep]
  exact filter_congr fun e _ =>
    decide_eq_decide.2 ⟨Clashes.twin htwins, Clashes.twin htwins.symm⟩

namespace Endures

variable {b : ℕ → Builder} {item : ℕ → FillItem} {rest : ℕ → List FillItem}
  (h : g.Endures b item rest)

include h

theorem extends_of_le {k m : ℕ} (hkm : k ≤ m) : g.Extends (b k) (b m) := by
  induction hkm with
  | refl => exact .refl (b k)
  | step _ ih => exact ih.trans (h.processed _).toExtends

/-- An item in the queue is processed in the end. -/
theorem exists_item {x : FillItem} (n : ℕ) : ∀ {k}, (b k).queue[n]? = some x →
    ∃ m ≥ k, item m = x := by
  induction n with
  | zero =>
    intro k hx
    rw [h.queue k, getElem?_cons_zero] at hx
    exact ⟨k, le_rfl, Option.some.inj hx⟩
  | succ n ih =>
    intro k hx
    rw [h.queue k, getElem?_cons_succ] at hx
    obtain ⟨new, hnew, -⟩ := (h.processed k).queue
    obtain ⟨m, hm, hitem⟩ := ih (k := k + 1) (by
      rw [hnew, getElem?_append_left (List.getElem?_eq_some_iff.1 hx).1, hx])
    exact ⟨m, (le_succ k).trans hm, hitem⟩

/-- An item is processed once. -/
theorem item_notMem {k m : ℕ} (hkm : k < m) : item k ∉ (b m).queue := by
  have hmem : item k ∈ (b k).queue := by
    rw [h.queue k]
    exact mem_cons_self ..
  have hrow := ((h.built k).queued _ hmem).1
  induction hkm with
  | refl =>
    obtain ⟨new, hnew, hfresh⟩ := (h.processed k).queue
    have hnodup := (h.built k).nodup
    rw [h.queue k] at hnodup
    rw [hnew, mem_append]
    rintro (hitem | hitem)
    · exact (nodup_cons.1 hnodup).1 hitem
    · exact hfresh _ hitem hrow
  | @step m hkm ih =>
    obtain ⟨new, hnew, hfresh⟩ := (h.processed m).queue
    rw [h.queue m] at ih
    rw [hnew, mem_append]
    rintro (hitem | hitem)
    · exact ih (mem_cons_of_mem _ hitem)
    · exact hfresh _ hitem ((h.extends_of_le (le_of_succ_le hkm)).mono _ _ hrow)

/-- The items so far are rows of the trees there are. -/
theorem le_length_mul (k : ℕ) : k ≤ (b k).list.length * g.dependencies.length := by
  have hmem : ∀ j, (item j).dependencyId ∈ (scopes (b j).list).rows (item j).treeId := fun j => by
    refine ((h.built j).queued _ ?_).1
    rw [h.queue j]
    exact mem_cons_self ..
  have hcard := card_le_card_of_injOn (s := range k)
    (t := Finset.range (b k).list.length ×ˢ Finset.range g.dependencies.length)
    (fun j => ((item j).treeId, (item j).dependencyId)) (fun j hj => ?_) fun i hi j hj hij => ?_
  · rwa [card_product, card_range, card_range, card_range] at hcard
  · rw [Finset.mem_coe, Finset.mem_range] at hj
    rw [Finset.mem_coe, Finset.mem_product, Finset.mem_range, Finset.mem_range]
    exact ⟨(lt_length_of_mem (hmem j)).trans_le (h.extends_of_le hj.le).length,
      (h.built j).range _ _ (hmem j)⟩
  · have hsame : item i = item j := by
      obtain ⟨htree, hdep⟩ := Prod.mk.inj hij
      cases hi' : item i
      cases hj' : item j
      rw [hi', hj'] at htree hdep
      cases htree
      cases hdep
      rfl
    have hqueue : ∀ m, item m ∈ (b m).queue := fun m => by
      rw [h.queue m]
      exact mem_cons_self ..
    rcases lt_trichotomy i j with hlt | heq | hlt
    · exact absurd (hsame ▸ hqueue j) (h.item_notMem hlt)
    · exact heq
    · exact absurd (hsame ▸ hqueue i) (h.item_notMem hlt)

/-- No tree is for a row at which two identical rounds end. -/
theorem unrepeated_tree (k : ℕ) : ∀ {j p d}, (scopes (b k).list).parent j = some p →
    depAt (b k).list j = some d → ∀ n, ¬Repeats (b k).list n p d := by
  induction k with
  | zero =>
    intro j p d hp
    have hj := (lt_length_of_parent hp).trans_le h.first
    have := (h.built 0).grounded j p hp
    omega
  | succ k ih =>
    intro j p d hp hd n hn
    by_cases hj : j < (b k).list.length
    · rw [(h.processed k).parent j hj] at hp
      rw [(h.processed k).depAt j hj] at hd
      have hlt := ((h.built k).grounded j p hp).trans hj
      exact ih hp hd n (((h.processed k).toExtends.repeats (h.built k).toForest hlt).1 hn)
    · obtain ⟨rfl, hdep⟩ := (h.processed k).only j (not_lt.1 hj) p hp
      obtain rfl := Option.some.inj (hdep.symm.trans hd)
      have hmem : item k ∈ (b k).queue := by
        rw [h.queue k]
        exact mem_cons_self ..
      have hlt := lt_length_of_mem ((h.built k).queued _ hmem).1
      exact h.unrepeated k n (((h.processed k).toExtends.repeats (h.built k).toForest hlt).1 hn)

/-- A row whose package has dependencies gets a tree, or needs none. -/
theorem exists_tree {k v e : ℕ} (he : e ∈ (scopes (b k).list).rows v)
    (hdeps : g.resolutionList (g.resolution e) ≠ []) :
    ∃ m ≥ k, (∃ j, (scopes (b m).list).parent j = some v ∧ depAt (b m).list j = some e) ∨
      ∀ e' ∈ g.resolutionList (g.resolution e), g.Sees (b m).list v e' := by
  rcases (h.built k).covered v e he hdeps with hqueued | hj | ⟨-, hsees⟩
  · obtain ⟨n, hn⟩ := getElem?_of_mem hqueued
    obtain ⟨m, hm, hitem⟩ := h.exists_item n hn
    have htree := (h.processed m).tree
    rw [hitem] at htree
    rcases htree with ⟨j, hj, hdep, -⟩ | hsees
    · exact ⟨m + 1, hm.trans m.le_succ, .inl ⟨j, hj, hdep⟩⟩
    · exact ⟨m + 1, hm.trans m.le_succ, .inr hsees⟩
  · exact ⟨k, le_rfl, .inl hj⟩
  · exact ⟨k, le_rfl, .inr hsees⟩

/-- A tree below a tree gets a copy below a tree that finds the same. -/
theorem exists_copy {k u v w e : ℕ} (hw : (scopes (b k).list).parent w = some u)
    (hdep : depAt (b k).list w = some e) (htwins : g.Twins (b k).list u v)
    (he : e ∈ (scopes (b k).list).rows v) :
    ∃ m ≥ k, ∃ j, (scopes (b m).list).parent j = some v ∧ depAt (b m).list j = some e := by
  have hltw := lt_length_of_parent hw
  have hltu := ((h.built k).grounded w u hw).trans hltw
  obtain ⟨-, e', he', -, hdeps⟩ := (h.built k).below w u hw
  obtain rfl := Option.some.inj (hdep.symm.trans he')
  obtain ⟨m, hm, hj | hsees⟩ := h.exists_tree he hdeps
  · exact ⟨m, hm, hj⟩
  · -- A row of the tree there is clashes with what the copy would see.
    have hext := h.extends_of_le hm
    obtain ⟨e', hrow⟩ := exists_mem_of_ne_nil _ ((h.built k).nonempty w hltw)
    obtain ⟨hmem, hclash⟩ := ((h.built m).mem_rows ((hext.parent w hltw).trans hw)).1
      (hext.mono w e' hrow)
    rw [mem_depsOf, hext.depAt w hltw, hdep] at hmem
    have hclash' := hclash.twin (hext.twins hltu (lt_length_of_mem he) htwins)
    exact absurd hclash' (hsees e' hmem).not_clashes

end Endures

/-! ## Copies -/

/-- The trees from `V` down to `v` are copies of the trees down to `u`, of which `r` more lie
between `u` and `V`. -/
structure Copied (g : Graph) (b : Builder) (V r m u v : ℕ) : Prop where
  upper : (scopes b.list).above r V = some u
  lower : (scopes b.list).above m v = some V
  twins : g.Twins b.list u v
  same : ∀ k ≤ m, ∃ lo up, (scopes b.list).above k v = some lo ∧
    (scopes b.list).above k u = some up ∧ depAt b.list lo = depAt b.list up ∧
    (scopes b.list).rows lo = (scopes b.list).rows up ∧
    ((scopes b.list).parent lo).isSome ∧ ((scopes b.list).parent up).isSome

section Copied

variable {b b' : Builder} {V r m u v : ℕ}

theorem Copied.rows_eq (h : g.Copied b V r m u v) :
    (scopes b.list).rows v = (scopes b.list).rows u := by
  obtain ⟨lo, up, hlo, hup, -, hrows, -⟩ := h.same 0 (zero_le m)
  cases hlo
  cases hup
  exact hrows

theorem Copied.extends (h : g.Copied b V r m u v) (hs : (scopes b.list).Grounded)
    (hext : g.Extends b b') (hV : V < b.list.length) (hv : v < b.list.length) :
    g.Copied b' V r m u v := by
  have hu := above_lt hs hV h.upper
  refine ⟨(hext.above hs hV).trans h.upper, (hext.above hs hv).trans h.lower,
    hext.twins hu hv h.twins, fun k hk => ?_⟩
  obtain ⟨lo, up, hlo, hup, hdep, hrows, hplo, hpup⟩ := h.same k hk
  have hltlo := above_lt hs hv hlo
  have hltup := above_lt hs hu hup
  obtain ⟨p, hp⟩ := Option.isSome_iff_exists.1 hplo
  obtain ⟨q, hq⟩ := Option.isSome_iff_exists.1 hpup
  refine ⟨lo, up, (hext.above hs hv).trans hlo, (hext.above hs hu).trans hup, ?_, ?_, ?_, ?_⟩
  · rw [hext.depAt lo hltlo, hext.depAt up hltup, hdep]
  · rw [hext.others lo p hp, hext.others up q hq, hrows]
  · rw [hext.parent lo hltlo]
    exact hplo
  · rw [hext.parent up hltup]
    exact hpup

/-- A copy of the next tree. -/
theorem Copied.below (h : g.Copied b V (r + 1) m u v) (hb : g.Built b) {w j e : ℕ}
    (hupper : (scopes b.list).above r V = some w) (hw : (scopes b.list).parent w = some u)
    (hdep : depAt b.list w = some e) (hj : (scopes b.list).parent j = some v)
    (hdepj : depAt b.list j = some e) : g.Copied b V r (m + 1) w j := by
  have hrows := hb.rows_eq hj hw h.twins.symm (hdepj.trans hdep.symm)
  have habove : ∀ {i p : ℕ}, (scopes b.list).parent i = some p → ∀ k,
      (scopes b.list).above (k + 1) i = (scopes b.list).above k p := fun hp k => by
    rw [above, hp, Option.bind_some]
  refine ⟨hupper, (habove hj m).trans h.lower, twins_of_rows hw hj hrows.symm h.twins, ?_⟩
  rintro (_ | k) hk
  · exact ⟨j, w, rfl, rfl, hdepj.trans hdep.symm, hrows, by rw [hj]; rfl, by rw [hw]; rfl⟩
  · obtain ⟨lo, up, hlo, hup, hsame⟩ := h.same k (by omega)
    exact ⟨lo, up, (habove hj k).trans hlo, (habove hw k).trans hup, hsame⟩

end Copied

namespace Endures

variable {b : ℕ → Builder} {item : ℕ → FillItem} {rest : ℕ → List FillItem}
  (h : g.Endures b item rest)

include h

/-- Below a tree that repeats what is found above a tree, the trees between them are copied. -/
theorem copied {k n V U p q : ℕ} (hU : (scopes (b k).list).above n V = some U)
    (hp : (scopes (b k).list).parent U = some p) (hq : (scopes (b k).list).parent V = some q)
    (htwins : g.Twins (b k).list p q) (hdep : depAt (b k).list U = depAt (b k).list V) (m : ℕ) :
    ∀ r, r + m = n → 0 < r → ∃ k' ≥ k, ∃ u v, g.Copied (b k') V r m u v := by
  induction m with
  | zero =>
    rintro r rfl -
    have hrows := (h.built k).rows_eq hp hq htwins hdep
    refine ⟨k, le_rfl, U, V, hU, rfl, twins_of_rows hp hq hrows htwins, fun l hl => ?_⟩
    obtain rfl := le_zero.1 hl
    exact ⟨V, U, rfl, rfl, hdep.symm, hrows.symm, by rw [hq]; rfl, by rw [hp]; rfl⟩
  | succ m ih =>
    intro r hr hpos
    obtain ⟨k', hk', u, v, hc⟩ := ih (r + 1) (by omega) (succ_pos r)
    have hs := (h.built k').grounded
    -- The tree below `u` on the way to `V`.
    have hupper := hc.upper
    rw [above_add] at hupper
    obtain ⟨w, hw, hwu⟩ := Option.bind_eq_some_iff.1 hupper
    obtain ⟨u', hu', hu''⟩ := Option.bind_eq_some_iff.1 hwu
    cases hu''
    obtain ⟨-, e, he, hmem, -⟩ := (h.built k').below w u hu'
    rw [← hc.rows_eq] at hmem
    obtain ⟨k'', hk'', j, hj, hdepj⟩ := h.exists_copy hu' he hc.twins hmem
    have hext := h.extends_of_le hk''
    have hV : V < (b k').list.length := above_lt hs (lt_length_of_mem hmem) hc.lower
    have hltw := lt_length_of_parent hu'
    refine ⟨k'', hk'.trans hk'', w, j, ?_⟩
    exact (hc.extends hs hext hV (lt_length_of_mem hmem)).below (h.built k'')
      ((hext.above hs hV).trans hw) ((hext.parent w hltw).trans hu')
      ((hext.depAt w hltw).trans he) hj hdepj

/-- No tree repeats what is found above a tree that it is below. -/
theorem no_twins {k n V U p q : ℕ} (hU : (scopes (b k).list).above (n + 1) V = some U)
    (hp : (scopes (b k).list).parent U = some p) (hq : (scopes (b k).list).parent V = some q)
    (htwins : g.Twins (b k).list p q) (hdep : depAt (b k).list U = depAt (b k).list V) : False := by
  obtain ⟨k', hk', u, v, hc⟩ := h.copied hU hp hq htwins hdep n 1 (add_comm 1 n) one_pos
  have hs := (h.built k').grounded
  have hu : (scopes (b k').list).parent V = some u := by
    obtain ⟨u', hu', hu''⟩ := Option.bind_eq_some_iff.1 hc.upper
    cases hu''
    exact hu'
  obtain ⟨-, e, he, hmem, -⟩ := (h.built k').below V u hu
  rw [← hc.rows_eq] at hmem
  obtain ⟨m, hm, j, hj, hdepj⟩ := h.exists_copy hu he hc.twins hmem
  have hc' := hc.extends hs (h.extends_of_le hm) (lt_length_of_parent hu) (lt_length_of_mem hmem)
  have hext := h.extends_of_le hm
  have hu' := (hext.parent V (lt_length_of_parent hu)).trans hu
  refine h.unrepeated_tree m hj hdepj n ⟨⟨V, hc'.lower, ?_⟩, fun l hl => ?_⟩
  · exact (hext.depAt V (lt_length_of_parent hu)).trans he
  · obtain ⟨lo, up, hlo, hup, hsame, hrows, -⟩ := hc'.same l hl
    refine ⟨lo, up, hlo, ?_, hsame, by rw [hrows]⟩
    rw [add_comm, add_assoc, above_add, hc'.lower, Option.bind_some, add_comm,
      above, hu', Option.bind_some, hup]

end Endures

/-! ## The end -/

theorem exists_end (hw : g.WellFormed) :
    ∃ k, g.run true k = none ∨ ∃ b, g.run true k = some b ∧ b.queue = [] := by
  by_contra hnot
  have hrun : ∀ k, ∃ b, g.run true k = some b ∧ b.queue ≠ [] := fun k => by
    cases hk : g.run true k with
    | none => exact absurd ⟨k, .inl hk⟩ hnot
    | some b => exact ⟨b, rfl, fun hq => hnot ⟨k, .inr ⟨b, hk, hq⟩⟩⟩
  obtain ⟨b, item, rest, h⟩ := exists_endures hw hrun
  have hpaths : ∀ k i l, Path (b k).list i l → l.length ≤ g.depthBound := fun k i l hl => by
    by_contra hlen
    obtain ⟨n, V, U, p, q, hU, hp, hq, htwins, hdep⟩ :=
      exists_twins (h.built k).toForest hl (not_le.1 hlen)
    exact h.no_twins hU hp hq htwins hdep
  let bound := Nat.card
    {l : List ℕ | l.length ≤ g.depthBound ∧ ∀ d ∈ l, d < g.dependencies.length}
  have hlength : ∀ k, (b k).list.length ≤ bound := fun k =>
    length_le_of_paths (h.built k).toForest (hpaths k)
  have hrounds := h.le_length_mul (bound * g.dependencies.length + 1)
  have hmul := mul_le_mul_right g.dependencies.length
    (hlength (bound * g.dependencies.length + 1))
  omega

/-- Hoisting always ends: the queue is empty after some rounds or the run stops for endless
nesting, and it stops only where the run without the check never empties the queue. -/
theorem run_ends (hw : g.WellFormed) :
    (∃ k, g.run true k = none ∨ ∃ b, g.run true k = some b ∧ b.queue = []) ∧
      ((∃ k, g.run true k = none) → ∀ k, ∃ b, g.run false k = some b ∧ b.queue ≠ []) :=
  ⟨exists_end hw, fun ⟨_, h⟩ => runs_on_of_crash hw h⟩

/-- The root package needs `a@1` and `b@1`, `a@1` needs `b@2`, `b@2` needs `a@2`, `a@2` needs `b@1`
and `b@1` needs `a@1`. -/
def loopGraph : Graph where
  dependencies := [⟨1, 1⟩, ⟨2, 2⟩, ⟨2, 3⟩, ⟨1, 1⟩, ⟨1, 4⟩, ⟨2, 2⟩]
  resolutionLists := [⟨0, 2⟩, ⟨2, 1⟩, ⟨3, 1⟩, ⟨4, 1⟩, ⟨5, 1⟩]
  sort := id
  sort_perm := List.Perm.refl

theorem wellFormed_loopGraph : loopGraph.WellFormed := by
  rintro (_ | _ | _ | _ | _ | package)
  · decide
  · decide
  · decide
  · decide
  · decide
  · exact ⟨forall_mem_nil _, nodup_nil⟩

/-- Every package that needs the other one in another version is nested below it. -/
theorem run_ends_loop : loopGraph.run true 13 = none ∧
    ∀ k, ∃ b, loopGraph.run false k = some b ∧ b.queue ≠ [] := by
  have hcrash : loopGraph.run true 13 = none := rfl
  exact ⟨hcrash, (run_ends wellFormed_loopGraph).2 ⟨13, hcrash⟩⟩

end Graph

end Soup.Install
