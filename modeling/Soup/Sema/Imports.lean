import Soup.Sema.Levels

/-!
# The components of a program

What `Components::new` makes of the files of a program: `Levelled` says which files are in a
component, which other components a component imports and what its level is, in terms of the files
and of the result alone (`Components.new_spec`).
-/

namespace Soup.Sema

open Lib Relation List Function

namespace Components

variable {order : List ℕ} {imports : ℕ → List ℕ} {edges : List (List ℕ)} {f g v w : ℕ}

/-! ## Files and nodes -/

theorem nodeOf_concat (order : List ℕ) (f : ℕ) :
    nodeOf (order ++ [f]) = update (nodeOf order) f (some order.length) := by
  rw [nodeOf, zipIdx_append, foldl_append, zero_add]
  rfl

theorem getElem?_of_nodeOf (h : nodeOf order f = some v) : order[v]? = some f := by
  induction order using reverseRecOn with
  | nil => cases h
  | append_singleton order g ih =>
    rw [nodeOf_concat] at h
    by_cases hf : f = g
    · rw [hf, update_self, Option.some_inj] at h
      rw [← h, hf, getElem?_concat_length]
    · rw [update_of_ne hf] at h
      have hv := ih h
      rw [getElem?_append_left (List.getElem?_eq_some_iff.1 hv).1, hv]

theorem nodeOf_eq_none (h : f ∉ order) : nodeOf order f = none := by
  cases hv : nodeOf order f with
  | none => rfl
  | some v => exact absurd (mem_of_getElem? (getElem?_of_nodeOf hv)) h

theorem exists_nodeOf (h : f ∈ order) : ∃ v, nodeOf order f = some v := by
  induction order using reverseRecOn with
  | nil => cases h
  | append_singleton order g ih =>
    rw [nodeOf_concat]
    by_cases hf : f = g
    · rw [hf, update_self]
      exact ⟨_, rfl⟩
    · rw [update_of_ne hf]
      exact ih ((mem_append.1 h).resolve_right fun hg => hf (mem_singleton.1 hg))

theorem nodeOf_eq_some (hnodup : order.Nodup) (h : order[v]? = some f) :
    nodeOf order f = some v := by
  obtain ⟨w, hw⟩ := exists_nodeOf (mem_of_getElem? h)
  have hlt := (List.getElem?_eq_some_iff.1 (getElem?_of_nodeOf hw)).1
  rw [hw, (getElem?_inj hlt hnodup).1 ((getElem?_of_nodeOf hw).trans h.symm)]

theorem mem_edgesOf : w ∈ edgesOf order imports f ↔ ∃ g ∈ imports f, nodeOf order g = some w := by
  rw [edgesOf, mem_dedup, mem_mergeSort, mem_filterMap]

theorem edge_iff : Edge (order.map (edgesOf order imports)) v w ↔
    ∃ f, order[v]? = some f ∧ ∃ g ∈ imports f, nodeOf order g = some w := by
  rw [Edge, getD_eq_getElem?_getD, getElem?_map]
  cases order[v]? with
  | none =>
    refine iff_of_false not_mem_nil ?_
    rintro ⟨f, hf, -⟩
    cases hf
  | some f =>
    rw [Option.map_some, Option.getD_some, mem_edgesOf]
    refine ⟨fun h => ⟨f, rfl, h⟩, ?_⟩
    rintro ⟨f', hf, h⟩
    obtain rfl := Option.some.inj hf
    exact h

/-- The import graph. -/
def graph (order : List ℕ) (imports : ℕ → List ℕ) : Graph where
  edges := order.map (edgesOf order imports)
  closed := by
    intro targets htargets w hw
    obtain ⟨f, -, rfl⟩ := mem_map.1 htargets
    obtain ⟨g, -, hg⟩ := mem_edgesOf.1 hw
    rw [length_map]
    exact (List.getElem?_eq_some_iff.1 (getElem?_of_nodeOf hg)).1

/-- A file of the program imports another. -/
def Refers (order : List ℕ) (imports : ℕ → List ℕ) (f g : ℕ) : Prop := g ∈ imports f ∧ g ∈ order

theorem reach_nodes (hf : nodeOf order f = some v) (hg : nodeOf order g = some w)
    (h : ReflTransGen (Refers order imports) f g) :
    ReflTransGen (Edge (graph order imports).edges) v w := by
  induction h generalizing w with
  | refl =>
    obtain rfl := Option.some.inj (hf.symm.trans hg)
    exact .refl
  | tail hreach hedge ih =>
    rename_i g' g
    have hmem : g' ∈ order := by
      rcases hreach.cases_tail with rfl | ⟨g'', -, hg'⟩
      · exact mem_of_getElem? (getElem?_of_nodeOf hf)
      · exact hg'.2
    obtain ⟨u, hu⟩ := exists_nodeOf hmem
    exact (ih hu).tail (edge_iff.2 ⟨g', getElem?_of_nodeOf hu, g, hedge.1, hg⟩)

theorem reach_files (hf : order[v]? = some f) (hg : order[w]? = some g)
    (h : ReflTransGen (Edge (graph order imports).edges) v w) :
    ReflTransGen (Refers order imports) f g := by
  induction h generalizing g with
  | refl =>
    obtain rfl := Option.some.inj (hf.symm.trans hg)
    exact .refl
  | tail _ hedge ih =>
    obtain ⟨f', hf', g', hg', hnode⟩ := edge_iff.1 hedge
    have hplace := getElem?_of_nodeOf hnode
    obtain rfl := Option.some.inj (hplace.symm.trans hg)
    exact (ih hf').tail ⟨hg', mem_of_getElem? hplace⟩

/-! ## The program -/

/-- What the components of a program are: their files, their imports and their levels. -/
structure Levelled (order : List ℕ) (imports : ℕ → List ℕ) (cs : Components) : Prop where
  absent : ∀ f, f ∉ order → cs.ofFile f = none
  present : ∀ f ∈ order, ∃ i c, cs.ofFile f = some i ∧ cs.all[i]? = some c ∧ f ∈ c.files
  own : order.Nodup → ∀ i c, cs.all[i]? = some c → ∀ f ∈ c.files, cs.ofFile f = some i
  classes : ∀ f ∈ order, ∀ g ∈ order,
    cs.ofFile f = cs.ofFile g ↔ Mutual (Refers order imports) f g
  once : ∀ c ∈ cs.all, c.imports.Nodup
  mem_imports : ∀ i c, cs.all[i]? = some c → ∀ j, j ∈ c.imports ↔
    j ≠ i ∧ ∃ f ∈ c.files, ∃ g ∈ imports f, cs.ofFile g = some j
  none_level : ∀ c ∈ cs.all, c.imports = [] → c.level = 0
  below : ∀ c ∈ cs.all, ∀ j ∈ c.imports, ∃ d, cs.all[j]? = some d ∧ d.level < c.level
  attained : ∀ c ∈ cs.all, c.imports ≠ [] → ∃ j ∈ c.imports, ∃ d, cs.all[j]? = some d ∧
    c.level = d.level + 1

section Ordered

variable {number i : ℕ} {inProgramOrder : List ℕ} {n : ℕ}

/-- The places of a list in which every number below `n` is once. -/
theorem getElem?_idxOf (hperm : inProgramOrder.Perm (List.range n)) (h : number < n) :
    inProgramOrder[inProgramOrder.idxOf number]? = some number :=
  List.getElem?_idxOf (hperm.mem_iff.2 (mem_range.2 h))

theorem idxOf_of_getElem? (hperm : inProgramOrder.Perm (List.range n))
    (h : inProgramOrder[i]? = some number) : number < n ∧ inProgramOrder.idxOf number = i := by
  obtain ⟨hlt, rfl⟩ := List.getElem?_eq_some_iff.1 h
  refine ⟨mem_range.1 (hperm.mem_iff.1 (getElem_mem hlt)), ?_⟩
  exact (hperm.nodup_iff.2 nodup_range).idxOf_getElem i hlt

end Ordered

/-- The numbers of the components in program order. -/
def programOrder (numbered : List (List ℕ)) : List ℕ :=
  (List.range numbered.length).mergeSort fun a b =>
    (numbered.getD a []).getD 0 0 ≤ (numbered.getD b []).getD 0 0

/-- What the loop over the components leaves. -/
def linked (edges : List (List ℕ)) (numberOf : List ℕ) (numbered : List (List ℕ)) : Linked :=
  numbered.zipIdx.foldl (Linked.linkComponent edges numberOf) {}

/-- What `Components::new` makes of the components of the import graph. -/
def arrange (order : List ℕ) (edges : List (List ℕ)) (numberOf : List ℕ)
    (numbered : List (List ℕ)) : Components where
  all := (programOrder numbered).map fun number =>
    { files := (numbered.getD number []).map fun node => order.getD node 0
      level := (linked edges numberOf numbered).levels number
      imports := ((linked edges numberOf numbered).imports number).map
        (programOrder numbered).idxOf }
  ofFile file := (nodeOf order file).map fun node =>
    (programOrder numbered).idxOf (numberOf.getD node 0)

section Arranged

variable {numberOf : List ℕ} {numbered : List (List ℕ)} {nodes : List ℕ} {number m i j : ℕ}
  {c : Component}

theorem programOrder_perm (numbered : List (List ℕ)) :
    (programOrder numbered).Perm (List.range numbered.length) := mergeSort_perm ..

theorem idxOf_inj (hm : m < numbered.length) (hn : number < numbered.length)
    (h : (programOrder numbered).idxOf m = (programOrder numbered).idxOf number) : m = number := by
  have hplace := getElem?_idxOf (programOrder_perm numbered) hm
  rw [h, getElem?_idxOf (programOrder_perm numbered) hn] at hplace
  exact (Option.some.inj hplace).symm

theorem getElem?_all : (arrange order edges numberOf numbered).all[i]? = some c ↔
    ∃ number nodes, numbered[number]? = some nodes ∧ (programOrder numbered).idxOf number = i ∧
      c = ⟨nodes.map fun node => order.getD node 0, (linked edges numberOf numbered).levels number,
        ((linked edges numberOf numbered).imports number).map (programOrder numbered).idxOf⟩ := by
  rw [arrange, getElem?_map, Option.map_eq_some_iff]
  constructor
  · rintro ⟨number, hnumber, rfl⟩
    obtain ⟨hlt, hplace⟩ := idxOf_of_getElem? (programOrder_perm numbered) hnumber
    refine ⟨number, numbered[number], getElem?_eq_getElem hlt, hplace, ?_⟩
    rw [getD_eq_getElem?_getD, getElem?_eq_getElem hlt, Option.getD_some]
  · rintro ⟨number, nodes, hnodes, rfl, rfl⟩
    have hlt := (List.getElem?_eq_some_iff.1 hnodes).1
    refine ⟨number, getElem?_idxOf (programOrder_perm numbered) hlt, ?_⟩
    rw [getD_eq_getElem?_getD, hnodes, Option.getD_some]

variable (h : Partition (graph order imports).edges numberOf numbered)

include h

theorem exists_number (hnode : v < order.length) : ∃ number, numberOf[v]? = some number := by
  have hlt : v < numberOf.length := by
    rw [h.length, graph, length_map]
    exact hnode
  exact ⟨numberOf[v], getElem?_eq_getElem hlt⟩

theorem number_lt (hnumber : numberOf[v]? = some number) : number < numbered.length := by
  obtain ⟨nodes, hnodes, -⟩ := (h.mem number v).2 hnumber
  exact (List.getElem?_eq_some_iff.1 hnodes).1

theorem ofFile_eq : (arrange order edges numberOf numbered).ofFile f = some j ↔
    ∃ node number, nodeOf order f = some node ∧ numberOf[node]? = some number ∧
      (programOrder numbered).idxOf number = j := by
  rw [arrange]
  rw [Option.map_eq_some_iff]
  constructor
  · rintro ⟨node, hnode, rfl⟩
    obtain ⟨number, hnumber⟩ :=
      exists_number h (List.getElem?_eq_some_iff.1 (getElem?_of_nodeOf hnode)).1
    refine ⟨node, number, hnode, hnumber, ?_⟩
    rw [getD_eq_getElem?_getD, hnumber, Option.getD_some]
  · rintro ⟨node, number, hnode, hnumber, rfl⟩
    refine ⟨node, hnode, ?_⟩
    rw [getD_eq_getElem?_getD, hnumber, Option.getD_some]

theorem mem_targetsOf : m ∈ targetsOf (graph order imports).edges numberOf nodes ↔
    ∃ node ∈ nodes, ∃ w, Edge (graph order imports).edges node w ∧ numberOf[w]? = some m := by
  rw [targetsOf, mem_map]
  constructor
  · rintro ⟨w, hw, rfl⟩
    obtain ⟨node, hnode, hedge⟩ := mem_flatMap.1 hw
    have hlt := (graph order imports).closed.lt hedge
    rw [graph, length_map] at hlt
    obtain ⟨number, hnumber⟩ := exists_number h hlt
    refine ⟨node, hnode, w, hedge, ?_⟩
    rw [getD_eq_getElem?_getD, hnumber, Option.getD_some]
  · rintro ⟨node, hnode, w, hedge, hm⟩
    refine ⟨w, mem_flatMap.2 ⟨node, hnode, hedge⟩, ?_⟩
    rw [getD_eq_getElem?_getD, hm, Option.getD_some]

section

variable (hnodes : numbered[number]? = some nodes)
include hnodes

theorem linked_entry :
    (linked (graph order imports).edges numberOf numbered).Entry number
      (targetsOf (graph order imports).edges numberOf nodes) := by
  refine (Linked.upto_foldl fun i nodes' hi m hm => ?_).entry number nodes hnodes
  obtain ⟨node, hnode, w, hedge, hw⟩ := (mem_targetsOf h).1 hm
  exact h.edge_le node w hedge i ((h.mem i node).1 ⟨nodes', hi, hnode⟩) m hw

theorem import_lt (hm : m ∈ (linked (graph order imports).edges numberOf numbered).imports number) :
    m < numbered.length := by
  obtain ⟨node, -, w, -, hw⟩ := (mem_targetsOf h).1 (((linked_entry h hnodes).mem m).1 hm).1
  exact number_lt h hw

/-- An edge from the nodes of a component is an import from its files. -/
theorem exists_edge_iff :
    (∃ node ∈ nodes, ∃ w, Edge (graph order imports).edges node w ∧ numberOf[w]? = some m) ↔
      ∃ f ∈ nodes.map fun node => order.getD node 0, ∃ g ∈ imports f, ∃ w, nodeOf order g = some w ∧
        numberOf[w]? = some m := by
  constructor
  · rintro ⟨node, hnode, w, hedge, hw⟩
    obtain ⟨f, hf, g, hg, hnodeOf⟩ := edge_iff.1 hedge
    refine ⟨f, mem_map.2 ⟨node, hnode, ?_⟩, g, hg, w, hnodeOf, hw⟩
    rw [getD_eq_getElem?_getD, hf, Option.getD_some]
  · rintro ⟨f, hf, g, hg, w, hnodeOf, hw⟩
    obtain ⟨node, hnode, rfl⟩ := mem_map.1 hf
    refine ⟨node, hnode, w, edge_iff.2 ⟨_, ?_, g, hg, hnodeOf⟩, hw⟩
    have hlt := (List.getElem?_eq_some_iff.1 ((h.mem number node).1 ⟨nodes, hnodes, hnode⟩)).1
    rw [h.length, graph, length_map] at hlt
    rw [getD_eq_getElem?_getD, getElem?_eq_getElem hlt, Option.getD_some]

end

theorem arrange_levelled :
    Levelled order imports (arrange order (graph order imports).edges numberOf numbered) where
  absent := fun f hf => by
    rw [arrange]
    dsimp only
    rw [nodeOf_eq_none hf, Option.map_none]
  present := fun f hf => by
    obtain ⟨node, hnode⟩ := exists_nodeOf hf
    have hplace := getElem?_of_nodeOf hnode
    obtain ⟨number, hnumber⟩ := exists_number h (List.getElem?_eq_some_iff.1 hplace).1
    obtain ⟨nodes, hnodes, hmem⟩ := (h.mem number node).2 hnumber
    refine ⟨_, _, (ofFile_eq h).2 ⟨node, number, hnode, hnumber, rfl⟩,
      getElem?_all.2 ⟨number, nodes, hnodes, rfl, rfl⟩, mem_map.2 ⟨node, hmem, ?_⟩⟩
    rw [getD_eq_getElem?_getD, hplace, Option.getD_some]
  own := fun hnodup i c hi f hf => by
    obtain ⟨number, nodes, hnodes, rfl, rfl⟩ := getElem?_all.1 hi
    obtain ⟨node, hnode, rfl⟩ := mem_map.1 hf
    have hnumber := (h.mem number node).1 ⟨nodes, hnodes, hnode⟩
    have hlt := (List.getElem?_eq_some_iff.1 hnumber).1
    rw [h.length, graph, length_map] at hlt
    refine (ofFile_eq h).2 ⟨node, number, nodeOf_eq_some hnodup ?_, hnumber, rfl⟩
    rw [getD_eq_getElem?_getD, getElem?_eq_getElem hlt, Option.getD_some]
  classes := fun f hf g hg => by
    obtain ⟨v, hv⟩ := exists_nodeOf hf
    obtain ⟨w, hw⟩ := exists_nodeOf hg
    have hfv := getElem?_of_nodeOf hv
    have hgw := getElem?_of_nodeOf hw
    have hvlt := (List.getElem?_eq_some_iff.1 hfv).1
    have hwlt := (List.getElem?_eq_some_iff.1 hgw).1
    obtain ⟨a, ha⟩ := exists_number h hvlt
    obtain ⟨b, hb⟩ := exists_number h hwlt
    have hlength : (graph order imports).edges.length = order.length := length_map ..
    have hclass := h.classes v (hlength ▸ hvlt) w (hlength ▸ hwlt)
    rw [ha, hb, Option.some_inj] at hclass
    have hmutual : Mutual (Edge (graph order imports).edges) v w ↔
        Mutual (Refers order imports) f g :=
      and_congr ⟨reach_files hfv hgw, reach_nodes hv hw⟩ ⟨reach_files hgw hfv, reach_nodes hw hv⟩
    rw [(ofFile_eq h).2 ⟨v, a, hv, ha, rfl⟩, (ofFile_eq h).2 ⟨w, b, hw, hb, rfl⟩, Option.some_inj,
      ← hmutual, ← hclass]
    exact ⟨idxOf_inj (number_lt h ha) (number_lt h hb), congrArg (programOrder numbered).idxOf⟩
  once := fun c hc => by
    obtain ⟨i, hi⟩ := mem_iff_getElem?.1 hc
    obtain ⟨number, nodes, hnodes, rfl, rfl⟩ := getElem?_all.1 hi
    exact (linked_entry h hnodes).nodup.map_on fun a ha b hb =>
      idxOf_inj (import_lt h hnodes ha) (import_lt h hnodes hb)
  mem_imports := fun i c hi j => by
    obtain ⟨number, nodes, hnodes, rfl, rfl⟩ := getElem?_all.1 hi
    have hlt := (List.getElem?_eq_some_iff.1 hnodes).1
    rw [mem_map]
    constructor
    · rintro ⟨m, hm, rfl⟩
      obtain ⟨htarget, hne⟩ := ((linked_entry h hnodes).mem m).1 hm
      obtain ⟨f, hf, g, hg, w, hnode, hw⟩ :=
        (exists_edge_iff h hnodes).1 ((mem_targetsOf h).1 htarget)
      refine ⟨fun heq => hne (idxOf_inj (number_lt h hw) hlt heq), f, hf, g, hg, ?_⟩
      exact (ofFile_eq h).2 ⟨w, m, hnode, hw, rfl⟩
    · rintro ⟨hne, f, hf, g, hg, hfile⟩
      obtain ⟨w, m, hnode, hw, rfl⟩ := (ofFile_eq h).1 hfile
      refine ⟨m, ((linked_entry h hnodes).mem m).2 ⟨(mem_targetsOf h).2 ?_,
        fun heq => hne (heq ▸ rfl)⟩, rfl⟩
      exact (exists_edge_iff h hnodes).2 ⟨f, hf, g, hg, w, hnode, hw⟩
  none_level := fun c hc hnone => by
    obtain ⟨i, hi⟩ := mem_iff_getElem?.1 hc
    obtain ⟨number, nodes, hnodes, rfl, rfl⟩ := getElem?_all.1 hi
    refine (linked_entry h hnodes).attained.resolve_right ?_
    rintro ⟨m, hm, -⟩
    rw [map_eq_nil_iff.1 hnone] at hm
    cases hm
  below := fun c hc j hj => by
    obtain ⟨i, hi⟩ := mem_iff_getElem?.1 hc
    obtain ⟨number, nodes, hnodes, rfl, rfl⟩ := getElem?_all.1 hi
    obtain ⟨m, hm, rfl⟩ := mem_map.1 hj
    have hlt := import_lt h hnodes hm
    exact ⟨_, getElem?_all.2 ⟨m, _, getElem?_eq_getElem hlt, rfl, rfl⟩,
      (linked_entry h hnodes).below m hm⟩
  attained := fun c hc hsome => by
    obtain ⟨i, hi⟩ := mem_iff_getElem?.1 hc
    obtain ⟨number, nodes, hnodes, rfl, rfl⟩ := getElem?_all.1 hi
    obtain ⟨m, hm⟩ := exists_mem_of_ne_nil _ fun hnil =>
      hsome (congrArg (List.map (programOrder numbered).idxOf) hnil)
    have hentry := linked_entry h hnodes
    rcases hentry.attained with hzero | ⟨m, hm, heq⟩
    · exact absurd (hentry.below m hm) (hzero ▸ Nat.not_lt_zero _)
    · have hlt := import_lt h hnodes hm
      exact ⟨_, mem_map_of_mem hm, _, getElem?_all.2 ⟨m, _, getElem?_eq_getElem hlt, rfl, rfl⟩, heq⟩

end Arranged

theorem new_spec (order : List ℕ) (imports : ℕ → List ℕ) : ∃ cs,
    (∀ᶠ fuel in Filter.atTop, new fuel order imports = .ok cs) ∧ Levelled order imports cs := by
  obtain ⟨numberOf, numbered, hrun, h⟩ := stronglyConnectedComponents_spec (graph order imports)
  refine ⟨arrange order (graph order imports).edges numberOf numbered,
    hrun.mono fun fuel hrun => ?_, arrange_levelled h⟩
  rw [graph] at hrun
  rw [new, hrun]
  rfl

end Components

/-- The components of every graph are its strongly connected components, numbered against the edges,
and the components of every program know which others they import and have the level that these give
them. -/
theorem components_computed :
    (∀ g : Graph, ∃ numberOf components,
      (∀ᶠ fuel in Filter.atTop, stronglyConnectedComponents fuel g.edges =
        .ok (numberOf, components)) ∧
      Partition g.edges numberOf components) ∧
    ∀ (order : List ℕ) (imports : ℕ → List ℕ), ∃ cs,
      (∀ᶠ fuel in Filter.atTop, Components.new fuel order imports = .ok cs) ∧
      Components.Levelled order imports cs :=
  ⟨stronglyConnectedComponents_spec, Components.new_spec⟩

end Soup.Sema
