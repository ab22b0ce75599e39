import Soup.Collections.Links

/-!
# Combining siblings

The first loop of `combine_siblings` leaves the pairs that it melds behind it, each linked to the
one before by `prev` alone (`Stacked`), and the second goes back through them. One tree of all the
nodes is left (`combineSiblings_spec`).
-/

namespace Soup.Collections

open Soup.Lib List Forest

variable {α : Type}

/-! ## Trees that are done -/

/-- The nodes of trees. -/
def treeNodes (trees : List (α × Forest α)) : List α := trees.flatMap fun t => t.1 :: t.2.nodes

/-- No node of a tree comes before the one above it. -/
def TreeOrdered (less : α → α → Bool) (t : α × Forest α) : Prop :=
  (∀ u ∈ t.2.roots, ¬less u t.1 = true) ∧ t.2.Ordered (less · · = true)

/-- The roots of trees are linked by `prev`. -/
def Stacked (m : Fields α) : Option α → List (α × Forest α) → Prop
  | top, [] => top = none
  | top, t :: trees =>
    top = some t.1 ∧ Linked m (some t.1) t.2 (m t.1).child ∧ Stacked m (m t.1).prev trees

variable {m m' : Fields α} {top : Option α} {t : α × Forest α} {trees : List (α × Forest α)}

theorem treeNodes_cons : treeNodes (t :: trees) = t.1 :: (t.2.nodes ++ treeNodes trees) := rfl

theorem length_le_treeNodes : ∀ trees : List (α × Forest α),
    trees.length ≤ (treeNodes trees).length
  | [] => Nat.le_refl 0
  | t :: trees => by
    have := length_le_treeNodes trees
    rw [treeNodes_cons, length_cons, length_cons, length_append]
    omega

theorem Stacked.congr : ∀ {trees : List (α × Forest α)} {top : Option α}, Stacked m top trees →
    (∀ v ∈ treeNodes trees, m' v = m v) → Stacked m' top trees
  | [], _, h, _ => h
  | t :: trees, _, ⟨htop, hkids, htrees⟩, hm => by
    rw [treeNodes_cons] at hm
    have ht := hm t.1 (mem_cons_self ..)
    refine ⟨htop, ?_, ?_⟩
    · rw [ht]
      exact hkids.congr fun u hu => hm u (mem_cons_of_mem _ (mem_append_left _ hu))
    · rw [ht]
      exact htrees.congr fun u hu => hm u (mem_cons_of_mem _ (mem_append_right _ hu))

section Merge

variable [DecidableEq α] {less : α → α → Bool} [IsStrictWeakOrder α (less · · = true)]

omit [DecidableEq α] in
theorem treeOrdered_melded {a b : α} {ka kb : Forest α} (ha : TreeOrdered less (a, ka))
    (hb : TreeOrdered less (b, kb)) : TreeOrdered less (melded less a ka b kb) := by
  rw [melded]
  split
  next h =>
    refine ⟨fun u hu => ?_, ⟨hb.1, hb.2, ha.2⟩⟩
    rcases mem_cons.1 hu with rfl | hu
    · exact fun h' => asymm_of (less · · = true) h h'
    · exact ha.1 u hu
  next h =>
    refine ⟨fun u hu => ?_, ⟨ha.1, ha.2, hb.2⟩⟩
    rcases mem_cons.1 hu with rfl | hu
    · exact h
    · exact hb.1 u hu

omit [IsStrictWeakOrder α (less · · = true)] in
variable (less) in
/-- A tree is taken out of its siblings and melded with the one behind it. -/
theorem meld_detached {m : Fields α} {a b : α} {ka kb rb : Forest α}
    (ha : Linked m (some a) ka (m a).child)
    (hb : Linked m (some a) (.node b kb rb) (some b)) (h : Apart a ka b kb rb) :
    ∃ m', meld less (m.setNext a none) a b = ((melded less a ka b kb).1, m') ∧
      (m' (melded less a ka b kb).1).prev = (m a).prev ∧
      Linked m' (some (melded less a ka b kb).1) (melded less a ka b kb).2
        (m' (melded less a ka b kb).1).child ∧
      Linked m' (some (melded less a ka b kb).1) rb (m' (melded less a ka b kb).1).next ∧
      ∀ x ∉ (node a ka (.node b kb rb)).nodes, m' x = m x := by
  have ha' : Linked (m.setNext a none) (m a).prev (.node a ka .nil) (some a) := by
    refine ⟨rfl, by simp, ?_, by simp [Linked]⟩
    rw [Fields.child_setNext]
    exact ha.congr fun x hx => m.setNext_of_ne _ fun hxa => h.left.1 (hxa ▸ hx)
  have hb' : Linked (m.setNext a none) (some a) (.node b kb rb) (some b) := by
    refine hb.congr fun x hx => m.setNext_of_ne _ ?_
    rintro rfl
    rcases mem_cons.1 hx with hx | hx
    · exact h.ne hx
    · exact (mem_append.1 hx).elim h.left.2.1 h.left.2.2
  obtain ⟨m', hmeld, ⟨-, hprev, hkids, hrb⟩, hframe⟩ := meld_linked less ha' hb' h
  refine ⟨m', hmeld, hprev, hkids, hrb, fun x hx => ?_⟩
  simp only [nodes, mem_append, mem_cons, not_or] at hx
  rw [hframe x hx.1 hx.2.2.1 hx.2.1 hx.2.2.2.1 hx.2.2.2.2, m.setNext_of_ne _ hx.1]

variable (less) in
/-- Pairs are melded from the left to the right. -/
theorem mergeRight_spec : ∀ (fuel : ℕ) (a : α) (ka ra : Forest α) (m : Fields α)
    (trees : List (α × Forest α)), ra.nodes.length < fuel →
    Linked m (m a).prev (.node a ka ra) (some a) → Stacked m (m a).prev trees →
    ((node a ka ra).nodes ++ treeNodes trees).Nodup →
    (node a ka ra).Ordered (less · · = true) → (∀ t ∈ trees, TreeOrdered less t) →
    ∃ t trees' m', mergeRight less fuel m a = some (t.1, m') ∧ Stacked m' (some t.1) (t :: trees') ∧
      (m' t.1).next = none ∧
      (treeNodes (t :: trees')).Perm ((node a ka ra).nodes ++ treeNodes trees) ∧
      (∀ u ∈ t :: trees', TreeOrdered less u) ∧
      ∀ x ∉ (node a ka ra).nodes ++ treeNodes trees, m' x = m x
  | fuel + 1, a, ka, .nil, m, trees, _, hlinked, hstacked, _, hordered, htrees => by
    obtain ⟨-, -, hka, hnext⟩ := hlinked
    refine ⟨(a, ka), trees, m, ?_, ⟨rfl, hka, hstacked⟩, hnext, ?_, ?_, fun _ _ => rfl⟩
    · rw [mergeRight, hnext]
    · rw [treeNodes_cons, nodes, nodes, append_nil, cons_append]
    · exact forall_mem_cons.2
        ⟨show TreeOrdered less (a, ka) from ⟨hordered.1, hordered.2.1⟩, htrees⟩
  | fuel + 1, a, ka, .node b kb rb, m, trees, hfuel, hlinked, hstacked, hnodup, hordered,
    htrees => by
    obtain ⟨-, -, hka, hrest⟩ := hlinked
    have hnext : (m a).next = some b := hrest.1
    have hapart : Apart a ka b kb rb := apart_of_nodup (nodup_append.1 hnodup).1
    have hout : ∀ x ∈ treeNodes trees, x ∉ (node a ka (.node b kb rb)).nodes :=
      fun x hx hx' => (nodup_append.1 hnodup).2.2 x hx' x hx rfl
    obtain ⟨m', hmeld, hprev, hkids, hrb, hsame⟩ := meld_detached less hka (hnext ▸ hrest) hapart
    have hstacked' : Stacked m' (m' (melded less a ka b kb).1).prev trees := by
      rw [hprev]
      exact hstacked.congr fun x hx => hsame x (hout x hx)
    have htree : TreeOrdered less (melded less a ka b kb) :=
      treeOrdered_melded ⟨hordered.1, hordered.2.1⟩ ⟨hordered.2.2.1, hordered.2.2.2.1⟩
    have hperm : (rb.nodes ++ treeNodes (melded less a ka b kb :: trees)).Perm
        ((node a ka (.node b kb rb)).nodes ++ treeNodes trees) := by
      refine perm_iff_count.2 fun x => ?_
      have hcount := perm_iff_count.1 (nodes_melded less a b ka kb) x
      simp only [treeNodes_cons, nodes, count_cons, count_append] at hcount ⊢
      omega
    rw [mergeRight, hnext]
    simp only [hmeld]
    cases rb with
    | nil =>
      rw [show (m' (melded less a ka b kb).1).next = none from hrb]
      refine ⟨_, trees, m', rfl, ⟨rfl, hkids, hstacked'⟩, hrb, hperm,
        forall_mem_cons.2 ⟨htree, htrees⟩, fun x hx => hsame x fun hx' => ?_⟩
      exact hx (mem_append_left _ hx')
    | node c kc rc =>
      have hc : (m' (melded less a ka b kb).1).next = some c := hrb.1
      rw [hc] at hrb ⊢
      obtain ⟨t, trees', m'', hcall, hst, hn, hp, hord, hfr⟩ := mergeRight_spec fuel c kc rc m'
        (melded less a ka b kb :: trees)
        (by simp only [nodes, length_cons, length_append] at hfuel; omega)
        (by rw [hrb.2.1]; exact hrb) (by rw [hrb.2.1]; exact ⟨rfl, hkids, hstacked'⟩)
        (hperm.nodup_iff.2 hnodup) hordered.2.2.2.2 (forall_mem_cons.2 ⟨htree, htrees⟩)
      refine ⟨t, trees', m'', hcall, hst, hn, hp.trans hperm, hord, fun x hx => ?_⟩
      rw [hfr x fun hx' => hx (hperm.mem_iff.1 hx')]
      exact hsame x fun hx' => hx (mem_append_left _ hx')

/-- The trees that are done are melded from the last to the first. -/
theorem mergeLeft_spec : ∀ (trees : List (α × Forest α)) (fuel : ℕ) (t : α × Forest α)
    (m : Fields α), trees.length < fuel → Stacked m (some t.1) (t :: trees) →
    (m t.1).next = none → (treeNodes (t :: trees)).Nodup →
    (∀ u ∈ t :: trees, TreeOrdered less u) →
    ∃ u m', mergeLeft less fuel m t.1 = some (u.1, m') ∧
      Linked m' none (.node u.1 u.2 .nil) (some u.1) ∧
      (u.1 :: u.2.nodes).Perm (treeNodes (t :: trees)) ∧ TreeOrdered less u ∧
      ∀ x ∉ treeNodes (t :: trees), m' x = m x
  | [], fuel + 1, t, m, _, hstacked, hnext, _, hordered => by
    have hprev : (m t.1).prev = none := hstacked.2.2
    refine ⟨t, m, by rw [mergeLeft, hprev], ⟨rfl, hprev, hstacked.2.1, hnext⟩, ?_,
      hordered t (mem_cons_self ..), fun _ _ => rfl⟩
    rw [treeNodes_cons]
    exact (append_nil _).symm ▸ .refl _
  | d :: trees, fuel + 1, t, m, hfuel, hstacked, hnext, hnodup, hordered => by
    obtain ⟨-, hkt, hprev, hkd, htrees⟩ := hstacked
    have hpair : (treeNodes (t :: d :: trees)).Perm
        ((d.1 :: (d.2.nodes ++ (t.1 :: (t.2.nodes ++ nil.nodes)))) ++ treeNodes trees) := by
      refine perm_iff_count.2 fun x => ?_
      simp only [treeNodes_cons, nodes, count_cons, count_append, count_nil]
      omega
    have hnodup' := nodup_append.1 (hpair.nodup_iff.1 hnodup)
    have hapart : Apart d.1 d.2 t.1 t.2 .nil := apart_of_nodup hnodup'.1
    have hout : ∀ x ∈ treeNodes trees, x ∉ (node d.1 d.2 (.node t.1 t.2 .nil)).nodes :=
      fun x hx hx' => hnodup'.2.2 x hx' x hx rfl
    obtain ⟨m', hmeld, hprev', hkids, hnext', hsame⟩ :=
      meld_detached less hkd
        (show Linked m (some d.1) (.node t.1 t.2 .nil) _ from ⟨rfl, hprev, hkt, hnext⟩)
        hapart
    have htree : TreeOrdered less (melded less d.1 d.2 t.1 t.2) :=
      treeOrdered_melded (hordered d (by simp)) (hordered t (by simp))
    have hperm : (treeNodes (melded less d.1 d.2 t.1 t.2 :: trees)).Perm
        (treeNodes (t :: d :: trees)) := by
      refine perm_iff_count.2 fun x => ?_
      have hcount := perm_iff_count.1 (nodes_melded less d.1 t.1 d.2 t.2) x
      simp only [treeNodes_cons, count_cons, count_append] at hcount ⊢
      omega
    have hstacked' : Stacked m' (some (melded less d.1 d.2 t.1 t.2).1)
        (melded less d.1 d.2 t.1 t.2 :: trees) := by
      refine ⟨rfl, hkids, ?_⟩
      rw [hprev']
      exact htrees.congr fun x hx => hsame x (hout x hx)
    obtain ⟨u, m'', hcall, hlinked, hp, hord, hfr⟩ := mergeLeft_spec trees fuel
      (melded less d.1 d.2 t.1 t.2) m' (Nat.lt_of_succ_lt_succ hfuel) hstacked' hnext'
      (hperm.nodup_iff.2 hnodup)
      (forall_mem_cons.2 ⟨htree, fun u hu => hordered u (by simp [hu])⟩)
    refine ⟨u, m'', ?_, hlinked, hp.trans hperm, hord, fun x hx => ?_⟩
    · rw [mergeLeft, hprev]
      simp only [hmeld]
      exact hcall
    · rw [hfr x fun hx' => hx (hperm.mem_iff.1 hx')]
      exact hsame x fun hx' => hx (hpair.mem_iff.2 (mem_append_left _ hx'))

/-- The siblings become one tree. -/
theorem combineSiblings_spec {m : Fields α} {prev : Option α} {v : α} {kids rest : Forest α}
    (h : Linked m prev (.node v kids rest) (some v)) (hnodup : (node v kids rest).nodes.Nodup)
    (hordered : (node v kids rest).Ordered (less · · = true)) {fuel : ℕ}
    (hfuel : (node v kids rest).nodes.length < fuel) :
    ∃ u m', combineSiblings less fuel m v = some (u.1, m') ∧
      Linked m' none (.node u.1 u.2 .nil) (some u.1) ∧
      (u.1 :: u.2.nodes).Perm (node v kids rest).nodes ∧ TreeOrdered less u ∧
      ∀ x ∉ (node v kids rest).nodes, m' x = m x := by
  have hlinked : Linked (m.setPrev v none) none (.node v kids rest) (some v) := by
    refine h.reprev hnodup (fun u hu => ?_) fun u _ hu => m.setPrev_of_ne _ fun huv =>
      hu (huv ▸ rfl)
    obtain rfl := Option.some.inj hu
    exact Function.update_self ..
  have hprev : (m.setPrev v none v).prev = none := by simp
  have hnil : (node v kids rest).nodes ++ treeNodes [] = (node v kids rest).nodes :=
    append_nil _
  have hright := mergeRight_spec less fuel v kids rest (m.setPrev v none) []
  rw [hprev, hnil] at hright
  obtain ⟨t, trees, m₁, hcall, hstacked, hnext, hperm, htrees, hframe⟩ := hright
    (by rw [nodes, length_cons, length_append] at hfuel; omega) hlinked rfl hnodup
    hordered (by simp)
  have hlength := length_le_treeNodes trees
  have hle := hperm.length_eq
  rw [treeNodes_cons, length_cons, length_append] at hle
  obtain ⟨u, m₂, hcall', hlinked', hperm', hu, hframe'⟩ := mergeLeft_spec trees fuel t m₁
    (by omega) hstacked hnext (hperm.nodup_iff.2 hnodup) htrees
  refine ⟨u, m₂, ?_, hlinked', hperm'.trans hperm, hu, fun x hx => ?_⟩
  · rw [combineSiblings, hcall]
    exact hcall'
  · rw [hframe' x fun hx' => hx (hperm.mem_iff.1 hx'), hframe x hx]
    exact m.setPrev_of_ne _ fun hxv => hx (hxv ▸ mem_cons_self ..)

end Merge

end Soup.Collections
