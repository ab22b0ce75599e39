import Mathlib.Data.List.Nodup
import Mathlib.Data.List.Perm.Subperm
import Soup.Bundler.LoadClass
import Soup.Lib.DepthFirst

/-!
# The visit

The loop over the stack finds what the root leads to. The reverse of the order starts with the root,
and every other node is behind one that has it as a successor (`exists_visit`).
-/

namespace Soup.Bundler

open Lib List Function Option

/-- What the loop found: the stack from its bottom, and the reverse of the order. -/
def finds (visit : Visit) (stack : List (ℕ × ℕ)) : List ℕ :=
  (stack.map Prod.fst).reverse ++ visit.order.reverse

structure Visiting (successors : ℕ → List ℕ) (root : ℕ) (visit : Visit) (stack : List (ℕ × ℕ)) :
    Prop where
  marked : ∀ v, visit.postorder v ≠ none ↔ v ∈ finds visit stack
  placed : ∀ k v : ℕ, visit.order[k]? = some v → visit.postorder v = some k
  nodup : (finds visit stack).Nodup
  led : Led (· = root) (fun u v => v ∈ successors u) (finds visit stack)
  root_mem : root ∈ finds visit stack
  closed : ∀ u ∈ visit.order, ∀ v ∈ successors u, v ∈ finds visit stack
  frames : ∀ frame ∈ stack, ∀ v ∈ (successors frame.1).take frame.2, v ∈ finds visit stack

namespace Visiting

variable {successors : ℕ → List ℕ} {root node next succ : ℕ} {visit : Visit}
  {stack : List (ℕ × ℕ)}

theorem start : Visiting successors root ⟨update (fun _ => none) root (some 0), []⟩
    [(root, 0)] := by
  refine ⟨fun v => ?_, by simp, by simp [finds], ?_, by simp [finds], by simp, by simp⟩
  · by_cases hv : v = root
    · simp [hv, finds]
    · simp [hv, finds]
  · exact led_singleton rfl

/-- All successors of the top were found. -/
theorem pop (h : Visiting successors root visit ((node, next) :: stack))
    (hnext : (successors node)[next]? = none) :
    Visiting successors root
      ⟨update visit.postorder node (some visit.order.length), visit.order ++ [node]⟩
      stack := by
  have hfinds : finds ⟨update visit.postorder node (some visit.order.length),
      visit.order ++ [node]⟩ stack = finds visit ((node, next) :: stack) := by
    simp [finds]
  have hnode : node ∈ finds visit ((node, next) :: stack) := by simp [finds]
  have hfresh : node ∉ visit.order := by
    have hnodup := h.nodup
    rw [finds, map_cons, reverse_cons, append_assoc, singleton_append, nodup_middle] at hnodup
    exact fun hmem => (nodup_cons.1 hnodup).1
      (mem_append_right _ (mem_reverse.2 hmem))
  refine ⟨fun v => ?_, fun k v hk => ?_, hfinds ▸ h.nodup, hfinds ▸ h.led, hfinds ▸ h.root_mem,
    fun u hu v hv => ?_, fun frame hframe v hv => ?_⟩
  · rw [hfinds]
    by_cases hv : v = node
    · simp [hv, hnode]
    · dsimp only
      rw [update_of_ne hv]
      exact h.marked v
  · dsimp only at hk ⊢
    rcases lt_or_ge k visit.order.length with hlt | hge
    · rw [getElem?_append_left hlt] at hk
      rw [update_of_ne (fun heq : v = node => hfresh (heq ▸ mem_of_getElem? hk))]
      exact h.placed k v hk
    · rw [getElem?_append_right hge] at hk
      obtain ⟨hk0, rfl⟩ := List.getElem?_eq_some_iff.1 hk
      rw [length_singleton] at hk0
      rw [getElem_singleton, update_self]
      congr 1
      omega
  · rw [hfinds]
    rcases mem_append.1 hu with hu | hu
    · exact h.closed u hu v hv
    · rw [mem_singleton.1 hu] at hv
      refine h.frames _ mem_cons_self v ?_
      rwa [take_of_length_le (getElem?_eq_none_iff.1 hnext)]
  · rw [hfinds]
    exact h.frames frame (mem_cons_of_mem _ hframe) v hv

/-- The next successor is found. -/
theorem skip (top : List (ℕ × ℕ))
    (h : Visiting successors root visit (top ++ (node, next) :: stack))
    (hnext : (successors node)[next]? = some succ)
    (hsucc : succ ∈ finds visit (top ++ (node, next) :: stack)) :
    Visiting successors root visit (top ++ (node, next + 1) :: stack) := by
  have hfinds : finds visit (top ++ (node, next + 1) :: stack) =
      finds visit (top ++ (node, next) :: stack) := by
    simp [finds]
  refine ⟨hfinds ▸ h.marked, h.placed, hfinds ▸ h.nodup, hfinds ▸ h.led, hfinds ▸ h.root_mem,
    hfinds ▸ h.closed, fun frame hframe v hv => ?_⟩
  rw [hfinds]
  rcases mem_append.1 hframe with htop | hframe
  · exact h.frames frame (mem_append_left _ htop) v hv
  rcases mem_cons.1 hframe with rfl | hstack
  · rw [take_add_one, hnext] at hv
    rcases mem_append.1 hv with hv | hv
    · exact h.frames (node, next) (by simp) v hv
    · rw [mem_singleton.1 hv]
      exact hsucc
  · exact h.frames frame (mem_append_right _ (mem_cons_of_mem _ hstack)) v hv

/-- A successor that is new. -/
theorem push (h : Visiting successors root visit ((node, next) :: stack))
    (hnext : (successors node)[next]? = some succ) (hnew : visit.postorder succ = none) :
    Visiting successors root ⟨update visit.postorder succ (some 0), visit.order⟩
      ((succ, 0) :: (node, next) :: stack) := by
  have hnot : succ ∉ finds visit ((node, next) :: stack) := fun hmem =>
    (h.marked succ).2 hmem hnew
  have hmem : ∀ v, v ∈ finds ⟨update visit.postorder succ (some 0), visit.order⟩
      ((succ, 0) :: (node, next) :: stack) ↔ v = succ ∨
        v ∈ finds visit ((node, next) :: stack) := by
    intro v
    simp only [finds, map_cons, reverse_cons, mem_append, mem_singleton, mem_reverse]
    tauto
  have hfinds : finds ⟨update visit.postorder succ (some 0), visit.order⟩
      ((succ, 0) :: (node, next) :: stack) =
      (((node, next) :: stack).map Prod.fst).reverse ++ succ :: visit.order.reverse := by
    simp [finds]
  refine ⟨fun v => ?_, fun k v hk => ?_, ?_, ?_, (hmem _).2 (.inr h.root_mem),
    fun u hu v hv => (hmem v).2 (.inr (h.closed u hu v hv)), fun frame hframe v hv => ?_⟩
  · rw [hmem]
    by_cases hv : v = succ
    · simp [hv]
    · dsimp only
      rw [update_of_ne hv, h.marked]
      simp [hv]
  · dsimp only at hk ⊢
    rw [update_of_ne, h.placed k v hk]
    rintro rfl
    exact hnot (mem_append_right _ (mem_reverse.2 (mem_of_getElem? hk)))
  · rw [hfinds]
    exact nodup_middle.2 (nodup_cons.2 ⟨hnot, h.nodup⟩)
  · rw [hfinds]
    exact Led.insert h.led (.inr ⟨node, by simp, mem_of_getElem? hnext⟩)
  · rw [hmem]
    rcases mem_cons.1 hframe with rfl | hframe
    · simp at hv
    · exact .inr (h.frames frame hframe v hv)

/-- The loop ends when the nodes are bounded. -/
theorem run {bound : ℕ} (hbound : ∀ u < bound, ∀ v ∈ successors u, v < bound) (visit : Visit)
    (stack : List (ℕ × ℕ)) (h : Visiting successors root visit stack)
    (hlt : ∀ v ∈ finds visit stack, v < bound) :
    ∃ visit', (∀ᶠ fuel in Filter.atTop, visitLoop successors fuel visit stack = .ok visit') ∧
      Visiting successors root visit' [] ∧ ∀ v ∈ finds visit' [], v < bound := by
  match stack, h, hlt with
  | [], h, hlt => exact ⟨visit, eventually_succ (.of_forall fun _ => rfl), h, hlt⟩
  | (node, next) :: stack, h, hlt =>
    cases hnext : (successors node)[next]? with
    | none =>
      have hfinds : finds ⟨update visit.postorder node (some visit.order.length),
          visit.order ++ [node]⟩ stack = finds visit ((node, next) :: stack) := by
        simp [finds]
      obtain ⟨visit', hloop, hend⟩ := run hbound _ stack (h.pop hnext) (hfinds ▸ hlt)
      refine ⟨visit', eventually_succ ?_, hend⟩
      filter_upwards [hloop] with fuel hloop
      rw [visitLoop, hnext]
      exact hloop
    | some succ =>
      have hless : (successors node).length - (next + 1) < (successors node).length - next := by
        have := (List.getElem?_eq_some_iff.1 hnext).1
        omega
      by_cases hnew : visit.postorder succ = none
      · have hpush := h.push hnext hnew
        have hsucc : succ < bound := hbound node (hlt node (by simp [finds])) succ
          (mem_of_getElem? hnext)
        have hskip := hpush.skip [(succ, 0)] hnext (by simp [finds])
        have hlt' : ∀ v ∈ finds ⟨update visit.postorder succ (some 0), visit.order⟩
            ((succ, 0) :: (node, next + 1) :: stack), v < bound := by
          intro v hv
          have hcases : v = succ ∨ v ∈ finds visit ((node, next) :: stack) := by
            simp only [finds, map_cons, reverse_cons, mem_append,
              mem_singleton, mem_reverse] at hv ⊢
            tauto
          rcases hcases with rfl | hv
          · exact hsucc
          · exact hlt v hv
        have hmore : bound - (finds ⟨update visit.postorder succ (some 0), visit.order⟩
            ((succ, 0) :: (node, next + 1) :: stack)).length <
            bound - (finds visit ((node, next) :: stack)).length := by
          have hle : (finds ⟨update visit.postorder succ (some 0), visit.order⟩
              ((succ, 0) :: (node, next + 1) :: stack)).length ≤ bound := by
            have hsub : finds ⟨update visit.postorder succ (some 0), visit.order⟩
                ((succ, 0) :: (node, next + 1) :: stack) ⊆ range bound := fun v hv =>
              mem_range.2 (hlt' v hv)
            have := (hskip.nodup.subperm hsub).length_le
            rwa [length_range] at this
          simp only [finds, length_append, length_reverse, length_map, length_cons] at hle ⊢
          omega
        obtain ⟨visit', hloop, hend⟩ := run hbound _ _ hskip hlt'
        refine ⟨visit', eventually_succ ?_, hend⟩
        filter_upwards [hloop] with fuel hloop
        rw [visitLoop, hnext]
        dsimp only
        rw [if_pos hnew]
        exact hloop
      · have hskip := h.skip [] hnext ((h.marked succ).1 hnew)
        have hfinds : finds visit ((node, next + 1) :: stack) =
            finds visit ((node, next) :: stack) := by
          simp [finds]
        obtain ⟨visit', hloop, hend⟩ := run hbound visit _ hskip (hfinds ▸ hlt)
        refine ⟨visit', eventually_succ ?_, hend⟩
        filter_upwards [hloop] with fuel hloop
        rw [visitLoop, hnext]
        dsimp only
        rw [if_neg hnew]
        exact hloop
termination_by (bound - (finds visit stack).length,
  (stack.map fun frame => (successors frame.1).length - frame.2 + 1).sum)
decreasing_by
  all_goals simp_wf
  · rw [hfinds]
    exact Prod.Lex.right _ (by omega)
  · exact Prod.Lex.left _ _ hmore
  · rw [hfinds]
    exact Prod.Lex.right _ (by omega)

end Visiting

/-! ## The numbers of the nodes -/

/-- The nodes in the reverse order, from 0 to `last`. -/
structure Numbers (successors : ℕ → List ℕ) (root bound : ℕ) (visit : Visit) (last : ℕ)
    (node : ℕ → ℕ) : Prop where
  order : visit.order.reverse = (range (last + 1)).map node
  root : node 0 = root
  lt : ∀ v ≤ last, node v < bound
  inj : ∀ u v, u ≤ last → v ≤ last → node u = node v → u = v
  postorder : ∀ v ≤ last, visit.postorder (node v) = some (last - v)
  closed : ∀ u ≤ last, ∀ x ∈ successors (node u), ∃ v ≤ last, node v = x
  before : ∀ v, 0 < v → v ≤ last → ∃ u < v, node v ∈ successors (node u)

variable {successors : ℕ → List ℕ}

theorem Visiting.numbers {root bound : ℕ} {visit : Visit}
    (h : Visiting successors root visit []) (hlt : ∀ v ∈ finds visit [], v < bound) :
    ∃ last node, Numbers successors root bound visit last node := by
  have hfinds : finds visit [] = visit.order.reverse := by simp [finds]
  have hled := hfinds ▸ h.led
  have hnodup := hfinds ▸ h.nodup
  have hroot := hfinds ▸ h.root_mem
  rw [hfinds] at hlt
  generalize hseq : visit.order.reverse = seq at hfinds hled hnodup hroot hlt
  have hget : ∀ v, v < seq.length → seq[v]? = some (seq.getD v 0) := by
    intro v hv
    rw [getD_eq_getElem?_getD, getElem?_eq_getElem hv]
    rfl
  have hpos : 0 < seq.length := length_pos_of_mem hroot
  have hlast : seq.length - 1 + 1 = seq.length := Nat.sub_add_cancel hpos
  have hinj : ∀ u v, u ≤ seq.length - 1 → v ≤ seq.length - 1 → seq.getD u 0 = seq.getD v 0 →
      u = v := by
    intro u v hu hv heq
    have hu := hget u (by omega)
    rw [heq, ← hget v (by omega)] at hu
    exact (getElem?_inj (by omega) hnodup).1 hu
  have hzero : seq.getD 0 0 = root := by
    cases seq with
    | nil => exact absurd hroot not_mem_nil
    | cons v seq => exact hled.head
  refine ⟨seq.length - 1, fun v => seq.getD v 0, ?_, hzero, fun v hv => ?_, hinj,
    fun v hv => ?_, fun u hu x hx => ?_, fun v hv hle => ?_⟩
  · rw [hseq, hlast]
    refine ext_getElem? fun i => ?_
    rw [getElem?_map]
    by_cases hi : i < seq.length
    · rw [hget i hi, getElem?_range hi]
      rfl
    · rw [getElem?_eq_none (by omega), getElem?_eq_none (by rw [length_range]; omega)]
      rfl
  · exact hlt _ (mem_of_getElem? (hget v (by omega)))
  · refine h.placed _ _ ?_
    have hlen : visit.order.length = seq.length := by rw [← hseq, length_reverse]
    have hrev : seq[v]? = visit.order[visit.order.length - 1 - v]? := by
      rw [← hseq, getElem?_reverse (by omega)]
    rw [← hget v (by omega), hrev, hlen]
  · have hmem : seq.getD u 0 ∈ visit.order := by
      rw [← mem_reverse, hseq]
      exact mem_of_getElem? (hget u (by omega))
    have hfound := h.closed _ hmem x hx
    rw [hfinds] at hfound
    obtain ⟨v, hv⟩ := mem_iff_getElem?.1 hfound
    have hlt := (List.getElem?_eq_some_iff.1 hv).1
    refine ⟨v, by omega, ?_⟩
    rw [hget v hlt] at hv
    exact some.inj hv
  · rcases hled.exists_lt (hget v (by omega)) with heq | ⟨u, hu, x, hx, hedge⟩
    · have := hinj v 0 hle (Nat.zero_le _) (heq.trans hzero.symm)
      omega
    · rw [hget u (by omega)] at hx
      exact ⟨u, hu, some.inj hx ▸ hedge⟩

theorem exists_visit {root bound : ℕ} (hroot : root < bound)
    (hbound : ∀ u < bound, ∀ v ∈ successors u, v < bound) :
    ∃ visit last node, (∀ᶠ fuel in Filter.atTop, visitLoop successors fuel
        ⟨update (fun _ => none) root (some 0), []⟩ [(root, 0)] = .ok visit) ∧
      Numbers successors root bound visit last node := by
  obtain ⟨visit, hloop, hend, hlt⟩ := Visiting.start.run hbound _ _ (by simpa [finds] using hroot)
  obtain ⟨last, node, hnumbers⟩ := hend.numbers hlt
  exact ⟨visit, last, node, hloop, hnumbers⟩

end Soup.Bundler
