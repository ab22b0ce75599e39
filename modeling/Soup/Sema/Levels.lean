import Soup.Sema.Traversed

/-!
# Levels and imports

The loop of `Components::new` over the components goes up their numbers, and an edge leads down, so
what a component imports was done before it. `Linked.Entry` says what the loop leaves for a
component. The components are then put in program order, which renames the numbers.
-/

namespace Soup.Sema

open Lib Relation List Function Option Nat

namespace Components

variable {number m : ℕ} {targets : List ℕ} {s start : Linked}

/-- What the components `targets` that the edges of a component lead to make of its entry. -/
structure Linked.Entry (s : Linked) (number : ℕ) (targets : List ℕ) : Prop where
  nodup : (s.imports number).Nodup
  mem : ∀ m, m ∈ s.imports number ↔ m ∈ targets ∧ m ≠ number
  below : ∀ m ∈ s.imports number, s.levels m < s.levels number
  attained : s.levels number = 0 ∨ ∃ m ∈ s.imports number, s.levels number = s.levels m + 1

/-- The loop over the edges of a component, from the state `start`. -/
structure Linked.Linking (start : Linked) (number : ℕ) (targets : List ℕ) (s : Linked) : Prop where
  entry : s.Entry number targets
  last : ∀ m, s.lastImporter m = some number ↔ m ∈ s.imports number
  levels : ∀ m ≠ number, s.levels m = start.levels m
  imports : ∀ m ≠ number, s.imports m = start.imports m
  importer : ∀ m j, s.lastImporter m = some j → j = number ∨ start.lastImporter m = some j

theorem Linked.Linking.link (h : Linked.Linking start number targets s) :
    Linked.Linking start number (targets ++ [m]) (s.link number m) := by
  rw [Linked.link]
  split
  next heq =>
    refine ⟨⟨h.entry.nodup, fun k => ?_, h.entry.below, h.entry.attained⟩, h.last, h.levels,
      h.imports, h.importer⟩
    rw [h.entry.mem, mem_append, mem_singleton, heq]
    exact ⟨fun hk => ⟨.inl hk.1, hk.2⟩, fun hk => ⟨hk.1.resolve_right hk.2, hk.2⟩⟩
  next hne =>
    have hlevels (k : ℕ) (hk : k ≠ number) :
        update s.levels number (max (s.levels number) (s.levels m + 1)) k = s.levels k :=
      update_of_ne hk ..
    have hself : update s.levels number (max (s.levels number) (s.levels m + 1)) number =
        max (s.levels number) (s.levels m + 1) := update_self ..
    have himporter (k j : ℕ) (hj : update s.lastImporter m (some number) k = some j) :
        j = number ∨ start.lastImporter k = some j := by
      by_cases hk : k = m
      · rw [hk, update_self] at hj
        exact .inl (some.inj hj).symm
      · rw [update_of_ne hk] at hj
        exact h.importer k j hj
    have hattained {imports : List ℕ} (hsub : ∀ k ∈ s.imports number, k ∈ imports)
      (hm : m ∈ imports) : max (s.levels number) (s.levels m + 1) = 0 ∨ ∃ k ∈ imports,
          max (s.levels number) (s.levels m + 1) =
            update s.levels number (max (s.levels number) (s.levels m + 1)) k + 1 := by
      rcases le_total (s.levels m + 1) (s.levels number) with hle | hle
      · rw [max_eq_left hle]
        refine h.entry.attained.imp_right (Exists.imp fun k hk => ⟨hsub k hk.1, ?_⟩)
        rw [update_of_ne ((h.entry.mem k).1 hk.1).2, hk.2]
      · rw [max_eq_right hle]
        exact .inr ⟨m, hm, by rw [update_of_ne hne]⟩
    have hbelow (k : ℕ) (hk : k ≠ number) (hmem : k ∈ s.imports number ∨ k = m) :
        update s.levels number (max (s.levels number) (s.levels m + 1)) k <
          max (s.levels number) (s.levels m + 1) := by
      rw [hlevels k hk]
      rcases hmem with hmem | rfl
      · exact lt_max_of_lt_left (h.entry.below k hmem)
      · exact lt_max_of_lt_right (lt_succ_self _)
    split
    next hlast =>
      have hout : m ∉ s.imports number := fun hmem => hlast ((h.last m).2 hmem)
      have hmem (k : ℕ) : k ∈ s.imports number ++ [m] ↔ k ∈ targets ++ [m] ∧ k ≠ number := by
        rw [mem_append, mem_append, mem_singleton, h.entry.mem, or_and_right]
        refine or_congr Iff.rfl ⟨fun hk => ⟨hk, hk ▸ hne⟩, fun hk => hk.1⟩
      refine ⟨⟨?_, fun k => ?_, fun k hk => ?_, ?_⟩, fun k => ?_, fun k hk => ?_, fun k hk => ?_,
        himporter⟩
      · dsimp only
        rw [update_self, nodup_append]
        refine ⟨h.entry.nodup, nodup_singleton m, fun a ha b hb heq => hout ?_⟩
        rw [← mem_singleton.1 hb, ← heq]
        exact ha
      · dsimp only
        rw [update_self, hmem]
      · dsimp only at hk ⊢
        rw [update_self] at hk
        rw [hself]
        refine hbelow k ((hmem k).1 hk).2 ?_
        rwa [mem_append, mem_singleton] at hk
      · dsimp only
        rw [hself, update_self]
        exact hattained (fun k hk => mem_append_left _ hk)
          (mem_append_right _ (mem_singleton_self m))
      · dsimp only
        rw [update_self, mem_append, mem_singleton]
        by_cases hk : k = m
        · rw [hk, update_self]
          exact iff_of_true rfl (.inr rfl)
        · rw [update_of_ne hk, h.last]
          exact (or_iff_left hk).symm
      · exact (hlevels k hk).trans (h.levels k hk)
      · dsimp only
        rw [update_of_ne hk]
        exact h.imports k hk
    next hlast =>
      have hin : m ∈ s.imports number := (h.last m).1 (not_not.1 hlast)
      refine ⟨⟨h.entry.nodup, fun k => ?_, fun k hk => ?_, ?_⟩, fun k => ?_, fun k hk => ?_,
        h.imports, himporter⟩
      · dsimp only
        rw [mem_append, mem_singleton, h.entry.mem]
        refine ⟨fun hk => ⟨.inl hk.1, hk.2⟩, fun hk => ⟨hk.1.elim id fun heq => ?_, hk.2⟩⟩
        exact heq ▸ ((h.entry.mem m).1 hin).1
      · dsimp only
        rw [hself]
        exact hbelow k ((h.entry.mem k).1 hk).2 (.inl hk)
      · dsimp only
        rw [hself]
        exact hattained (fun k hk => hk) hin
      · dsimp only
        by_cases hk : k = m
        · rw [hk, update_self]
          exact iff_of_true rfl hin
        · rw [update_of_ne hk]
          exact h.last k
      · exact (hlevels k hk).trans (h.levels k hk)

/-- The loop over the edges of a component that has no entry yet. -/
theorem Linked.linking_foldl (hlevel : start.levels number = 0)
    (himports : start.imports number = [])
    (hlast : ∀ m, start.lastImporter m ≠ some number) (targets : List ℕ) :
    Linked.Linking start number targets (targets.foldl (Linked.link number) start) := by
  induction targets using reverseRecOn with
  | nil =>
    have hnone (m : ℕ) : m ∉ start.imports number := himports ▸ not_mem_nil
    refine ⟨⟨?_, fun m => ?_, fun m hm => absurd hm (hnone m), .inl hlevel⟩, fun m => ?_,
      fun m _ => rfl, fun m _ => rfl, fun m j hj => .inr hj⟩
    · rw [foldl_nil, himports]
      exact nodup_nil
    · exact iff_of_false (hnone m) fun h => absurd h.1 not_mem_nil
    · exact iff_of_false (hlast m) (hnone m)
  | append_singleton targets m ih =>
    rw [foldl_append]
    exact ih.link

section Numbered

variable {edges : List (List ℕ)} {numberOf : List ℕ} {numbered : List (List ℕ)}

/-- The components that the edges of a component lead to. -/
def targetsOf (edges : List (List ℕ)) (numberOf : List ℕ) (nodes : List ℕ) : List ℕ :=
  (nodes.flatMap fun node => edges.getD node []).map fun imported => numberOf.getD imported 0

/-- The loop over the components, which has come to `number`. -/
structure Linked.Upto (edges : List (List ℕ)) (numberOf : List ℕ) (numbered : List (List ℕ))
    (s : Linked) : Prop where
  entry : ∀ i nodes, numbered[i]? = some nodes → s.Entry i (targetsOf edges numberOf nodes)
  rest : ∀ i, numbered.length ≤ i → s.levels i = 0 ∧ s.imports i = []
  last : ∀ m j, s.lastImporter m = some j → j < numbered.length

theorem Linked.upto_foldl
    (hdown : ∀ i nodes, numbered[i]? = some nodes → ∀ m ∈ targetsOf edges numberOf nodes, m ≤ i) :
    Linked.Upto edges numberOf numbered
      (numbered.zipIdx.foldl (Linked.linkComponent edges numberOf) {}) := by
  induction numbered using reverseRecOn with
  | nil =>
    exact ⟨fun i nodes hi => (by cases hi), fun i _ => ⟨rfl, rfl⟩, fun m j hj => (by cases hj)⟩
  | append_singleton numbered nodes ih =>
    have hbefore {i : ℕ} {nodes' : List ℕ} (h : numbered[i]? = some nodes') : i < numbered.length :=
      (List.getElem?_eq_some_iff.1 h).1
    have h := ih fun i nodes' hi => hdown i nodes' ((getElem?_append_left (hbefore hi)).trans hi)
    rw [zipIdx_append, foldl_append, zero_add]
    generalize numbered.zipIdx.foldl (Linked.linkComponent edges numberOf) {} = start at h
    obtain ⟨hlevel, himports⟩ := h.rest numbered.length le_rfl
    have hlink := Linked.linking_foldl hlevel himports
      (fun m hm => absurd (h.last m _ hm) (lt_irrefl _)) (targetsOf edges numberOf nodes)
    change Linked.Upto edges numberOf (numbered ++ [nodes])
      ((targetsOf edges numberOf nodes).foldl (Linked.link numbered.length) start)
    generalize (targetsOf edges numberOf nodes).foldl (Linked.link numbered.length) start =
      s at hlink
    refine ⟨fun i nodes' hi => ?_, fun i hi => ?_, fun m j hj => ?_⟩
    · rcases lt_or_ge i numbered.length with hlt | hge
      · rw [getElem?_append_left hlt] at hi
        have hentry := h.entry i nodes' hi
        have hsame := hlink.imports i hlt.ne
        have hlevels {m : ℕ} (hm : m ∈ start.imports i) : s.levels m = start.levels m := by
          have hle := hdown i nodes' ((getElem?_append_left hlt).trans hi) m ((hentry.mem m).1 hm).1
          exact hlink.levels m (hle.trans_lt hlt).ne
        refine ⟨hsame ▸ hentry.nodup, fun m => hsame ▸ hentry.mem m, fun m hm => ?_, ?_⟩
        · rw [hsame] at hm
          rw [hlevels hm, hlink.levels i hlt.ne]
          exact hentry.below m hm
        · rw [hsame, hlink.levels i hlt.ne]
          refine hentry.attained.imp_right (Exists.imp fun m hm => ⟨hm.1, ?_⟩)
          rw [hlevels hm.1, hm.2]
      · rw [getElem?_append_right hge, getElem?_singleton] at hi
        split at hi
        next hzero =>
          obtain rfl := some.inj hi
          rw [le_antisymm (Nat.sub_eq_zero_iff_le.1 hzero) hge]
          exact hlink.entry
        next => cases hi
    · rw [length_append, length_singleton] at hi
      rw [hlink.levels i (ne_of_gt hi), hlink.imports i (ne_of_gt hi)]
      exact h.rest i (le_of_succ_le hi)
    · rw [length_append, length_singleton]
      rcases hlink.importer m j hj with rfl | hj
      · exact lt_succ_self _
      · exact (h.last m j hj).trans (lt_succ_self _)

end Numbered

end Components

end Soup.Sema
