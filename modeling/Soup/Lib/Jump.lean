import Mathlib.Algebra.Order.Ring.Int

/-!
# Jump pointers

A node of a tree keeps its parent, its depth, and a jump to an ancestor. The jump of a new node goes
where the jump of its parent's jump goes if the two jumps above the parent are equally long, and to
the parent otherwise (the skew-binary scheme). Two nodes of one depth then have jumps of one depth
(`Jumps.depth_jump_congr`), so that a search from both can jump at the same time.
-/

namespace Soup.Lib

open Function Nat

variable {α : Type*} {node node' : α → Prop} {parent jump parent' jump' : α → α}
  {depth depth' : α → ℕ}
  {a b c : α} {d k : ℕ}

/-- A root is its own parent and its own jump. -/
structure Jumps (node : α → Prop) (parent jump : α → α) (depth : α → ℕ) : Prop where
  root : ∀ {b}, node b → depth b = 0 → parent b = b ∧ jump b = b
  parent_node : ∀ {b}, node b → node (parent b)
  depth_parent : ∀ {b}, node b → 0 < depth b → depth (parent b) + 1 = depth b
  jump_eq : ∀ {b}, node b → 0 < depth b → jump b =
    if depth (parent b) - depth (jump (parent b)) =
        depth (jump (parent b)) - depth (jump (jump (parent b)))
      then jump (jump (parent b)) else parent b

/-- `c` is `b` or above it. -/
def IsAbove (parent : α → α) (c b : α) : Prop := ∃ k, parent^[k] b = c

theorem IsAbove.refl (b : α) : IsAbove parent b b := ⟨0, rfl⟩

theorem IsAbove.trans (h : IsAbove parent a b) (h' : IsAbove parent b c) : IsAbove parent a c := by
  obtain ⟨k, rfl⟩ := h
  obtain ⟨l, rfl⟩ := h'
  exact ⟨k + l, iterate_add_apply ..⟩

theorem above_parent (parent : α → α) (b : α) : IsAbove parent (parent b) b := ⟨1, rfl⟩

namespace Jumps

variable (h : Jumps node parent jump depth)
include h

/-! ## Going up -/

section

variable (hb : node b)
include hb

theorem node_iterate (k : ℕ) : node (parent^[k] b) := by
  induction k with
  | zero => exact hb
  | succ k ih =>
    rw [iterate_succ_apply']
    exact h.parent_node ih

theorem depth_parent_eq : depth (parent b) = depth b - 1 := by
  rcases Nat.eq_zero_or_pos (depth b) with hzero | hpos
  · rw [(h.root hb hzero).1, hzero]
  · have := h.depth_parent hb hpos
    omega

theorem depth_iterate (k : ℕ) : depth (parent^[k] b) = depth b - k := by
  induction k with
  | zero => rfl
  | succ k ih =>
    rw [iterate_succ_apply', h.depth_parent_eq (h.node_iterate hb k), ih]
    omega

/-- A root is above all of its tree, so that one may go up from it. -/
theorem iterate_of_le (hk : depth b ≤ k) : parent^[k] b = parent^[depth b] b := by
  obtain ⟨n, rfl⟩ := Nat.exists_eq_add_of_le' hk
  have hroot : depth (parent^[depth b] b) = 0 := by
    rw [h.depth_iterate hb, Nat.sub_self]
  rw [iterate_add_apply]
  exact iterate_fixed (h.root (h.node_iterate hb _) hroot).1 n

theorem above_node (habove : IsAbove parent c b) : node c := by
  obtain ⟨k, rfl⟩ := habove
  exact h.node_iterate hb k

theorem above_depth_le (habove : IsAbove parent c b) : depth c ≤ depth b := by
  obtain ⟨k, rfl⟩ := habove
  rw [h.depth_iterate hb]
  omega

/-- An ancestor is determined by its depth. -/
theorem above_iff : IsAbove parent c b ↔ depth c ≤ depth b ∧ parent^[depth b - depth c] b = c := by
  refine ⟨fun habove => ⟨h.above_depth_le hb habove, ?_⟩, fun heq => ⟨_, heq.2⟩⟩
  obtain ⟨k, rfl⟩ := habove
  rw [h.depth_iterate hb]
  rcases le_total k (depth b) with hk | hk
  · rw [Nat.sub_sub_self hk]
  · rw [Nat.sub_eq_zero_of_le hk, Nat.sub_zero, h.iterate_of_le hb hk]

section

variable (ha : IsAbove parent a b)
include ha

theorem above_unique (hc : IsAbove parent c b) (hdepth : depth a = depth c) : a = c := by
  rw [← ((h.above_iff hb).1 ha).2, ← ((h.above_iff hb).1 hc).2, hdepth]

/-- Of two ancestors of a node the one that is not deeper is above the other. -/
theorem above_of_le (hc : IsAbove parent c b)
    (hdepth : depth c ≤ depth a) : IsAbove parent c a := by
  obtain ⟨hle, heq⟩ := (h.above_iff hb).1 ha
  obtain ⟨-, heq'⟩ := (h.above_iff hb).1 hc
  refine ⟨depth a - depth c, ?_⟩
  have hsteps : depth a - depth c + (depth b - depth a) = depth b - depth c := by omega
  calc
    parent^[depth a - depth c] a = parent^[depth a - depth c]
      (parent^[depth b - depth a] b) := by rw [heq]
    _ = parent^[depth b - depth c] b := by rw [← iterate_add_apply, hsteps]
    _ = c := heq'

/-- The ancestor at a depth may be looked for from a higher node. -/
theorem iterate_above (hd : d ≤ depth a) : parent^[depth a - d] a = parent^[depth b - d] b := by
  obtain ⟨hle, heq⟩ := (h.above_iff hb).1 ha
  have hsteps : depth a - d + (depth b - depth a) = depth b - d := by omega
  rw [← hsteps, iterate_add_apply, heq]

end

/-- Every ancestor that is not below the depth `d` is above the ancestor at it. -/
theorem above_iterate_iff (hc : depth c ≤ d) :
    IsAbove parent c b ↔ IsAbove parent c (parent^[depth b - d] b) := by
  have habove : IsAbove parent (parent^[depth b - d] b) b := ⟨_, rfl⟩
  refine ⟨fun h' => ?_, fun h' => h'.trans habove⟩
  refine h.above_of_le hb habove h' ?_
  have hle := h.above_depth_le hb h'
  rw [h.depth_iterate hb]
  omega

/-! ## Jumping -/

omit hb in
/-- A jump goes to an ancestor, and from all but a root to a proper one. -/
theorem above_jump : ∀ (n : ℕ) {b : α}, node b → depth b = n →
    IsAbove parent (jump b) b ∧ (0 < depth b → depth (jump b) < depth b) := by
  intro n
  induction n using Nat.strong_induction_on with
  | _ n ih =>
    intro b hb hn
    rcases Nat.eq_zero_or_pos (depth b) with hzero | hpos
    · rw [(h.root hb hzero).2]
      exact ⟨.refl b, fun hpos => absurd hzero hpos.ne'⟩
    · have hparent := h.parent_node hb
      have hdepth := h.depth_parent hb hpos
      obtain ⟨hjump, -⟩ := ih (depth (parent b)) (by omega) hparent rfl
      have hle := h.above_depth_le hparent hjump
      have hnode := h.above_node hparent hjump
      obtain ⟨hjump', -⟩ := ih (depth (jump (parent b))) (by omega) hnode rfl
      have hle' := h.above_depth_le hnode hjump'
      rw [h.jump_eq hb hpos]
      split
      · exact ⟨(hjump'.trans hjump).trans (above_parent parent b), fun _ => by omega⟩
      · exact ⟨above_parent parent b, fun _ => by omega⟩

theorem jump_above : IsAbove parent (jump b) b := (h.above_jump _ hb rfl).1

theorem jump_node : node (jump b) := h.above_node hb (h.jump_above hb)

theorem depth_jump_lt (hpos : 0 < depth b) : depth (jump b) < depth b :=
  (h.above_jump _ hb rfl).2 hpos

theorem depth_jump_le : depth (jump b) ≤ depth b := h.above_depth_le hb (h.jump_above hb)

end

/-- How deep a jump goes is a matter of the depth alone. -/
theorem depth_jump_of_depth : ∀ (n : ℕ) {a b : α}, node a → node b → depth a = n → depth b = n →
    depth (jump a) = depth (jump b) := by
  intro n
  induction n using Nat.strong_induction_on with
  | _ n ih =>
    intro a b ha hb hna hnb
    rcases Nat.eq_zero_or_pos n with rfl | hpos
    · rw [(h.root ha hna).2, (h.root hb hnb).2, hna, hnb]
    · have hdepth_a := h.depth_parent ha (hna ▸ hpos)
      have hdepth_b := h.depth_parent hb (hnb ▸ hpos)
      have hparent_a := h.parent_node ha
      have hparent_b := h.parent_node hb
      have hparents : depth (parent a) = depth (parent b) := by omega
      have hjumps : depth (jump (parent a)) = depth (jump (parent b)) :=
        ih (depth (parent b)) (by omega) hparent_a hparent_b hparents rfl
      have hle := h.depth_jump_le hparent_b
      have hjumps' : depth (jump (jump (parent a))) = depth (jump (jump (parent b))) :=
        ih (depth (jump (parent b))) (by omega) (h.jump_node hparent_a)
          (h.jump_node hparent_b) hjumps rfl
      rw [h.jump_eq ha (hna ▸ hpos), h.jump_eq hb (hnb ▸ hpos), hparents, hjumps, hjumps']
      split
      · exact hjumps'
      · exact hparents

theorem depth_jump_congr (ha : node a) (hb : node b) (hdepth : depth a = depth b) :
    depth (jump a) = depth (jump b) :=
  h.depth_jump_of_depth _ ha hb hdepth rfl

/-! ## Common ancestors -/

/-- Two nodes of one depth whose jumps differ have only the common ancestors of the jumps. -/
theorem common_jump (ha : node a) (hb : node b) (hdepth : depth a = depth b)
    (hne : jump a ≠ jump b) :
    IsAbove parent c a ∧ IsAbove parent c b ↔ IsAbove parent c (jump a) ∧
      IsAbove parent c (jump b) := by
  refine ⟨fun ⟨hca, hcb⟩ => ?_,
    fun hc => ⟨hc.1.trans (h.jump_above ha), hc.2.trans (h.jump_above hb)⟩⟩
  have hjumps := h.depth_jump_congr ha hb hdepth
  rcases le_total (depth c) (depth (jump a)) with hle | hle
  · exact ⟨h.above_of_le ha (h.jump_above ha) hca hle,
      h.above_of_le hb (h.jump_above hb) hcb (hjumps ▸ hle)⟩
  · have hc := h.above_node ha hca
    have hjump_a := h.above_of_le ha hca (h.jump_above ha) hle
    have hjump_b := h.above_of_le hb hcb (h.jump_above hb) (hjumps ▸ hle)
    exact absurd (h.above_unique hc hjump_a hjump_b hjumps) hne

/-- Two nodes of one depth that differ have only the common ancestors of their parents. -/
theorem common_parent (ha : node a) (hb : node b) (hdepth : depth a = depth b) (hne : a ≠ b) :
    IsAbove parent c a ∧ IsAbove parent c b ↔ IsAbove parent c (parent a) ∧
      IsAbove parent c (parent b) := by
  have hup {e : α} (he : node e) (hce : IsAbove parent c e) (hlt : depth c < depth e) :
      IsAbove parent c (parent e) := by
    refine h.above_of_le he (above_parent parent e) hce ?_
    rw [h.depth_parent_eq he]
    omega
  refine ⟨fun ⟨hca, hcb⟩ => ?_,
    fun hc => ⟨hc.1.trans (above_parent parent a), hc.2.trans (above_parent parent b)⟩⟩
  rcases (h.above_depth_le ha hca).lt_or_eq with hlt | heq
  · exact ⟨hup ha hca hlt, hup hb hcb (hdepth ▸ hlt)⟩
  · have hac : c = a := h.above_unique ha hca (.refl a) heq
    have hbc : c = b := h.above_unique hb hcb (.refl b) (heq.trans hdepth)
    exact absurd (hac.symm.trans hbc) hne

/-! ## A new node -/

/-- A new root, or a new node under a node. -/
theorem insert (hnew : ¬node b) (hnode : ∀ c, node' c ↔ c = b ∨ node c)
    (hsame : ∀ c, node c → parent' c = parent c ∧ jump' c = jump c ∧ depth' c = depth c)
    (hb : depth' b = 0 ∧ parent' b = b ∧ jump' b = b ∨
      ∃ p, node p ∧ parent' b = p ∧ depth' b = depth p + 1 ∧
        jump' b = if depth p - depth (jump p) = depth (jump p) - depth (jump (jump p))
          then jump (jump p) else p) :
    Jumps node' parent' jump' depth' where
  root := by
    intro c hc hzero
    rcases (hnode c).1 hc with rfl | hc
    · rcases hb with hb | ⟨p, -, -, hdepth, -⟩
      · exact hb.2
      · rw [hdepth] at hzero
        exact absurd hzero (succ_ne_zero _)
    · obtain ⟨hparent, hjump, hdepth⟩ := hsame c hc
      rw [hparent, hjump]
      exact h.root hc (hdepth ▸ hzero)
  parent_node := by
    intro c hc
    rcases (hnode c).1 hc with rfl | hc
    · rcases hb with ⟨-, hparent, -⟩ | ⟨p, hp, hparent, -, -⟩
      · rwa [hparent]
      · rw [hparent]
        exact (hnode p).2 (.inr hp)
    · rw [(hsame c hc).1]
      exact (hnode _).2 (.inr (h.parent_node hc))
  depth_parent := by
    intro c hc hpos
    rcases (hnode c).1 hc with rfl | hc
    · rcases hb with ⟨hzero, -, -⟩ | ⟨p, hp, hparent, hdepth, -⟩
      · exact absurd hzero hpos.ne'
      · rw [hparent, (hsame p hp).2.2, hdepth]
    · obtain ⟨hparent, -, hdepth⟩ := hsame c hc
      rw [hparent, (hsame _ (h.parent_node hc)).2.2, hdepth]
      exact h.depth_parent hc (hdepth ▸ hpos)
  jump_eq := by
    have hpoint : ∀ p, node p → jump' p = jump p ∧ depth' p = depth p ∧
      depth' (jump p) = depth (jump p) ∧
        jump' (jump p) = jump (jump p) ∧ depth' (jump (jump p)) = depth (jump (jump p)) :=
          fun p hp => by
      have hjump := h.jump_node hp
      exact ⟨(hsame p hp).2.1, (hsame p hp).2.2, (hsame _ hjump).2.2, (hsame _ hjump).2.1,
        (hsame _ (h.jump_node hjump)).2.2⟩
    intro c hc hpos
    rcases (hnode c).1 hc with rfl | hc
    · rcases hb with ⟨hzero, -, -⟩ | ⟨p, hp, hparent, -, hjump⟩
      · exact absurd hzero hpos.ne'
      · obtain ⟨hjump', hdepth, hdepth', hjump'', hdepth''⟩ := hpoint p hp
        rw [hparent, hjump', hdepth, hdepth', hjump'', hdepth'']
        exact hjump
    · obtain ⟨hparent, hjump, hdepth⟩ := hsame c hc
      obtain ⟨hjump', hdepth', hdepth'', hjump'', hdepth'''⟩ := hpoint _ (h.parent_node hc)
      rw [hparent, hjump, hjump', hdepth', hdepth'', hjump'', hdepth''']
      exact h.jump_eq hc (hdepth ▸ hpos)

end Jumps

end Soup.Lib
