import Soup.Hir.Groups
import Soup.Hir.PostDominatorTree

/-!
# Frontiers and unconditional blocks

The walk from a successor of a block `pred` marks what post-dominates the successor up to the
immediate post-dominator of `pred` (`Walking`), and stops early only at a block that was marked with
all above it. So a block is in the frontier of all that post-dominates a successor of it and does
not post-dominate the block itself (`mem_frontier_iff`).
-/

namespace Soup.Hir

open Lib Dominance List

section Tree

variable {func : HirFunction} {includeThrows : Bool} {ids : List BlockId} {parent : ℕ → ℕ}
  {post : PostDominator} {id next target pred : BlockId}

theorem HirFunction.Edge.mem_left (h : func.Edge id next) : id ∈ func.ids := by
  obtain ⟨block, hblock, -⟩ := h
  exact mem_map_of_mem hblock

theorem PostDominates.of_edge (h : PostDominates func includeThrows target id) (hne : target ≠ id)
    (hedge : func.Edge id next) (hnext : ReachesExit func includeThrows next) :
    PostDominates func includeThrows target next :=
  ⟨hnext, fun _ hpath => (mem_cons.1 (h.2 _ (.step hedge hpath))).resolve_left hne⟩

variable (h : TreeOf func includeThrows ids parent post)
include h

theorem TreeOf.mem_ids (hid : id ∈ ids) : id ∈ func.ids := by
  obtain ⟨path, hpath⟩ := (h.order.mem_iff id).1 hid
  exact hpath.mem_ids

theorem TreeOf.mem_of_edge (hedge : func.Edge id next) (hnext : next ∈ ids) : id ∈ ids := by
  obtain ⟨path, hpath⟩ := (h.order.mem_iff next).1 hnext
  exact (h.order.mem_iff id).2 ⟨_, .step hedge hpath⟩

theorem TreeOf.parent_lt (id : BlockId) : parent (node ids id) < node ids id :=
  h.falls _ (Nat.succ_pos _)

/-- The parent of a node is the exit, or the node of a block. -/
theorem TreeOf.parent_cases (hid : id ∈ ids) : parent (node ids id) = 0 ∨
    ∃ up ∈ ids, node ids up = parent (node ids id) := by
  rcases Nat.eq_zero_or_pos (parent (node ids id)) with hzero | hpos
  · exact .inl hzero
  · exact .inr (exists_node h.order.nodup hpos (h.le _ (Nat.succ_pos _) (node_le hid)))

/-- The tree has the immediate post-dominators. -/
theorem TreeOf.get_immediate (hid : ReachesExit func includeThrows id) : ∃ up,
    post.get id = .ok (some up) ∧ (IsImmediate func includeThrows up id ∨
      up = post.exit ∧ ∀ target, PostDominates func includeThrows target id → target = id) := by
  have hmem := (h.order.mem_iff id).2 hid
  refine ⟨_, h.get id hmem, ?_⟩
  rcases h.parent_cases hmem with hzero | ⟨up, hup, hnode⟩
  · refine .inr ⟨by rw [hzero, blockOf], fun target hdom => ?_⟩
    obtain ⟨htarget, habove⟩ := (h.dominates id hmem target).1 hdom
    by_contra hne
    have hzero' := (habove.of_ne fun heq => hne (node_inj htarget hmem heq)).2
    rw [hzero, above_zero_iff] at hzero'
    exact Nat.succ_ne_zero _ hzero'
  · refine .inl ?_
    rw [← hnode, blockOf_node hup]
    refine ⟨?_, (h.dominates id hmem up).2 ⟨hup, .up (Nat.succ_pos _) (hnode ▸ .refl)⟩, ?_⟩
    · rintro rfl
      exact ne_of_lt (h.parent_lt up) hnode.symm
    · intro other hne hdom
      obtain ⟨hother, habove⟩ := (h.dominates id hmem other).1 hdom
      refine (h.dominates up hup other).2 ⟨hother, ?_⟩
      rw [hnode]
      exact (habove.of_ne fun heq => hne (node_inj hother hmem heq)).2

/-- The immediate post-dominator of a block is above its successors. -/
theorem TreeOf.parent_above (hedge : func.Edge pred id) (hid : id ∈ ids) :
    Above parent (parent (node ids pred)) (node ids id) := by
  have hpred := h.mem_of_edge hedge hid
  rcases h.parent_cases hpred with hzero | ⟨up, hup, hnode⟩
  · rw [hzero]
    exact above_root h.falls _
  · have hdom := (h.dominates pred hpred up).2 ⟨hup, .up (Nat.succ_pos _) (hnode ▸ .refl)⟩
    have hne : up ≠ pred := by
      rintro rfl
      exact ne_of_lt (h.parent_lt up) hnode.symm
    rw [← hnode]
    exact ((h.dominates id hid up).1 (hdom.of_edge hne hedge ((h.order.mem_iff id).1 hid))).2

/-- What is above a successor is before the immediate post-dominator, or post-dominates the block.
-/
theorem TreeOf.parent_lt_iff (hedge : func.Edge pred id) (hid : id ∈ ids) (htarget : target ∈ ids)
    (habove : Above parent (node ids target) (node ids id)) :
    parent (node ids pred) < node ids target ↔
      ¬(target ≠ pred ∧ PostDominates func includeThrows target pred) := by
  have hpred := h.mem_of_edge hedge hid
  constructor
  · rintro hlt ⟨hne, hdom⟩
    have hup := (((h.dominates pred hpred target).1 hdom).2.of_ne
      fun heq => hne (node_inj htarget hpred heq)).2
    exact absurd (hup.le h.falls) (not_le.2 hlt)
  · intro hnot
    by_contra hge
    have hle := not_lt.1 hge
    refine hnot ⟨?_, (h.dominates pred hpred target).2 ⟨htarget, .up (Nat.succ_pos _) ?_⟩⟩
    · rintro rfl
      exact absurd (h.parent_lt target) (not_lt.2 hle)
    · exact habove.of_le h.falls (h.parent_above hedge hid) hle

end Tree

/-! ## One walk -/

/-- While the frontiers of `pred` are filled: `marked` are the blocks that have `pred`. -/
structure Walking (func : HirFunction) (range : BlockRange) (pred : BlockId) (done : List BlockId)
    (base : List (ℕ × BlockId)) (marked : BlockId → Prop)
    (state : List (Option BlockId) × List (ℕ × BlockId)) : Prop where
  length : state.1.length = range.len
  newest : ∀ id ∈ func.ids, state.1[id - range.first]? = some (some pred) ↔ marked id
  entries : ∀ (i : ℕ) (x : BlockId), state.1[i]? = some (some x) → x = pred ∨ x ∈ done
  frontiers : ∀ pair, pair ∈ state.2 ↔
    pair ∈ base ∨ ∃ id ∈ func.ids, marked id ∧ pair = (id - range.first, pred)

section Walk

variable {func : HirFunction} {includeThrows : Bool} {ids : List BlockId} {parent : ℕ → ℕ}
  {post : PostDominator} {id next target pred stop : BlockId} {done : List BlockId}
  {base : List (ℕ × BlockId)} {marked marked' : BlockId → Prop}
  {state : List (Option BlockId) × List (ℕ × BlockId)} {range : BlockRange}

theorem Walking.congr (hw : Walking func range pred done base marked state)
    (heq : ∀ id ∈ func.ids, marked id ↔ marked' id) :
    Walking func range pred done base marked' state := by
  refine ⟨hw.length, fun id hid => (hw.newest id hid).trans (heq id hid), hw.entries,
    fun pair => ?_⟩
  rw [hw.frontiers]
  refine or_congr_right (exists_congr fun id => and_congr_right fun hid => ?_)
  rw [heq id hid]

variable (hrange : ∀ id ∈ func.ids, range.InRange id)
include hrange

section

variable (hw : Walking func range pred done base marked state)
include hw

/-- The entry of a block. -/
theorem Walking.exists_entry
    (hid : id ∈ func.ids) : ∃ last, state.1[id - range.first]? = some last :=
  ⟨_, getElem?_eq_getElem (by rw [hw.length]; exact (hrange id hid).2)⟩

theorem Walking.mark (hid : id ∈ func.ids) :
    Walking func range pred done base (fun t => marked t ∨ t = id)
      (state.1.set (id - range.first) (some pred), state.2 ++ [(id - range.first, pred)]) := by
  have hlt : id - range.first < state.1.length := by
    rw [hw.length]
    exact (hrange id hid).2
  refine ⟨by rw [length_set, hw.length], fun t ht => ?_, fun i x hx => ?_, fun pair => ?_⟩
  · by_cases heq : id - range.first = t - range.first
    · rw [← heq, getElem?_set_self hlt]
      exact iff_of_true rfl (.inr ((hrange t ht).inj (hrange id hid) heq.symm))
    · rw [getElem?_set_ne heq, hw.newest t ht]
      refine ⟨.inl, fun hmarked => hmarked.resolve_right ?_⟩
      rintro rfl
      exact heq rfl
  · by_cases heq : id - range.first = i
    · rw [heq, getElem?_set_self (heq ▸ hlt)] at hx
      exact .inl (Option.some.inj (Option.some.inj hx)).symm
    · rw [getElem?_set_ne heq] at hx
      exact hw.entries i x hx
  · rw [mem_append, hw.frontiers, mem_singleton, or_assoc]
    refine or_congr_right ⟨?_, ?_⟩
    · rintro (⟨t, ht, hmarked, rfl⟩ | rfl)
      · exact ⟨t, ht, .inl hmarked, rfl⟩
      · exact ⟨id, hid, .inr rfl, rfl⟩
    · rintro ⟨t, ht, hmarked | rfl, rfl⟩
      · exact .inl ⟨t, ht, hmarked, rfl⟩
      · exact .inr rfl

end

omit hrange in
/-- A block that was marked, or the end of the walk. -/
theorem frontierWalk_stop {fuel : ℕ} (h : id = stop ∨ ∃ index, post.range.offset id = .ok index ∧
      state.1[index]? = some (some pred)) :
    frontierWalk post pred stop (fuel + 1) id state = .ok state := by
  obtain ⟨newest, frontiers⟩ := state
  rw [frontierWalk]
  by_cases hid : id = stop
  · rw [if_pos hid]
  · obtain ⟨index, hindex, hget⟩ := h.resolve_left hid
    rw [if_neg hid, hindex, ok_bind, read_eq hget, ok_bind, if_pos rfl]

section Mark

omit hrange

variable {fuel index : ℕ} {last up : Option BlockId} (hid : id ≠ stop)
  (hindex : post.range.offset id = .ok index) (hget : state.1[index]? = some last)
  (hlast : last ≠ some pred)
include hid hindex hget hlast

/-- The walk ends behind the block. -/
theorem frontierWalk_last (hup : post.get id = .ok up) (hexit : ∀ next ∈ up, next = post.exit) :
    frontierWalk post pred stop (fuel + 1) id state =
      .ok (state.1.set index (some pred), state.2 ++ [(index, pred)]) := by
  obtain ⟨newest, frontiers⟩ := state
  have hlt := (List.getElem?_eq_some_iff.1 hget).1
  rw [frontierWalk, if_neg hid, hindex, ok_bind, read_eq hget, ok_bind, if_neg hlast,
    write_eq hlt, ok_bind]
  rw [hup, ok_bind]
  cases up with
  | none => rfl
  | some next => exact if_neg (not_not.2 (hexit next rfl))

theorem frontierWalk_next (hup : post.get id = .ok (some next)) (hexit : next ≠ post.exit) :
    frontierWalk post pred stop (fuel + 1) id state =
      frontierWalk post pred stop fuel next
        (state.1.set index (some pred), state.2 ++ [(index, pred)]) := by
  obtain ⟨newest, frontiers⟩ := state
  have hlt := (List.getElem?_eq_some_iff.1 hget).1
  rw [frontierWalk, if_neg hid, hindex, ok_bind, read_eq hget, ok_bind, if_neg hlast,
    write_eq hlt, ok_bind]
  rw [hup, ok_bind]
  exact if_pos hexit

end Mark

variable (h : TreeOf func includeThrows ids parent post)
include h

/-- The walk from a block that reaches the exit. `path` are the blocks that it marked before. -/
theorem TreeOf.walk (hrange' : post.range = range) {e : ℕ} (hstop : stop = blockOf post.exit ids e)
    (marked : BlockId → Prop)
    (hclosed : ∀ s ∈ ids, marked s → ∀ t ∈ ids, Above parent (node ids t) (node ids s) →
      e < node ids t → marked t) :
    ∀ (v : ℕ) (id : BlockId) (path : BlockId → Prop)
      (state : List (Option BlockId) × List (ℕ × BlockId)), id ∈ ids → node ids id = v →
      Above parent e v → (∀ t ∈ ids, path t → v < node ids t) →
      Walking func range pred done base (fun t => marked t ∨ path t) state →
      ∃ state', (∀ᶠ fuel in Filter.atTop, frontierWalk post pred stop fuel id state = .ok state') ∧
        Walking func range pred done base (fun t => (marked t ∨ path t) ∨
          (t ∈ ids ∧ Above parent (node ids t) v ∧ e < node ids t)) state' := by
  intro v
  induction v using Nat.strong_induction_on with
  | _ v ih =>
    rintro id path state hid rfl he hpath hw
    have hmem := h.mem_ids hid
    have hoffset : post.range.offset id = .ok (id - range.first) := by
      rw [hrange']
      exact (hrange id hmem).offset
    by_cases hend : id = stop
    · have hnode : node ids id = e := by
        rcases Nat.eq_zero_or_pos e with rfl | hpos
        · exact absurd (hend.trans hstop) (ne_of_lt (h.fresh id hmem))
        · obtain ⟨t, ht, rfl⟩ :=
            exists_node h.order.nodup hpos ((he.le h.falls).trans (node_le hid))
          rw [hend, hstop, blockOf_node ht]
      refine ⟨state, eventually_succ (.of_forall fun fuel => frontierWalk_stop (.inl hend)),
        hw.congr fun t _ => ⟨.inl, fun hor => hor.resolve_right ?_⟩⟩
      rintro ⟨-, habove, hlt⟩
      have := habove.le h.falls
      omega
    have hne : node ids id ≠ e := by
      rintro rfl
      exact hend (by rw [hstop, blockOf_node hid])
    by_cases hmarked : marked id ∨ path id
    · have hm : marked id := hmarked.resolve_right fun hp => lt_irrefl _ (hpath id hid hp)
      refine ⟨state, eventually_succ (.of_forall fun fuel =>
        frontierWalk_stop (.inr ⟨_, hoffset, (hw.newest id hmem).2 hmarked⟩)),
        hw.congr fun t _ => ⟨.inl, fun hor => hor.elim (fun hor => hor) ?_⟩⟩
      rintro ⟨ht, habove, hlt⟩
      exact .inl (hclosed id hid hm t ht habove hlt)
    obtain ⟨last, hlast⟩ := hw.exists_entry hrange hmem
    have hlast' : last ≠ some pred := by
      rintro rfl
      exact hmarked ((hw.newest id hmem).1 hlast)
    have hmark := hw.mark hrange hmem
    have hup := (he.of_ne (Ne.symm hne)).2
    have helt : e < node ids id := lt_of_le_of_ne (he.le h.falls) (Ne.symm hne)
    rcases h.parent_cases hid with hzero | ⟨next, hnext, hnode⟩
    · refine ⟨_, eventually_succ (.of_forall fun fuel => ?_), hmark.congr fun t ht => ?_⟩
      · refine frontierWalk_last hend hoffset hlast hlast' (h.get id hid) fun next hnext => ?_
        rw [← Option.some.inj hnext, hzero, blockOf]
      · refine or_congr_right ⟨?_, ?_⟩
        · rintro rfl
          exact ⟨hid, .refl, helt⟩
        · rintro ⟨htids, habove, -⟩
          by_contra hne'
          have hzero' := (habove.of_ne fun heq => hne' (node_inj htids hid heq)).2
          rw [hzero, above_zero_iff] at hzero'
          exact Nat.succ_ne_zero _ hzero'
    · obtain ⟨state', hrun, hend'⟩ := ih (parent (node ids id)) (h.parent_lt id) next
        (fun t => path t ∨ t = id) _ hnext hnode hup (fun t ht hor => by
          rcases hor with hp | rfl
          · exact (h.parent_lt id).trans (hpath t ht hp)
          · exact h.parent_lt t)
        (hmark.congr fun t _ => or_assoc)
      refine ⟨state', eventually_succ ?_, hend'.congr fun t ht => ?_⟩
      · filter_upwards [hrun] with fuel hrun
        have hget := h.get id hid
        rw [← hnode, blockOf_node hnext] at hget
        rw [frontierWalk_next hend hoffset hlast hlast' hget
          (ne_of_lt (h.fresh next (h.mem_ids hnext)))]
        exact hrun
      · rw [← or_assoc, or_assoc (c := _ ∧ _)]
        refine or_congr_right ⟨?_, ?_⟩
        · rintro (rfl | ⟨htids, habove, hlt⟩)
          · exact ⟨hid, .refl, helt⟩
          · exact ⟨htids, .up (Nat.succ_pos _) habove, hlt⟩
        · rintro ⟨htids, habove, hlt⟩
          by_cases heq : t = id
          · exact .inl heq
          · exact .inr ⟨htids, (habove.of_ne fun hn => heq (node_inj htids hid hn)).2, hlt⟩

/-- The walk from a block that does not reach the exit marks no block that does. -/
theorem TreeOf.walk_other (hrange' : post.range = range) (hid : id ∈ func.ids) (hnot : id ∉ ids)
    (hthrows : includeThrows = false) (stop : BlockId)
    (hw : Walking func range pred done base marked state) : ∃ state' marked',
      (∀ᶠ fuel in Filter.atTop, frontierWalk post pred stop fuel id state = .ok state') ∧
        Walking func range pred done base marked' state' ∧ ∀ t ∈ ids, marked' t ↔ marked t := by
  have hoffset : post.range.offset id = .ok (id - range.first) := by
    rw [hrange']
    exact (hrange id hid).offset
  by_cases hend : id = stop
  · exact ⟨state, marked, eventually_succ (.of_forall fun fuel => frontierWalk_stop (.inl hend)),
      hw, fun t _ => Iff.rfl⟩
  by_cases hmarked : marked id
  · exact ⟨state, marked, eventually_succ (.of_forall fun fuel =>
      frontierWalk_stop (.inr ⟨_, hoffset, (hw.newest id hid).2 hmarked⟩)), hw, fun t _ => Iff.rfl⟩
  obtain ⟨last, hlast⟩ := hw.exists_entry hrange hid
  have hlast' : last ≠ some pred := by
    rintro rfl
    exact hmarked ((hw.newest id hid).1 hlast)
  have hget := h.other id hid hnot
  rw [hthrows] at hget
  refine ⟨_, _, eventually_succ (.of_forall fun fuel => frontierWalk_last hend hoffset hlast hlast'
    hget (by simp)), hw.mark hrange hid, fun t ht => ⟨fun hor => hor.resolve_right ?_, .inl⟩⟩
  rintro rfl
  exact hnot ht

/-! ## The frontiers of one block -/

variable (hthrows : ∀ id ∈ func.ids, id ∉ ids → includeThrows = false)
include hthrows

variable {targets : List BlockId}

/-- The walks from all successors. -/
theorem TreeOf.walks (hrange' : post.range = range) (htargets : ∀ id ∈ targets, func.Edge pred id)
    (hstop : pred ∈ ids → stop = blockOf post.exit ids (parent (node ids pred)))
    (hw : Walking func range pred done base (fun _ => False) state) :
    ∃ state', (∀ᶠ fuel in Filter.atTop, targets.foldlM
        (fun state id => frontierWalk post pred stop fuel id state) state = .ok state') ∧
      ∃ marked, Walking func range pred done base marked state' ∧ ∀ t ∈ ids,
        marked t ↔ ∃ id ∈ targets, id ∈ ids ∧ Above parent (node ids t) (node ids id) ∧
          parent (node ids pred) < node ids t := by
  refine eventually_foldlM targets
    (f := fun fuel state id => frontierWalk post pred stop fuel id state)
    (P := fun behind state => ∃ marked, Walking func range pred done base marked state ∧ ∀ t ∈ ids,
      marked t ↔ ∃ id ∈ behind, id ∈ ids ∧ Above parent (node ids t) (node ids id) ∧
        parent (node ids pred) < node ids t) ⟨_, hw, by simp⟩ ?_
  rintro behind id rest rfl state ⟨marked, hw, hmarked⟩
  have hedge := htargets id (by simp)
  have hid : id ∈ func.ids := by
    obtain ⟨-, -, -, hid⟩ := hedge
    exact hid
  by_cases hmem : id ∈ ids
  · have hpred' := h.mem_of_edge hedge hmem
    obtain ⟨state', hrun, hw'⟩ := h.walk hrange hrange' (hstop hpred') marked
      (fun s hs hms t ht habove hlt => by
        obtain ⟨id, hid, hidmem, habove', -⟩ := (hmarked s hs).1 hms
        exact (hmarked t ht).2 ⟨id, hid, hidmem, habove.trans habove', hlt⟩)
      (node ids id) id (fun _ => False) state hmem rfl (h.parent_above hedge hmem)
      (fun t _ hfalse => hfalse.elim) (hw.congr fun t _ => by rw [or_false])
    refine ⟨state', hrun, _, hw', fun t ht => ?_⟩
    rw [or_false, hmarked t ht]
    constructor
    · rintro (⟨s, hs, hrest⟩ | ⟨-, hrest⟩)
      · exact ⟨s, mem_append_left _ hs, hrest⟩
      · exact ⟨id, by simp, hmem, hrest⟩
    · rintro ⟨s, hs, hrest⟩
      rcases mem_append.1 hs with hs | hs
      · exact .inl ⟨s, hs, hrest⟩
      · obtain rfl := mem_singleton.1 hs
        exact .inr ⟨ht, hrest.2⟩
  · obtain ⟨state', marked', hrun, hw', hsame⟩ := h.walk_other hrange hrange' hid hmem
      (hthrows id hid hmem) stop hw
    refine ⟨state', hrun, marked', hw', fun t ht => ?_⟩
    rw [hsame t ht, hmarked t ht]
    refine exists_congr fun s => ?_
    rw [mem_append, mem_singleton]
    constructor
    · exact fun ⟨hs, hrest⟩ => ⟨.inl hs, hrest⟩
    · rintro ⟨hs | rfl, hrest⟩
      · exact ⟨hs, hrest⟩
      · exact absurd hrest.1 hmem

omit hrange in
/-- Every block has an entry of the tree. -/
theorem TreeOf.exists_get (hid : id ∈ func.ids) : ∃ up, post.get id = .ok up ∧
    (id ∈ ids → up.getD id = blockOf post.exit ids (parent (node ids id))) := by
  by_cases hmem : id ∈ ids
  · exact ⟨_, h.get id hmem, fun _ => rfl⟩
  · have hget := h.other id hid hmem
    rw [hthrows id hid hmem] at hget
    exact ⟨_, hget, fun hid' => absurd hid' hmem⟩

/-- `pred` is in the frontier of `target`. -/
def InFrontier (func : HirFunction) (ids : List BlockId) (parent : ℕ → ℕ) (target pred : BlockId) :
    Prop :=
  ∃ id, func.Edge pred id ∧ id ∈ ids ∧ Above parent (node ids target) (node ids id) ∧
    parent (node ids pred) < node ids target

/-- The state between two blocks. -/
structure Filled (func : HirFunction) (range : BlockRange) (ids : List BlockId) (parent : ℕ → ℕ)
    (done : List BlockId) (state : List (Option BlockId) × List (ℕ × BlockId)) : Prop where
  length : state.1.length = range.len
  entries : ∀ (i : ℕ) (x : BlockId), state.1[i]? = some (some x) → x ∈ done
  bound : ∀ pair ∈ state.2, pair.1 < range.len
  frontiers : ∀ t ∈ ids, ∀ pred, (t - range.first, pred) ∈ state.2 ↔
    pred ∈ done ∧ InFrontier func ids parent t pred

theorem TreeOf.addFrontiers (hrange' : post.range = range) (hpred : pred ∈ func.ids)
    (hnew : pred ∉ done) {successors : Groups}
    (htargets : successors.get (pred - range.first) = .ok targets)
    (hedges : ∀ id, id ∈ targets ↔ func.Edge pred id)
    (hfilled : Filled func range ids parent done state) :
    ∃ state', (∀ᶠ fuel in Filter.atTop, addFrontiers fuel post successors state pred =
        .ok state') ∧ Filled func range ids parent (done ++ [pred]) state' := by
  obtain ⟨up, hup, hstop⟩ := h.exists_get hthrows hpred
  have hstart : Walking func range pred done state.2 (fun _ => False) state := by
    refine ⟨hfilled.length,
      fun id _ => iff_of_false (fun hx => hnew (hfilled.entries _ _ hx)) not_false,
      fun i x hx => .inr (hfilled.entries i x hx), fun pair => ?_⟩
    simp
  obtain ⟨state', hrun, marked, hw, hmarked⟩ := h.walks hrange hthrows hrange'
    (fun id hid => (hedges id).1 hid) hstop hstart
  have hoffset : post.range.offset pred = .ok (pred - range.first) := by
    rw [hrange']
    exact (hrange pred hpred).offset
  refine ⟨state', ?_, hw.length, ?_, ?_, ?_⟩
  · filter_upwards [hrun] with fuel hrun
    rw [Hir.addFrontiers, hup, ok_bind, hoffset, ok_bind, htargets, ok_bind]
    exact hrun
  · intro i x hx
    rcases hw.entries i x hx with rfl | hdone
    · simp
    · exact mem_append_left _ hdone
  · intro pair hpair
    rcases (hw.frontiers pair).1 hpair with hpair | ⟨id, hid, -, rfl⟩
    · exact hfilled.bound pair hpair
    · exact (hrange id hid).2
  · intro t ht pred'
    rw [hw.frontiers, hfilled.frontiers t ht, mem_append, mem_singleton]
    have hmark : (∃ id ∈ func.ids, marked id ∧
      (t - range.first, pred') = (id - range.first, pred)) ↔
        pred' = pred ∧ InFrontier func ids parent t pred' := by
      constructor
      · rintro ⟨id, hid, hm, heq⟩
        obtain ⟨hindex, rfl⟩ := Prod.mk.inj heq
        obtain rfl := (hrange t (h.mem_ids ht)).inj (hrange id hid) hindex
        obtain ⟨s, hs, hrest⟩ := (hmarked t ht).1 hm
        exact ⟨rfl, s, (hedges s).1 hs, hrest⟩
      · rintro ⟨rfl, s, hs, hrest⟩
        exact ⟨t, h.mem_ids ht, (hmarked t ht).2 ⟨s, (hedges s).2 hs, hrest⟩, rfl⟩
    rw [hmark, or_and_right]

end Walk

/-! ## All frontiers -/

section All

variable {func : HirFunction} {includeThrows : Bool} {ids : List BlockId} {parent : ℕ → ℕ}
  {post : PostDominator}

/-- The edges by their sources. -/
theorem exists_edges (hcons : func.Consistent) (hrange : ∀ id ∈ func.ids, post.range.InRange id)
    (hget : ∀ id ∈ func.ids, ∃ up, post.get id = .ok up) : ∃ edges,
    func.blocks.foldlM (fun edges entry => entry.2.preds.foldlM (addEdge post entry.1) edges) [] =
      .ok edges ∧ ∀ (index : ℕ) (id : BlockId), (index, id) ∈ edges ↔
        ∃ pred, func.Edge pred id ∧ index = pred - post.range.first := by
  have hblock : ∀ (id : BlockId) (preds : List BlockId) (edges : List (ℕ × BlockId)),
      (∀ pred ∈ preds, pred ∈ func.ids) → preds.foldlM (addEdge post id) edges =
        .ok (edges ++ preds.map fun pred => (pred - post.range.first, id)) := by
    intro id preds
    induction preds with
    | nil => intro edges _; rw [map_nil, append_nil]; rfl
    | cons pred preds ih =>
      intro edges hpreds
      have hpred := hpreds pred mem_cons_self
      obtain ⟨up, hup⟩ := hget pred hpred
      rw [foldlM_cons, addEdge, hup, ok_bind, (hrange pred hpred).offset, ok_bind, ok_bind,
        ih _ fun p hp => hpreds p (mem_cons_of_mem _ hp), map_cons, List.append_assoc]
      rfl
  obtain ⟨edges, hloop, hedges⟩ := exists_foldlM func.blocks
    (f := fun edges entry => entry.2.preds.foldlM (addEdge post entry.1) edges) (s := [])
    (P := fun done edges => ∀ (index : ℕ) (id : BlockId), (index, id) ∈ edges ↔
      ∃ block, (id, block) ∈ done ∧ ∃ pred ∈ block.preds, index = pred - post.range.first)
    (by simp) (by
      rintro done ⟨id, block⟩ rest hxs edges hedges
      have hmem : (id, block) ∈ func.blocks := by
        rw [hxs]
        simp
      refine ⟨_, hblock id block.preds edges fun pred hpred =>
        (HirFunction.Edge.mem_left ((hcons id block hmem pred).1 hpred)), fun index id' => ?_⟩
      rw [mem_append, hedges, mem_map]
      constructor
      · rintro (⟨block', hb, hrest⟩ | ⟨pred, hpred, heq⟩)
        · exact ⟨block', mem_append_left _ hb, hrest⟩
        · obtain ⟨rfl, rfl⟩ := Prod.mk.inj heq
          exact ⟨block, by simp, pred, hpred, rfl⟩
      · rintro ⟨block', hb, pred, hpred, rfl⟩
        rcases mem_append.1 hb with hb | hb
        · exact .inl ⟨block', hb, pred, hpred, rfl⟩
        · obtain ⟨rfl, rfl⟩ := Prod.mk.inj (mem_singleton.1 hb)
          exact .inr ⟨pred, hpred, rfl⟩)
  refine ⟨edges, hloop, fun index id => (hedges index id).trans ⟨?_, ?_⟩⟩
  · rintro ⟨block, hmem, pred, hpred, rfl⟩
    exact ⟨pred, (hcons id block hmem pred).1 hpred, rfl⟩
  · rintro ⟨pred, hedge, rfl⟩
    have hid : id ∈ func.ids := by
      obtain ⟨-, -, -, hid⟩ := hedge
      exact hid
    obtain ⟨⟨_, block⟩, hmem, rfl⟩ := mem_map.1 hid
    exact ⟨block, hmem, pred, (hcons _ block hmem pred).2 hedge, rfl⟩

theorem TreeOf.exists_frontiers (h : TreeOf func includeThrows ids parent post)
    (hcons : func.Consistent) (hthrows : ∀ id ∈ func.ids, id ∉ ids → includeThrows = false) :
    ∃ frontiers, (∀ᶠ fuel in Filter.atTop, postDominatorFrontiers fuel func post = .ok frontiers) ∧
      ∀ t ∈ ids, ∃ blocks, frontiers.get t = .ok (some blocks) ∧ ∀ pred, pred ∈ blocks ↔
        (∃ id, func.Edge pred id ∧ PostDominates func includeThrows t id) ∧
          ¬(t ≠ pred ∧ PostDominates func includeThrows t pred) := by
  have hrange : ∀ id ∈ func.ids, post.range.InRange id := by
    rw [h.range]
    exact fun id hid => BlockRange.inRange_of hid
  obtain ⟨edges, hedges, hmem⟩ := exists_edges hcons hrange fun id hid => by
    obtain ⟨up, hup, -⟩ := h.exists_get hthrows hid
    exact ⟨up, hup⟩
  obtain ⟨successors, hsuccessors, htargets⟩ := Groups.get_new post.range.len edges (by
    rintro ⟨index, id⟩ hpair
    obtain ⟨pred, hedge, rfl⟩ := (hmem index id).1 hpair
    exact (hrange pred (HirFunction.Edge.mem_left hedge)).2)
  obtain ⟨state, hloop, hfilled⟩ := eventually_foldlM func.ids
    (f := fun fuel => Hir.addFrontiers fuel post successors)
    (s := (replicate post.range.len none, [])) (P := Filled func post.range ids parent)
    (by
      refine ⟨length_replicate, fun i x hx => ?_, by simp, by simp⟩
      rw [getElem?_replicate] at hx
      split at hx <;> cases hx)
    (by
      intro done pred rest hxs state hfilled
      have hpred : pred ∈ func.ids := by
        rw [hxs]
        simp
      have hnew : pred ∉ done := by
        have hnodup := func.nodup
        rw [← HirFunction.ids, hxs] at hnodup
        exact fun hdone => (nodup_append.1 hnodup).2.2 pred hdone pred mem_cons_self rfl
      refine h.addFrontiers hrange hthrows rfl hpred hnew (htargets _ (hrange pred hpred).2)
        (fun id => ?_) hfilled
      rw [mem_membersOf, hmem]
      constructor
      · rintro ⟨pred', hedge, hindex⟩
        rwa [(hrange pred hpred).inj (hrange pred' (HirFunction.Edge.mem_left hedge)) hindex]
      · exact fun hedge => ⟨pred, hedge, rfl⟩)
  obtain ⟨frontiers, hfrontiers, hget⟩ := Groups.get_new post.range.len state.2 hfilled.bound
  refine ⟨⟨post.range, frontiers⟩, ?_, fun t ht => ?_⟩
  · filter_upwards [hloop] with fuel hloop
    rw [postDominatorFrontiers, hedges, ok_bind, hsuccessors, ok_bind, hloop, ok_bind, hfrontiers,
      ok_bind]
  · have hin := hrange t (h.mem_ids ht)
    refine ⟨membersOf state.2 (t - post.range.first), ?_, fun pred => ?_⟩
    · rw [PostDominatorFrontiers.get, hin.index]
      dsimp only
      rw [hget _ hin.2]
      rfl
    · rw [mem_membersOf, hfilled.frontiers t ht]
      constructor
      · rintro ⟨-, id, hedge, hid, habove, hlt⟩
        exact ⟨⟨id, hedge, (h.dominates id hid t).2 ⟨ht, habove⟩⟩,
          (h.parent_lt_iff hedge hid ht habove).1 hlt⟩
      · rintro ⟨⟨id, hedge, hdom⟩, hnot⟩
        have hid := (h.order.mem_iff id).2 hdom.1
        obtain ⟨-, habove⟩ := (h.dominates id hid t).1 hdom
        exact ⟨HirFunction.Edge.mem_left hedge, id, hedge, hid, habove,
          (h.parent_lt_iff hedge hid ht habove).2 hnot⟩

/-! ## Unconditional blocks -/

/-- The chain from a block to the exit. `marked` are the blocks that were before it. -/
theorem TreeOf.chain (h : TreeOf func includeThrows ids parent post)
    (hrange : ∀ id ∈ func.ids, post.range.InRange id) :
    ∀ (v : ℕ) (id : BlockId) (has : List Bool) (marked : BlockId → Prop), id ∈ ids →
      node ids id = v → has.length = post.range.len → (∀ t ∈ ids, marked t → v < node ids t) →
      (∀ i, has[i]? = some true ↔ ∃ t ∈ ids, marked t ∧ t - post.range.first = i) →
      ∃ has', (∀ᶠ fuel in Filter.atTop, unconditionalLoop post fuel (some id) has = .ok has') ∧
        has'.length = post.range.len ∧ ∀ i, has'[i]? = some true ↔
          ∃ t ∈ ids, (marked t ∨ Above parent (node ids t) v) ∧ t - post.range.first = i := by
  intro v
  induction v using Nat.strong_induction_on with
  | _ v ih =>
    rintro id has marked hid rfl hlength hmarked hhas
    have hmem := h.mem_ids hid
    have hin := hrange id hmem
    have hlt : id - post.range.first < has.length := by
      rw [hlength]
      exact hin.2
    have hbefore : has[id - post.range.first]? = some false := by
      cases hval : has[id - post.range.first]? with
      | none => exact absurd hval (by rw [getElem?_eq_getElem hlt]; simp)
      | some value =>
        cases value with
        | false => rfl
        | true =>
          obtain ⟨t, ht, hm, heq⟩ := (hhas _).1 hval
          obtain rfl := (hrange t (h.mem_ids ht)).inj hin heq
          exact absurd (hmarked t ht hm) (lt_irrefl _)
    have hset : ∀ i, (has.set (id - post.range.first) true)[i]? = some true ↔
        ∃ t ∈ ids, (marked t ∨ t = id) ∧ t - post.range.first = i := by
      intro i
      by_cases heq : id - post.range.first = i
      · subst heq
        rw [getElem?_set_self hlt]
        exact iff_of_true rfl ⟨id, hid, .inr rfl, rfl⟩
      · rw [getElem?_set_ne heq, hhas]
        refine exists_congr fun t => and_congr_right fun ht => ?_
        constructor
        · exact fun ⟨hm, hi⟩ => ⟨.inl hm, hi⟩
        · rintro ⟨hm | rfl, hi⟩
          · exact ⟨hm, hi⟩
          · exact absurd hi heq
    have hstep : ∀ fuel, unconditionalLoop post (fuel + 1) (some id) has =
        unconditionalLoop post fuel (some (blockOf post.exit ids (parent (node ids id))))
          (has.set (id - post.range.first) true) := by
      intro fuel
      rw [unconditionalLoop, if_neg (ne_of_lt (h.fresh id hmem)), h.get id hid, ok_bind,
        hin.offset, ok_bind, read_eq hbefore, ok_bind, if_neg Bool.false_ne_true]
    rcases h.parent_cases hid with hzero | ⟨next, hnext, hnode⟩
    · refine ⟨has.set (id - post.range.first) true, eventually_succ (eventually_succ
        (.of_forall fun fuel => ?_)), by rw [length_set, hlength], fun i => ?_⟩
      · rw [hstep, hzero, blockOf, unconditionalLoop, if_pos rfl]
      · rw [hset]
        refine exists_congr fun t => and_congr_right fun ht => and_congr_left fun _ =>
          or_congr_right ⟨?_, fun habove => ?_⟩
        · rintro rfl
          exact .refl
        · by_contra hne
          have hzero' := (habove.of_ne fun heq => hne (node_inj ht hid heq)).2
          rw [hzero, above_zero_iff] at hzero'
          exact Nat.succ_ne_zero _ hzero'
    · obtain ⟨has', hrun, hlength', hhas'⟩ := ih _ (h.parent_lt id) next _
        (fun t => marked t ∨ t = id) hnext hnode (by rw [length_set, hlength])
        (fun t ht hor => by
          rcases hor with hm | rfl
          · exact (h.parent_lt id).trans (hmarked t ht hm)
          · exact h.parent_lt t)
        hset
      refine ⟨has', eventually_succ ?_, hlength', fun i => ?_⟩
      · filter_upwards [hrun] with fuel hrun
        rw [hstep, ← hnode, blockOf_node hnext]
        exact hrun
      · rw [hhas']
        refine exists_congr fun t => and_congr_right fun ht => and_congr_left fun _ => ?_
        rw [or_assoc]
        refine or_congr_right ⟨?_, fun habove => ?_⟩
        · rintro (rfl | habove)
          · exact .refl
          · exact .up (Nat.succ_pos _) habove
        · by_cases heq : t = id
          · exact .inl heq
          · exact .inr (habove.of_ne fun hn => heq (node_inj ht hid hn)).2

theorem exists_unconditional (hcons : func.Consistent) {nextBlockIdCounter : ℕ}
    (hfresh : ∀ id ∈ func.ids, id < nextBlockIdCounter)
    (hentry : ReachesExit func false func.entry) :
    ∃ set, (∀ᶠ fuel in Filter.atTop, computeUnconditionalBlocks fuel func nextBlockIdCounter =
        .ok set) ∧
      ∀ id, ∃ found, set.contains id = .ok found ∧
        (found = true ↔ PostDominates func false id func.entry) := by
  obtain ⟨post, ids, parent, hpost, -, h⟩ := exists_tree hcons hfresh false
  have hrange : ∀ id ∈ func.ids, post.range.InRange id := by
    rw [h.range]
    exact fun id hid => BlockRange.inRange_of hid
  have hmem := (h.order.mem_iff _).2 hentry
  obtain ⟨has, hloop, hlength, hhas⟩ := h.chain hrange _ func.entry
    (replicate post.range.len false) (fun _ => False) hmem rfl length_replicate
    (fun t _ hfalse => hfalse.elim) (fun i => by
      rw [getElem?_replicate]
      split <;> simp)
  refine ⟨⟨post.range, has⟩, ?_, fun id => ?_⟩
  · filter_upwards [hpost, hloop] with fuel hpost hloop
    rw [computeUnconditionalBlocks, hpost, ok_bind]
    dsimp only
    rw [hloop, ok_bind]
  have hdom : PostDominates func false id func.entry ↔ id ∈ ids ∧
      Above parent (node ids id) (node ids func.entry) := h.dominates _ hmem id
  rw [BlockSet.contains]
  cases hindex : post.range.index id with
  | none =>
    refine ⟨false, rfl, iff_of_false Bool.false_ne_true fun hd => ?_⟩
    rw [(hrange id (h.mem_ids (hdom.1 hd).1)).index] at hindex
    cases hindex
  | some index =>
    have hin : post.range.InRange id := by
      rw [BlockRange.index] at hindex
      split at hindex
      · assumption
      · cases hindex
    obtain rfl := BlockRange.index_eq_some hindex
    have hget := getElem?_eq_getElem (show id - post.range.first < has.length by
      rw [hlength]
      exact hin.2)
    refine ⟨_, read_eq hget, ?_⟩
    have htrue := hhas (id - post.range.first)
    rw [hget, Option.some.injEq] at htrue
    rw [htrue, hdom]
    constructor
    · rintro ⟨t, ht, hor, heq⟩
      obtain rfl := (hrange t (h.mem_ids ht)).inj hin heq
      exact ⟨ht, hor.resolve_left not_false⟩
    · rintro ⟨hid, habove⟩
      exact ⟨id, hid, .inr habove, rfl⟩

end All

/-! ## The whole -/

/-- The tree has the immediate post-dominators. The frontiers are those of the post-dominators, if
throws are no exits or every block reaches the exit. The unconditional blocks are those on every
path from the entry to a return. -/
theorem postDominators_spec {func : HirFunction} (hcons : func.Consistent) {nextBlockIdCounter : ℕ}
    (hfresh : ∀ id ∈ func.ids, id < nextBlockIdCounter) :
    (∀ includeThrows, ∃ post, (∀ᶠ fuel in Filter.atTop,
        computePostDominatorTree fuel func nextBlockIdCounter includeThrows = .ok post) ∧
      (∀ id, ReachesExit func includeThrows id → ∃ up, post.get id = .ok (some up) ∧
        (IsImmediate func includeThrows up id ∨ up = nextBlockIdCounter ∧
          ∀ target, PostDominates func includeThrows target id → target = id)) ∧
      (includeThrows = false ∨ (∀ id ∈ func.ids, ReachesExit func includeThrows id) →
        ∃ frontiers, (∀ᶠ fuel in Filter.atTop,
            postDominatorFrontiers fuel func post = .ok frontiers) ∧
          ∀ target, ReachesExit func includeThrows target → ∃ blocks,
            frontiers.get target = .ok (some blocks) ∧ ∀ id, id ∈ blocks ↔
              (∃ next, func.Edge id next ∧ PostDominates func includeThrows target next) ∧
                ¬(target ≠ id ∧ PostDominates func includeThrows target id))) ∧
    (ReachesExit func false func.entry → ∃ set, (∀ᶠ fuel in Filter.atTop,
        computeUnconditionalBlocks fuel func nextBlockIdCounter = .ok set) ∧
      ∀ id, ∃ found, set.contains id = .ok found ∧
        (found = true ↔ PostDominates func false id func.entry)) := by
  refine ⟨fun includeThrows => ?_, exists_unconditional hcons hfresh⟩
  obtain ⟨post, ids, parent, hpost, hexit, h⟩ := exists_tree hcons hfresh includeThrows
  refine ⟨post, hpost, fun id hid => ?_, fun hcase => ?_⟩
  · rw [← hexit]
    exact h.get_immediate hid
  · obtain ⟨frontiers, hfrontiers, hget⟩ := h.exists_frontiers hcons fun id hid hnot =>
      hcase.resolve_right fun hall => hnot ((h.order.mem_iff id).2 (hall id hid))
    exact ⟨frontiers, hfrontiers, fun t ht => hget t ((h.order.mem_iff t).2 ht)⟩

/-- Two branches that meet before the return. -/
def branches : HirFunction where
  entry := 0
  blocks := [(0, ⟨.if 1 2, []⟩), (1, ⟨.goto 3, [0]⟩), (2, ⟨.goto 3, [0]⟩), (3, ⟨.return, [1, 2]⟩)]
  nodup := by decide

theorem postDominators_spec_branches : ∃ set, (∀ᶠ fuel in Filter.atTop,
    computeUnconditionalBlocks fuel branches 4 = .ok set) ∧
      ∀ id, ∃ found, set.contains id = .ok found ∧
        (found = true ↔ PostDominates branches false id 0) := by
  have hcons : branches.Consistent := by
    intro target block hblock source
    simp only [branches, mem_cons, Prod.mk.injEq, not_mem_nil, or_false] at hblock
    rcases hblock with ⟨rfl, rfl⟩ | ⟨rfl, rfl⟩ | ⟨rfl, rfl⟩ | ⟨rfl, rfl⟩ <;>
      simp [HirFunction.Edge, HirFunction.ids, branches, or_and_right, exists_or,
        eachTerminalSuccessor]
  have hexit : ExitPath branches false 3 [3] :=
    @ExitPath.exit branches false 3 ⟨.return, [1, 2]⟩ (by decide) rfl
  have hleft : branches.Edge 1 3 := ⟨⟨.goto 3, [0]⟩, by decide, by decide, by decide⟩
  have hentry : branches.Edge 0 1 := ⟨⟨.if 1 2, []⟩, by decide, by decide, by decide⟩
  exact (postDominators_spec hcons (by decide : ∀ id ∈ branches.ids, id < 4)).2
    ⟨_, .step hentry (.step hleft hexit)⟩

/-- A branch into a loop that has no exit. -/
def endless : HirFunction where
  entry := 0
  blocks := [(0, ⟨.if 1 2, []⟩), (1, ⟨.return, [0]⟩), (2, ⟨.goto 2, [0, 2]⟩)]
  nodup := by decide

/-- Where throws are exits, the loop is not in the tree, and there are no frontiers. -/
theorem postDominatorFrontiers_endless : endless.Consistent ∧ ReachesExit endless true 1 ∧
    (computePostDominatorTree 30 endless 3 true).bind (postDominatorFrontiers 30 endless) =
      .error (.invariant "Unknown node in post-dominator tree") := by
  refine ⟨?_, ⟨[1], @ExitPath.exit endless true 1 ⟨.return, [0]⟩ (by decide) rfl⟩, by rfl⟩
  intro target block hblock source
  simp only [endless, mem_cons, Prod.mk.injEq, not_mem_nil, or_false] at hblock
  rcases hblock with ⟨rfl, rfl⟩ | ⟨rfl, rfl⟩ | ⟨rfl, rfl⟩ <;>
    simp [HirFunction.Edge, HirFunction.ids, endless, or_and_right, exists_or,
      eachTerminalSuccessor]

end Soup.Hir
