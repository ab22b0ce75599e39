import Soup.Lib.Jump

/-!
# The dominator tree of the builder

`ssa.rs` links each block into a dominator tree when it is sealed. A link keeps the parent, the
depth, the root, and a jump to an ancestor; `ancestor_at` and `lowest_common_ancestor` search along
the jumps. A block without a dominator, or one of which no block is an entry, is a root.

A `BlockId` is its index. The searches run with fuel, the depth that they start from, and an index
past the blocks has no link here where the source panics. The parts of a block's state that the
links do not read are left out.
-/

namespace Soup.Ssa

open Soup.Lib List Option Nat

structure DominatorLink where
  parent : ℕ
  jump : ℕ
  depth : ℕ
  root : ℕ
deriving DecidableEq, Repr

structure BlockState where
  predecessors : List ℕ := []
  isSealed : Bool := false
  dominator : Option DominatorLink := none
deriving DecidableEq, Repr

structure SsaState where
  states : List BlockState := []
deriving DecidableEq, Repr

def ENTRY_BLOCK : ℕ := 0

namespace SsaState

/-- `self.states[block.index()].dominator`. -/
def dominator (s : SsaState) (block : ℕ) : Option DominatorLink :=
  s.states[block]?.bind BlockState.dominator

def addBlock (s : SsaState) : SsaState := { s with states := s.states ++ [{}] }

def addPredecessor (s : SsaState) (block predecessor : ℕ) : SsaState :=
  { s with
    states := s.states.modify block fun state =>
      { state with predecessors := state.predecessors ++ [predecessor] } }

/-- `state.is_sealed = true`. -/
def markSealed (s : SsaState) (block : ℕ) : SsaState :=
  { s with states := s.states.modify block fun state => { state with isSealed := true } }

/-- The loop of `ancestor_at`. -/
def ancestorAtLoop (s : SsaState) : ℕ → ℕ → ℕ → Option ℕ
  | 0, _, _ => none
  | fuel + 1, block, depth => do
    let dominator ← s.dominator block
    if dominator.depth ≤ depth then some block
    else do
      let jump ← s.dominator dominator.jump
      ancestorAtLoop s fuel (if depth ≤ jump.depth then dominator.jump else dominator.parent) depth

def ancestorAt (s : SsaState) (block depth : ℕ) : Option ℕ :=
  s.ancestorAtLoop ((s.dominator block).elim 0 DominatorLink.depth + 1) block depth

/-- The loop of `lowest_common_ancestor`. -/
def commonLoop (s : SsaState) : ℕ → ℕ → ℕ → Option ℕ
  | 0, _, _ => none
  | fuel + 1, a, b =>
    if a = b then some a
    else do
      let dominatorA ← s.dominator a
      let dominatorB ← s.dominator b
      if dominatorA.depth = 0 then none
      else if dominatorA.jump ≠ dominatorB.jump
        then commonLoop s fuel dominatorA.jump dominatorB.jump
      else commonLoop s fuel dominatorA.parent dominatorB.parent

def lowestCommonAncestor (s : SsaState) (a b : ℕ) : Option ℕ := do
  let dominatorA ← s.dominator a
  let dominatorB ← s.dominator b
  let depth := min dominatorA.depth dominatorB.depth
  let a ← s.ancestorAt a depth
  let b ← s.ancestorAt b depth
  s.commonLoop (depth + 1) a b

def isNeverEntered (s : SsaState) (block : ℕ) : Bool :=
  block != ENTRY_BLOCK && s.states[block]?.any fun state =>
    state.isSealed && state.predecessors.isEmpty

/-- The predecessors of a block but for those below a block that is never entered. -/
def enteredPredecessors (s : SsaState) (block : ℕ) : List ℕ :=
  (s.states[block]?.elim [] BlockState.predecessors).filter fun predecessor =>
    !(s.dominator predecessor).any fun dominator => s.isNeverEntered dominator.root

/-- The `parent` of `link_dominator`: the common ancestor of all entered predecessors. -/
def commonParent (s : SsaState) : List ℕ → Option ℕ
  | [] => none
  | first :: predecessors =>
    predecessors.foldl (fun parent predecessor => parent.bind fun parent =>
      s.lowestCommonAncestor parent predecessor)
      (if (s.dominator first).isSome then some first else none)

/-- The link of a block under `parent`. -/
def linkUnder (s : SsaState) (parent : ℕ) : Option DominatorLink := do
  let dominator ← s.dominator parent
  let jump ← s.dominator dominator.jump
  let nextJump ← s.dominator jump.jump
  let isEven := dominator.depth - jump.depth == jump.depth - nextJump.depth
  some
    { parent
      jump := if isEven then jump.jump else parent
      depth := dominator.depth + 1
      root := dominator.root }

/-- What `link_dominator` stores: a root, unless there is a parent. -/
def newLink (s : SsaState) (block : ℕ) : DominatorLink :=
  let link := (s.commonParent (s.enteredPredecessors block)).bind s.linkUnder
  let root : DominatorLink := { parent := block, jump := block, depth := 0, root := block }
  link.getD root

def linkDominator (s : SsaState) (block : ℕ) : SsaState :=
  { s with
    states := s.states.modify block fun state =>
    { state with dominator := some (s.newLink block) } }

end SsaState

/-- The states of a builder. Between two links it adds blocks and predecessors and seals blocks as
it likes, and it links a block once. -/
inductive Reached : SsaState → Prop
  | empty : Reached {}
  | addBlock {s : SsaState} : Reached s → Reached s.addBlock
  | addPredecessor {s : SsaState} (block predecessor : ℕ) : Reached s →
    Reached (s.addPredecessor block predecessor)
  | markSealed {s : SsaState} (block : ℕ) : Reached s → Reached (s.markSealed block)
  | linkDominator {s : SsaState} {block : ℕ} : Reached s → block < s.states.length →
    s.dominator block = none → Reached (s.linkDominator block)

namespace SsaState

/-- `c` is `b`, or a dominator that is above it. -/
inductive Ancestor (s : SsaState) : ℕ → ℕ → Prop
  | self (b : ℕ) : Ancestor s b b
  | up {c b : ℕ} {link : DominatorLink} : s.dominator b = some link → 0 < link.depth →
    Ancestor s c link.parent → Ancestor s c b

/-! ## Links -/

section Links

variable {s : SsaState} {block b : ℕ} {link : DominatorLink}

variable (s : SsaState)

theorem dominator_modify_same (block : ℕ) (f : BlockState → BlockState)
    (hf : ∀ state, (f state).dominator = state.dominator) (b : ℕ) :
    dominator { s with states := s.states.modify block f } b = s.dominator b := by
  rw [dominator, dominator, getElem?_modify]
  rcases s.states[b]? with _ | state
  · split <;> rfl
  · split
    · exact hf state
    · rfl

theorem dominator_addBlock (b : ℕ) : s.addBlock.dominator b = s.dominator b := by
  rw [dominator, dominator, addBlock]
  rcases lt_trichotomy b s.states.length with hlt | rfl | hlt
  · rw [getElem?_append_left hlt]
  · rw [getElem?_concat_length, getElem?_eq_none le_rfl]
    rfl
  · rw [getElem?_eq_none hlt.le, getElem?_eq_none]
    rw [length_append, length_singleton]
    exact hlt

theorem dominator_addPredecessor (block predecessor b : ℕ) :
    (s.addPredecessor block predecessor).dominator b = s.dominator b :=
  dominator_modify_same s block _ (by intro state; rfl) b

theorem dominator_markSealed (block b : ℕ) : (s.markSealed block).dominator b = s.dominator b :=
  dominator_modify_same s block _ (by intro state; rfl) b

theorem dominator_linkDominator (hlt : block < s.states.length) (b : ℕ) :
    (s.linkDominator block).dominator b = if b = block then some (s.newLink block)
      else s.dominator b := by
  rw [dominator, linkDominator, getElem?_modify]
  split
  next heq =>
    rw [if_pos heq.symm, ← heq, getElem?_eq_getElem hlt]
    rfl
  next hne =>
    rw [if_neg (Ne.symm hne), dominator]
    rcases s.states[b]? with _ | state <;> rfl

end Links

/-! ## Jumps -/

section Jumps

variable {s s' : SsaState} {a b c d p fuel : ℕ} {link : DominatorLink}

def parentOf (dominator : ℕ → Option DominatorLink) (b : ℕ) : ℕ :=
  (dominator b).elim b DominatorLink.parent

def jumpOf (dominator : ℕ → Option DominatorLink) (b : ℕ) : ℕ :=
  (dominator b).elim b DominatorLink.jump

def depthOf (dominator : ℕ → Option DominatorLink) (b : ℕ) : ℕ :=
  (dominator b).elim 0 DominatorLink.depth

/-- The links are those of a tree with jumps. -/
def Jumping (dominator : ℕ → Option DominatorLink) : Prop :=
  Jumps (fun b => (dominator b).isSome = true) (parentOf dominator) (jumpOf dominator)
    (depthOf dominator)

section

variable (hb : s.dominator b = some link)
include hb

theorem parentOf_eq : parentOf s.dominator b = link.parent := by
  rw [parentOf, hb]
  rfl

theorem jumpOf_eq : jumpOf s.dominator b = link.jump := by
  rw [jumpOf, hb]
  rfl

theorem depthOf_eq : depthOf s.dominator b = link.depth := by
  rw [depthOf, hb]
  rfl

theorem isSome_of_eq : (s.dominator b).isSome = true := by
  rw [hb]
  rfl

end

section

variable (h : Jumping s.dominator)
include h

section

variable (hb : s.dominator b = some link)
include hb

theorem ancestor_iff_above : s.Ancestor c b ↔ IsAbove (parentOf s.dominator) c b := by
  constructor
  · intro hc
    clear hb
    induction hc with
    | self => exact .refl c
    | up hb _ _ ih => exact ih.trans (parentOf_eq hb ▸ above_parent _ _)
  · rintro ⟨k, rfl⟩
    induction k generalizing b link with
    | zero => exact .self b
    | succ k ih =>
      rw [Function.iterate_succ_apply]
      obtain ⟨link', hlink'⟩ := isSome_iff_exists.1 (h.parent_node (isSome_of_eq hb))
      have hrest := ih hlink'
      rcases Nat.eq_zero_or_pos link.depth with hzero | hpos
      · rw [(h.root (isSome_of_eq hb) ((depthOf_eq hb).trans hzero)).1] at hrest ⊢
        exact hrest
      · rw [parentOf_eq hb] at hrest ⊢
        exact .up hb hpos hrest

/-! ## The searches -/

/-- `ancestor_at` goes up to the depth. -/
theorem ancestorAtLoop_eq (hfuel : link.depth < fuel) (hd : d ≤ link.depth) :
    s.ancestorAtLoop fuel b d = some ((parentOf s.dominator)^[link.depth - d] b) := by
  induction fuel generalizing b link with
  | zero => exact absurd hfuel (not_lt_zero _)
  | succ fuel ih =>
    have hnode := isSome_of_eq hb
    have hdepth := depthOf_eq hb
    obtain ⟨jump, hjump⟩ := isSome_iff_exists.1 (h.jump_node hnode)
    rw [jumpOf_eq hb] at hjump
    rw [ancestorAtLoop, hb, bind_eq_bind, bind_some]
    split
    next hle =>
      rw [Nat.sub_eq_zero_of_le hle]
      rfl
    next hlt =>
      rw [not_le] at hlt
      have hpos : 0 < depthOf s.dominator b := by omega
      rw [hjump, bind_some]
      split
      next hle =>
        have hshorter := h.depth_jump_lt hnode hpos
        have habove := h.jump_above hnode
        rw [jumpOf_eq hb] at hshorter habove
        rw [depthOf_eq hjump] at hshorter
        rw [ih hjump (by omega) hle, ← depthOf_eq hjump, ← hdepth,
          h.iterate_above hnode habove (by rwa [depthOf_eq hjump])]
      next =>
        obtain ⟨parent, hparent⟩ := isSome_iff_exists.1 (h.parent_node hnode)
        have hshorter := h.depth_parent hnode hpos
        have habove := above_parent (parentOf s.dominator) b
        rw [parentOf_eq hb] at hparent hshorter habove
        rw [depthOf_eq hparent] at hshorter
        rw [ih hparent (by omega) (by omega), ← depthOf_eq hparent, ← hdepth,
          h.iterate_above hnode habove (by rw [depthOf_eq hparent]; omega)]

theorem ancestorAt_eq (hd : d ≤ link.depth) :
    s.ancestorAt b d = some ((parentOf s.dominator)^[link.depth - d] b) := by
  rw [ancestorAt, hb]
  exact ancestorAtLoop_eq h hb (lt_succ_self _) hd

end

end

/-- `found` is the lowest common ancestor of `a` and `b`, if there is one. -/
def Meets (s : SsaState) (a b : ℕ) (found : Option ℕ) : Prop :=
  found.elim (∀ c, ¬(IsAbove (parentOf s.dominator) c a ∧ IsAbove (parentOf s.dominator) c b))
    fun e =>
    ∀ c, IsAbove (parentOf s.dominator) c a ∧ IsAbove (parentOf s.dominator) c b ↔
      IsAbove (parentOf s.dominator) c e

theorem Meets.congr {a' b' : ℕ} {found : Option ℕ} (hmeets : s.Meets a' b' found)
    (h : ∀ c, IsAbove (parentOf s.dominator) c a ∧ IsAbove (parentOf s.dominator) c b ↔
      IsAbove (parentOf s.dominator) c a' ∧ IsAbove (parentOf s.dominator) c b') :
      s.Meets a b found := by
  cases found with
  | none => exact fun c hc => hmeets c ((h c).1 hc)
  | some e => exact fun c => (h c).trans (hmeets c)

section

variable (h : Jumping s.dominator)
include h

variable {linkA linkB : DominatorLink}

/-- Blocks of one depth. -/
theorem commonLoop_meets
    (ha : s.dominator a = some linkA) (hb : s.dominator b = some linkB)
    (hdepth : linkA.depth = linkB.depth)
    (hfuel : linkA.depth < fuel) : s.Meets a b (s.commonLoop fuel a b) := by
  induction fuel generalizing a b linkA linkB with
  | zero => exact absurd hfuel (not_lt_zero _)
  | succ fuel ih =>
    have hnodeA := isSome_of_eq ha
    have hnodeB := isSome_of_eq hb
    have hdepths : depthOf s.dominator a = depthOf s.dominator b := by
      rw [depthOf_eq ha, depthOf_eq hb, hdepth]
    rw [commonLoop]
    split
    next heq =>
      rw [heq]
      exact fun c => and_self_iff
    next hne =>
      rw [ha, hb]
      simp only [bind_eq_bind, bind_some]
      split
      next hzero =>
        intro c hc
        have hle := h.above_depth_le hnodeA hc.1
        rw [depthOf_eq ha, hzero, le_zero] at hle
        have hca := h.above_unique hnodeA hc.1 (.refl a) (by rw [hle, depthOf_eq ha, hzero])
        have hcb := h.above_unique hnodeB hc.2 (.refl b)
          (by rw [hle, ← hdepths, depthOf_eq ha, hzero])
        exact hne (hca.symm.trans hcb)
      next hpos =>
        have hposA : 0 < depthOf s.dominator a := by
          rw [depthOf_eq ha]
          omega
        split
        next hjumps =>
          rw [← jumpOf_eq ha, ← jumpOf_eq hb] at hjumps ⊢
          obtain ⟨jumpA, hjumpA⟩ := isSome_iff_exists.1 (h.jump_node hnodeA)
          obtain ⟨jumpB, hjumpB⟩ := isSome_iff_exists.1 (h.jump_node hnodeB)
          have hsame := h.depth_jump_congr hnodeA hnodeB hdepths
          have hshorter := h.depth_jump_lt hnodeA hposA
          rw [depthOf_eq hjumpA, depthOf_eq hjumpB] at hsame
          rw [depthOf_eq hjumpA, depthOf_eq ha] at hshorter
          exact (ih hjumpA hjumpB hsame (by omega)).congr fun c =>
            h.common_jump hnodeA hnodeB hdepths hjumps
        next =>
          rw [← parentOf_eq ha, ← parentOf_eq hb]
          obtain ⟨parentA, hparentA⟩ := isSome_iff_exists.1 (h.parent_node hnodeA)
          obtain ⟨parentB, hparentB⟩ := isSome_iff_exists.1 (h.parent_node hnodeB)
          have hA := h.depth_parent hnodeA hposA
          have hB := h.depth_parent hnodeB (hdepths ▸ hposA)
          rw [depthOf_eq hparentA, depthOf_eq ha] at hA
          rw [depthOf_eq hparentB, depthOf_eq hb] at hB
          exact (ih hparentA hparentB (by omega) (by omega)).congr fun c =>
            h.common_parent hnodeA hnodeB hdepths hne

theorem lowestCommonAncestor_meets
    (ha : s.dominator a = some linkA) (hb : s.dominator b = some linkB) :
    s.Meets a b (s.lowestCommonAncestor a b) := by
  have hnodeA := isSome_of_eq ha
  have hnodeB := isSome_of_eq hb
  rw [lowestCommonAncestor, ha, hb]
  simp only [bind_eq_bind, bind_some]
  rw [ancestorAt_eq h ha (min_le_left _ _), ancestorAt_eq h hb (min_le_right _ _), bind_some,
    bind_some]
  obtain ⟨linkA', ha'⟩ := isSome_iff_exists.1
    (h.node_iterate hnodeA (linkA.depth - min linkA.depth linkB.depth))
  obtain ⟨linkB', hb'⟩ := isSome_iff_exists.1
    (h.node_iterate hnodeB (linkB.depth - min linkA.depth linkB.depth))
  have hA := h.depth_iterate hnodeA (linkA.depth - min linkA.depth linkB.depth)
  have hB := h.depth_iterate hnodeB (linkB.depth - min linkA.depth linkB.depth)
  rw [depthOf_eq ha', depthOf_eq ha] at hA
  rw [depthOf_eq hb', depthOf_eq hb] at hB
  refine (commonLoop_meets h ha' hb' (by omega) (by omega)).congr fun c => ?_
  by_cases hc : depthOf s.dominator c ≤ min linkA.depth linkB.depth
  · rw [h.above_iterate_iff hnodeA hc, h.above_iterate_iff hnodeB hc, depthOf_eq ha, depthOf_eq hb]
  · refine iff_of_false (fun hcommon => hc ?_) fun hcommon => hc ?_
    · have hleA := h.above_depth_le hnodeA hcommon.1
      have hleB := h.above_depth_le hnodeB hcommon.2
      rw [depthOf_eq ha] at hleA
      rw [depthOf_eq hb] at hleB
      exact Nat.le_min.2 ⟨hleA, hleB⟩
    · have hleA := h.above_depth_le (isSome_of_eq ha') hcommon.1
      rw [depthOf_eq ha'] at hleA
      omega

/-! ## A new link -/

/-- The common ancestors of two blocks are those of the one that the search finds. -/
theorem lowestCommonAncestor_ancestor (ha : (s.dominator a).isSome = true) :
    (∃ p ∈ s.lowestCommonAncestor a b, s.Ancestor c p) ↔
      s.Ancestor c a ∧ (s.dominator b).isSome = true ∧ s.Ancestor c b := by
  obtain ⟨linkA, ha⟩ := isSome_iff_exists.1 ha
  rcases hb : s.dominator b with _ | linkB
  · simp [lowestCommonAncestor, ha, hb]
  have hmeets := lowestCommonAncestor_meets h ha hb
  rw [ancestor_iff_above h ha, ancestor_iff_above h hb]
  rcases hfound : s.lowestCommonAncestor a b with _ | p <;> rw [hfound] at hmeets
  · simpa using hmeets c
  · obtain ⟨linkP, hp⟩ := isSome_iff_exists.1
      (h.above_node (isSome_of_eq ha) ((hmeets p).2 (.refl p)).1)
    simpa [ancestor_iff_above h hp] using (hmeets c).symm

/-- The ancestors of the common ancestor of the predecessors. -/
theorem commonParent_ancestor (predecessors : List ℕ) :
    (∃ p ∈ s.commonParent predecessors, s.Ancestor c p) ↔
      predecessors ≠ [] ∧ ∀ p ∈ predecessors, (s.dominator p).isSome = true ∧ s.Ancestor c p := by
  rcases predecessors with _ | ⟨first, predecessors⟩
  · simp [commonParent]
  have hfold : ∀ parent : Option ℕ, (∀ p ∈ parent, (s.dominator p).isSome = true) →
      ((∃ p ∈ predecessors.foldl (fun parent b => parent.bind (s.lowestCommonAncestor · b)) parent,
        s.Ancestor c p) ↔ (∃ p ∈ parent, s.Ancestor c p) ∧
          ∀ p ∈ predecessors, (s.dominator p).isSome = true ∧ s.Ancestor c p) := by
    induction predecessors with
    | nil => simp
    | cons b predecessors ih =>
      intro parent hparent
      have hstep : ∀ c, (∃ p ∈ parent.bind (s.lowestCommonAncestor · b), s.Ancestor c p) ↔
          (∃ p ∈ parent, s.Ancestor c p) ∧ (s.dominator b).isSome = true ∧ s.Ancestor c b :=
            fun c => by
        rcases parent with _ | a
        · simp
        · simpa using lowestCommonAncestor_ancestor (b := b) h (hparent a rfl)
      rw [foldl_cons, ih _ fun p hp => ?_, hstep, forall_mem_cons, and_assoc]
      obtain ⟨⟨a, ha, hpa⟩, -⟩ := (hstep p).1 ⟨p, hp, .self p⟩
      obtain ⟨linkA, hlink⟩ := isSome_iff_exists.1 (hparent a ha)
      exact h.above_node (hparent a ha) ((ancestor_iff_above h hlink).1 hpa)
  rw [commonParent, hfold _ (by simp), forall_mem_cons]
  simp [and_assoc]

/-- The common ancestor of the predecessors has a link. -/
theorem commonParent_isSome (predecessors : List ℕ)
    (hp : s.commonParent predecessors = some p) : (s.dominator p).isSome = true := by
  obtain ⟨hne, hall⟩ := (commonParent_ancestor h predecessors).1 ⟨p, hp, .self p⟩
  obtain ⟨first, hfirst⟩ := exists_mem_of_ne_nil predecessors hne
  obtain ⟨hsome, habove⟩ := hall first hfirst
  obtain ⟨link, hlink⟩ := isSome_iff_exists.1 hsome
  exact h.above_node hsome ((ancestor_iff_above h hlink).1 habove)

/-- A block under a parent jumps as its parent's jumps say. -/
theorem linkUnder_eq (hp : (s.dominator p).isSome = true) :
    ∃ link, s.linkUnder p = some link ∧ link.parent = p ∧ link.depth = depthOf s.dominator p + 1 ∧
      link.jump =
        if depthOf s.dominator p - depthOf s.dominator (jumpOf s.dominator p) =
            depthOf s.dominator (jumpOf s.dominator p) -
              depthOf s.dominator (jumpOf s.dominator (jumpOf s.dominator p))
          then jumpOf s.dominator (jumpOf s.dominator p) else p := by
  obtain ⟨link, hlink⟩ := isSome_iff_exists.1 hp
  obtain ⟨jump, hjump⟩ := isSome_iff_exists.1 (h.jump_node hp)
  obtain ⟨nextJump, hnext⟩ := isSome_iff_exists.1 (h.jump_node (h.jump_node hp))
  rw [depthOf_eq hlink, depthOf_eq hjump, depthOf_eq hnext, jumpOf_eq hjump]
  rw [jumpOf_eq hlink] at hjump hnext
  rw [jumpOf_eq hjump] at hnext
  rw [linkUnder, hlink, bind_eq_bind, bind_some, hjump, bind_some, hnext, bind_some]
  refine ⟨_, rfl, rfl, rfl, ?_⟩
  simp only [beq_iff_eq]

theorem jumping_linkDominator {block : ℕ} (hlt : block < s.states.length)
    (hnone : s.dominator block = none) : Jumping (s.linkDominator block).dominator := by
  have hlink := dominator_linkDominator (s := s) hlt
  have hblock : (s.linkDominator block).dominator block = some (s.newLink block) := by
    rw [hlink, if_pos rfl]
  have hsame : ∀ c, c ≠ block → (s.linkDominator block).dominator c = s.dominator c :=
    fun c hc => by
    rw [hlink, if_neg hc]
  have hnew : ∀ c, (s.dominator c).isSome = true → c ≠ block := by
    rintro c hc rfl
    rw [hnone] at hc
    cases hc
  refine Jumps.insert h (b := block) (fun hsome => hnew block hsome rfl) (fun c => ?_)
    (fun c hc => ?_) ?_
  · by_cases hc : c = block
    · rw [hc, hblock]
      exact iff_of_true rfl (.inl rfl)
    · rw [hsame c hc]
      exact ⟨.inr, fun hor => hor.resolve_left hc⟩
  · rw [parentOf, jumpOf, depthOf, hsame c (hnew c hc)]
    exact ⟨rfl, rfl, rfl⟩
  · rw [parentOf_eq hblock, jumpOf_eq hblock, depthOf_eq hblock, newLink]
    rcases hp : s.commonParent (s.enteredPredecessors block) with _ | p
    · exact .inl ⟨rfl, rfl, rfl⟩
    · have hsome := commonParent_isSome h _ hp
      obtain ⟨link, hunder, hparent, hdepth, hjump⟩ := linkUnder_eq h hsome
      rw [bind_some, hunder]
      exact .inr ⟨p, hsome, hparent, hdepth, hjump⟩

/-- The ancestors of a linked block stay. -/
theorem ancestor_congr (hsame : ∀ b, (s.dominator b).isSome = true → s'.dominator b = s.dominator b)
    (hb : (s.dominator b).isSome = true) : s'.Ancestor c b ↔ s.Ancestor c b := by
  constructor <;> intro hc
  · induction hc with
    | self => exact .self _
    | up hlink hpos _ ih =>
      rw [hsame _ hb] at hlink
      exact .up hlink hpos (ih (parentOf_eq hlink ▸ h.parent_node hb))
  · induction hc with
    | self => exact .self _
    | up hlink hpos _ ih =>
      exact .up ((hsame _ hb).trans hlink) hpos (ih (parentOf_eq hlink ▸ h.parent_node hb))

end

end Jumps

end SsaState

variable {s : SsaState}

theorem Reached.jumping (h : Reached s) : SsaState.Jumping s.dominator := by
  induction h with
  | empty => constructor <;> intro b hb <;> cases hb
  | @addBlock s _ ih =>
    rwa [show s.addBlock.dominator = s.dominator from funext s.dominator_addBlock]
  | @addPredecessor s block predecessor _ ih =>
    rwa [show (s.addPredecessor block predecessor).dominator = s.dominator from
      funext (s.dominator_addPredecessor block predecessor)]
  | @markSealed s block _ ih =>
    rwa [show (s.markSealed block).dominator = s.dominator
      from funext (s.dominator_markSealed block)]
  | linkDominator _ hlt hnone ih => exact SsaState.jumping_linkDominator ih hlt hnone

/-- The links are a tree, and both searches find the ancestors that they are for. -/
theorem Reached.searches (h : Reached s) :
    (∀ b link, s.dominator b = some link → link.depth = 0 ∧ link.parent = b ∨
      ∃ parent, s.dominator link.parent = some parent ∧ link.depth = parent.depth + 1) ∧
    (∀ b link d, s.dominator b = some link → d ≤ link.depth → ∃ c linkC, s.ancestorAt b d = some c ∧
      s.Ancestor c b ∧ s.dominator c = some linkC ∧ linkC.depth = d ∧
      ∀ e linkE, s.Ancestor e b → s.dominator e = some linkE → linkE.depth = d → e = c) ∧
    ∀ a b, (s.dominator a).isSome → (s.dominator b).isSome →
      (∀ c, s.lowestCommonAncestor a b = some c ↔ s.Ancestor c a ∧ s.Ancestor c b ∧
        ∀ e, s.Ancestor e a → s.Ancestor e b → s.Ancestor e c) ∧
      (s.lowestCommonAncestor a b = none ↔ ∀ c, ¬(s.Ancestor c a ∧ s.Ancestor c b)) := by
  have hj := h.jumping
  refine ⟨fun b link hb => ?_, fun b link d hb hd => ?_, fun a b ha hb => ?_⟩
  · have hnode := SsaState.isSome_of_eq hb
    rcases Nat.eq_zero_or_pos link.depth with hzero | hpos
    · have hroot := hj.root hnode ((SsaState.depthOf_eq hb).trans hzero)
      rw [SsaState.parentOf_eq hb] at hroot
      exact .inl ⟨hzero, hroot.1⟩
    · obtain ⟨parent, hparent⟩ := isSome_iff_exists.1 (hj.parent_node hnode)
      have hdepth := hj.depth_parent hnode (SsaState.depthOf_eq hb ▸ hpos)
      rw [SsaState.depthOf_eq hparent, SsaState.depthOf_eq hb] at hdepth
      rw [SsaState.parentOf_eq hb] at hparent
      exact .inr ⟨parent, hparent, hdepth.symm⟩
  · have hnode := SsaState.isSome_of_eq hb
    obtain ⟨linkC, hc⟩ := isSome_iff_exists.1 (hj.node_iterate hnode (link.depth - d))
    have hdepth := hj.depth_iterate hnode (link.depth - d)
    rw [SsaState.depthOf_eq hc, SsaState.depthOf_eq hb, Nat.sub_sub_self hd] at hdepth
    have habove : IsAbove _ ((SsaState.parentOf s.dominator)^[link.depth - d] b) b := ⟨_, rfl⟩
    refine ⟨_, linkC, SsaState.ancestorAt_eq hj hb hd, (SsaState.ancestor_iff_above hj hb).2 habove,
      hc, hdepth, fun e linkE he hlinkE hdepthE => ?_⟩
    refine hj.above_unique hnode ((SsaState.ancestor_iff_above hj hb).1 he) habove ?_
    rw [SsaState.depthOf_eq hlinkE, SsaState.depthOf_eq hc, hdepthE, hdepth]
  · obtain ⟨linkA, hlinkA⟩ := isSome_iff_exists.1 ha
    obtain ⟨linkB, hlinkB⟩ := isSome_iff_exists.1 hb
    have hmeets := SsaState.lowestCommonAncestor_meets hj hlinkA hlinkB
    have hiffA : ∀ c, s.Ancestor c a ↔ _ := fun c => SsaState.ancestor_iff_above hj hlinkA
    have hiffB : ∀ c, s.Ancestor c b ↔ _ := fun c => SsaState.ancestor_iff_above hj hlinkB
    rcases hfound : s.lowestCommonAncestor a b with _ | e
    · rw [hfound] at hmeets
      have hnone : ∀ c, ¬(s.Ancestor c a ∧ s.Ancestor c b) := fun c hc =>
        hmeets c ⟨(hiffA c).1 hc.1, (hiffB c).1 hc.2⟩
      exact ⟨fun c => iff_of_false (fun hc => by cases hc) fun hc => hnone c ⟨hc.1, hc.2.1⟩,
        iff_of_true rfl hnone⟩
    · rw [hfound] at hmeets
      have he := (hmeets e).2 (.refl e)
      obtain ⟨linkE, hlinkE⟩ := isSome_iff_exists.1 (hj.above_node ha he.1)
      have hlowest : ∀ c, s.Ancestor c a ∧ s.Ancestor c b ↔ s.Ancestor c e := fun c => by
        rw [hiffA, hiffB, SsaState.ancestor_iff_above hj hlinkE]
        exact hmeets c
      have hself := (hlowest e).2 (.self e)
      refine ⟨fun c => ⟨fun hc => ?_, fun hc => ?_⟩, iff_of_false (fun hnone => by cases hnone)
        fun hnone =>
        hnone e hself⟩
      · obtain rfl := some.inj hc
        exact ⟨hself.1, hself.2, fun d hda hdb => (hlowest d).1 ⟨hda, hdb⟩⟩
      · obtain ⟨linkC, hlinkC⟩ := isSome_iff_exists.1 (hj.above_node ha ((hiffA c).1 hc.1))
        have hec := (SsaState.ancestor_iff_above hj hlinkC).1 (hc.2.2 e hself.1 hself.2)
        have hce := (SsaState.ancestor_iff_above hj hlinkE).1 ((hlowest c).1 ⟨hc.1, hc.2.1⟩)
        have hle := hj.above_depth_le (SsaState.isSome_of_eq hlinkC) hec
        have hge := hj.above_depth_le (SsaState.isSome_of_eq hlinkE) hce
        rw [hj.above_unique ha he.1 ((hiffA c).1 hc.1) (le_antisymm hle hge)]

/-- The entry, a block under it, and two blocks that both follow that one. -/
theorem Reached.searches_branching :
    let blocks := ({} : SsaState).addBlock.addBlock.addBlock.addBlock
    let edges := ((blocks.addPredecessor 1 0).addPredecessor 2 1).addPredecessor 3 1
    let s := (((edges.linkDominator 0).linkDominator 1).linkDominator 2).linkDominator 3
    s.lowestCommonAncestor 2 3 = some 1 ∧ s.Ancestor 1 2 ∧ s.Ancestor 1 3 := by
  have hblocks := Reached.empty.addBlock.addBlock.addBlock.addBlock
  have hedges := ((hblocks.addPredecessor 1 0).addPredecessor 2 1).addPredecessor 3 1
  have hentry := @Reached.linkDominator _ 0 hedges (by decide) (by decide)
  have hunder := @Reached.linkDominator _ 1 hentry (by decide) (by decide)
  have hleft := @Reached.linkDominator _ 2 hunder (by decide) (by decide)
  have hlinked := @Reached.linkDominator _ 3 hleft (by decide) (by decide)
  obtain ⟨-, -, hcommon⟩ := Reached.searches hlinked
  have hfound := ((hcommon 2 3 (by decide) (by decide)).1 1).1 (by decide)
  exact ⟨by decide, hfound.1, hfound.2.1⟩

/-- A link solves the equation of dominators: above a new block is what is above all of its
predecessors. -/
theorem Reached.linkDominator_ancestor (h : Reached s) {block : ℕ} (hlt : block < s.states.length)
    (hnone : s.dominator block = none) (c : ℕ) :
    (s.linkDominator block).Ancestor c block ↔ c = block ∨ s.enteredPredecessors block ≠ [] ∧
      ∀ p ∈ s.enteredPredecessors block, (s.dominator p).isSome ∧ s.Ancestor c p := by
  have hj := h.jumping
  have hlink := SsaState.dominator_linkDominator (s := s) hlt
  have hblock : (s.linkDominator block).dominator block = some (s.newLink block) := by
    rw [hlink, if_pos rfl]
  rw [← SsaState.commonParent_ancestor hj]
  have hcases : (s.linkDominator block).Ancestor c block ↔ c = block ∨ 0 < (s.newLink block).depth ∧
      (s.linkDominator block).Ancestor c (s.newLink block).parent := by
    refine ⟨fun hc => ?_, ?_⟩
    · cases hc with
      | self => exact .inl rfl
      | up hb hpos hc =>
        obtain rfl := some.inj (hblock.symm.trans hb)
        exact .inr ⟨hpos, hc⟩
    · rintro (rfl | ⟨hpos, hc⟩)
      · exact .self c
      · exact .up hblock hpos hc
  rw [hcases, SsaState.newLink]
  rcases hp : s.commonParent (s.enteredPredecessors block) with _ | p
  · simp
  have hsome := SsaState.commonParent_isSome hj _ hp
  obtain ⟨link, hunder, rfl, hdepth, -⟩ := SsaState.linkUnder_eq hj hsome
  have hsame := SsaState.ancestor_congr (c := c) hj (fun b hb => by
    rw [hlink, if_neg fun heq => by simp [heq, hnone] at hb]) hsome
  simp [hunder, hdepth, hsame]

/-- Two blocks follow the entry, and a last one follows both: only the entry is above it. -/
theorem Reached.linkDominator_ancestor_diamond :
    let blocks := ({} : SsaState).addBlock.addBlock.addBlock.addBlock
    let edges := (((blocks.addPredecessor 1 0).addPredecessor 2 0).addPredecessor 3
      1).addPredecessor 3 2
    let s := (((edges.linkDominator 0).linkDominator 1).linkDominator 2).linkDominator 3
    s.Ancestor 0 3 ∧ ¬s.Ancestor 1 3 := by
  have hblocks := Reached.empty.addBlock.addBlock.addBlock.addBlock
  have hedges :=
    (((hblocks.addPredecessor 1 0).addPredecessor 2 0).addPredecessor 3 1).addPredecessor
    3 2
  have hentry := @Reached.linkDominator _ 0 hedges (by decide) (by decide)
  have hleft := @Reached.linkDominator _ 1 hentry (by decide) (by decide)
  have hright := @Reached.linkDominator _ 2 hleft (by decide) (by decide)
  have habove := @Reached.linkDominator_ancestor _ hright 3 (by decide) (by decide)
  rw [show SsaState.enteredPredecessors _ 3 = [1, 2] by decide] at habove
  constructor
  · refine (habove 0).2 (.inr ⟨by decide, ?_⟩)
    simp only [forall_mem_cons]
    exact ⟨⟨by decide, .up rfl one_pos (.self 0)⟩, ⟨by decide, .up rfl one_pos (.self 0)⟩,
      by simp⟩
  · intro h
    obtain ⟨-, hall⟩ := ((habove 1).1 h).resolve_left (by decide)
    -- The entry is the only block above the second.
    obtain _ | ⟨hlink, -, hentry⟩ := (hall 2 (by simp)).2
    cases hlink
    obtain _ | ⟨hlink, hpos, -⟩ := hentry
    cases hlink
    exact absurd hpos (lt_irrefl _)

end Soup.Ssa
