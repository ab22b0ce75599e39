import Soup.Shell.Parsed
import Soup.Shell.Flat
import Soup.Shell.Read

/-!
# Brace expansion

`expand_nested` goes on after the last atom of a group behind the group: `bubble_up` leads to the
group around it and `bubble_up_next` to the atom there (`Around`). What it expands there lies behind
all that is open, so that it leaves the links of the groups that are open as they are, and every
variant finds the way up that it had (`expandNested_writes`).
-/

namespace Soup.Shell

open Soup.Lib List Function Token

def GroupAtoms.toList : GroupAtoms → List Atom
  | .single atom => [atom]
  | .many atoms => atoms

@[simp] theorem Group.id_ofList (id : ℕ) (atoms : List Atom) : (Group.ofList id atoms).id = id := by
  unfold Group.ofList
  split <;> rfl

@[simp] theorem Group.toList_ofList (id : ℕ) (atoms : List Atom) :
    (Group.ofList id atoms).atoms.toList = atoms := by
  unfold Group.ofList
  split <;> rfl

/-- The links of the groups that are open. -/
abbrev Cells := ℕ → Option (Group × ℕ)

/-- What lies behind a group `G`, from a token on: `results`, for which `steps` more calls are
needed. -/
inductive Around (cells : Cells) : Group → ℕ → List Bytes → ℕ → Prop
  | root {G : Group} {stop : ℕ} : cells G.id = none → Around cells G stop [[]] 0
  | group {G root : Group} {next pos steps stop : ℕ} {p : Pieces} {results : List Bytes} :
      cells G.id = some (root, next) → root.id < G.id → G.id ≤ pos → stop ≤ pos → next ≤ pos →
      pos + p.tokens.length < 2 ^ 16 → root.atoms.toList.drop next = p.atoms pos →
      Around cells root (pos + p.tokens.length) results steps →
      Around cells G stop (cross p.expand results) (p.tokens.length + 1 + steps)

namespace Around

variable {cells cells' : Cells} {G : Group} {stop stop' steps : ℕ} {results : List Bytes}

section

variable (h : Around cells G stop results steps)
include h

/-- Links behind the group do not matter. -/
theorem congr (hcells : ∀ i ≤ G.id, cells' i = cells i) : Around cells' G stop results steps := by
  induction h with
  | root hcell => exact .root ((hcells _ le_rfl).trans hcell)
  | group hcell hid hend hstop hnext hpos hatoms _ ih =>
    refine .group ((hcells _ le_rfl).trans hcell) hid hend hstop hnext hpos hatoms
      (ih fun i hi => hcells i ?_)
    exact le_trans hi (le_of_lt hid)

theorem mono (hstop : stop' ≤ stop) : Around cells G stop' results steps := by
  cases h with
  | root hcell => exact .root hcell
  | group hcell hid hend hle hnext hpos hatoms h =>
    exact .group hcell hid hend (le_trans hstop hle) hnext hpos hatoms h

theorem ne_nil : results ≠ [] := by
  induction h with
  | root => simp
  | group _ _ _ _ _ _ _ _ ih => exact cross_ne_nil (Pieces.expand_ne_nil _) ih

end

end Around

/-- What a call writes that gets the last key. It leaves the links up to a token. -/
def NestWrites (call : Nest → ℕ → Except Stop Nest) (cells : Cells) (pos : ℕ)
    (results : List Bytes) : Prop :=
  ∀ (pre : List Bytes) (w : Bytes) (n : ℕ), ∃ cells' : Cells, (∀ i ≤ pos, cells' i = cells i) ∧
    call ⟨filled (pre ++ [w]) (results.length - 1 + n), cells⟩ pre.length =
      .ok ⟨filled (pre ++ after w results) n, cells'⟩

/-- All expansions below a depth write what they should. -/
def Expands (recurse : Nest → Group → ℕ → ℕ → Except Stop Nest) (fuel : ℕ) : Prop :=
  ∀ {cells : Cells} {G : Group} {start pos steps : ℕ} {p : Pieces} {results : List Bytes},
    G.atoms.toList.drop start = p.atoms pos → G.id ≤ pos → start ≤ pos →
    pos + p.tokens.length < 2 ^ 16 → Around cells G (pos + p.tokens.length) results steps →
    p.tokens.length + steps < fuel →
    NestWrites (fun self key => recurse self G key start) cells pos (cross p.expand results)

section Step

variable {recurse : Nest → Group → ℕ → ℕ → Except Stop Nest} {fuel : ℕ} {cells : Cells} {G : Group}
  {stop steps : ℕ} {results : List Bytes}

theorem bubbleUp_none {self : Nest} {key : ℕ} (h : self.cells G.id = none) :
    bubbleUp recurse self G key = .ok self := by
  rw [bubbleUp, h]

theorem bubbleUp_some {self : Nest} {key next : ℕ} {root : Group}
    (h : self.cells G.id = some (root, next)) :
    bubbleUp recurse self G key = recurse self root key next := by
  rw [bubbleUp, h]

/-- Going up from the end of a group. -/
theorem bubbleUp_writes (hrec : Expands recurse fuel) (h : Around cells G stop results steps)
    (hfuel : steps ≤ fuel) :
    NestWrites (fun self key => bubbleUp recurse self G key) cells stop results := by
  intro pre w n
  cases h with
  | root hcell =>
    refine ⟨cells, fun i _ => rfl, (bubbleUp_none hcell).trans ?_⟩
    simp [after]
  | group hcell hid hend hstop hnext hpos hatoms h =>
    obtain ⟨cells', hsame, hcall⟩ := hrec hatoms (by omega) hnext hpos h (by omega) pre w n
    exact ⟨cells', fun i hi => hsame i (le_trans hi hstop), (bubbleUp_some hcell).trans hcall⟩

variable {V : Group} (groups : List Group) {next : ℕ} (j n : ℕ) (pre rs : List Bytes) (w : Bytes)
  {r : Bytes}

/-- The first variant of the loop, which keeps the key. -/
theorem nestedVariants_keep (hcall : NestWrites (fun self key => recurse self V key 0)
      (update cells V.id (some (G, next))) V.id results) :
    ∃ cells' : Cells, (∀ i < V.id, cells' i = cells i) ∧
      nestedVariants recurse G next pre.length w.length 0 (V :: groups)
          ⟨filled (pre ++ [w]) (results.length - 1 + n), cells⟩ =
        nestedVariants recurse G next pre.length w.length 1 groups
          ⟨filled (pre ++ after w results) n, cells'⟩ := by
  obtain ⟨cells', hsame, hcall⟩ := hcall pre w n
  refine ⟨cells', fun i hi => ?_, ?_⟩
  · rw [hsame i (le_of_lt hi), update_of_ne (ne_of_lt hi)]
  · rw [nestedVariants, if_pos rfl]
    exact congrArg (· >>= _) hcall

/-- One variant of the loop that gets a new key. -/
theorem nestedVariants_fork (hne : results ≠ [])
    (hcall : NestWrites (fun self key => recurse self V key 0)
      (update cells V.id (some (G, next))) V.id results) :
    ∃ cells' : Cells, (∀ i < V.id, cells' i = cells i) ∧
      nestedVariants recurse G next pre.length w.length (j + 1) (V :: groups)
          ⟨filled (pre ++ (w ++ r) :: rs) (results.length + n), cells⟩ =
        nestedVariants recurse G next pre.length w.length (j + 2) groups
          ⟨filled (pre ++ (w ++ r) :: (rs ++ after w results)) n, cells'⟩ := by
  obtain ⟨cells', hsame, hcall⟩ := hcall (pre ++ (w ++ r) :: rs) w n
  refine ⟨cells', fun i hi => ?_, ?_⟩
  · rw [hsame i (le_of_lt hi), update_of_ne (ne_of_lt hi)]
  · have hpos := length_pos_of_ne_nil hne
    rw [nestedVariants, if_neg (Nat.succ_ne_zero j),
      show results.length + n = results.length - 1 + n + 1 by omega, fork_filled]
    refine (congrArg (· >>= _) hcall).trans ?_
    rw [append_assoc, cons_append]
    rfl

variable {rest : Pieces} {pos : ℕ}

/-- Behind a variant lies what follows its group. -/
theorem Around.variant (h : Around cells G (pos + rest.tokens.length) results steps) {q : ℕ}
    {p : Pieces} (hid : G.id < q) (hq : q + p.tokens.length ≤ pos) (hnext : next ≤ pos)
    (hpos : pos + rest.tokens.length < 2 ^ 16)
    (hatoms : G.atoms.toList.drop next = rest.atoms pos) :
    Around (update cells q (some (G, next))) (Group.ofList q (p.atoms q))
      (q + p.tokens.length) (cross rest.expand results) (rest.tokens.length + 1 + steps) := by
  refine .group ?_ ?_ ?_ hq hnext hpos hatoms (h.congr fun i hi => ?_)
  · rw [Group.id_ofList, update_self]
  · rwa [Group.id_ofList]
  · rw [Group.id_ofList]
    omega
  · rw [update_of_ne (by omega)]

/-- A variant is expanded with all that lies behind it. -/
theorem Expands.variant (hrec : Expands recurse fuel)
    (h : Around cells G (pos + rest.tokens.length) results steps) {q : ℕ} {p : Pieces}
    (hid : G.id < q) (hq : q + p.tokens.length ≤ pos) (hnext : next ≤ pos)
    (hpos : pos + rest.tokens.length < 2 ^ 16) (hatoms : G.atoms.toList.drop next = rest.atoms pos)
    (hfuel : p.tokens.length + (rest.tokens.length + 1 + steps) < fuel) :
    NestWrites (fun self key => recurse self (Group.ofList q (p.atoms q)) key 0)
      (update cells (Group.ofList q (p.atoms q)).id (some (G, next)))
      (Group.ofList q (p.atoms q)).id (cross p.expand (cross rest.expand results)) := by
  rw [Group.id_ofList]
  refine hrec ?_ ?_ (Nat.zero_le q) (by omega) (h.variant hid hq hnext hpos hatoms) hfuel
  · rw [Group.toList_ofList, drop_zero]
  · rw [Group.id_ofList]

theorem Variants.nestedVariants_succ (hrec : Expands recurse fuel) (hnext : next ≤ pos)
    (hpos : pos + rest.tokens.length < 2 ^ 16) (hatoms : G.atoms.toList.drop next = rest.atoms pos)
    (pre : List Bytes) (w r : Bytes) : ∀ (v : Variants) (q j : ℕ) (rs : List Bytes) (n : ℕ)
    (cells : Cells), G.id < q → q + v.tokens.length ≤ pos →
    Around cells G (pos + rest.tokens.length) results steps →
    v.tokens.length + (rest.tokens.length + 1 + steps) < fuel →
    ∃ cells' : Cells, (∀ i < q, cells' i = cells i) ∧
      nestedVariants recurse G next pre.length w.length (j + 1) (v.groups q)
          ⟨filled (pre ++ (w ++ r) :: rs)
            ((cross v.expand (cross rest.expand results)).length + n), cells⟩ =
        .ok ⟨filled (pre ++ (w ++ r) ::
          (rs ++ after w (cross v.expand (cross rest.expand results))))
          n, cells'⟩
  | .last p, q, j, rs, n, cells, hid, hq, h, hfuel => by
    have hne := cross_ne_nil p.expand_ne_nil (cross_ne_nil rest.expand_ne_nil h.ne_nil)
    obtain ⟨cells', hsame, hcall⟩ := nestedVariants_fork [] j n pre rs w hne
      (hrec.variant h hid hq hnext hpos hatoms hfuel)
    rw [Group.id_ofList] at hsame
    exact ⟨cells', hsame, hcall⟩
  | .cons p v, q, j, rs, n, cells, hid, hq, h, hfuel => by
    rw [tokens, length_append, length_cons] at hq hfuel
    have hne := cross_ne_nil p.expand_ne_nil (cross_ne_nil rest.expand_ne_nil h.ne_nil)
    obtain ⟨cells', hsame, hcall⟩ := nestedVariants_fork (v.groups (q + p.tokens.length + 1)) j
      ((cross v.expand (cross rest.expand results)).length + n) pre rs w hne
      (hrec.variant h hid (by omega) hnext hpos hatoms (by omega))
    rw [Group.id_ofList] at hsame
    obtain ⟨cells'', hsame', hcall'⟩ := v.nestedVariants_succ hrec hnext hpos hatoms pre w r
      (q + p.tokens.length + 1) (j + 1)
      (rs ++ after w (cross p.expand (cross rest.expand results))) n cells' (by omega) (by omega)
      (h.congr fun i hi => hsame i (by omega)) (by omega)
    refine ⟨cells'', fun i hi => (hsame' i (by omega)).trans (hsame i hi), ?_⟩
    rw [expand, append_cross, after_append, length_append, add_assoc, groups, hcall, hcall',
      append_assoc]

theorem Variants.nestedVariants_zero (hrec : Expands recurse fuel) (hnext : next ≤ pos)
    (hpos : pos + rest.tokens.length < 2 ^ 16) (hatoms : G.atoms.toList.drop next = rest.atoms pos)
    (v : Variants) {q : ℕ} (hid : G.id < q) (hq : q + v.tokens.length ≤ pos)
    (h : Around cells G (pos + rest.tokens.length) results steps)
    (hfuel : v.tokens.length + (rest.tokens.length + 1 + steps) < fuel)
    (pre : List Bytes) (w : Bytes) (n : ℕ) :
    ∃ cells' : Cells, (∀ i < q, cells' i = cells i) ∧
      nestedVariants recurse G next pre.length w.length 0 (v.groups q)
          ⟨filled (pre ++ [w]) ((cross v.expand (cross rest.expand results)).length - 1 + n),
            cells⟩ =
        .ok ⟨filled (pre ++ after w (cross v.expand (cross rest.expand results))) n, cells'⟩ := by
  cases v with
  | last p =>
    obtain ⟨cells', hsame, hcall⟩ := nestedVariants_keep [] n pre w
      (hrec.variant h hid hq hnext hpos hatoms hfuel)
    rw [Group.id_ofList] at hsame
    exact ⟨cells', hsame, hcall⟩
  | cons p v =>
    rw [tokens, length_append, length_cons] at hq hfuel
    obtain ⟨r, rs, hr⟩ := exists_cons_of_ne_nil
      (cross_ne_nil p.expand_ne_nil (cross_ne_nil rest.expand_ne_nil h.ne_nil))
    obtain ⟨cells', hsame, hcall⟩ := nestedVariants_keep
      (v.groups (q + p.tokens.length + 1))
      ((cross v.expand (cross rest.expand results)).length + n) pre w
      (hrec.variant (p := p) h hid (by omega) hnext hpos hatoms (by omega))
    rw [Group.id_ofList] at hsame
    obtain ⟨cells'', hsame', hcall'⟩ := v.nestedVariants_succ hrec hnext hpos hatoms pre w r
      (q + p.tokens.length + 1) 0 (after w rs) n cells' (by omega) (by omega)
      (h.congr fun i hi => hsame i (by omega)) (by omega)
    have hlength : (cross p.expand (cross rest.expand results) ++
          cross v.expand (cross rest.expand results)).length - 1 + n =
        (cross p.expand (cross rest.expand results)).length - 1 +
          ((cross v.expand (cross rest.expand results)).length + n) := by
      rw [length_append, hr, length_cons]
      omega
    refine ⟨cells'', fun i hi => (hsame' i (by omega)).trans (hsame i hi), ?_⟩
    rw [expand, append_cross, hlength, groups, hcall, hr, after_append]
    refine Eq.trans ?_ (hcall'.trans ?_)
    · rfl
    · rfl

/-- The atoms of a group, and then what lies behind it. -/
theorem Pieces.nestedAtoms_writes (hrec : Expands recurse fuel) : ∀ (p : Pieces) {pos start : ℕ}
    {cells : Cells}, G.id ≤ pos → start ≤ pos → pos + p.tokens.length < 2 ^ 16 →
    G.atoms.toList.drop start = p.atoms pos →
    Around cells G (pos + p.tokens.length) results steps → p.tokens.length + steps ≤ fuel →
    NestWrites (fun self key => nestedAtoms recurse G key start (p.atoms pos) self) cells pos
      (cross p.expand results)
  | .nil, pos, start, cells, _, _, _, _, h, hfuel => by
    rw [expand, one_cross]
    exact bubbleUp_writes hrec (h.mono (Nat.le_add_right _ _)) (by rw [tokens] at hfuel; omega)
  | .text txt rest, pos, start, cells, hid, hstart, hpos, hatoms, h, hfuel => by
    rw [tokens, length_cons] at hpos hfuel
    rw [tokens, length_cons, add_comm _ 1, ← add_assoc] at h
    have hdrop : G.atoms.toList.drop (start + 1) = rest.atoms (pos + 1) := by
      rw [← tail_drop, hatoms, atoms, tail_cons]
    have hrest := rest.nestedAtoms_writes hrec (Nat.le_succ_of_le hid) (Nat.succ_le_succ hstart)
      (by omega) hdrop h (by omega)
    intro pre w n
    obtain ⟨cells', hsame, hcall⟩ := hrest pre (w ++ txt) n
    refine ⟨cells', fun i hi => hsame i (Nat.le_succ_of_le hi), ?_⟩
    show nestedAtoms _ _ _ _ _ _ = _
    rw [atoms, nestedAtoms, u16_eq (by omega)]
    show (Buffers.extend _ _ _ >>= _) = _
    rw [extend_filled, expand, cross_assoc, length_cross, length_singleton, one_mul,
      ← after_after]
    exact hcall
  | .group variants rest, pos, start, cells, hid, hstart, hpos, hatoms, h, hfuel => by
    have hlength := Pieces.length_tokens_group variants rest
    rw [hlength] at hpos hfuel
    rw [hlength, show pos + (variants.tokens.length + rest.tokens.length + 2) =
      pos + variants.tokens.length + 2 + rest.tokens.length by omega] at h
    have hdrop : G.atoms.toList.drop (start + 1) =
        rest.atoms (pos + variants.tokens.length + 2) := by
      rw [← tail_drop, hatoms, atoms, tail_cons]
    intro pre w n
    obtain ⟨cells', hsame, hcall⟩ := variants.nestedVariants_zero hrec
      (show start + 1 ≤ pos + variants.tokens.length + 2 by omega) (q := pos + 1)
      (by omega) hdrop (by omega) (by omega) h (by omega) pre w n
    refine ⟨cells', fun i hi => hsame i (Nat.lt_succ_of_le hi), ?_⟩
    show nestedAtoms _ _ _ _ _ _ = _
    rw [atoms, nestedAtoms, u16_eq (by omega)]
    rw [length_filled]
    show (u16 (start + 1) >>= _) = _
    rw [u16_eq (by omega), expand, cross_assoc]
    exact hcall

end Step

/-! ## The recursion -/

/-- A group is expanded from an atom on by the loop over its atoms. -/
theorem expandNested_eq (fuel : ℕ) (self : Nest) (root : Group) (outKey start : ℕ) :
    expandNested (fuel + 1) self root outKey start =
      nestedAtoms (expandNested fuel) root outKey start (root.atoms.toList.drop start) self := by
  rw [expandNested]
  split
  next atom hatoms =>
    rw [hatoms, GroupAtoms.toList]
    split
    · rw [drop_eq_nil_of_le (by rw [length_singleton]; exact ‹start > 0›), nestedAtoms]
    · obtain rfl : start = 0 := by omega
      rw [drop_zero, nestedAtoms.eq_def]
      cases atom with
      | text txt => rfl
      | expansion variants => rfl
  next atoms hatoms =>
    rw [hatoms, GroupAtoms.toList]
    split
    · rw [drop_eq_nil_of_le ‹_›, nestedAtoms]
    · rfl

theorem expandNested_expands (fuel : ℕ) : Expands (expandNested fuel) fuel := by
  induction fuel with
  | zero =>
    intro cells G start pos steps p results _ _ _ _ _ hfuel
    omega
  | succ fuel ih =>
    intro cells G start pos steps p results hatoms hid hstart hpos h hfuel pre w n
    obtain ⟨cells', hsame, hcall⟩ :=
      p.nestedAtoms_writes ih hid hstart hpos hatoms h (by omega) pre w n
    refine ⟨cells', hsame, ?_⟩
    show expandNested _ _ _ _ _ = _
    rw [expandNested_eq, hatoms]
    exact hcall

/-- `expand_nested` from the root fills the buffers. -/
theorem expandNested_root (p : Pieces) {fuel : ℕ} (hlen : p.tokens.length < 2 ^ 16)
    (hfuel : p.tokens.length < fuel) :
    ∃ cells, expandNested fuel
        { out := { out := replicate p.expand.length [] }, cells := fun _ => none }
        (Group.ofList 0 (p.atoms 0)) 0 0 =
      .ok { out := { out := p.expand, outKeyCounter := p.expand.length }, cells } := by
  have hwrites : NestWrites
      (fun self key => expandNested fuel self (Group.ofList 0 (p.atoms 0)) key 0) (fun _ => none) 0
      (cross p.expand [[]]) :=
    expandNested_expands fuel (by simp) (by simp) (Nat.le_refl 0) (by rwa [zero_add])
      (.root rfl) hfuel
  rw [cross_one] at hwrites
  obtain ⟨cells, -, hcall⟩ := hwrites [] [] 0
  rw [filled_of_ne_nil p.expand_ne_nil]
  refine ⟨cells, hcall.trans ?_⟩
  rw [filled_zero]

/-!
## Brace expansion gives the expansion

Whatever the text is, the lexer succeeds, and where the limits are kept, `expand` fills the buffers
that were counted with the expansion of the text (`expand_tokenize`): the flat expander where no
group lies in a group, and else the nested one.
-/

theorem checkBraceGroupCount_eq {tokens : List Token}
    (h : (tokens.filter isOpening).length ≤ maxBraceGroups) :
    checkBraceGroupCount tokens = .ok () := if_neg (not_lt.2 h)

/-- Either expander fills the buffers. -/
theorem expand_tokens (p : Pieces) {fuel : ℕ} (hfuel : 2 * p.tokens.length + 1 < fuel)
    (hcount : ((p.tokens ++ [eof]).filter isOpening).length ≤ maxBraceGroups)
    (hlen : (p.tokens ++ [eof]).length ≤ 65535) :
    expand fuel (p.tokens ++ [eof]) (replicate p.expand.length []) (p.nested 0) =
      .ok p.expand := by
  rw [expand, checkBraceGroupCount_eq hcount]
  cases h : p.nested 0 with
  | false =>
    rw [Bool.not_false, if_pos rfl, buildExpansionTable_tokens h (by omega)]
    obtain ⟨fuel, rfl⟩ := Nat.exists_eq_succ_of_ne_zero (show fuel ≠ 0 by omega)
    show (expandFlat _ _ _ _ _ _ _ _ >>= _) = _
    rw [expandFlat_indexed h (by omega)]
    rfl
  | true =>
    rw [length_append, length_singleton] at hlen
    rw [Bool.not_true, if_neg (by simp), Parser.parse_tokens p (by omega)
      (checkBraceGroupCount_eq hcount)]
    obtain ⟨cells, hcells⟩ := expandNested_root p (by omega) (show p.tokens.length < fuel by omega)
    show (expandNested _ _ _ _ _ >>= _) = _
    rw [hcells]
    rfl

theorem expansion_single {ch : UInt8} (h : ch ≠ b '{') : expansion [⟨ch, false⟩] = [[ch]] := by
  rw [expansion_literal (fun hopen => absurd (by simpa [InputChar.isOpen] using hopen) h),
    expansion_nil]
  rfl

/-- The amount with counters of 32 bits. -/
def Amount.saturated (self : Amount) : Amount where
  nestedBraceStack := self.nestedBraceStack.map fun entry =>
    ⟨min entry.segmentProduct u32Max, min entry.accumulator u32Max⟩
  variantCount := min self.variantCount u32Max

theorem u32Max_pos : 0 < u32Max := by decide

theorem saturatingAdd_min (m n : ℕ) :
    saturatingAdd (min m u32Max) (min n u32Max) = min (m + n) u32Max := by
  rw [saturatingAdd]
  omega

theorem saturatingMul_min (m n : ℕ) :
    saturatingMul (min m u32Max) (min n u32Max) = min (m * n) u32Max := by
  rcases n.eq_zero_or_pos with rfl | hn
  · simp [saturatingMul]
  rcases m.eq_zero_or_pos with rfl | hm
  · simp [saturatingMul]
  rw [saturatingMul, ← Nat.mul_min_mul_right, min_assoc,
    min_eq_right (Nat.le_mul_of_pos_right _ (lt_min hn u32Max_pos)), ← Nat.mul_min_mul_left,
    min_assoc,
    min_eq_right (Nat.le_mul_of_pos_left _ hm)]

theorem Amount.step_saturated (self : Amount) (token : Token) :
    Amount.step saturatingAdd saturatingMul self.saturated token =
      (Amount.step (· + ·) (· * ·) self token).map Amount.saturated := by
  obtain ⟨stack, count⟩ := self
  have hone : 1 ≤ u32Max := u32Max_pos
  rcases token with _ | _ | _ | _ | _ <;> rcases stack with _ | ⟨top, _ | ⟨parent, stack⟩⟩ <;>
    simp [Amount.step, Amount.saturated, Except.map, saturatingAdd_min, saturatingMul_min, hone,
      u32Max_pos.ne', apply_ite (min · u32Max)]

theorem Amount.foldlM_saturated : ∀ (tokens : List Token) (self : Amount),
    tokens.foldlM (Amount.step saturatingAdd saturatingMul) self.saturated =
      (tokens.foldlM (Amount.step (· + ·) (· * ·)) self).map Amount.saturated
  | [], _ => rfl
  | token :: tokens, self => by
    rw [foldlM_cons, foldlM_cons, step_saturated]
    cases Amount.step (· + ·) (· * ·) self token with
    | error stop => rfl
    | ok next => exact foldlM_saturated tokens next

/-- The count is the number of results, at most `u32::MAX`, or `0` for a text without groups. It is
above a limit only if there are more results than that. -/
theorem calculateExpandedAmount_tokenize (src : Bytes) : ∃ output count, tokenize src = .ok output ∧
    calculateExpandedAmount output.tokens = .ok (min count u32Max) ∧
    max count 1 = (expansion (chars src)).length := by
  obtain ⟨p, htokenize, hexpand⟩ := tokenize_spec src
  obtain ⟨n, hamount, hn⟩ := p.amountWith_tokens
  refine ⟨_, n, htokenize, ?_, hexpand ▸ hn⟩
  rw [amountWith] at hamount
  cases hfold : (p.tokens ++ [eof]).foldlM (Amount.step (· + ·) (· * ·)) {} with
  | error stop => simp [hfold] at hamount
  | ok amount =>
    have hsaturated := Amount.foldlM_saturated (p.tokens ++ [eof]) {}
    rw [hfold] at hamount hsaturated
    obtain rfl := Except.ok.inj hamount
    exact congrArg (· >>= _) hsaturated

end Soup.Shell
