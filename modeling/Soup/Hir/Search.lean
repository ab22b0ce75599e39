import Mathlib.Data.List.Nodup
import Soup.Hir.Dominator
import Soup.Lib.Run

/-!
# Tables by block and the search

The blocks of a function are in the range that `BlockRange.of` finds, and each has its own place in
a table of this length. A loop that writes once for every key leaves what it wrote
(`exists_foldlM_write`).
-/

namespace Soup.Hir

open Lib List Option Nat HirFunction

namespace BlockRange

def InRange (range : BlockRange) (id : BlockId) : Prop :=
  range.first ≤ id ∧ id - range.first < range.len

variable {range : BlockRange} {id other : BlockId}

theorem InRange.index (h : range.InRange id) : range.index id = some (id - range.first) := if_pos h

theorem InRange.offset (h : range.InRange id) : range.offset id = .ok (id - range.first) :=
  if_pos h.1

theorem index_eq_some {i : ℕ} (h : range.index id = some i) : i = id - range.first := by
  rw [BlockRange.index] at h
  split at h
  · exact (some.inj h).symm
  · cases h

theorem InRange.inj (h : range.InRange id) (h' : range.InRange other)
    (heq : id - range.first = other - range.first) : id = other := by
  rw [← Nat.sub_add_cancel h.1, heq, Nat.sub_add_cancel h'.1]

theorem of_fold (ids : List BlockId) : ∀ first last : ℕ,
    (ids.foldl (fun (first, last) id => (min first id, max last id)) (first, last)).1 ≤ first ∧
    last ≤ (ids.foldl (fun (first, last) id => (min first id, max last id)) (first, last)).2 ∧
    ∀ id ∈ ids,
      (ids.foldl (fun (first, last) id => (min first id, max last id)) (first, last)).1 ≤ id ∧
      id ≤ (ids.foldl (fun (first, last) id => (min first id, max last id)) (first, last)).2 := by
  induction ids with
  | nil => exact fun first last => ⟨le_rfl, le_rfl, fun id h => absurd h not_mem_nil⟩
  | cons id ids ih =>
    intro first last
    obtain ⟨hfirst, hlast, hall⟩ := ih (min first id) (max last id)
    rw [foldl_cons]
    refine ⟨hfirst.trans (min_le_left _ _), (le_max_left _ _).trans hlast, fun x hx => ?_⟩
    rcases mem_cons.1 hx with rfl | hx
    · exact ⟨hfirst.trans (min_le_right _ _), (le_max_right _ _).trans hlast⟩
    · exact hall x hx

/-- Every block is in the range. -/
theorem inRange_of {ids : List BlockId} (h : id ∈ ids) : (BlockRange.of ids).InRange id := by
  cases ids with
  | nil => exact absurd h not_mem_nil
  | cons first ids =>
    obtain ⟨-, -, hall⟩ := of_fold (first :: ids) first first
    have hid := hall id h
    exact ⟨hid.1, Nat.lt_succ_of_le (Nat.sub_le_sub_right hid.2 _)⟩

end BlockRange

/-- A loop that writes once for every key. -/
theorem exists_foldlM_write {α β : Type} {f : List (Option β) → α → Run (List (Option β))}
    (xs : List α) (table : List (Option β)) (key : α → ℕ) (val : α → β)
    (hf : ∀ x ∈ xs, ∀ table', f table' x = write table' (key x) (some (val x)))
    (hkey : ∀ x ∈ xs, key x < table.length) (hnodup : (xs.map key).Nodup) :
    ∃ table', xs.foldlM f table = .ok table' ∧ table'.length = table.length ∧
      (∀ x ∈ xs, table'[key x]? = some (some (val x))) ∧
      ∀ i, (∀ x ∈ xs, key x ≠ i) → table'[i]? = table[i]? := by
  refine exists_foldlM xs (P := fun done table' => table'.length = table.length ∧
    (∀ x ∈ done, table'[key x]? = some (some (val x))) ∧
    ∀ i, (∀ x ∈ done, key x ≠ i) → table'[i]? = table[i]?) ⟨rfl, by simp, fun _ _ => rfl⟩ ?_
  rintro done x rest rfl table' ⟨hlength, hdone, hother⟩
  have hx : x ∈ done ++ x :: rest := by simp
  have hlt : key x < table'.length := by
    rw [hlength]
    exact hkey x hx
  have hfresh : ∀ y ∈ done, key y ≠ key x := by
    rw [map_append, map_cons] at hnodup
    intro y hy heq
    exact (nodup_append.1 hnodup).2.2 (key y) (mem_map_of_mem hy) (key x)
      mem_cons_self heq
  refine ⟨table'.set (key x) (some (val x)), ?_, by rw [length_set, hlength], ?_, ?_⟩
  · rw [hf x hx, write_eq hlt]
  · intro y hy
    rcases mem_append.1 hy with hy | hy
    · rw [getElem?_set_ne (hfresh y hy).symm, hdone y hy]
    · rw [mem_singleton.1 hy, getElem?_set_self hlt]
  · intro i hi
    rw [getElem?_set_ne (hi x (by simp)), hother i fun y hy => hi y (mem_append_left _ hy)]

/-!
## The search

The search goes back over predecessor lists. What it found is in a list, first the stack from its
bottom and then the postorder reversed. To take the top from the stack leaves this list as it is,
and a new block comes in behind the one that leads to it (`Searching.push`). So in the end every
block is behind one that leads to it, or flows into the exit.
-/

section Search

variable (func : HirFunction) (includeThrows : Bool)

/-- The block at place `v` is in the predecessor list of the block at place `u`. -/
def LeadsTo (u v : ℕ) : Prop :=
  ∃ block id, func.values[u]? = some block ∧ id ∈ block.preds ∧ func.ids[v]? = some id

def FlowsAt (v : ℕ) : Prop :=
  ∃ block, func.values[v]? = some block ∧ flowsIntoExit includeThrows block = true

/-- Every block flows into the exit, or comes behind one that leads to it. -/
def Led (before : List ℕ) : List ℕ → Prop
  | [] => True
  | v :: rest => (FlowsAt func includeThrows v ∨ ∃ u ∈ before, LeadsTo func u v) ∧
      Led (before ++ [v]) rest

variable {func includeThrows}

theorem Led.mono {before before' : List ℕ} (hsub : before ⊆ before') : ∀ {rest : List ℕ},
    Led func includeThrows before rest → Led func includeThrows before' rest
  | [], _ => trivial
  | v :: rest, ⟨hv, hrest⟩ => by
    refine ⟨hv.imp_right fun ⟨u, hu, hlead⟩ => ⟨u, hsub hu, hlead⟩, hrest.mono ?_⟩
    intro x hx
    rcases mem_append.1 hx with hx | hx
    · exact mem_append_left _ (hsub hx)
    · exact mem_append_right _ hx

theorem led_append : ∀ (before xs ys : List ℕ), Led func includeThrows before (xs ++ ys) ↔
    Led func includeThrows before xs ∧ Led func includeThrows (before ++ xs) ys
  | before, [], ys => by
    rw [nil_append, append_nil]
    exact ⟨fun h => ⟨trivial, h⟩, fun h => h.2⟩
  | before, x :: xs, ys => by
    rw [cons_append, Led, Led, led_append (before ++ [x]) xs ys, append_assoc,
      singleton_append, and_assoc]

/-- A block comes in behind one that leads to it. -/
theorem Led.insert {xs ys : List ℕ} {v : ℕ} (h : Led func includeThrows [] (xs ++ ys))
    (hv : FlowsAt func includeThrows v ∨ ∃ u ∈ xs, LeadsTo func u v) :
    Led func includeThrows [] (xs ++ v :: ys) := by
  obtain ⟨hxs, hys⟩ := (led_append [] xs ys).1 h
  refine (led_append [] xs (v :: ys)).2 ⟨hxs, hv, hys.mono ?_⟩
  exact subset_append_left _ _

/-- Every block flows into the exit, or one before leads to it. -/
theorem Led.split {xs ys : List ℕ} {v : ℕ} (h : Led func includeThrows [] (xs ++ v :: ys)) :
    FlowsAt func includeThrows v ∨ ∃ u ∈ xs, LeadsTo func u v :=
  ((led_append [] xs (v :: ys)).1 h).2.1

/-! ### The loop over the stack -/

/-- What the search found. -/
def found (search : Search) (stack : List (ℕ × List BlockId)) : List ℕ :=
  (stack.map Prod.fst).reverse ++ search.postorder.reverse

variable (func includeThrows) in
structure Searching (search : Search) (stack : List (ℕ × List BlockId)) : Prop where
  length : search.visited.length = func.blocks.length
  visited : ∀ v < func.blocks.length, search.visited[v]? = some (decide (v ∈ found search stack))
  nodup : (found search stack).Nodup
  lt : ∀ v ∈ found search stack, v < func.blocks.length
  led : Led func includeThrows [] (found search stack)
  /-- Behind a block of the postorder nothing is left. -/
  closed : ∀ u ∈ search.postorder, ∀ v, LeadsTo func u v → v ∈ found search stack
  frames : ∀ frame ∈ stack, ∃ block done, func.values[frame.1]? = some block ∧
    block.preds = done ++ frame.2 ∧
    ∀ id ∈ done, ∀ v, func.ids[v]? = some id → v ∈ found search stack

variable {search : Search} {stack : List (ℕ × List BlockId)} {place v : ℕ} {id : BlockId}
  {rest : List BlockId}

theorem Searching.pop (h : Searching func includeThrows search ((place, []) :: stack)) :
    Searching func includeThrows { search with postorder := search.postorder ++ [place] } stack ∧
      found { search with postorder := search.postorder ++ [place] } stack =
        found search ((place, []) :: stack) := by
  have hfound : found { search with postorder := search.postorder ++ [place] } stack =
      found search ((place, []) :: stack) := by
    simp [found]
  refine ⟨⟨h.length, ?_, ?_, ?_, ?_, ?_, ?_⟩, hfound⟩
  · rw [hfound]
    exact h.visited
  · rw [hfound]
    exact h.nodup
  · rw [hfound]
    exact h.lt
  · rw [hfound]
    exact h.led
  · rw [hfound]
    intro u hu v hlead
    rcases mem_append.1 hu with hu | hu
    · exact h.closed u hu v hlead
    · obtain rfl := mem_singleton.1 hu
      obtain ⟨block, done, hblock, hpreds, hdone⟩ := h.frames _ mem_cons_self
      obtain ⟨block', id, hblock', hid, hv⟩ := hlead
      obtain rfl := some.inj (hblock.symm.trans hblock')
      rw [append_nil] at hpreds
      exact hdone id (hpreds ▸ hid) v hv
  · rw [hfound]
    exact fun frame hframe => h.frames frame (mem_cons_of_mem _ hframe)

/-- A predecessor that was found is behind. -/
theorem Searching.skip (top : List (ℕ × List BlockId))
    (h : Searching func includeThrows search (top ++ (place, id :: rest) :: stack))
    (hid : ∀ v, func.ids[v]? = some id → v ∈ found search (top ++ (place, id :: rest) :: stack)) :
    Searching func includeThrows search (top ++ (place, rest) :: stack) := by
  have hfound : found search (top ++ (place, rest) :: stack) =
      found search (top ++ (place, id :: rest) :: stack) := by
    simp [found]
  rw [← hfound] at hid
  refine ⟨h.length, hfound ▸ h.visited, hfound ▸ h.nodup, hfound ▸ h.lt, hfound ▸ h.led,
    hfound ▸ h.closed, fun frame hframe => ?_⟩
  have hframes := h.frames
  rw [← hfound] at hframes
  have hkeep : frame ∈ top ++ (place, id :: rest) :: stack ∨ frame = (place, rest) := by
    simp only [mem_append, mem_cons] at hframe ⊢
    tauto
  rcases hkeep with hkeep | rfl
  · exact hframes frame hkeep
  · obtain ⟨block, done, hblock, hpreds, hdone⟩ := hframes (place, id :: rest) (by simp)
    refine ⟨block, done ++ [id], hblock, by rw [hpreds, append_assoc]; rfl, fun id' hid' => ?_⟩
    rcases mem_append.1 hid' with hid' | hid'
    · exact hdone id' hid'
    · rw [mem_singleton.1 hid']
      exact hid

/-- A block that is new: it flows into the exit, or the top of the stack leads to it. -/
theorem Searching.push {block : BasicBlock} (h : Searching func includeThrows search stack)
    (hblock : func.values[v]? = some block) (hnew : v ∉ found search stack)
    (hv : FlowsAt func includeThrows v ∨ ∃ u ∈ stack.map Prod.fst, LeadsTo func u v) :
    Searching func includeThrows { search with visited := search.visited.set v true }
      ((v, block.preds) :: stack) := by
  have hfound : found { search with visited := search.visited.set v true }
      ((v, block.preds) :: stack) =
      (stack.map Prod.fst).reverse ++ v :: search.postorder.reverse := by
    simp [found]
  have hmem : ∀ u, u ∈ (stack.map Prod.fst).reverse ++ v :: search.postorder.reverse ↔
      u = v ∨ u ∈ found search stack := by
    intro u
    simp only [found, mem_append, mem_cons]
    tauto
  have hlt : v < func.blocks.length := by
    have := (List.getElem?_eq_some_iff.1 hblock).1
    rwa [values, length_map] at this
  refine ⟨by rw [length_set, h.length], ?_, ?_, ?_, ?_, ?_, ?_⟩
  · intro u hu
    rw [hfound]
    by_cases hne : v = u
    · subst hne
      rw [getElem?_set_self (by rw [h.length]; exact hlt), decide_eq_true ((hmem v).2 (.inl rfl))]
    · rw [getElem?_set_ne hne, h.visited u hu]
      congr 1
      rw [decide_eq_decide, hmem]
      exact ⟨.inr, fun hu => hu.resolve_left (Ne.symm hne)⟩
  · rw [hfound]
    exact nodup_middle.2 (nodup_cons.2 ⟨hnew, h.nodup⟩)
  · rw [hfound]
    intro u hu
    rcases (hmem u).1 hu with rfl | hu
    · exact hlt
    · exact h.lt u hu
  · rw [hfound]
    refine h.led.insert (hv.imp_right ?_)
    rintro ⟨u, hu, hlead⟩
    exact ⟨u, mem_reverse.2 hu, hlead⟩
  · rw [hfound]
    exact fun u hu w hlead => (hmem w).2 (.inr (h.closed u hu w hlead))
  · rw [hfound]
    intro frame hframe
    rcases mem_cons.1 hframe with rfl | hframe
    · exact ⟨block, [], hblock, rfl, fun _ h => absurd h not_mem_nil⟩
    · obtain ⟨block', done, hblock', hpreds, hdone⟩ := h.frames frame hframe
      exact ⟨block', done, hblock', hpreds,
        fun id hid w hw => (hmem w).2 (.inr (hdone id hid w hw))⟩

/-- A found block stays found. -/
theorem mem_found_push {block : BasicBlock} {u : ℕ} :
    u ∈ found { search with visited := search.visited.set v true } ((v, block.preds) :: stack) ↔
      u = v ∨ u ∈ found search stack := by
  simp only [found, map_cons, reverse_cons, append_assoc, mem_append, mem_singleton]
  tauto

/-! ### The whole search -/

variable (func) in
/-- The blocks are in the range, and `places` has their places. -/
def PlacedIn (range : BlockRange) (places : List (Option ℕ)) : Prop :=
  ∀ v id, func.ids[v]? = some id → range.InRange id ∧ places[id - range.first]? = some (some v)

variable {range : BlockRange} {places : List (Option ℕ)}

theorem Searching.run (hplaces : PlacedIn func range places)
    (hids : ∀ block ∈ func.values, ∀ id ∈ block.preds, id ∈ func.ids) (search : Search)
    (stack : List (ℕ × List BlockId)) (h : Searching func includeThrows search stack) :
    ∃ search', (∀ᶠ fuel in Filter.atTop,
        searchLoop range places func.values fuel search stack = .ok search') ∧
      Searching func includeThrows search' [] ∧ found search stack ⊆ found search' [] := by
  match stack, h with
  | [], h => exact ⟨search, eventually_succ (.of_forall fun _ => rfl), h, List.Subset.refl _⟩
  | (place, []) :: stack, h =>
    obtain ⟨hpop, hfound⟩ := h.pop
    obtain ⟨search', hloop, hend, hsub⟩ := Searching.run hplaces hids _ stack hpop
    exact ⟨search', eventually_succ hloop, hend, hfound ▸ hsub⟩
  | (place, id :: rest) :: stack, h =>
    obtain ⟨block, done, hblock, hpreds, -⟩ := h.frames _ mem_cons_self
    have hid : id ∈ block.preds := by
      rw [hpreds]
      simp
    obtain ⟨v, hv⟩ := mem_iff_getElem?.1 (hids block (mem_of_getElem? hblock) id hid)
    obtain ⟨hrange, hplace⟩ := hplaces v id hv
    have hlt : v < func.blocks.length := by
      have := (List.getElem?_eq_some_iff.1 hv).1
      rwa [ids, length_map] at this
    have honly : ∀ w, func.ids[w]? = some id → w = v := fun w hw =>
      place_inj hw hv
    by_cases hmem : v ∈ found search ((place, id :: rest) :: stack)
    · obtain ⟨search', hloop, hend, hsub⟩ := Searching.run hplaces hids search
        ((place, rest) :: stack) (h.skip [] fun w hw => honly w hw ▸ hmem)
      refine ⟨search', eventually_succ ?_, hend, hsub⟩
      filter_upwards [hloop] with fuel hloop
      rw [searchLoop, hrange.offset, ok_bind, read_eq hplace, ok_bind, unwrap, ok_bind,
        read_eq (h.visited v hlt), ok_bind, decide_eq_true hmem, if_pos rfl, hloop]
    · obtain ⟨block', hblock'⟩ : ∃ block', func.values[v]? = some block' := by
        rw [values, getElem?_map, getElem?_eq_getElem hlt]
        exact ⟨_, rfl⟩
      have hpush := h.push hblock' hmem (.inr ⟨place, mem_cons_self, block, id, hblock, hid, hv⟩)
      have hskip := hpush.skip [(v, block'.preds)] fun w hw => by
        rw [honly w hw]
        exact mem_found_push.2 (.inl rfl)
      have hfalse : search.visited[v]? = some false := by
        rw [h.visited v hlt, decide_eq_false hmem]
      have hcount : (search.visited.set v true).count false < search.visited.count false := by
        have hpos := count_pos_iff.2 (mem_of_getElem? hfalse)
        obtain ⟨hv', hget⟩ := List.getElem?_eq_some_iff.1 hfalse
        have hfalse' : (true == false) = false := rfl
        rw [count_set hv', hget, if_pos (beq_self_eq_true false), hfalse',
          if_neg Bool.false_ne_true]
        omega
      obtain ⟨search', hloop, hend, hsub⟩ := Searching.run hplaces hids _ _ hskip
      refine ⟨search', eventually_succ ?_, hend, fun w hw => hsub ?_⟩
      · filter_upwards [hloop] with fuel hloop
        rw [searchLoop, hrange.offset, ok_bind, read_eq hplace, ok_bind, unwrap, ok_bind,
          read_eq hfalse, ok_bind, if_neg Bool.false_ne_true, read_eq hblock', ok_bind]
        exact hloop
      · exact mem_found_push.2 (.inr hw)
termination_by (search.visited.count false, (stack.map (·.2.length + 1)).sum)
decreasing_by
  all_goals simp_wf
  · exact Prod.Lex.right _ (by omega)
  · exact Prod.Lex.right _ (by omega)
  · exact Prod.Lex.left _ _ hcount

end Search

end Soup.Hir
