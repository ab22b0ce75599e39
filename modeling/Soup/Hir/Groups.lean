import Mathlib.Data.List.GetD
import Soup.Hir.Dominator
import Soup.Lib.Run

/-!
# Groups

`Groups.new` counts the members of every group, and puts every member behind those of its group that
came before. The result has the members of a group in their order (`Groups.get_new`).
-/

namespace Soup.Hir

open Lib List

/-- The members of a group. -/
def membersOf (pairs : List (ℕ × BlockId)) (group : ℕ) : List BlockId :=
  (pairs.filter (·.1 = group)).map Prod.snd

/-- The number of the members of the groups before. -/
def below (pairs : List (ℕ × BlockId)) (group : ℕ) : ℕ := pairs.countP (·.1 < group)

section Counts

variable {pairs done rest : List (ℕ × BlockId)} {group g len : ℕ} {member : BlockId}

theorem mem_membersOf : member ∈ membersOf pairs g ↔ (g, member) ∈ pairs := by
  rw [membersOf, mem_map]
  constructor
  · rintro ⟨⟨group, x⟩, hmem, rfl⟩
    obtain ⟨hmem, hgroup⟩ := mem_filter.1 hmem
    rwa [← of_decide_eq_true hgroup]
  · exact fun hmem => ⟨(g, member), mem_filter.2 ⟨hmem, decide_eq_true rfl⟩, rfl⟩

theorem membersOf_append (done rest : List (ℕ × BlockId)) (g : ℕ) :
    membersOf (done ++ rest) g = membersOf done g ++ membersOf rest g := by
  rw [membersOf, filter_append, map_append]
  rfl

theorem membersOf_concat_self (done : List (ℕ × BlockId)) (group : ℕ) (member : BlockId) :
    membersOf (done ++ [(group, member)]) group = membersOf done group ++ [member] := by
  rw [membersOf_append]
  simp [membersOf]

theorem membersOf_concat_of_ne (done : List (ℕ × BlockId)) (member : BlockId) (h : group ≠ g) :
    membersOf (done ++ [(group, member)]) g = membersOf done g := by
  rw [membersOf_append]
  simp [membersOf, h]

theorem below_succ (pairs : List (ℕ × BlockId)) (g : ℕ) :
    below pairs (g + 1) = below pairs g + (membersOf pairs g).length := by
  induction pairs with
  | nil => rfl
  | cons pair pairs ih =>
    simp only [below, membersOf, length_map] at ih ⊢
    simp only [countP_cons, filter_cons, decide_eq_true_eq]
    split <;> split <;> split <;> (try simp only [length_cons]) <;> omega

theorem below_mono (pairs : List (ℕ × BlockId)) {g h : ℕ} (hle : g ≤ h) :
    below pairs g ≤ below pairs h :=
  countP_mono_left fun pair _ hlt => by
    simp only [decide_eq_true_eq] at hlt ⊢
    omega

/-- All the members. -/
theorem below_len (h : ∀ pair ∈ pairs, pair.1 < len) : below pairs len = pairs.length :=
  countP_eq_length.2 fun pair hp => decide_eq_true (h pair hp)

theorem length_membersOf_lt (hpairs : pairs = done ++ (group, member) :: rest) :
    (membersOf done group).length < (membersOf pairs group).length := by
  rw [hpairs, append_cons, membersOf_append, membersOf_concat_self]
  simp

end Counts

/-! ## The starts -/

theorem getElem?_runningSums (counts : List ℕ) : ∀ (sum i : ℕ), i < counts.length →
    (runningSums sum counts)[i]? = some (sum + (counts.take (i + 1)).sum) := by
  induction counts with
  | nil => exact fun _ i hi => absurd hi (Nat.not_lt_zero i)
  | cons count counts ih =>
    intro sum i hi
    cases i with
    | zero => simp [runningSums]
    | succ i =>
      rw [runningSums, getElem?_cons_succ, ih _ i (Nat.lt_of_succ_lt_succ hi),
        take_succ_cons, sum_cons, add_assoc]

theorem length_runningSums (counts : List ℕ) : ∀ sum, (runningSums sum counts).length =
    counts.length := by
  induction counts with
  | nil => exact fun _ => rfl
  | cons count counts ih => exact fun sum => congrArg (· + 1) (ih _)

/-- The counts of what is done, each one place further. -/
def Counted (len : ℕ) (done : List (ℕ × BlockId)) (counts : List ℕ) : Prop :=
  counts.length = len + 1 ∧ counts[0]? = some 0 ∧
    ∀ g < len, counts[g + 1]? = some (membersOf done g).length

theorem Counted.step {len group : ℕ} {done : List (ℕ × BlockId)} {counts : List ℕ}
    (h : Counted len done counts) (member : BlockId) (hgroup : group < len) :
    read counts (group + 1) = .ok (membersOf done group).length ∧
      Counted len (done ++ [(group, member)])
        (counts.set (group + 1) ((membersOf done group).length + 1)) := by
  obtain ⟨hlen, hzero, hcounts⟩ := h
  refine ⟨read_eq (hcounts group hgroup), ?_, ?_, ?_⟩
  · rw [length_set, hlen]
  · rw [getElem?_set_ne (Nat.succ_ne_zero group), hzero]
  · intro g hg
    by_cases hne : group = g
    · subst hne
      rw [getElem?_set_self (by omega), membersOf_concat_self, length_append]
      rfl
    · rw [getElem?_set_ne (by omega), hcounts g hg, membersOf_concat_of_ne _ _ hne]

/-- The sums are the starts. -/
theorem Counted.starts {len : ℕ} {pairs : List (ℕ × BlockId)} {counts : List ℕ}
    (h : Counted len pairs counts) {g : ℕ} (hg : g ≤ len) :
    (runningSums 0 counts)[g]? = some (below pairs g) := by
  obtain ⟨hlen, hzero, hcounts⟩ := h
  rw [getElem?_runningSums counts 0 g (by omega), zero_add]
  congr 1
  induction g with
  | zero =>
    rw [take_add_one, take_zero, hzero]
    simp [below]
  | succ g ih =>
    rw [take_add_one, sum_append, ih (le_of_lt hg), hcounts g hg, below_succ]
    simp

/-! ## The members -/

/-- What is done is in its place. -/
structure Placed (pairs : List (ℕ × BlockId)) (len : ℕ) (done : List (ℕ × BlockId))
    (state : List BlockId × List ℕ) : Prop where
  length : state.1.length = pairs.length
  ends_length : state.2.length = len + 1
  ends : ∀ g < len, state.2[g]? = some (below pairs g + (membersOf done g).length)
  members : ∀ g < len, ∀ k < (membersOf done g).length,
    state.1[below pairs g + k]? = (membersOf done g)[k]?

section Placed

variable {pairs done rest : List (ℕ × BlockId)} {group len : ℕ} {member : BlockId}
  {state : List BlockId × List ℕ}

/-- The place of the next member of a group. -/
theorem place_lt (hlt : ∀ pair ∈ pairs, pair.1 < len)
    (hpairs : pairs = done ++ (group, member) :: rest) :
    below pairs group + (membersOf done group).length < below pairs (group + 1) ∧
      below pairs (group + 1) ≤ pairs.length := by
  have hgroup : group < len := hlt (group, member) (by rw [hpairs]; simp)
  have := length_membersOf_lt hpairs
  rw [below_succ]
  refine ⟨by omega, ?_⟩
  rw [← below_succ, ← below_len hlt]
  exact below_mono pairs hgroup

theorem Placed.step (h : Placed pairs len done state) (hlt : ∀ pair ∈ pairs, pair.1 < len)
    (hpairs : pairs = done ++ (group, member) :: rest) :
    Placed pairs len (done ++ [(group, member)])
      (state.1.set (below pairs group + (membersOf done group).length) member,
        state.2.set group (below pairs group + (membersOf done group).length + 1)) := by
  obtain ⟨hplace, hstop⟩ := place_lt hlt hpairs
  have hgroup : group < len := hlt (group, member) (by rw [hpairs]; simp)
  refine ⟨by rw [length_set, h.length], by rw [length_set, h.ends_length], ?_, ?_⟩
  · intro g hg
    by_cases hne : group = g
    · subst hne
      rw [getElem?_set_self (by rw [h.ends_length]; omega), membersOf_concat_self,
        length_append]
      rfl
    · rw [getElem?_set_ne hne, h.ends g hg, membersOf_concat_of_ne _ _ hne]
  · intro g hg k hk
    by_cases hne : group = g
    · subst hne
      rw [membersOf_concat_self] at hk ⊢
      rw [length_append, length_singleton] at hk
      rcases Nat.lt_succ_iff_lt_or_eq.1 hk with hk | rfl
      · rw [getElem?_set_ne (by omega), h.members group hg k hk,
          getElem?_append_left hk]
      · rw [getElem?_set_self (by rw [h.length]; omega), getElem?_concat_length]
    · rw [membersOf_concat_of_ne _ _ hne] at hk ⊢
      have hother : below pairs group + (membersOf done group).length ≠ below pairs g + k := by
        have hk' : below pairs g + k < below pairs (g + 1) := by
          have hle : (membersOf done g).length ≤ (membersOf pairs g).length := by
            rw [hpairs, membersOf_append, length_append]
            exact Nat.le_add_right _ _
          rw [below_succ]
          omega
        rcases Nat.lt_or_gt_of_ne hne with hlt' | hgt
        · have := below_mono pairs (show group + 1 ≤ g from hlt')
          omega
        · have := below_mono pairs (show g + 1 ≤ group from hgt)
          omega
      rw [getElem?_set_ne hother, h.members g hg k hk]

end Placed

/-- The groups are there, and have their members in order. -/
theorem Groups.get_new (len : ℕ) (pairs : List (ℕ × BlockId)) (hlt : ∀ pair ∈ pairs, pair.1 < len) :
    ∃ groups, Groups.new len pairs = .ok groups ∧
      ∀ g < len, groups.get g = .ok (membersOf pairs g) := by
  obtain ⟨counts, hcounts, hcounted⟩ := exists_foldlM pairs
    (f := countMember) (P := Counted len)
    (s := replicate (len + 1) 0) (by
      refine ⟨length_replicate, by simp, fun g hg => ?_⟩
      rw [getElem?_replicate, if_pos (by omega)]
      rfl)
    (by
      rintro done ⟨group, member⟩ rest hpairs counts h
      have hgroup : group < len := hlt (group, member) (by rw [hpairs]; simp)
      obtain ⟨hread, hstep⟩ := h.step member hgroup
      refine ⟨_, ?_, hstep⟩
      rw [countMember, hread, ok_bind, write_eq (by rw [h.1]; omega)])
  obtain ⟨⟨members, ends⟩, hmembers, hplaced⟩ := exists_foldlM pairs
    (f := placeMember) (P := Placed pairs len)
    (s := (replicate pairs.length noneId, runningSums 0 counts)) (by
      refine ⟨length_replicate, ?_, fun g hg => ?_, fun g _ k hk => ?_⟩
      · rw [length_runningSums, hcounted.1]
      · rw [hcounted.starts (le_of_lt hg)]
        rfl
      · exact absurd hk (Nat.not_lt_zero k))
    (by
      rintro done ⟨group, member⟩ rest hpairs state h
      have hgroup : group < len := hlt (group, member) (by rw [hpairs]; simp)
      obtain ⟨hplace, hstop⟩ := place_lt hlt hpairs
      refine ⟨_, ?_, h.step hlt hpairs⟩
      rw [placeMember, read_eq (h.ends group hgroup), ok_bind, write_eq (by rw [h.length]; omega),
        ok_bind, write_eq (by rw [h.ends_length]; omega), ok_bind])
  refine ⟨⟨runningSums 0 counts, members⟩, ?_, fun g hg => ?_⟩
  · rw [Groups.new, hcounts, ok_bind]
    dsimp only
    rw [hmembers, ok_bind]
  · have hstop : below pairs (g + 1) ≤ pairs.length := by
      rw [← below_len hlt]
      exact below_mono pairs hg
    have hlength : members.length = pairs.length := hplaced.length
    have hsucc := below_succ pairs g
    rw [Groups.get, read_eq (hcounted.starts (le_of_lt hg)), ok_bind,
      read_eq (hcounted.starts (show g + 1 ≤ len from hg)), ok_bind,
      if_pos ⟨by omega, by dsimp only; omega⟩]
    congr 1
    refine ext_getElem? fun k => ?_
    rw [getElem?_take]
    split
    · rw [getElem?_drop]
      exact hplaced.members g hg k (by omega)
    · rw [getElem?_eq_none]
      omega

end Soup.Hir
