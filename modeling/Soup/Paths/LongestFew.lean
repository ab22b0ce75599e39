import Soup.Paths.LongestCommon

/-!
# The longest common path of few paths

Two to eight paths are compared byte by byte, which ends where they part (`columnLoop_start`). So
`longest_common_path` finds the longest common directory (`longestCommonPath_few`), and the other
function does unless a path goes on there with a separator while another goes on with another byte
(`getIfExists_few`).
-/

namespace Soup.Paths

open List Nat

/-- The paths are the same up to a place where one has a separator and another has another byte. -/
def ForksAtSep (paths : List Bytes) : Prop :=
  ∃ n : ℕ, (∀ p ∈ paths, ∀ q ∈ paths, ∀ i < n, p[i]? = q[i]?) ∧
    (∃ p ∈ paths, p[n]? = some sepPosix) ∧ ∃ q ∈ paths, ∃ c, q[n]? = some c ∧ c ≠ sepPosix

variable {isPathSeparator : UInt8 → Bool}

section Separators

variable {path : Bytes} {i : ℕ} {last : Option ℕ} (h : Rooted isPathSeparator path)
include h

theorem Rooted.isSepAt_iff : isSepAt isPathSeparator path i = true ↔ path[i]? = some sepPosix := by
  rw [isSepAt]
  rcases hget : path[i]? with _ | c
  · exact iff_of_false Bool.false_ne_true fun h => by cases h
  · rw [Option.any_some, h.sep c (mem_of_getElem? hget), Option.some.injEq]

theorem separatorAt_of_sep (hsep : path[i]? = some sepPosix) :
    separatorAt isPathSeparator path i last = some i :=
  if_pos (h.isSepAt_iff.2 hsep)

theorem separatorAt_of_ne (hsep : path[i]? ≠ some sepPosix) :
    separatorAt isPathSeparator path i last = last :=
  if_neg fun htrue => hsep (h.isSepAt_iff.1 htrue)

end Separators

section MinLength

variable {paths : List Bytes}

theorem minLength_spec (hne : paths ≠ []) :
    (∃ p ∈ paths, p.length = minLength paths) ∧ ∀ p ∈ paths, minLength paths ≤ p.length := by
  have hmap : paths.map length ≠ [] := fun h => hne (map_eq_nil_iff.1 h)
  obtain ⟨m, hm⟩ := Option.ne_none_iff_exists'.1 fun h => hmap (min?_eq_none_iff.1 h)
  obtain ⟨hmem, hle⟩ := min?_eq_some_iff.1 hm
  rw [minLength, hm, Option.getD_some]
  exact ⟨mem_map.1 hmem, fun p hp => hle _ (mem_map_of_mem hp)⟩

theorem minLength_pos (hne : paths ≠ []) (hrooted : ∀ p ∈ paths, Rooted isPathSeparator p) :
    0 < minLength paths := by
  obtain ⟨⟨p, hp, hlen⟩, -⟩ := minLength_spec hne
  rw [← hlen]
  exact lt_of_getElem? (hrooted p hp).root

end MinLength

/-! ## The loop -/

section Columns

variable {first : Bytes} {others : List Bytes} {index separator : ℕ}

theorem nqlAtIndex_eq_false : nqlAtIndex first others index = false ↔ ∀ q ∈ others,
    first[index]? = q[index]? := by
  rw [nqlAtIndex, any_eq_false]
  refine forall₂_congr fun q hq => ?_
  rw [decide_eq_true_iff, not_not]

theorem agree_of_first {n : ℕ} (h : ∀ q ∈ others, ∀ i < n, first[i]? = q[i]?) :
    ∀ p ∈ first :: others, ∀ q ∈ first :: others, ∀ i < n, p[i]? = q[i]? := by
  have hfirst : ∀ p ∈ first :: others, ∀ i < n, p[i]? = first[i]? := by
    intro p hp i hi
    rcases mem_cons.1 hp with rfl | hp
    · rfl
    · exact (h p hp i hi).symm
  exact fun p hp q hq i hi => (hfirst p hp i hi).trans (hfirst q hq i hi).symm

/-- The last separator with one more byte. -/
theorem LastSep.next (hrooted : Rooted isPathSeparator first) (h : LastSep first index separator) :
    ∃ separator', separatorAt isPathSeparator first index (some separator) = some separator' ∧
      LastSep first (index + 1) separator' := by
  by_cases hsep : first[index]? = some sepPosix
  · refine ⟨index, separatorAt_of_sep hrooted hsep, lt_succ_self _, hsep, fun i hlt hle => ?_⟩
    exact absurd (lt_of_lt_of_le hlt (le_of_lt_succ hle)) (lt_irrefl _)
  · refine ⟨separator, separatorAt_of_ne hrooted hsep, h.lt.trans (lt_succ_self _), h.isSep,
      fun i hlt hle => ?_⟩
    rcases Nat.lt_succ_iff_lt_or_eq.1 hle with hle | rfl
    · exact h.none_after i hlt hle
    · exact hsep

/-- The loop ends where the paths part. -/
theorem columnLoop_spec (hrooted : Rooted isPathSeparator first) (n : ℕ)
    (hn : index + n = minLength (first :: others))
    (hagree : ∀ q ∈ others, ∀ i < index, first[i]? = q[i]?) (hsep : LastSep first index separator) :
    ∃ k separator', columnLoop isPathSeparator first others n (index, some separator) =
      some (k, some separator') ∧ Parting (first :: others) k ∧ LastSep first k separator' := by
  obtain ⟨hshort, hle⟩ := minLength_spec (cons_ne_nil first others)
  induction n generalizing index separator with
  | zero =>
    rw [add_zero] at hn
    refine ⟨index, separator, rfl, ⟨agree_of_first hagree, fun p hp => hn ▸ hle p hp, .inl ?_⟩,
      hsep⟩
    exact hn ▸ hshort
  | succ n ih =>
    rw [columnLoop]
    rcases hnql : nqlAtIndex first others index with _ | _
    · obtain ⟨separator', hnext, hsep'⟩ := hsep.next hrooted
      rw [if_neg Bool.false_ne_true, hnext]
      refine ih (by omega) (fun q hq i hi => ?_) hsep'
      rcases Nat.lt_succ_iff_lt_or_eq.1 hi with hi | rfl
      · exact hagree q hq i hi
      · exact nqlAtIndex_eq_false.1 hnql q hq
    · refine ⟨index, separator, if_pos rfl, ⟨agree_of_first hagree, fun p hp => ?_, .inr ?_⟩, hsep⟩
      · have := hle p hp
        omega
      · by_contra hall
        push Not at hall
        have hfalse : nqlAtIndex first others index = false := nqlAtIndex_eq_false.2 fun q hq =>
          hall first mem_cons_self q (mem_cons_of_mem _ hq)
        exact Bool.false_ne_true (hfalse.symm.trans hnql)

theorem columnLoop_start (hrooted : ∀ p ∈ first :: others, Rooted isPathSeparator p)
    (last : Option ℕ) :
    ∃ k separator, columnLoop isPathSeparator first others (minLength (first :: others))
      (0, last) = some (k, some separator) ∧
      Parting (first :: others) k ∧ LastSep first k separator := by
  have hfirst := hrooted first mem_cons_self
  obtain ⟨n, hn⟩ := exists_eq_succ_of_ne_zero (minLength_pos (cons_ne_nil first others) hrooted).ne'
  have hroot : ∀ q ∈ others, first[0]? = q[0]? := fun q hq => by
    rw [hfirst.root, (hrooted q (mem_cons_of_mem _ hq)).root]
  rw [hn, columnLoop, nqlAtIndex_eq_false.2 hroot, if_neg Bool.false_ne_true,
    separatorAt_of_sep hfirst hfirst.root]
  refine columnLoop_spec hfirst n (by omega) (fun q hq i hi => ?_)
    ⟨one_pos, hfirst.root, fun i hlt hle => ?_⟩
  · rw [lt_one_iff.1 hi]
    exact hroot q hq
  · omega

end Columns

/-! ## The folder -/

section Folder

variable (isPathSeparator) (index : ℕ)

/-- What the loop of `longest_common_path_generic` finds behind the common bytes. -/
theorem folderLoop_cases : ∀ (paths : List Bytes) (found : Option Bytes),
    (∃ p ∈ paths, ∃ c, p[index]? = some c ∧ isPathSeparator c = false) ∧
      folderLoop isPathSeparator index paths found = none ∨
      (∀ p ∈ paths, p[index]? = none) ∧ folderLoop isPathSeparator index paths found = found ∨
      (∀ p ∈ paths, p[index]? = none ∨ isSepAt isPathSeparator p index = true) ∧
        ∃ p ∈ paths, isSepAt isPathSeparator p index = true ∧
          folderLoop isPathSeparator index paths found = some p
  | [], found => .inr (.inl ⟨fun p hp => absurd hp not_mem_nil, rfl⟩)
  | str :: rest, found => by
    rw [folderLoop]
    rcases hget : str[index]? with _ | c
    · rcases folderLoop_cases rest found with ⟨⟨p, hp, h⟩, heq⟩ | ⟨hall, heq⟩
        | ⟨hall, p, hp, hsep, heq⟩
      · exact .inl ⟨⟨p, mem_cons_of_mem _ hp, h⟩, heq⟩
      · exact .inr (.inl ⟨forall_mem_cons.2 ⟨hget, hall⟩, heq⟩)
      · exact .inr (.inr ⟨forall_mem_cons.2 ⟨.inl hget, hall⟩, p, mem_cons_of_mem _ hp, hsep, heq⟩)
    · dsimp only
      rcases hc : isPathSeparator c with _ | _
      · exact .inl ⟨⟨str, mem_cons_self, c, hget, hc⟩, if_neg Bool.false_ne_true⟩
      · have hsep : isSepAt isPathSeparator str index =
          true := by rw [isSepAt, hget, Option.any_some, hc]
        rw [if_pos rfl]
        rcases folderLoop_cases rest (some str) with ⟨⟨p, hp, h⟩, heq⟩ | ⟨hall, heq⟩
          | ⟨hall, p, hp, hsep', heq⟩
        · exact .inl ⟨⟨p, mem_cons_of_mem _ hp, h⟩, heq⟩
        · exact .inr (.inr ⟨forall_mem_cons.2 ⟨.inr hsep, fun p hp => .inl (hall p hp)⟩, str,
            mem_cons_self, hsep, heq⟩)
        · exact .inr (.inr ⟨forall_mem_cons.2 ⟨.inr hsep, hall⟩, p, mem_cons_of_mem _ hp, hsep',
            heq⟩)

end Folder

/-! ## Two to eight paths -/

section Few

variable {paths rest : List Bytes} {first second dir : Bytes} {k n separator : ℕ}

/-- The folder, or else the last common separator, is the last place. -/
theorem folderLoop_lastDirAt (hrooted : ∀ p ∈ paths, Rooted isPathSeparator p) (h : Parting paths k)
    (hfirst : first ∈ paths) (hsep : LastSep first k separator) :
    ∃ n, LastDirAt paths n ∧ ∃ p ∈ paths, p[n]? = some sepPosix ∧
      (match folderLoop isPathSeparator k paths none with
        | some str => str.take (k + 1)
        | none => first.take (separator + 1)) = p.take (n + 1) := by
  rcases folderLoop_cases isPathSeparator k paths none with
    ⟨⟨p, hp, c, hc, hne⟩, heq⟩ | ⟨hall, heq⟩ | ⟨hall, p, hp, hat, heq⟩
  all_goals rw [heq]
  · refine ⟨separator, h.lastDirAt_of_lastSep hfirst hsep
      (.inr ⟨p, hp, (lt_of_getElem? hc).ne', fun heq => ?_⟩), first, hfirst, hsep.isSep, rfl⟩
    have htrue := ((hrooted p hp).sep c (mem_of_getElem? hc)).2
      (Option.some.inj (hc.symm.trans heq))
    exact Bool.false_ne_true (hne.symm.trans htrue)
  · refine ⟨separator, h.lastDirAt_of_lastSep hfirst hsep (.inl fun p hp heq => ?_), first, hfirst,
      hsep.isSep, rfl⟩
    rw [hall p hp] at heq
    cases heq
  · have hget := (hrooted p hp).isSepAt_iff.1 hat
    refine ⟨k, h.lastDirAt (fun q hq => ?_) ⟨p, hp, hget⟩, p, hp, hget, rfl⟩
    exact (hall q hq).imp
      (fun hnone => le_antisymm (getElem?_eq_none_iff.1 hnone) (h.le q hq))
      (hrooted q hq).isSepAt_iff.1

theorem LastSep.pos (h : LastSep first k separator) : k ≠ 0 := (zero_lt_of_lt h.lt).ne'

section

variable (hrooted : ∀ p ∈ first :: second :: rest, Rooted isPathSeparator p)
include hrooted

theorem commonIndex_few (hfew : rest.length < 7) (last : Option ℕ) :
    ∃ k separator,
      commonIndex isPathSeparator last first (second :: rest) = some (k, some separator) ∧
        Parting (first :: second :: rest) k ∧ LastSep first k separator := by
  rw [commonIndex, if_pos (by rw [length_cons]; omega)]
  exact columnLoop_start hrooted last

omit hrooted in
theorem longestCommonPath_eq {last : Option ℕ}
    (h : commonIndex isPathSeparator (some 0) first (second :: rest) = some (n, last)) :
    longestCommonPathGeneric isPathSeparator (first :: second :: rest) =
      if n = 0 then [sepPosix]
      else
        match folderLoop isPathSeparator n (first :: second :: rest) none with
        | some str => str.take (n + 1)
        | none => first.take (last.getD 0 + 1) := by
  have hget : (commonIndex isPathSeparator (some 0) first (second :: rest)).get
      (isSome_commonIndex isPathSeparator _ 0 _) = (n, last) := by
    simp only [h, Option.get_some]
  rw [longestCommonPathGeneric]
  generalize (commonIndex isPathSeparator (some 0) first (second :: rest)).get _ = common at hget ⊢
  subst hget
  rfl

/-- The longest common path ends at the last place. -/
theorem longestCommonPathGeneric_few (hfew : rest.length < 7) :
    ∃ n, LastDirAt (first :: second :: rest) n ∧ ∃ p ∈ first :: second :: rest,
      p[n]? = some sepPosix ∧
        longestCommonPathGeneric isPathSeparator (first :: second :: rest) = p.take (n + 1) := by
  obtain ⟨k, separator, hindex, hparting, hsep⟩ := commonIndex_few hrooted hfew (some 0)
  rw [longestCommonPath_eq hindex, if_neg hsep.pos, Option.getD_some]
  exact folderLoop_lastDirAt hrooted hparting mem_cons_self hsep

end

section

variable (hnormal : ∀ p ∈ first :: second :: rest, IsNormalizedPath p)
include hnormal

theorem longestCommonPath_few (hfew : rest.length < 7) :
    IsLongest (first :: second :: rest) (longestCommonPath (first :: second :: rest)) := by
  obtain ⟨n, hlast, p, hp, hsep, heq⟩ :=
    longestCommonPathGeneric_few (fun p hp => (hnormal p hp).rooted) hfew
  rw [longestCommonPath, heq]
  exact hlast.isLongest hnormal hp hsep

omit hnormal in
/-- The place where one of the paths has a separator and another another byte is where they part. -/
theorem Parting.forksAtSep_iff (h : Parting paths k) : ForksAtSep paths ↔
    (∃ p ∈ paths, p[k]? = some sepPosix) ∧ ∃ q ∈ paths, ∃ c, q[k]? = some c ∧ c ≠ sepPosix := by
  refine ⟨?_, fun hforks => ⟨k, h.agree, hforks⟩⟩
  rintro ⟨n, hagree, ⟨p, hp, hsep⟩, q, hq, c, hc, hne⟩
  have hdiffer : p[n]? ≠ q[n]? :=
    fun heq => hne (Option.some.inj (hc.symm.trans (heq.symm.trans hsep)))
  rcases lt_trichotomy n k with hlt | rfl | hlt
  · exact absurd (h.agree p hp q hq n hlt) hdiffer
  · exact ⟨⟨p, hp, hsep⟩, q, hq, c, hc, hne⟩
  · rcases h.parts with ⟨r, hr, hlen⟩ | ⟨r, hr, s, hs, hne'⟩
    · have hnone := hagree r hr p hp k hlt
      rw [getElem?_eq_none hlen.le, getElem?_eq_getElem (hlt.trans (lt_of_getElem? hsep))] at hnone
      cases hnone
    · exact absurd (hagree r hr s hs k hlt) hne'

theorem getIfExists_few (hfew : rest.length < 7) :
    (∀ dir, getIfExistsLongestCommonPath (first :: second :: rest) = some dir →
      IsLongest (first :: second :: rest) dir) ↔ ¬ForksAtSep (first :: second :: rest) := by
  obtain ⟨k, separator, hindex, hparting, hsep⟩ := commonIndex_few
    (fun p hp => (hnormal p hp).rooted) hfew none
  rw [getIfExistsLongestCommonPath, getIfExistsLongestCommonPathGeneric, hindex, Option.map_some,
    hparting.forksAtSep_iff]
  dsimp only
  rw [if_neg hsep.pos]
  simp only [Option.some.injEq, forall_eq']
  rcases hfind : (first :: second :: rest).find? fun str => isSepAt isSepAny str k with _ | str
  · rw [find?_eq_none] at hfind
    have hnone : ∀ p ∈ first :: second :: rest, p[k]? ≠ some sepPosix := fun p hp heq =>
      hfind p hp ((hnormal p hp).rooted.isSepAt_iff.2 heq)
    refine iff_of_true ?_ fun hforks => hforks.1.elim fun p hp => hnone p hp.1 hp.2
    exact (hparting.lastDirAt_of_lastSep mem_cons_self hsep (.inl hnone)).isLongest hnormal
      mem_cons_self hsep.isSep
  · have hmem := mem_of_find?_eq_some hfind
    have hget := (hnormal str hmem).rooted.isSepAt_iff.1
      (find?_some (p := fun str => isSepAt isSepAny str k) hfind)
    constructor
    · rintro hlongest ⟨-, q, hq, c, hc, hne⟩
      have hlast := hparting.lastDirAt_of_lastSep mem_cons_self hsep
        (.inr ⟨q, hq, (lt_of_getElem? hc).ne',
          fun heq => hne (Option.some.inj (hc.symm.trans heq))⟩)
      have hlen := hlast.length_eq hnormal hlongest
      rw [length_take_of_le (lt_of_getElem? hget)] at hlen
      exact absurd (succ.inj hlen) hsep.lt.ne'
    · intro hforks
      refine (hparting.lastDirAt (fun q hq => ?_) ⟨str, hmem, hget⟩).isLongest hnormal hmem hget
      rcases hq' : q[k]? with _ | c
      · exact .inl (le_antisymm (getElem?_eq_none_iff.1 hq') (hparting.le q hq))
      · by_cases hc : c = sepPosix
        · exact .inr (by rw [hc])
        · exact absurd ⟨⟨str, hmem, hget⟩, q, hq, c, hq', hc⟩ hforks

end

end Few

end Soup.Paths
