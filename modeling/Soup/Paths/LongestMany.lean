import Soup.Paths.LongestFew

/-!
# The longest common path of many paths

More than eight paths are compared with the first one, path by path, from one `index` that only goes
forward. So it can go past the place where the paths part, where some path has each byte of the
first one (`Spelled`). It stops behind each path where neither this nor those before it go on
(`StopsAt`), and only there a separator is seen.
-/

namespace Soup.Paths

open List Option Nat

/-- The first `n` bytes of `first` are in `others`, where no byte is in a path before that of the
last byte. -/
def Spelled (first : Bytes) (others : List Bytes) (n : ℕ) : Prop :=
  ∃ walk : ℕ → ℕ, Monotone walk ∧ ∀ i < n, ∃ p, others[walk i]? = some p ∧ first[i]? = p[i]?

/-- The bytes of `first` up to `n` are spelled, and no more. No path is shorter than `m`. -/
structure StopsAt (first : Bytes) (others : List Bytes) (m n : ℕ) : Prop where
  lt : n < m
  spelled : Spelled first others n
  stops : n + 1 = m ∨ ¬Spelled first others (n + 1)

/-- No separator is behind what the first of the paths spell. -/
def StopsAtNoSep (first : Bytes) (others : List Bytes) (m : ℕ) : Prop :=
  ∀ front, front ≠ [] → front <+: others → ∀ n, StopsAt first front m n → first[n]? ≠ some sepPosix

section Spelled

variable {first str : Bytes} {others front : List Bytes} {m n k : ℕ}

theorem Spelled.of_le (h : Spelled first others n) (hle : k ≤ n) : Spelled first others k := by
  obtain ⟨walk, hmono, hwalk⟩ := h
  exact ⟨walk, hmono, fun i hi => hwalk i (hi.trans_le hle)⟩

theorem StopsAt.unique (h : StopsAt first others m n) (h' : StopsAt first others m k) : n = k := by
  have hle : ∀ {n k}, StopsAt first others m n → StopsAt first others m k → n ≤ k := by
    intro n k h h'
    by_contra hlt
    rw [not_le] at hlt
    rcases h'.stops with heq | hnot
    · have := h.lt
      omega
    · exact hnot (h.spelled.of_le hlt)
  exact le_antisymm (hle h h') (hle h' h)

/-- One path spells what it has. -/
theorem spelled_of_mem (hstr : str ∈ others) (h : ∀ i < n, first[i]? = str[i]?) :
    Spelled first others n := by
  obtain ⟨j, hj⟩ := mem_iff_getElem?.1 hstr
  exact ⟨fun _ => j, monotone_const, fun i hi => ⟨str, hj, h i hi⟩⟩

/-- A path that goes on where those before it stop. -/
theorem Spelled.concat (h : Spelled first others n)
    (hstr : ∀ i, n ≤ i → i < k → first[i]? = str[i]?) : Spelled first (others ++ [str]) k := by
  obtain ⟨walk, hmono, hwalk⟩ := h
  have hlt : ∀ i < n, walk i < others.length := fun i hi => by
    obtain ⟨p, hp, -⟩ := hwalk i hi
    exact (List.getElem?_eq_some_iff.1 hp).1
  refine ⟨fun i => if i < n then walk i else others.length, ?_, fun i hi => ?_⟩
  · intro i j hij
    dsimp only
    split
    next hi =>
      split
      next => exact hmono hij
      next => exact (hlt i hi).le
    next hi => rw [if_neg fun hj => hi (hij.trans_lt hj)]
  · dsimp only
    split
    next hin =>
      obtain ⟨p, hp, hsame⟩ := hwalk i hin
      exact ⟨p, by rw [getElem?_append_left (hlt i hin), hp], hsame⟩
    next hin => exact ⟨str, getElem?_concat_length, hstr i (not_lt.1 hin) hi⟩

/-- A path that has another byte spells no more. -/
theorem Spelled.of_concat (h : Spelled first (others ++ [str]) (n + 1))
    (hne : first[n]? ≠ str[n]?) : Spelled first others (n + 1) := by
  obtain ⟨walk, hmono, hwalk⟩ := h
  have hlast : walk n < others.length := by
    obtain ⟨p, hp, hsame⟩ := hwalk n (lt_succ_self n)
    have hlt := (List.getElem?_eq_some_iff.1 hp).1
    rw [length_append, length_singleton] at hlt
    rcases Nat.lt_succ_iff_lt_or_eq.1 hlt with hlt | heq
    · exact hlt
    · rw [heq, getElem?_concat_length] at hp
      exact absurd (some.inj hp ▸ hsame) hne
  refine ⟨walk, hmono, fun i hi => ?_⟩
  obtain ⟨p, hp, hsame⟩ := hwalk i hi
  rw [getElem?_append_left ((hmono (le_of_lt_succ hi)).trans_lt hlast)] at hp
  exact ⟨p, hp, hsame⟩

theorem stopsAt_nil (hm : 0 < m) : StopsAt first [] m 0 where
  lt := hm
  spelled := ⟨id, monotone_id, fun i hi => absurd hi (not_lt_zero i)⟩
  stops := .inr fun ⟨walk, _, hwalk⟩ => by
    obtain ⟨p, hp, -⟩ := hwalk 0 one_pos
    cases hp

end Spelled

/-! ## The loop -/

section Scan

variable {first str : Bytes} {others front : List Bytes} {m n index : ℕ} {last : Option ℕ}

theorem sameUpTo_spec (first str : Bytes) (n index : ℕ) :
    index ≤ sameUpTo first str n index ∧ sameUpTo first str n index ≤ index + n ∧
      (∀ i, index ≤ i → i < sameUpTo first str n index → first[i]? = str[i]?) ∧
      (sameUpTo first str n index < index + n →
        first[sameUpTo first str n index]? ≠ str[sameUpTo first str n index]?) := by
  induction n generalizing index with
  | zero => exact ⟨le_rfl, le_rfl, fun i hle hlt => absurd (hle.trans_lt hlt) (lt_irrefl _),
      fun hlt => absurd hlt (lt_irrefl _)⟩
  | succ n ih =>
    rw [sameUpTo]
    split
    next hne =>
      exact ⟨le_rfl, le_add_right _ _, fun i hle hlt => absurd (hle.trans_lt hlt) (lt_irrefl _),
        fun _ => hne⟩
    next hsame =>
      obtain ⟨hle, hle', hall, hne⟩ := ih (index + 1)
      refine ⟨by omega, by omega, fun i hi hlt => ?_, fun hlt => hne (by omega)⟩
      rcases hi.lt_or_eq with hi | rfl
      · exact hall i hi hlt
      · exact not_not.1 hsame

theorem sameUpTo_lt_iff (first str : Bytes) (n index : ℕ) :
    sameUpTo first str n index < index + n ↔ ∃ i, index ≤ i ∧ i < index + n ∧
      first[i]? ≠ str[i]? := by
  obtain ⟨hle, hle', hall, hne⟩ := sameUpTo_spec first str n index
  refine ⟨fun hlt => ⟨_, hle, hlt, hne hlt⟩, ?_⟩
  rintro ⟨i, hi, hlt, hdiffer⟩
  by_contra hnot
  exact hdiffer (hall i hi (by omega))

/-- Where the index is after one more path. -/
def indexAfter (first str : Bytes) (m index : ℕ) : ℕ :=
  if sameUpTo first str (m - index) index = m then m - 1 else sameUpTo first str (m - index) index

theorem stringStep_spec (first str : Bytes) (m : ℕ) (common : Common) :
    stringStep isSepAny first m common str =
    if sameUpTo first str (m - common.1) common.1 < m ∧ common.2 = none then none
    else some (indexAfter first str m common.1,
      separatorAt isSepAny first (indexAfter first str m common.1) common.2) := by
  have hafter : (if sameUpTo first str (m - common.1) common.1 = m
    then sameUpTo first str (m - common.1) common.1 - 1
      else sameUpTo first str (m - common.1) common.1) = indexAfter first str m common.1 := by
    rw [indexAfter]
    split
    next heq => rw [heq]
    next => rfl
  rw [stringStep]
  rw [hafter]

theorem stringStep_eq (h : last.isSome = true) : stringStep isSepAny first m (index, last) str =
    some (indexAfter first str m index,
      separatorAt isSepAny first (indexAfter first str m index) last) := by
  rw [stringStep_spec, if_neg]
  rintro ⟨-, hnone⟩
  dsimp only at hnone
  rw [hnone] at h
  cases h

/-- The index stops behind the next path. -/
theorem StopsAt.next (str : Bytes) (h : StopsAt first others m index) :
    StopsAt first (others ++ [str]) m (indexAfter first str m index) := by
  have hlt := h.lt
  obtain ⟨hle, hle', hall, hne⟩ := sameUpTo_spec first str (m - index) index
  rw [Nat.add_sub_cancel' hlt.le] at hle' hne
  rw [indexAfter]
  split
  next heq =>
    rw [heq] at hall
    exact ⟨by omega, h.spelled.concat fun i hi hlt => hall i hi (by omega), .inl (by omega)⟩
  next hneq =>
    have hdiffer := hne (lt_of_le_of_ne hle' hneq)
    refine ⟨lt_of_le_of_ne hle' hneq, h.spelled.concat hall, ?_⟩
    rcases h.stops with heq | hnot
    · exact .inl (by omega)
    · exact .inr fun hspelled => hnot ((hspelled.of_concat hdiffer).of_le (by omega))

/-- The last separator that the index stopped at, or 0. -/
structure Scanned (first : Bytes) (others : List Bytes) (m index separator : ℕ) : Prop where
  stops : StopsAt first others m index
  seen : separator = 0 ∧ StopsAtNoSep first others m ∨
    ∃ front, front ≠ [] ∧ front <+: others ∧ StopsAt first front m separator ∧
      first[separator]? = some sepPosix

theorem Scanned.next {separator : ℕ} (str : Bytes) (hrooted : Rooted isSepAny first)
    (h : Scanned first others m index separator) :
    ∃ separator', separatorAt isSepAny first (indexAfter first str m index)
      (some separator) = some separator' ∧
      Scanned first (others ++ [str]) m (indexAfter first str m index) separator' := by
  have hstops := h.stops.next str
  have hne : others ++ [str] ≠ [] := concat_ne_nil _ _
  by_cases hsep : first[indexAfter first str m index]? = some sepPosix
  · exact ⟨_, separatorAt_of_sep hrooted hsep, hstops, .inr ⟨_, hne, prefix_refl _, hstops, hsep⟩⟩
  · refine ⟨separator, separatorAt_of_ne hrooted hsep, hstops, ?_⟩
    rcases h.seen with ⟨hzero, hno⟩ | ⟨front, hfront, hpre, hseen⟩
    · refine .inl ⟨hzero, fun front hfront hpre n hn => ?_⟩
      rcases prefix_concat_iff.1 hpre with rfl | hpre
      · rw [hn.unique hstops]
        exact hsep
      · exact hno front hfront hpre n hn
    · exact .inr ⟨front, hfront, hpre.trans (prefix_append _ _), hseen⟩

theorem foldlM_stringStep {separator : ℕ} (hrooted : Rooted isSepAny first) (more : List Bytes)
    (h : Scanned first others m index separator) : ∃ index' separator',
      more.foldlM (stringStep isSepAny first m)
        (index, some separator) = some (index', some separator') ∧
      Scanned first (others ++ more) m index' separator' := by
  induction more generalizing others index separator with
  | nil => exact ⟨index, separator, rfl, by rwa [append_nil]⟩
  | cons str more ih =>
    obtain ⟨separator', hseparator, hscanned⟩ := h.next str hrooted
    obtain ⟨index', separator'', hfold, hscanned'⟩ := ih hscanned
    rw [List.append_assoc, singleton_append] at hscanned'
    refine ⟨index', separator'', ?_, hscanned'⟩
    rw [foldlM_cons, stringStep_eq rfl, hseparator]
    exact hfold

theorem scanned_nil (hm : 0 < m) : Scanned first [] m 0 0 :=
  ⟨stopsAt_nil hm, .inl ⟨rfl, fun _ hfront hpre => absurd (prefix_nil.1 hpre) hfront⟩⟩

end Scan

/-! ## More than eight paths -/

/-- One of the paths ends with a separator and begins all of them. -/
def SharesFolder (paths : List Bytes) : Prop :=
  ∃ p ∈ paths, p.getLast? = some sepPosix ∧ ∀ q ∈ paths, p <+: q

section Many

variable {paths rest front : List Bytes} {first second dir : Bytes} {k m n separator : ℕ}

section

variable (h : Parting paths k)
include h

/-- What is spelled is at least what the paths share. -/
theorem Parting.le_stopsAt (hfirst : first ∈ paths) (hfront : front ≠ [])
    (hmem : ∀ p ∈ front, p ∈ paths) (hstops : StopsAt first front m n) : k ≤ n ∨ n + 1 = m := by
  by_contra hnot
  rw [not_or, not_le] at hnot
  refine (hstops.stops.resolve_left hnot.2) ?_
  obtain ⟨str, front, rfl⟩ := exists_cons_of_ne_nil hfront
  exact spelled_of_mem mem_cons_self fun i hi =>
    h.agree first hfirst str (hmem str mem_cons_self) i (by omega)

theorem Parting.le_minLength (hne : paths ≠ []) : k ≤ minLength paths := by
  obtain ⟨⟨p, hp, hlen⟩, -⟩ := minLength_spec hne
  exact hlen ▸ h.le p hp

theorem Parting.sharesFolder_iff (hk : 0 < k) (hfirst : first ∈ paths) :
    SharesFolder paths ↔ k = minLength paths ∧ first[minLength paths - 1]? = some sepPosix := by
  have hne : paths ≠ [] := ne_nil_of_mem hfirst
  obtain ⟨⟨r, hr, hshort⟩, hle⟩ := minLength_spec hne
  constructor
  · rintro ⟨p, hp, hlast, hpre⟩
    have hlen : p.length = minLength paths :=
      le_antisymm (hshort ▸ (hpre r hr).length_le) (hle p hp)
    have hget : ∀ q ∈ paths, ∀ i < p.length, q[i]? = p[i]? := fun q hq i hi => by
      obtain ⟨more, rfl⟩ := hpre q hq
      exact getElem?_append_left hi
    have hpos : 0 < p.length := length_pos_of_ne_nil fun hnil => by rw [hnil] at hlast; cases hlast
    refine ⟨le_antisymm (h.le_minLength hne) ?_, ?_⟩
    · by_contra hlt
      rw [not_le] at hlt
      rcases h.parts with ⟨q, hq, hqlen⟩ | ⟨q, hq, s, hs, hdiffer⟩
      · have := hle q hq
        omega
      · exact hdiffer (by rw [hget q hq k (hlen ▸ hlt), hget s hs k (hlen ▸ hlt)])
    · rw [← hlen, hget first hfirst _ (sub_lt hpos one_pos), ← getLast?_eq_getElem?, hlast]
  · rintro ⟨rfl, hsep⟩
    refine ⟨r, hr, ?_, fun q hq => ?_⟩
    · rw [getLast?_eq_getElem?, hshort, h.agree r hr first hfirst _ (sub_lt hk one_pos), hsep]
    · rw [prefix_iff_eq_take, hshort]
      refine ext_getElem? fun i => ?_
      rw [getElem?_take]
      split
      next hi => exact h.agree r hr q hq i hi
      next hi => exact getElem?_eq_none (hshort ▸ not_lt.1 hi)

/-- A separator at the end of what all share is the last place. -/
theorem Parting.lastDirAt_pred (hrooted : ∀ p ∈ paths, Rooted isSepAny p) (hfirst : first ∈ paths)
    (hk : 0 < k) (hsep : first[k - 1]? = some sepPosix) : LastDirAt paths (k - 1) := by
  have hget : ∀ p ∈ paths, p[k - 1]? = some sepPosix := fun p hp => by
    rw [h.agree p hp first hfirst _ (sub_lt hk one_pos), hsep]
  refine ⟨⟨fun p hp q hq i hi => h.agree p hp q hq i (hi.trans_le (sub_le _ _)),
    fun p hp => .inr (hget p hp), first, hfirst, hsep⟩, fun n hn => ?_⟩
  rcases (h.dirAt_le hn).lt_or_eq with hlt | rfl
  · exact le_sub_one_of_lt hlt
  · obtain ⟨p, hp, hpn⟩ := hn.slice
    have hsingle := (hrooted p hp).single _ (hget p hp)
    rw [Nat.sub_add_cancel hk] at hsingle
    exact absurd hpn hsingle

end

theorem take_one (hrooted : Rooted isSepAny first) : first.take 1 = [sepPosix] := by
  rw [← zero_add 1, take_succ_of_getElem? hrooted.root, take_zero, nil_append]

/-- What the loop over the paths ends with. -/
theorem commonIndex_many (hrooted : ∀ p ∈ first :: second :: rest, Rooted isSepAny p)
    (hmany : 7 ≤ rest.length) :
    ∃ index separator, commonIndex isSepAny (some 0) first (second :: rest) =
      some (index, some separator) ∧
      Scanned first (second :: rest) (minLength (first :: second :: rest)) index separator := by
  have hpos := minLength_pos (cons_ne_nil first (second :: rest)) hrooted
  rw [commonIndex, if_neg (by rw [length_cons]; omega), if_neg hpos.ne']
  exact foldlM_stringStep (hrooted first mem_cons_self) (second :: rest) (scanned_nil hpos)

/-- A directory that ends behind the last place is not the longest. -/
theorem LastDirAt.not_isLongest (hnormal : ∀ p ∈ paths, IsNormalizedPath p) (h : LastDirAt paths n)
    {p : Bytes} (hlt : n < m) (hm : m < p.length) : ¬IsLongest paths (p.take (m + 1)) := by
  intro hlongest
  have hlen := h.length_eq hnormal hlongest
  rw [length_take_of_le hm] at hlen
  omega

/-- Where every path goes on, the last common separator is the last place. -/
theorem Parting.lastDirAt_of_lt (h : Parting paths k) (hfirst : first ∈ paths)
    (hsep : LastSep first k separator)
    (hlt : ∀ p ∈ paths, k < p.length) : LastDirAt paths separator := by
  refine h.lastDirAt_of_lastSep hfirst hsep (.inr ?_)
  rcases h.parts with ⟨p, hp, heq⟩ | ⟨p, hp, q, hq, hne⟩
  · exact absurd heq (hlt p hp).ne'
  · by_cases hpk : p[k]? = some sepPosix
    · exact ⟨q, hq, (hlt q hq).ne', fun hqk => hne (hpk.trans hqk.symm)⟩
    · exact ⟨p, hp, (hlt p hp).ne', hpk⟩

section

variable (hnormal : ∀ p ∈ first :: second :: rest, IsNormalizedPath p)
include hnormal

/-- `longest_common_path` of more than eight paths, where the shortest ends with a separator that
all have. -/
theorem longestCommonPath_shares
    (hmany : 7 ≤ rest.length)
    (h : Parting (first :: second :: rest) (minLength (first :: second :: rest)))
    (hsep : first[minLength (first :: second :: rest) - 1]? = some sepPosix) :
    IsLongest (first :: second :: rest) (longestCommonPath (first :: second :: rest)) := by
  have hrooted : ∀ p ∈ first :: second :: rest, Rooted isSepAny p :=
    fun p hp => (hnormal p hp).rooted
  have hpos := minLength_pos (cons_ne_nil first (second :: rest)) hrooted
  obtain ⟨index, separator, hindex, hscanned⟩ := commonIndex_many hrooted hmany
  have hmem : ∀ p ∈ second :: rest, p ∈ first :: second :: rest := fun p hp => mem_cons_of_mem _ hp
  have hlast := h.lastDirAt_pred hrooted mem_cons_self hpos hsep
  generalize minLength (first :: second :: rest) = m at *
  have hm : index = m - 1 := by
    have := hscanned.stops.lt
    rcases h.le_stopsAt mem_cons_self (cons_ne_nil _ _) hmem hscanned.stops with hle | heq <;> omega
  subst hm
  rcases Nat.eq_zero_or_pos (m - 1) with hzero | hm
  · rw [hzero] at hindex hsep hlast
    rw [longestCommonPath, longestCommonPath_eq hindex, if_pos rfl,
      ← take_one (hrooted first mem_cons_self)]
    exact hlast.isLongest hnormal mem_cons_self hsep
  rw [longestCommonPath, longestCommonPath_eq hindex, if_neg hm.ne']
  have hall : ∀ p ∈ first :: second :: rest, p[m - 1]? = some sepPosix := fun p hp => by
    rw [h.agree p hp first mem_cons_self _ (sub_lt hpos one_pos), hsep]
  rcases folderLoop_cases isSepAny (m - 1) (first :: second :: rest) none with
    ⟨⟨p, hp, c, hc, hne⟩, -⟩ | ⟨hnone, -⟩ | ⟨-, p, hp, -, heq⟩
  · have hany := ((hrooted p hp).sep c (mem_of_getElem? hc)).2
      (some.inj (hc.symm.trans (hall p hp)))
    exact absurd (hne.symm.trans hany) Bool.false_ne_true
  · rw [hnone first mem_cons_self] at hsep
    cases hsep
  · rw [heq]
    exact hlast.isLongest hnormal hp (hall p hp)

/-- Else it is right where the root is the longest common directory and the index stops at no
separator. -/
theorem longestCommonPath_scans
    (hmany : 7 ≤ rest.length) (h : Parting (first :: second :: rest) k)
    (hsep : LastSep first k separator) (hshares : ¬SharesFolder (first :: second :: rest)) :
    IsLongest (first :: second :: rest) (longestCommonPath (first :: second :: rest)) ↔
      IsLongest (first :: second :: rest) [sepPosix] ∧
        StopsAtNoSep first (second :: rest) (minLength (first :: second :: rest)) := by
  have hrooted : ∀ p ∈ first :: second :: rest, Rooted isSepAny p :=
    fun p hp => (hnormal p hp).rooted
  have hfirst := hrooted first mem_cons_self
  have hk : 0 < k := zero_lt_of_lt hsep.lt
  obtain ⟨index, seen, hindex, hscanned⟩ := commonIndex_many hrooted hmany
  rw [h.sharesFolder_iff hk mem_cons_self] at hshares
  have hle := h.le_minLength (cons_ne_nil first (second :: rest))
  have hshort := (minLength_spec (cons_ne_nil first (second :: rest))).2
  generalize minLength (first :: second :: rest) = m at *
  -- a separator that the index stops at is behind what all share
  have hbehind : ∀ front, front ≠ [] → front <+: second :: rest → ∀ n, StopsAt first front m n →
      first[n]? = some sepPosix → k ≤ n ∧ k < m := by
    intro front hfront hpre n hn hget
    have hstop := h.le_stopsAt mem_cons_self hfront
      (fun p hp => mem_cons_of_mem _ (hpre.subset hp)) hn
    have hlt := hn.lt
    by_cases hkm : k = m
    · have hnm : n = m - 1 := by omega
      exact absurd ⟨hkm, hnm ▸ hget⟩ hshares
    · omega
  have hlast : k < m → LastDirAt (first :: second :: rest) separator := fun hkm =>
    h.lastDirAt_of_lt mem_cons_self hsep fun p hp => hkm.trans_le (hshort p hp)
  have hstops := hscanned.stops
  have hindexlt : index < first.length := hstops.lt.trans_le (hshort first mem_cons_self)
  have hpos : index ≠ 0 := by
    rintro rfl
    have := (hbehind _ (cons_ne_nil _ _) (prefix_refl _) 0 hstops hfirst.root).1
    omega
  rw [longestCommonPath, longestCommonPath_eq hindex, if_neg hpos]
  rcases folderLoop_cases isSepAny index (first :: second :: rest) none with
    ⟨-, heq⟩ | ⟨hnone, -⟩ | ⟨hall, p, hp, hat, heq⟩
  · rw [heq, getD_some]
    rcases hscanned.seen with ⟨rfl, hno⟩ | ⟨front, hfront, hpre, hstop, hget⟩
    · rw [zero_add, take_one hfirst]
      exact ⟨fun hlongest => ⟨hlongest, hno⟩, fun hboth => hboth.1⟩
    · obtain ⟨hkn, hkm⟩ := hbehind front hfront hpre seen hstop hget
      exact iff_of_false
        ((hlast hkm).not_isLongest hnormal (hsep.lt.trans_le hkn) (lt_of_getElem? hget))
        fun hboth => hboth.2 front hfront hpre seen hstop hget
  · have hget := hnone first mem_cons_self
    rw [getElem?_eq_getElem hindexlt] at hget
    cases hget
  · have hget : first[index]? = some sepPosix := by
      refine hfirst.isSepAt_iff.1 ((hall first mem_cons_self).resolve_left fun hnone => ?_)
      rw [getElem?_eq_getElem hindexlt] at hnone
      cases hnone
    obtain ⟨hkn, hkm⟩ := hbehind _ (cons_ne_nil _ _) (prefix_refl _) index hstops hget
    rw [heq]
    exact iff_of_false ((hlast hkm).not_isLongest hnormal (hsep.lt.trans_le hkn)
      (lt_of_getElem? ((hrooted p hp).isSepAt_iff.1 hat)))
      fun hboth => hboth.2 _ (cons_ne_nil _ _) (prefix_refl _) index hstops hget

end

end Many

/-! ## Where there may be no common path -/

section Exists

variable {paths rest more : List Bytes} {first second str : Bytes} {k m separator : ℕ}
  {last : Option ℕ}

/-- At the last byte that the index may be at, it stays. -/
theorem indexAfter_pred (hm : 0 < m) : indexAfter first str m (m - 1) = m - 1 := by
  obtain ⟨hle, hle', -⟩ := sameUpTo_spec first str (m - (m - 1)) (m - 1)
  rw [indexAfter]
  split <;> omega

section

variable (hrooted : Rooted isSepAny first)
include hrooted

theorem foldlM_pred_sep (hm : 0 < m) (hsep : first[m - 1]? = some sepPosix) (more : List Bytes) :
    more.foldlM (stringStep isSepAny first m)
      (m - 1, some (m - 1)) = some (m - 1, some (m - 1)) := by
  induction more with
  | nil => rfl
  | cons str more ih =>
    rw [foldlM_cons, stringStep_eq rfl, indexAfter_pred hm, separatorAt_of_sep hrooted hsep]
    exact ih

theorem stringStep_pred (hm : 0 < m) (hsep : first[m - 1]? ≠ some sepPosix) (str : Bytes) :
    stringStep isSepAny first m (m - 1, none) str =
      if first[m - 1]? = str[m - 1]? then some (m - 1, none) else none := by
  have hiff : sameUpTo first str (m - (m - 1)) (m - 1) < m ↔ first[m - 1]? ≠ str[m - 1]? := by
    have hlt := sameUpTo_lt_iff first str (m - (m - 1)) (m - 1)
    rw [Nat.add_sub_cancel' (Nat.sub_le m 1)] at hlt
    rw [hlt]
    refine ⟨?_, fun hne => ⟨m - 1, le_rfl, sub_lt hm one_pos, hne⟩⟩
    rintro ⟨i, hle, hlt, hne⟩
    rwa [show i = m - 1 by omega] at hne
  rw [stringStep_spec]
  rw [indexAfter_pred hm, separatorAt_of_ne hrooted hsep]
  by_cases hsame : first[m - 1]? = str[m - 1]?
  · rw [if_pos hsame, if_neg fun hcond => hiff.1 hcond.1 hsame]
  · rw [if_neg hsame, if_pos ⟨hiff.2 hsame, rfl⟩]

theorem foldlM_pred (hm : 0 < m) (hsep : first[m - 1]? ≠ some sepPosix)
    (more : List Bytes) : more.foldlM (stringStep isSepAny first m) (m - 1, none) =
      if ∀ q ∈ more, first[m - 1]? = q[m - 1]? then some (m - 1, none) else none := by
  induction more with
  | nil => rfl
  | cons str more ih =>
    rw [foldlM_cons, stringStep_pred hrooted hm hsep]
    by_cases hsame : first[m - 1]? = str[m - 1]?
    · rw [if_pos hsame, bind_eq_bind, bind_some, ih]
      refine if_congr ?_ rfl rfl
      rw [forall_mem_cons]
      exact ⟨fun h => ⟨hsame, h⟩, fun h => h.2⟩
    · rw [if_neg hsame, if_neg fun hall => hsame (hall str mem_cons_self)]
      rfl

end

/-- The index goes to the end of the second path, or there is no common path. -/
theorem commonIndex_exists (hrooted : ∀ p ∈ first :: second :: rest, Rooted isSepAny p)
    (hmany : 7 ≤ rest.length)
    (hm : minLength (first :: second :: rest) = m) :
    commonIndex isSepAny none first (second :: rest) =
      if ∃ i < m, first[i]? ≠ second[i]? then none
      else rest.foldlM (stringStep isSepAny first m)
        (m - 1, separatorAt isSepAny first (m - 1) none) := by
  have hpos := hm ▸ minLength_pos (cons_ne_nil first (second :: rest)) hrooted
  rw [commonIndex, if_neg (by rw [length_cons]; omega), hm, if_neg hpos.ne', foldlM_cons,
    stringStep_spec]
  have hlt := sameUpTo_lt_iff first second (m - 0) 0
  rw [Nat.sub_zero, zero_add] at hlt
  rw [Nat.sub_zero]
  by_cases hdiffer : ∃ i < m, first[i]? ≠ second[i]?
  · obtain ⟨i, hi, hne⟩ := hdiffer
    rw [if_pos ⟨hlt.2 ⟨i, zero_le _, hi, hne⟩, rfl⟩, if_pos ⟨i, hi, hne⟩]
    rfl
  · have hnot : ¬sameUpTo first second m 0 < m := fun h => by
      obtain ⟨i, -, hi, hne⟩ := hlt.1 h
      exact hdiffer ⟨i, hi, hne⟩
    have hafter : indexAfter first second m 0 = m - 1 := by
      have hle := (sameUpTo_spec first second m 0).2.1
      rw [indexAfter, Nat.sub_zero, if_pos (by omega)]
    rw [if_neg fun hcond => hnot hcond.1, if_neg hdiffer, hafter]
    rfl

/-- With more than eight paths, what is found is right where all share the bytes of the shortest. -/
theorem getIfExists_many (hnormal : ∀ p ∈ first :: second :: rest, IsNormalizedPath p)
    (hmany : 7 ≤ rest.length) (hm : minLength (first :: second :: rest) = m) :
    (∀ dir, getIfExistsLongestCommonPath (first :: second :: rest) = some dir →
      IsLongest (first :: second :: rest) dir) ↔
      (∃ i < m, first[i]? ≠ second[i]?) ∨
        first[m - 1]? ≠ some sepPosix ∧ (∃ q ∈ rest, first[m - 1]? ≠ q[m - 1]?) ∨
        SharesFolder (first :: second :: rest) := by
  have hrooted : ∀ p ∈ first :: second :: rest, Rooted isSepAny p :=
    fun p hp => (hnormal p hp).rooted
  have hfirst := hrooted first mem_cons_self
  have hpos : 0 < m := hm ▸ minLength_pos (cons_ne_nil first (second :: rest)) hrooted
  obtain ⟨k, separator, -, hparting, hlastSep⟩ := columnLoop_start hrooted none
  have hk : 0 < k := zero_lt_of_lt hlastSep.lt
  have hshares := hparting.sharesFolder_iff hk mem_cons_self
  have hle := hparting.le_minLength (cons_ne_nil first (second :: rest))
  have hshort := (minLength_spec (cons_ne_nil first (second :: rest))).2
  rw [getIfExistsLongestCommonPath, getIfExistsLongestCommonPathGeneric,
    commonIndex_exists hrooted hmany hm]
  rw [hm] at hshares hle hshort
  by_cases hdiffer : ∃ i < m, first[i]? ≠ second[i]?
  · rw [if_pos hdiffer]
    exact iff_of_true (fun dir hdir => by cases hdir) (.inl hdiffer)
  rw [if_neg hdiffer, or_iff_right hdiffer]
  by_cases hsep : first[m - 1]? = some sepPosix
  · rw [separatorAt_of_sep hfirst hsep, foldlM_pred_sep hfirst hpos hsep, map_some,
      or_iff_right fun h => h.1 hsep, hshares, and_iff_left hsep]
    dsimp only
    rw [find?_cons_of_pos (p := fun str => isSepAt isSepAny str (m - 1))
      (hfirst.isSepAt_iff.2 hsep)]
    have hdir : (if m - 1 = 0 then [sepPosix] else first.take (m - 1 + 1)) =
        first.take (m - 1 + 1) := by
      split
      next hzero => rw [hzero, zero_add, take_one hfirst]
      next => rfl
    simp only [hdir, some.injEq, forall_eq']
    constructor
    · intro hlongest
      by_contra hkm
      have hlt : k < m := lt_of_le_of_ne hle hkm
      refine (hparting.lastDirAt_of_lt mem_cons_self hlastSep fun p hp =>
        hlt.trans_le (hshort p hp)).not_isLongest hnormal ?_ (lt_of_getElem? hsep) hlongest
      have := hlastSep.lt
      omega
    · rintro rfl
      exact (hparting.lastDirAt_pred hrooted mem_cons_self hk hsep).isLongest hnormal mem_cons_self
        hsep
  · rw [separatorAt_of_ne hfirst hsep, foldlM_pred hfirst hpos hsep, hshares]
    have hne : m - 1 ≠ 0 := fun hzero => hsep (hzero ▸ hfirst.root)
    by_cases hall : ∀ q ∈ rest, first[m - 1]? = q[m - 1]?
    · rw [if_pos hall, map_some]
      dsimp only
      rw [if_neg hne]
      refine iff_of_false (fun h => ?_) ?_
      · exact absurd (h [dot] rfl).1.ends (by decide)
      · rintro (⟨-, q, hq, hneq⟩ | ⟨-, hsep'⟩)
        · exact hneq (hall q hq)
        · exact hsep hsep'
    · rw [if_neg hall]
      push Not at hall
      exact iff_of_true (fun dir hdir => by cases hdir) (.inl ⟨hsep, hall⟩)

end Exists

/-! ## The longest common directory -/

/-- Both functions find the longest common directory, where they find one. -/
def FindsCommonDir (paths : List Bytes) : Prop :=
  IsLongest paths (longestCommonPath paths) ∧
    ∀ dir, getIfExistsLongestCommonPath paths = some dir → IsLongest paths dir

/-- No path is shorter than `m`, and one is as short. -/
def IsShortest (paths : List Bytes) (m : ℕ) : Prop :=
  (∃ p ∈ paths, p.length = m) ∧ ∀ p ∈ paths, m ≤ p.length

/-- Where the second of many paths leaves the first one before the end of the shortest, or some path
does at its last byte, `get_if_exists_longest_common_path` finds nothing. -/
def LeavesFirst (first second : Bytes) (rest : List Bytes) (m : ℕ) : Prop :=
  (∃ i < m, first[i]? ≠ second[i]?) ∨ ∃ q ∈ rest, first[m - 1]? ≠ q[m - 1]?

/-- The paths that both functions are right for. -/
def FindsIn : List Bytes → Prop
  | first :: second :: rest =>
    if rest.length < 7 then ¬ForksAtSep (first :: second :: rest)
    else
      SharesFolder (first :: second :: rest) ∨
        IsLongest (first :: second :: rest) [sepPosix] ∧
          ∃ m, IsShortest (first :: second :: rest) m ∧ StopsAtNoSep first (second :: rest) m ∧
            LeavesFirst first second rest m
  | _ => True

section Finds

variable {paths rest : List Bytes} {first second : Bytes} {m : ℕ}

theorem IsShortest.eq (h : IsShortest paths m) : minLength paths = m := by
  obtain ⟨⟨p, hp, rfl⟩, hle⟩ := h
  obtain ⟨⟨q, hq, hlen⟩, hle'⟩ := minLength_spec (ne_nil_of_mem hp)
  exact le_antisymm (hle' p hp) (hlen ▸ hle q hq)

theorem findsCommonDir_iff (hnormal : ∀ p ∈ paths, IsNormalizedPath p) (htwo : 2 ≤ paths.length) :
    FindsCommonDir paths ↔ FindsIn paths := by
  obtain ⟨first, second, rest, rfl⟩ : ∃ first second rest, paths = first :: second :: rest := by
    rcases paths with _ | ⟨first, _ | ⟨second, rest⟩⟩
    · exact absurd htwo (not_succ_le_zero 1)
    · exact absurd htwo (not_succ_le_self 1)
    · exact ⟨first, second, rest, rfl⟩
  rw [FindsCommonDir, FindsIn]
  split
  next hfew =>
    rw [getIfExists_few hnormal hfew]
    exact and_iff_right (longestCommonPath_few hnormal hfew)
  next hmany =>
    rw [not_lt] at hmany
    have hrooted : ∀ p ∈ first :: second :: rest, Rooted isSepAny p :=
      fun p hp => (hnormal p hp).rooted
    obtain ⟨k, separator, -, hparting, hlastSep⟩ := columnLoop_start hrooted none
    have hk : 0 < k := zero_lt_of_lt hlastSep.lt
    have hiff := hparting.sharesFolder_iff hk mem_cons_self
    rw [getIfExists_many hnormal hmany rfl]
    by_cases hshares : SharesFolder (first :: second :: rest)
    · obtain ⟨rfl, hsep⟩ := hiff.1 hshares
      exact iff_of_true ⟨longestCommonPath_shares hnormal hmany hparting hsep, .inr (.inr hshares)⟩
        (.inl hshares)
    · rw [longestCommonPath_scans hnormal hmany hparting hlastSep hshares, or_iff_right hshares,
        or_iff_left hshares]
      have hpos := minLength_pos (cons_ne_nil first (second :: rest)) hrooted
      constructor
      · rintro ⟨⟨hroot, hstops⟩, hleaves⟩
        exact ⟨hroot, _, minLength_spec (cons_ne_nil _ _), hstops, hleaves.imp_right fun h => h.2⟩
      · rintro ⟨hroot, m, hshort, hstops, hleaves⟩
        obtain rfl := hshort.eq
        refine ⟨⟨hroot, hstops⟩, ?_⟩
        by_cases hdiffer : ∃ i < minLength (first :: second :: rest), first[i]? ≠ second[i]?
        · exact .inl hdiffer
        · -- the index goes to the last byte with the second path, so there is no separator
          push Not at hdiffer
          refine .inr ⟨hstops [second] (cons_ne_nil _ _) ⟨rest, rfl⟩ _ ⟨sub_lt hpos one_pos, ?_,
            .inl (Nat.sub_add_cancel hpos)⟩, hleaves.resolve_left fun ⟨i, hi, hne⟩ =>
            hne (hdiffer i hi)⟩
          exact spelled_of_mem mem_cons_self fun i hi => hdiffer i (hi.trans_le (sub_le _ _))

/-- Both functions find the longest common directory of the paths in each order, and one for all
orders. -/
def MeetsInEveryOrder (paths : List Bytes) : Prop :=
  ∀ paths', paths'.Perm paths → FindsCommonDir paths' ∧
    longestCommonPath paths' = longestCommonPath paths ∧
    ∀ dir dir', getIfExistsLongestCommonPath paths = some dir →
      getIfExistsLongestCommonPath paths' = some dir' → dir' = dir

theorem meetsInEveryOrder_iff (hnormal : ∀ p ∈ paths, IsNormalizedPath p)
    (htwo : 2 ≤ paths.length) :
    MeetsInEveryOrder paths ↔ ∀ paths', paths'.Perm paths → FindsIn paths' := by
  have hiff : ∀ paths', paths'.Perm paths → (FindsCommonDir paths' ↔ FindsIn paths') :=
    fun paths' hperm =>
    findsCommonDir_iff (fun p hp => hnormal p (hperm.mem_iff.1 hp)) (hperm.length_eq ▸ htwo)
  constructor
  · exact fun h paths' hperm => (hiff paths' hperm).1 (h paths' hperm).1
  · intro h paths' hperm
    have hpaths := (hiff paths (List.Perm.refl _)).2 (h paths (List.Perm.refl _))
    have hpaths' := (hiff paths' hperm).2 (h paths' hperm)
    have hunique : ∀ dir dir', IsLongest paths dir → IsLongest paths' dir' → dir' = dir :=
      fun dir dir' hdir hdir' =>
      (hdir'.perm hperm.symm).unique hnormal hdir
    exact ⟨hpaths', hunique _ _ hpaths.1 hpaths'.1, fun dir dir' hdir hdir' =>
      hunique _ _ (hpaths.2 dir hdir) (hpaths'.2 dir' hdir')⟩

end Finds

/-! ## Paths that the functions are wrong for -/

instance (name : Bytes) : Decidable (IsName name) :=
  decidable_of_iff (name ≠ [] ∧ sepPosix ∉ name ∧ name ≠ [dot] ∧ name ≠ [dot, dot])
    ⟨fun h => ⟨h.1, h.2.1, h.2.2.1, h.2.2.2⟩, fun h => ⟨h.ne_nil, h.no_sep, h.ne_dot, h.ne_dots⟩⟩

/-- `/app/public/x` and `/app/publicity`. -/
theorem meetsInEveryOrder_iff_public :
    ¬MeetsInEveryOrder [text "/app/public/x", text "/app/publicity"] := by
  have hnormal : ∀ p ∈ [text "/app/public/x", text "/app/publicity"], IsNormalizedPath p :=
    forall_mem_cons.2 ⟨⟨[text "app", text "public", text "x"], false, by decide, rfl⟩,
      forall_mem_singleton.2 ⟨[text "app", text "publicity"], false, by decide, rfl⟩⟩
  rw [meetsInEveryOrder_iff hnormal (by decide)]
  intro h
  have hforks : ¬ForksAtSep [text "/app/public/x", text "/app/publicity"] := h _ (List.Perm.refl _)
  refine hforks ⟨11, ?_, ⟨_, mem_cons_self, rfl⟩, text "/app/publicity", by decide, b 'i',
    rfl, by decide⟩
  decide

/-- Nine files of one directory. -/
def nineFiles : List Bytes := (text "abcdefghi").map fun c => text "/src/" ++ [c]

theorem not_meetsInEveryOrder : ¬∀ paths :
    List Bytes, (∀ p ∈ paths, IsNormalizedPath p) → 2 ≤ paths.length →
    MeetsInEveryOrder paths := by
  intro h
  have hnormal : ∀ p ∈ nineFiles, IsNormalizedPath p := by
    refine forall_mem_map.2 fun c hc => ⟨[text "src", [c]], false, ?_, rfl⟩
    have hname : (text "abcdefghi").all (fun c => decide (IsName [c] ∧ b '\\' ∉ [c])) =
      true := by decide
    exact forall_mem_cons.2 ⟨by decide, forall_mem_singleton.2
      (of_decide_eq_true (all_eq_true.1 hname c hc))⟩
  have hfound : longestCommonPath nineFiles = [sepPosix] := by decide
  have hlongest := (h nineFiles hnormal (by decide) nineFiles (List.Perm.refl _)).1.1
  rw [hfound] at hlongest
  have hsrc : IsCommonDir nineFiles (text "/src/") := by
    refine ⟨by decide, ⟨_, mem_cons_self, prefix_append _ _⟩, forall_mem_map.2 fun c _ => ?_⟩
    have hcomponents := components_append_sep (text "/src") [c]
    exact ⟨components [c], hcomponents.symm⟩
  exact absurd (hlongest.2 _ hsrc) (by decide)

end Soup.Paths
