import Soup.Paths.Relative

/-!
# Common directories

A common directory of absolute normalized paths ends with a separator, begins one of them, and has
the first names of each (`IsCommonDir`). For the bytes of the paths that is a place up to which they
are all the same, and where each ends or has a separator (`DirAt`). The last such place is where the
paths part, or the last separator before that (`Parting`).
-/

namespace Soup.Paths

open List Option Nat

/-- An absolute normalized path. A backslash separates as well, and a normalized path has none. -/
def IsNormalizedPath (path : Bytes) : Prop :=
  ∃ names trailing, (∀ name ∈ names, IsName name ∧ b '\\' ∉ name) ∧ path = absolute names trailing

/-- A directory that all of the paths are in, or are. -/
structure IsCommonDir (paths : List Bytes) (dir : Bytes) : Prop where
  ends : dir.getLast? = some sepPosix
  slice : ∃ path ∈ paths, dir <+: path
  inside : ∀ path ∈ paths, components dir <+: components path

/-- The longest directory that all of the paths are in, or are. -/
def IsLongest (paths : List Bytes) (dir : Bytes) : Prop :=
  IsCommonDir paths dir ∧ ∀ dir', IsCommonDir paths dir' → dir'.length ≤ dir.length

/-! ### Normalized paths -/

theorem slashed_name_cons (name : Bytes) (names : List Bytes) :
    slashed (name :: names) = sepPosix :: (name ++ slashed names) := by
  rw [slashed, flatMap_cons, cons_append, slashed]

/-- What a path has behind the names that it shares. -/
def behind (common names : List Bytes) (trailing : Bool) : Bytes :=
  if names = [] then (if common = [] then [sepPosix] else trail trailing)
  else slashed names ++ trail trailing

theorem absolute_append (common names : List Bytes) (trailing : Bool) :
    absolute (common ++ names) trailing = slashed common ++ behind common names trailing := by
  rw [absolute, behind]
  by_cases hn : names = []
  · subst hn
    by_cases hc : common = []
    · subst hc
      rfl
    · rw [append_nil, if_neg hc, if_pos rfl, if_neg hc]
  · rw [if_neg (by simp [hn]), if_neg hn, slashed, flatMap_append, append_assoc]
    rfl

theorem slashed_cons (name : Bytes) (names : List Bytes) (trailing : Bool) :
    slashed (name :: names) ++ trail trailing =
      sepPosix :: (name ++ (slashed names ++ trail trailing)) := by
  rw [slashed_name_cons, cons_append, append_assoc]

/-- What is behind the shared names is a separator, or nothing. -/
theorem behind_nil (common : List Bytes) (trailing : Bool) :
    behind common [] trailing = [sepPosix] ∨ behind common [] trailing = [] ∧ common ≠ [] := by
  rw [behind, if_pos rfl]
  by_cases hc : common = []
  · exact .inl (if_pos hc)
  · rw [if_neg hc]
    cases trailing
    · exact .inr ⟨rfl, hc⟩
    · exact .inl rfl

section Normalized

variable {isPathSeparator : UInt8 → Bool} {path : Bytes}

/-- What the bytes of a normalized path are. -/
structure Rooted (isPathSeparator : UInt8 → Bool) (path : Bytes) : Prop where
  root : path[0]? = some sepPosix
  single : ∀ i, path[i]? = some sepPosix → path[i + 1]? ≠ some sepPosix
  sep : ∀ c ∈ path, isPathSeparator c = true ↔ c = sepPosix

theorem single_append {name rest : Bytes} (hname : IsElement name)
    (hrest : ∀ i, rest[i]? = some sepPosix → rest[i + 1]? ≠ some sepPosix) (i : ℕ)
    (hi : (sepPosix :: (name ++ rest))[i]? = some sepPosix) :
    (sepPosix :: (name ++ rest))[i + 1]? ≠ some sepPosix := by
  have hno : ∀ j, j < name.length → name[j]? ≠ some sepPosix := fun j hj h =>
    hname.no_sep (mem_of_getElem? h)
  rw [getElem?_cons_succ]
  rcases lt_or_ge i name.length with hlt | hge
  · rw [getElem?_append_left hlt]
    exact hno i hlt
  · have hpos := length_pos_of_ne_nil hname.ne_nil
    obtain ⟨j, rfl⟩ := exists_eq_succ_of_ne_zero (ne_of_gt (hpos.trans_le hge))
    rw [succ_eq_add_one, getElem?_cons_succ] at hi
    rcases lt_or_ge j name.length with hlt | hge'
    · rw [getElem?_append_left hlt] at hi
      exact absurd hi (hno j hlt)
    · rw [getElem?_append_right hge'] at hi
      rw [succ_eq_add_one] at hge ⊢
      rw [getElem?_append_right hge, Nat.sub_add_comm hge']
      exact hrest _ hi

variable {names : List Bytes}

theorem single_slashed (h : ∀ name ∈ names, IsElement name) (trailing : Bool) (i : ℕ)
    (hi : (slashed names ++ trail trailing)[i]? = some sepPosix) :
    (slashed names ++ trail trailing)[i + 1]? ≠ some sepPosix := by
  induction names generalizing i with
  | nil =>
    cases trailing with
    | false => cases hi
    | true => exact fun h => by cases h
  | cons name names ih =>
    rw [slashed_name_cons, cons_append, append_assoc] at hi ⊢
    exact single_append (h name mem_cons_self)
      (fun i => ih (fun n hn => h n (mem_cons_of_mem _ hn)) i) i hi

theorem not_mem_slashed {c : UInt8} (hc : c ≠ sepPosix) (h : ∀ name ∈ names, c ∉ name)
    (trailing : Bool) : c ∉ slashed names ++ trail trailing := by
  rw [mem_append, slashed, mem_flatMap]
  rintro (⟨name, hname, hmem⟩ | hmem)
  · rcases mem_cons.1 hmem with rfl | hmem
    · exact hc rfl
    · exact h name hname hmem
  · rw [trail] at hmem
    split at hmem
    · exact hc (mem_singleton.1 hmem)
    · exact not_mem_nil hmem

theorem rooted_absolute {trailing : Bool} (h : ∀ name ∈ names, IsElement name)
    (hsep : ∀ c ∈ absolute names trailing, isPathSeparator c = true ↔ c = sepPosix) :
    Rooted isPathSeparator (absolute names trailing) := by
  refine ⟨?_, ?_, hsep⟩
  all_goals rw [absolute]; split
  · rfl
  next hne =>
    obtain ⟨name, names, rfl⟩ := exists_cons_of_ne_nil hne
    rfl
  · exact fun i _ hi => by cases hi
  · exact single_slashed h trailing

theorem IsNormalizedPath.rooted (h : IsNormalizedPath path) : Rooted isSepAny path := by
  obtain ⟨names, trailing, hnames, rfl⟩ := h
  refine rooted_absolute (fun name hname => (hnames name hname).1.isElement) fun c hc => ?_
  have hno : c ≠ b '\\' := by
    rintro rfl
    rw [absolute] at hc
    split at hc
    · exact absurd hc (by decide)
    · exact not_mem_slashed (by decide) (fun name hname => (hnames name hname).2) trailing hc
  rw [isSepAny, Bool.or_eq_true, decide_eq_true_iff, decide_eq_true_iff, or_iff_left hno]
  rfl

/-- A normalized path, with the names that it begins with. -/
theorem absolute_append_or {names more : List Bytes} (trailing : Bool) :
    absolute (names ++ more) trailing = slashed names ∨
      slashed names ++ [sepPosix] <+: absolute (names ++ more) trailing := by
  rw [absolute_append]
  rcases more with _ | ⟨name, more⟩
  · rcases behind_nil names trailing with h | ⟨h, -⟩
    · exact .inr (h ▸ prefix_rfl)
    · exact .inl (by rw [h, append_nil])
  · refine .inr ?_
    rw [behind, if_neg (by simp), slashed_cons]
    exact (prefix_append_right_inj _).2 ⟨_, rfl⟩

/-- What comes before a separator are names. -/
theorem exists_slashed {front : Bytes} :
    ∀ {names : List Bytes} {trailing : Bool}, (∀ name ∈ names, IsElement name) →
    front ++ [sepPosix] <+: slashed names ++ trail trailing →
      ∃ names', names' <+: names ∧ front = slashed names'
  | [], trailing, _, h => by
    refine ⟨[], prefix_refl _, ?_⟩
    have hlen := h.length_le
    cases trailing <;> simp [slashed, trail] at hlen ⊢
    exact hlen
  | name :: names, trailing, hnames, h => by
    rcases front with _ | ⟨c, front⟩
    · exact ⟨[], nil_prefix, rfl⟩
    · have hname := hnames name mem_cons_self
      rw [slashed_name_cons, cons_append, cons_append, append_assoc, cons_prefix_cons] at h
      obtain ⟨rfl, h⟩ := h
      have hfront : name <+: front := by
        rcases prefix_or_prefix_of_prefix (h.trans (prefix_refl _)) (prefix_append name _)
          with hp | hp
        · exact absurd (hp.subset (mem_append_right _ mem_cons_self)) hname.no_sep
        · rcases prefix_concat_iff.1 hp with heq | hp
          · exact absurd (heq ▸ mem_append_right _ mem_cons_self) hname.no_sep
          · exact hp
      obtain ⟨front, rfl⟩ := hfront
      rw [append_assoc, prefix_append_right_inj] at h
      obtain ⟨names', hpre, rfl⟩ := exists_slashed (fun n hn => hnames n (mem_cons_of_mem _ hn)) h
      exact ⟨name :: names', (cons_prefix_cons).2 ⟨rfl, hpre⟩, rfl⟩

end Normalized

/-! ### Places -/

/-- The paths are the same up to `n`, where each ends or has a separator. -/
structure DirAt (paths : List Bytes) (n : ℕ) : Prop where
  agree : ∀ p ∈ paths, ∀ q ∈ paths, ∀ i < n, p[i]? = q[i]?
  ends : ∀ p ∈ paths, p.length = n ∨ p[n]? = some sepPosix
  slice : ∃ p ∈ paths, p[n]? = some sepPosix

section Place

variable {paths : List Bytes} {p q dir : Bytes} {n k : ℕ}

theorem lt_of_getElem? {c : UInt8} (h : p[n]? = some c) : n < p.length :=
  (List.getElem?_eq_some_iff.1 h).1

theorem take_succ_of_getElem? {c : UInt8} (h : p[n]? = some c) :
    p.take (n + 1) = p.take n ++ [c] := by
  rw [take_add_one, h, toList_some]

theorem DirAt.take_eq (h : DirAt paths n) (hp : p ∈ paths) (hq : q ∈ paths) :
    p.take n = q.take n := by
  refine ext_getElem? fun i => ?_
  rw [getElem?_take, getElem?_take]
  split
  next hi => exact h.agree p hp q hq i hi
  next => rfl

theorem components_concat_sep (d : Bytes) : components (d ++ [sepPosix]) = components d := by
  rw [components_append_sep, components_nil, append_nil]

/-- A place is a common directory. -/
theorem DirAt.isCommonDir (h : DirAt paths n) (hp : p ∈ paths) (hsep : p[n]? = some sepPosix) :
    IsCommonDir paths (p.take (n + 1)) := by
  rw [take_succ_of_getElem? hsep]
  refine ⟨getLast?_concat, ⟨p, hp, take_succ_of_getElem? hsep ▸ take_prefix _ _⟩, fun q hq => ?_⟩
  rw [components_concat_sep, h.take_eq hp hq]
  rcases h.ends q hq with hlen | hq'
  · simp only [take_of_length_le hlen.le, prefix_rfl]
  · have hsplit : q = q.take n ++ sepPosix :: q.drop (n + 1) := by
      rw [append_cons, ← take_succ_of_getElem? hq', take_append_drop]
    exact ⟨components (q.drop (n + 1)), by rw [← components_append_sep, ← hsplit]⟩

/-- A common directory has names. -/
theorem IsCommonDir.exists_names (h : IsCommonDir paths dir)
    (hnamed : ∀ p ∈ paths, ∃ names trailing, (∀ name ∈ names, IsName name) ∧
      p = absolute names trailing) :
    ∃ names, (∀ name ∈ names, IsName name) ∧ dir = slashed names ++ [sepPosix] := by
  obtain ⟨p, hp, hslice⟩ := h.slice
  obtain ⟨front, rfl⟩ : ∃ front, dir = front ++ [sepPosix] := by
    rcases eq_nil_or_concat' dir with rfl | ⟨front, c, rfl⟩
    · exact absurd h.ends (by decide)
    · have hc := h.ends
      rw [getLast?_concat] at hc
      exact ⟨front, by rw [some.inj hc]⟩
  obtain ⟨names, trailing, hnames, rfl⟩ := hnamed p hp
  obtain ⟨names', hpre, rfl⟩ : ∃ names', names' <+: names ∧ front = slashed names' := by
    rw [absolute] at hslice
    split at hslice
    next =>
      have hroot : front ++ [sepPosix] <+: slashed [] ++ trail true := hslice
      obtain ⟨names', hpre, hfront⟩ :=
        exists_slashed (fun name hname => absurd hname not_mem_nil) hroot
      exact ⟨names', hpre.trans nil_prefix, hfront⟩
    next => exact exists_slashed (fun name hname => (hnames name hname).isElement) hslice
  exact ⟨names', fun name hname => hnames name (hpre.subset hname), rfl⟩

/-- A common directory is a place. -/
theorem IsCommonDir.dirAt (hnormal : ∀ p ∈ paths, IsNormalizedPath p) (h : IsCommonDir paths dir) :
    ∃ n, ∃ p ∈ paths, DirAt paths n ∧ p[n]? = some sepPosix ∧ dir = p.take (n + 1) := by
  obtain ⟨p, hp, hslice⟩ := h.slice
  obtain ⟨names', hnames', rfl⟩ := h.exists_names fun p hp => by
    obtain ⟨names, trailing, hnames, heq⟩ := hnormal p hp
    exact ⟨names, trailing, fun name hname => (hnames name hname).1, heq⟩
  have hcomponents : components (slashed names' ++ [sepPosix]) = names' :=
    components_slashed hnames' true
  have hends : ∀ q ∈ paths, q = slashed names' ∨ slashed names' ++ [sepPosix] <+: q := by
    intro q hq
    obtain ⟨names, trailing, hnames, rfl⟩ := hnormal q hq
    have hinside := h.inside _ hq
    rw [hcomponents, components_absolute fun name hname => (hnames name hname).1] at hinside
    obtain ⟨more, rfl⟩ := hinside
    rcases absolute_append_or trailing with heq | hpre
    · exact .inl heq
    · exact .inr hpre
  have hget : ∀ q, slashed names' ++ [sepPosix] <+: q →
      q[(slashed names').length]? = some sepPosix := by
    rintro q ⟨rest, rfl⟩
    rw [append_assoc, getElem?_append_right le_rfl, Nat.sub_self]
    rfl
  have hbytes : ∀ q ∈ paths, ∀ i < (slashed names').length, q[i]? = (slashed names')[i]? := by
    intro q hq i hi
    rcases hends q hq with rfl | ⟨rest, rfl⟩
    · rfl
    · rw [append_assoc, getElem?_append_left hi]
  refine ⟨(slashed names').length, p, hp, ⟨?_, ?_, p, hp, hget p hslice⟩, hget p hslice, ?_⟩
  · intro p hp q hq i hi
    rw [hbytes p hp i hi, hbytes q hq i hi]
  · intro q hq
    exact (hends q hq).imp (fun heq => by rw [heq]) (hget q)
  · rw [← length_singleton (a := sepPosix), ← length_append]
    exact prefix_iff_eq_take.1 hslice

/-- The last place. -/
def LastDirAt (paths : List Bytes) (n : ℕ) : Prop := DirAt paths n ∧ ∀ m, DirAt paths m → m ≤ n

section

variable (hnormal : ∀ p ∈ paths, IsNormalizedPath p)
include hnormal

theorem LastDirAt.isLongest (h : LastDirAt paths n) (hp : p ∈ paths)
    (hsep : p[n]? = some sepPosix) : IsLongest paths (p.take (n + 1)) := by
  refine ⟨h.1.isCommonDir hp hsep, fun dir' hdir' => ?_⟩
  obtain ⟨m, q, -, hm, hq, rfl⟩ := hdir'.dirAt hnormal
  rw [length_take_of_le (lt_of_getElem? hq), length_take_of_le (lt_of_getElem? hsep)]
  exact succ_le_succ (h.2 m hm)

/-- A longest directory is as long as the last place. -/
theorem LastDirAt.length_eq (h : LastDirAt paths n)
    (hdir : IsLongest paths dir) : dir.length = n + 1 := by
  obtain ⟨p, hp, hsep⟩ := h.1.slice
  have hle := hdir.2 _ (h.1.isCommonDir hp hsep)
  obtain ⟨m, q, -, hm, hq, rfl⟩ := hdir.1.dirAt hnormal
  rw [length_take_of_le (lt_of_getElem? hsep)] at hle
  rw [length_take_of_le (lt_of_getElem? hq)] at hle ⊢
  have := h.2 m hm
  omega

/-- There is one longest directory. -/
theorem IsLongest.unique {dir' : Bytes} (h : IsLongest paths dir)
    (h' : IsLongest paths dir') : dir = dir' := by
  have hlen := le_antisymm (h'.2 dir h.1) (h.2 dir' h'.1)
  obtain ⟨n, p, hp, hn, hsep, rfl⟩ := h.1.dirAt hnormal
  obtain ⟨m, q, hq, hm, hsep', rfl⟩ := h'.1.dirAt hnormal
  rw [length_take_of_le (lt_of_getElem? hsep), length_take_of_le (lt_of_getElem? hsep')] at hlen
  obtain rfl : n = m := succ.inj hlen
  rw [take_succ_of_getElem? hsep, take_succ_of_getElem? hsep', hn.take_eq hp hq]

end

theorem IsLongest.perm {paths' : List Bytes} (hperm : paths'.Perm paths) (h : IsLongest paths dir) :
    IsLongest paths' dir := by
  have hcommon : ∀ dir, IsCommonDir paths' dir ↔ IsCommonDir paths dir := fun dir =>
    ⟨fun h => ⟨h.ends, h.slice.imp fun p hp => ⟨hperm.mem_iff.1 hp.1, hp.2⟩,
      fun p hp => h.inside p (hperm.mem_iff.2 hp)⟩,
      fun h => ⟨h.ends, h.slice.imp fun p hp => ⟨hperm.mem_iff.2 hp.1, hp.2⟩,
        fun p hp => h.inside p (hperm.mem_iff.1 hp)⟩⟩
  exact ⟨(hcommon dir).2 h.1, fun dir' hdir' => h.2 dir' ((hcommon dir').1 hdir')⟩

end Place

/-! ### Where the paths part -/

/-- The paths are the same up to `k`, and no further. -/
structure Parting (paths : List Bytes) (k : ℕ) : Prop where
  agree : ∀ p ∈ paths, ∀ q ∈ paths, ∀ i < k, p[i]? = q[i]?
  le : ∀ p ∈ paths, k ≤ p.length
  parts : (∃ p ∈ paths, p.length = k) ∨ ∃ p ∈ paths, ∃ q ∈ paths, p[k]? ≠ q[k]?

/-- The last separator before `k`. -/
structure LastSep (path : Bytes) (k separator : ℕ) : Prop where
  lt : separator < k
  isSep : path[separator]? = some sepPosix
  none_after : ∀ i, separator < i → i < k → path[i]? ≠ some sepPosix

section Parting

variable {paths : List Bytes} {first : Bytes} {n k separator : ℕ}

theorem Parting.dirAt_le (h : Parting paths k) (hn : DirAt paths n) : n ≤ k := by
  by_contra hlt
  rw [not_le] at hlt
  rcases h.parts with ⟨p, hp, hlen⟩ | ⟨p, hp, q, hq, hne⟩
  · rcases hn.ends p hp with hlen' | hsep
    · omega
    · have := lt_of_getElem? hsep
      omega
  · exact hne (hn.agree p hp q hq k hlt)

/-- Each path ends where they part, or goes on with a separator. -/
theorem Parting.lastDirAt (h : Parting paths k)
    (hends : ∀ p ∈ paths, p.length = k ∨ p[k]? = some sepPosix)
    (hslice : ∃ p ∈ paths, p[k]? = some sepPosix) : LastDirAt paths k :=
  ⟨⟨h.agree, hends, hslice⟩, fun _ hm => h.dirAt_le hm⟩

/-- No path has a separator where they part, or one goes on with another byte. -/
theorem Parting.lastDirAt_of_lastSep (h : Parting paths k) (hfirst : first ∈ paths)
    (hsep : LastSep first k separator)
    (hother : (∀ p ∈ paths, p[k]? ≠ some sepPosix) ∨ ∃ p ∈ paths, p.length ≠ k ∧
      p[k]? ≠ some sepPosix) :
    LastDirAt paths separator := by
  have hget : ∀ p ∈ paths, p[separator]? = some sepPosix := fun p hp => by
    rw [h.agree p hp first hfirst separator hsep.lt, hsep.isSep]
  refine ⟨⟨fun p hp q hq i hi => h.agree p hp q hq i (hi.trans hsep.lt),
    fun p hp => .inr (hget p hp),
    first, hfirst, hsep.isSep⟩, fun m hm => ?_⟩
  by_contra hlt
  rw [not_le] at hlt
  obtain ⟨q, hq, hqm⟩ := hm.slice
  rcases (h.dirAt_le hm).lt_or_eq with hmk | rfl
  · exact hsep.none_after m hlt hmk (by rw [h.agree first hfirst q hq m hmk, hqm])
  · rcases hother with hnone | ⟨p, hp, hlen, hne⟩
    · exact hnone q hq hqm
    · exact (hm.ends p hp).elim hlen hne

end Parting

end Soup.Paths
