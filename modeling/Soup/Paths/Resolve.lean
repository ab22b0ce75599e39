import Soup.Paths.Normalize

/-!
# Resolved paths

The loop of `normalize_string_generic_t` for every path, with `allow_above_root` or without. The
components that stay are `..`, as often as the path leads above its start, then names. `dotdot` is
the length of the first ones, so the names alone can be taken back (`normalizeLoop_resolved`).
-/

namespace Soup.Paths

open List

/-- What an element does to the components before it. -/
def resolve (allowAboveRoot : Bool) (kept : List Bytes) (name : Bytes) : List Bytes :=
  if name = [dot] then kept
  else if name = [dot, dot] then
    if kept.getLast?.all (· = [dot, dot]) then (if allowAboveRoot then kept ++ [name] else kept)
    else kept.dropLast
  else kept ++ [name]

/-- The components of a normalized path. -/
def resolved (allowAboveRoot : Bool) (path : Bytes) : List Bytes :=
  (components path).foldl (resolve allowAboveRoot) []

/-- A normalized path. -/
def normalized (allowAboveRoot preserveTrailingSlash : Bool) (path : Bytes) : Bytes :=
  let joined := [sepPosix].intercalate (resolved allowAboveRoot path)
  if preserveTrailingSlash = true ∧ path.getLast? = some sepPosix ∧
    joined ≠ [] then joined ++ [sepPosix]
  else joined

/-- `..`, `k` times, then names. -/
def above (k : ℕ) (names : List Bytes) : List Bytes := replicate k [dot, dot] ++ names

/-- The components that stay. -/
structure Stays (allowAboveRoot : Bool) (k : ℕ) (names : List Bytes) : Prop where
  isName : ∀ name ∈ names, IsName name
  atRoot : allowAboveRoot = false → k = 0

section Resolve

variable {allowAboveRoot : Bool} {k : ℕ} {names : List Bytes} {name path : Bytes}

theorem isElement_dots : IsElement [dot, dot] := ⟨cons_ne_nil _ _, by decide⟩

theorem Stays.isElement (h : Stays allowAboveRoot k names) :
    ∀ name ∈ above k names, IsElement name := by
  intro name hname
  rcases mem_append.1 hname with hname | hname
  · rw [eq_of_mem_replicate hname]
    exact isElement_dots
  · exact (h.isName name hname).isElement

theorem Stays.concat (h : Stays allowAboveRoot k names) (hname : IsName name) :
    Stays allowAboveRoot k (names ++ [name]) := by
  refine ⟨fun n hn => ?_, h.atRoot⟩
  rcases mem_append.1 hn with hn | hn
  · exact h.isName n hn
  · exact mem_singleton.1 hn ▸ hname

theorem above_concat (k : ℕ) (names : List Bytes) (name : Bytes) :
    above k (names ++ [name]) = above k names ++ [name] := (append_assoc _ _ _).symm

theorem above_succ (k : ℕ) : above (k + 1) [] = above k [] ++ [[dot, dot]] := by
  rw [above, above, append_nil, append_nil, replicate_succ']

theorem resolve_dot : resolve allowAboveRoot (above k names) [dot] = above k names := if_pos rfl

theorem resolve_name (hname : IsName name) :
    resolve allowAboveRoot (above k names) name = above k (names ++ [name]) := by
  rw [resolve, if_neg hname.ne_dot, if_neg hname.ne_dots, above_concat]

/-- `..` behind a name takes it back. -/
theorem resolve_dots_concat (hname : IsName name) :
    resolve allowAboveRoot (above k (names ++ [name])) [dot, dot] = above k names := by
  rw [resolve, if_neg (by decide), if_pos rfl, above_concat, getLast?_concat, dropLast_concat,
    if_neg]
  exact fun h => hname.ne_dots (of_decide_eq_true h)

theorem resolve_dots_nil : resolve allowAboveRoot (above k []) [dot, dot] =
    if allowAboveRoot = true then above (k + 1) [] else above k [] := by
  rw [resolve, if_neg (by decide), if_pos rfl, above_succ, if_pos]
  rcases k with _ | k
  · rfl
  · rw [above_succ, getLast?_concat]
    rfl

/-- What is written before the names. -/
def barrier (k : ℕ) : ℕ := (slashed (above k [])).tail.length

theorem tail_slashed_above (hk : k ≠ 0) (names : List Bytes) :
    (slashed (above k names)).tail = (slashed (above k [])).tail ++ slashed names := by
  have hne : slashed (replicate k [dot, dot]) ≠ [] := slashed_ne_nil (by simpa using hk)
  rw [above, above, append_nil, slashed, flatMap_append, ← slashed, ← slashed,
    tail_append_of_ne_nil hne]

theorem tail_slashed_ne_nil (h : Stays allowAboveRoot k (names ++ [name])) :
    (slashed (above k (names ++ [name]))).tail ≠ [] := by
  rw [above_concat]
  refine (getLast?_tail_slashed _ (h.isElement name ?_)).2
  rw [above_concat]
  exact mem_append_right _ mem_cons_self

theorem barrier_lt (h : Stays allowAboveRoot k (names ++ [name])) :
    barrier k < (slashed (above k (names ++ [name]))).tail.length := by
  rcases eq_or_ne k 0 with rfl | hk
  · exact length_pos_of_ne_nil (tail_slashed_ne_nil h)
  · rw [barrier, tail_slashed_above hk (names ++ [name]), length_append, slashed_concat,
      length_append, length_cons]
    omega

/-- A name with the separator before it is taken back. -/
theorem dropLast_rdropWhile_sep (front : Bytes) (hname : IsElement name) :
    ((front ++ sepPosix :: name).rdropWhile fun c => !isSepPosix c).dropLast = front := by
  have hall : ∀ c ∈ name.reverse, (!isSepPosix c) = true := fun c hc => by
    rw [isSepPosix_eq_false fun heq => hname.no_sep (heq ▸ mem_reverse.1 hc)]
    rfl
  rw [append_cons, rdropWhile, reverse_append, dropWhile_append_of_pos hall, reverse_append,
    reverse_singleton, singleton_append, dropWhile_cons_of_neg (by decide),
    reverse_cons, reverse_reverse, dropLast_concat]

theorem rdropWhile_element (hname : IsElement name) :
    name.rdropWhile (fun c => !isSepPosix c) = [] := by
  refine rdropWhile_eq_nil_iff.2 fun c hc => ?_
  rw [isSepPosix_eq_false fun heq => hname.no_sep (heq ▸ hc)]
  rfl

theorem removeLastElement_above (h : Stays allowAboveRoot k (names ++ [name])) :
    removeLastElement (slashed (above k (names ++ [name]))).tail (barrier k) =
      (slashed (above k names)).tail := by
  have hname := (h.isName name (mem_append_right _ mem_cons_self)).isElement
  rw [removeLastElement]
  rcases eq_or_ne k 0 with rfl | hk
  · rw [show barrier 0 = 0 from rfl, take_zero, nil_append, drop_zero, above, replicate_zero,
      nil_append, tail_slashed_concat]
    split
    next hnil =>
      rw [hnil, rdropWhile_element hname]
      rfl
    next => exact dropLast_rdropWhile_sep _ hname
  · rw [tail_slashed_above hk (names ++ [name]), tail_slashed_above hk names, barrier, take_left,
      drop_left, slashed_concat, dropLast_rdropWhile_sep _ hname]

/-- `..` takes the last name back, or goes above the start. -/
theorem parentElement_above (h : Stays allowAboveRoot k names) :
    ∃ k' names', Stays allowAboveRoot k' names' ∧
    resolve allowAboveRoot (above k names) [dot, dot] = above k' names' ∧
    parentElement allowAboveRoot (slashed (above k names)).tail (barrier k) =
      ((slashed (above k' names')).tail, barrier k') := by
  rw [parentElement]
  rcases eq_nil_or_concat' names with rfl | ⟨front, last, rfl⟩
  · rw [resolve_dots_nil, barrier, if_neg (lt_irrefl _)]
    rcases hallow : allowAboveRoot with _ | _
    · exact ⟨k, [], hallow ▸ h, rfl, rfl⟩
    · refine ⟨k + 1, [],
        ⟨fun name hname => absurd hname not_mem_nil, fun hfalse => by cases hfalse⟩, rfl, ?_⟩
      have hwritten : (if (slashed (above k [])).tail ≠ []
        then (slashed (above k [])).tail ++ [sepPosix, dot, dot]
          else [dot, dot]) = (slashed (above (k + 1) [])).tail := by
        rw [above_succ, tail_slashed_concat]
        rcases k with _ | k
        · rfl
        · have hne : above (k + 1) [] ≠ [] := by rw [above_succ]; exact concat_ne_nil _ _
          rw [if_neg hne, above_succ, if_pos (getLast?_tail_slashed _ isElement_dots).2]
      rw [if_pos rfl, hwritten]
      rfl
  · refine ⟨k, front, ⟨fun name hname => h.isName name (mem_append_left _ hname), h.atRoot⟩, ?_, ?_⟩
    · exact resolve_dots_concat (h.isName last (mem_append_right _ mem_cons_self))
    · rw [if_pos (barrier_lt h), removeLastElement_above h]

/-- An element goes to the components before it. -/
theorem normalizeLoop_resolve {rest : Bytes} (h : Stays allowAboveRoot k names)
    (hname : IsElement name)
    (hrest : endsElement rest = true) : ∃ k' names', Stays allowAboveRoot k' names' ∧
      resolve allowAboveRoot (above k names) name = above k' names' ∧
      normalizeLoop allowAboveRoot (name ++ rest) false (slashed (above k names)).tail (barrier k) =
        normalizeLoop allowAboveRoot rest false (slashed (above k' names')).tail (barrier k') := by
  by_cases hdot : name = [dot]
  · exact ⟨k, names, h, hdot ▸ resolve_dot, hdot ▸ normalizeLoop_dot hrest⟩
  by_cases hdots : name = [dot, dot]
  · obtain ⟨k', names', hstays, hresolve, hparent⟩ := parentElement_above h
    refine ⟨k', names', hstays, hdots ▸ hresolve, ?_⟩
    rw [hdots, normalizeLoop_dots hrest, hparent]
  · have hname : IsName name := ⟨hname.ne_nil, hname.no_sep, hdot, hdots⟩
    refine ⟨k, names ++ [name], h.concat hname, resolve_name hname, ?_⟩
    rw [normalizeLoop_name hname hrest, addSlash_append h.isElement, above_concat]

/-- What the loop writes are the components that stay. -/
theorem normalizeLoop_above (n : ℕ) (path : Bytes) (hlen : path.length = n)
    (h : Stays allowAboveRoot k names) : ∃ k' names', Stays allowAboveRoot k' names' ∧
      (components path).foldl (resolve allowAboveRoot) (above k names) = above k' names' ∧
      normalizeLoop allowAboveRoot path false (slashed (above k names)).tail (barrier k) =
        (slashed (above k' names')).tail := by
  induction n using Nat.strong_induction_on generalizing path k names with
  | _ n ih =>
    rcases path_cases path with rfl | ⟨rest, rfl⟩ | ⟨name, rest, rfl, hne, hsep, hrest⟩
    · exact ⟨k, names, h, rfl, rfl⟩
    · rw [normalizeLoop_sep, components_sep]
      exact ih rest.length (hlen ▸ Nat.lt_succ_self _) rest rfl h
    · obtain ⟨k', names', hstays, hresolve, hloop⟩ := normalizeLoop_resolve h ⟨hne, hsep⟩ hrest
      rw [hloop, components_name hne hsep (endsElement_iff.1 hrest), foldl_cons, hresolve]
      refine ih rest.length ?_ rest rfl hstays
      have := length_pos_of_ne_nil hne
      rw [← hlen, length_append]
      omega

theorem intercalate_sep : ∀ names : List Bytes, [sepPosix].intercalate names = (slashed names).tail
  | [] => rfl
  | [name] => by simp [slashed]
  | name :: next :: names => by
    have ih := intercalate_sep (next :: names)
    rw [intercalate_cons_cons, ih]
    exact append_assoc _ _ _

theorem resolved_above (allowAboveRoot : Bool) (path : Bytes) :
    ∃ k names, Stays allowAboveRoot k names ∧ resolved allowAboveRoot path = above k names := by
  obtain ⟨k, names, h, hresolved, -⟩ := normalizeLoop_above path.length path rfl
    (⟨fun name hname => absurd hname not_mem_nil, fun _ => rfl⟩ : Stays allowAboveRoot 0 [])
  exact ⟨k, names, h, hresolved⟩

theorem normalizeLoop_resolved (allowAboveRoot : Bool) (path : Bytes) :
    normalizeLoop allowAboveRoot path false [] 0 =
      [sepPosix].intercalate (resolved allowAboveRoot path) := by
  obtain ⟨k, names, -, hresolved, hloop⟩ := normalizeLoop_above path.length path rfl
    (⟨fun name hname => absurd hname not_mem_nil, fun _ => rfl⟩ : Stays allowAboveRoot 0 [])
  rw [intercalate_sep, resolved, show ([] : List Bytes) = above 0 [] from rfl, hresolved, ← hloop]
  rfl

section

variable (hne : [sepPosix].intercalate (resolved allowAboveRoot path) ≠ [])
include hne

/-- What is joined does not end with a separator. -/
theorem getLast?_joined :
    ([sepPosix].intercalate (resolved allowAboveRoot path)).getLast?.any isSepPosix = false := by
  obtain ⟨k, names, h, hresolved⟩ := resolved_above allowAboveRoot path
  rw [intercalate_sep, hresolved] at hne ⊢
  rcases eq_nil_or_concat' (above k names) with hnil | ⟨front, last, hconcat⟩
  · rw [hnil] at hne
    exact absurd rfl hne
  · have hlast := h.isElement last (hconcat ▸ mem_append_right _ mem_cons_self)
    rw [hconcat]
    exact (getLast?_tail_slashed front hlast).1

theorem getLast?_joined_ne :
    ([sepPosix].intercalate (resolved allowAboveRoot path)).getLast? ≠ some sepPosix := by
  intro hlast
  have hany := getLast?_joined hne
  rw [hlast] at hany
  exact Bool.false_ne_true hany.symm

/-! ## Normalized twice -/

end

theorem foldl_resolve_dots : ∀ k : ℕ, (replicate k [dot, dot]).foldl (resolve true) [] = above k []
  | 0 => rfl
  | k + 1 => by
    rw [replicate_succ', foldl_append, foldl_resolve_dots k, foldl_cons, foldl_nil,
      resolve_dots_nil, if_pos rfl]

theorem foldl_resolve_names (more : List Bytes) (h : ∀ name ∈ more, IsName name) :
    more.foldl (resolve allowAboveRoot) (above k names) = above k (names ++ more) := by
  induction more generalizing names with
  | nil => rw [append_nil, foldl_nil]
  | cons name more ih =>
    rw [foldl_cons, resolve_name (h name mem_cons_self), ih fun n hn => h n (mem_cons_of_mem _ hn),
      append_assoc, singleton_append]

/-- The components that stay are resolved. -/
theorem Stays.foldl_resolve (h : Stays allowAboveRoot k names) :
    (above k names).foldl (resolve allowAboveRoot) [] = above k names := by
  have hdots : (replicate k [dot, dot]).foldl (resolve allowAboveRoot) [] = above k [] := by
    cases hallow : allowAboveRoot with
    | false =>
      rw [h.atRoot hallow]
      rfl
    | true => exact foldl_resolve_dots k
  rw [above, foldl_append, hdots, foldl_resolve_names names h.isName]
  rfl

theorem components_joined (h : Stays allowAboveRoot k names)
    (hne : (slashed (above k names)).tail ≠ [])
    (trailing : Bool) :
    components ((slashed (above k names)).tail ++ trail trailing) = above k names := by
  have hcomponents := components_slashed_of_isElement h.isElement trailing
  rcases hkept : above k names with _ | ⟨first, kept⟩
  · rw [hkept] at hne
    exact absurd rfl hne
  · rw [hkept, slashed, flatMap_cons, cons_append, cons_append, components_sep] at hcomponents
    rw [slashed, flatMap_cons, cons_append, tail_cons]
    exact hcomponents

variable (allowAboveRoot preserveTrailingSlash : Bool)

theorem normalized_eq (path : Bytes) :
    normalized allowAboveRoot preserveTrailingSlash path =
      [sepPosix].intercalate (resolved allowAboveRoot path) ++
      trail (decide (preserveTrailingSlash = true ∧ path.getLast? = some sepPosix ∧
        [sepPosix].intercalate (resolved allowAboveRoot path) ≠ [])) := by
  rw [normalized]
  split
  next h => rw [decide_eq_true h, trail, if_pos rfl]
  next h => rw [decide_eq_false h, trail, if_neg Bool.false_ne_true, append_nil]

theorem resolved_normalized (path : Bytes) :
    resolved allowAboveRoot (normalized allowAboveRoot preserveTrailingSlash path) =
      resolved allowAboveRoot path := by
  obtain ⟨k, names, h, hresolved⟩ := resolved_above allowAboveRoot path
  rw [normalized_eq, resolved, intercalate_sep, hresolved]
  by_cases hne : (slashed (above k names)).tail = []
  · have hnil : above k names = [] := by
      rcases eq_nil_or_concat' (above k names) with hnil | ⟨front, last, hconcat⟩
      · exact hnil
      · have hlast := h.isElement last (hconcat ▸ mem_append_right _ mem_cons_self)
        exact absurd (hconcat ▸ hne) (getLast?_tail_slashed front hlast).2
    rw [hne, decide_eq_false fun hcond => hcond.2.2 rfl, hnil]
    rfl
  · rw [components_joined h hne, h.foldl_resolve]

/-- A normalized path is normalized. -/
theorem normalized_normalized (path : Bytes) :
    normalized allowAboveRoot preserveTrailingSlash
      (normalized allowAboveRoot preserveTrailingSlash path) =
      normalized allowAboveRoot preserveTrailingSlash path := by
  rw [normalized, resolved_normalized]
  split
  next h =>
    obtain ⟨hpreserve, hlast, hne⟩ := h
    rw [normalized]
    rw [if_pos]
    refine ⟨hpreserve, ?_, hne⟩
    by_contra hpath
    rw [normalized] at hlast
    rw [if_neg fun hcond => hpath hcond.2.1] at hlast
    exact getLast?_joined_ne hne hlast
  next h =>
    rw [normalized]
    rw [if_neg]
    rintro ⟨hpreserve, hpath, hne⟩
    refine h ⟨hpreserve, ?_, hne⟩
    rw [normalized]
    rw [if_pos ⟨hpreserve, hpath, hne⟩, getLast?_concat]

end Resolve

end Soup.Paths
