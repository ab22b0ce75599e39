import Mathlib.Data.List.DropRight
import Soup.Paths.Relative

/-!
# Normalized paths

`join_string_buf` of `resolve_path.rs` for `Platform::Posix`, with `normalize_string_node_t` and
`normalize_string_generic_t`. The bytes of the buffer before `buf_i` are a list, and the buffer is
large enough. A joined path that is absolute has the names of its parts
(`normalizeStringNode_absolute`).
-/

namespace Soup.Paths

open List

/-- `buf_i` goes back to the last separator, but not behind `dotdot`. -/
def removeLastElement (written : Bytes) (dotdot : ℕ) : Bytes :=
  written.take dotdot ++ ((written.drop dotdot).rdropWhile fun c => !isSepPosix c).dropLast

/-- A `..` element. -/
def parentElement (allowAboveRoot : Bool) (written : Bytes) (dotdot : ℕ) : Bytes × ℕ :=
  if dotdot < written.length then (removeLastElement written dotdot, dotdot)
  else if allowAboveRoot then
    let written := if written ≠ [] then written ++ [sepPosix, dot, dot] else [dot, dot]
    (written, written.length)
  else (written, dotdot)

/-- The separator that goes before a real path element. -/
def addSlash (written : Bytes) : Bytes :=
  if written ≠ [] ∧ ¬written.getLast?.any isSepPosix then written ++ [sepPosix] else written

/-- An element ends before a separator, or at the end of the path. -/
def endsElement (rest : Bytes) : Bool := rest.head?.all isSepPosix

/-- The loop of `normalize_string_generic_t`. Its inner loop, which copies a real path element, is
`inElement`. -/
def normalizeLoop (allowAboveRoot : Bool) : Bytes → Bool → Bytes → ℕ → Bytes
  | [], _, written, _ => written
  | c :: rest, inElement, written, dotdot =>
    if isSepPosix c then normalizeLoop allowAboveRoot rest false written dotdot
    else if inElement then normalizeLoop allowAboveRoot rest true (written ++ [c]) dotdot
    else if c = dot ∧ endsElement rest then normalizeLoop allowAboveRoot rest false written dotdot
    else
      match rest with
      | [] => addSlash written ++ [c]
      | d :: rest' =>
        if c = dot ∧ d = dot ∧ endsElement rest' then
          let (written, dotdot) := parentElement allowAboveRoot written dotdot
          normalizeLoop allowAboveRoot rest' false written dotdot
        else normalizeLoop allowAboveRoot (d :: rest') true (addSlash written ++ [c]) dotdot

def normalizeStringNode (str : Bytes) : Bytes :=
  if str = [] then [dot]
  else
    let isAbsolute := isAbsolutePosix str
    let trailingSeparator := str.getLast?.any isSepPosix
    let out := normalizeLoop (!isAbsolute) str false [] 0
    if out = [] then
      if isAbsolute then [sepPosix] else if trailingSeparator then [dot, sepPosix] else [dot]
    else
      let out := if trailingSeparator && !out.getLast?.any isSepPosix then out ++ [sepPosix]
        else out
      if isAbsolute then sepPosix :: out else out

def joinStringBuf (parts : List Bytes) : Bytes :=
  let joined := [sepPosix].intercalate (parts.filter fun part => part ≠ [])
  if joined = [] then [dot] else normalizeStringNode joined

/-! ## Elements -/

section Elements

variable {allowAboveRoot inElement : Bool} {written name rest : Bytes} {dotdot : ℕ}

theorem isSepPosix_eq_false {c : UInt8} (h : c ≠ sepPosix) : isSepPosix c = false :=
  beq_false_of_ne h

theorem normalizeLoop_cons (c : UInt8) (rest : Bytes) :
    normalizeLoop allowAboveRoot (c :: rest) inElement written dotdot =
      if isSepPosix c then normalizeLoop allowAboveRoot rest false written dotdot
      else if inElement then normalizeLoop allowAboveRoot rest true (written ++ [c]) dotdot
      else if c = dot ∧ endsElement rest then normalizeLoop allowAboveRoot rest false written dotdot
      else
        match rest with
        | [] => addSlash written ++ [c]
        | d :: rest' =>
          if c = dot ∧ d = dot ∧ endsElement rest' then
            normalizeLoop allowAboveRoot rest' false (parentElement allowAboveRoot written dotdot).1
              (parentElement allowAboveRoot written dotdot).2
          else normalizeLoop allowAboveRoot (d :: rest') true (addSlash written ++ [c]) dotdot := by
  cases rest <;> rfl

theorem normalizeLoop_sep :
    normalizeLoop allowAboveRoot (sepPosix :: rest) inElement written dotdot =
    normalizeLoop allowAboveRoot rest false written dotdot := by
  rw [normalizeLoop_cons, if_pos (by decide)]

/-- The bytes of an element are copied. -/
theorem normalizeLoop_element : ∀ (name : Bytes) {written : Bytes}, sepPosix ∉ name →
    normalizeLoop allowAboveRoot (name ++ rest) true written dotdot =
      normalizeLoop allowAboveRoot rest true (written ++ name) dotdot
  | [], written, _ => by rw [nil_append, append_nil]
  | c :: name, written, hsep => by
    have hc : isSepPosix c = false :=
      isSepPosix_eq_false fun hc => hsep (hc ▸ mem_cons_self)
    rw [cons_append, normalizeLoop_cons, hc, if_neg Bool.false_ne_true, if_pos rfl,
      normalizeLoop_element name fun hmem => hsep (mem_cons_of_mem _ hmem), append_assoc,
      singleton_append]

theorem normalizeLoop_endsElement (h : endsElement rest = true) :
    normalizeLoop allowAboveRoot rest true written dotdot =
      normalizeLoop allowAboveRoot rest false written dotdot := by
  cases rest with
  | nil => rfl
  | cons c rest =>
    have hc : c = sepPosix := eq_of_beq h
    rw [hc, normalizeLoop_sep, normalizeLoop_sep]

theorem endsElement_append (hne : name ≠ []) (hsep : sepPosix ∉ name) :
    endsElement (name ++ rest) = false := by
  obtain ⟨c, name, rfl⟩ := exists_cons_of_ne_nil hne
  exact isSepPosix_eq_false fun hc => hsep (hc ▸ mem_cons_self)

theorem normalizeLoop_dot (h : endsElement rest = true) :
    normalizeLoop allowAboveRoot ([dot] ++ rest) false written dotdot =
      normalizeLoop allowAboveRoot rest false written dotdot := by
  rw [singleton_append, normalizeLoop_cons, if_neg (by decide), if_neg Bool.false_ne_true,
    if_pos ⟨rfl, h⟩]

theorem normalizeLoop_dots (h : endsElement rest = true) :
    normalizeLoop allowAboveRoot ([dot, dot] ++ rest) false written dotdot =
      normalizeLoop allowAboveRoot rest false (parentElement allowAboveRoot written dotdot).1
        (parentElement allowAboveRoot written dotdot).2 := by
  rw [cons_append, singleton_append, normalizeLoop_cons, if_neg (by decide),
    if_neg Bool.false_ne_true, if_neg fun hends => Bool.false_ne_true hends.2]
  dsimp only
  rw [if_pos ⟨rfl, rfl, h⟩]

/-- A real path element. -/
theorem normalizeLoop_name (hname : IsName name) (h : endsElement rest = true) :
    normalizeLoop allowAboveRoot (name ++ rest) false written dotdot =
      normalizeLoop allowAboveRoot rest false (addSlash written ++ name) dotdot := by
  obtain ⟨c, tail, rfl⟩ := exists_cons_of_ne_nil hname.ne_nil
  have hc : isSepPosix c = false :=
    isSepPosix_eq_false fun hc => hname.no_sep (hc ▸ mem_cons_self)
  have htail : sepPosix ∉ tail := fun hmem => hname.no_sep (mem_cons_of_mem _ hmem)
  have hdot : ¬(c = dot ∧ endsElement (tail ++ rest) = true) := by
    rintro ⟨rfl, hends⟩
    rcases eq_or_ne tail [] with rfl | hne
    · exact hname.ne_dot rfl
    · rw [endsElement_append hne htail] at hends
      exact Bool.false_ne_true hends
  have hstart : normalizeLoop allowAboveRoot (c :: tail ++ rest) false written dotdot =
      normalizeLoop allowAboveRoot (tail ++ rest) true (addSlash written ++ [c]) dotdot := by
    rw [cons_append, normalizeLoop_cons, hc, if_neg Bool.false_ne_true,
      if_neg Bool.false_ne_true, if_neg hdot]
    cases hrest : tail ++ rest with
    | nil => rfl
    | cons d rest' =>
      dsimp only
      rw [if_neg]
      rintro ⟨rfl, hd, hends⟩
      rw [hd] at hrest
      cases tail with
      | nil =>
        rw [nil_append] at hrest
        rw [hrest] at h
        exact Bool.false_ne_true h
      | cons e tail =>
        have hrest' : tail ++ rest = rest' := (cons.inj hrest).2
        have he : e = dot := (cons.inj hrest).1
        rw [he] at hname htail
        rw [← hrest'] at hends
        rcases eq_or_ne tail [] with rfl | hne
        · exact hname.ne_dots rfl
        · rw [endsElement_append hne fun hmem => htail (mem_cons_of_mem _ hmem)] at hends
          exact Bool.false_ne_true hends
  rw [hstart, normalizeLoop_element tail htail, append_assoc, singleton_append,
    normalizeLoop_endsElement h]

end Elements

/-! ## The names of an absolute path -/

/-- What an element does to the names before it. -/
def enter (names : List Bytes) (name : Bytes) : List Bytes :=
  if name = [dot] then names else if name = [dot, dot] then names.dropLast else names ++ [name]

section Absolute

variable {names : List Bytes} {name : Bytes}

theorem slashed_concat (names : List Bytes) (name : Bytes) :
    slashed (names ++ [name]) = slashed names ++ sepPosix :: name := by
  rw [slashed, flatMap_append, ← slashed, flatMap_singleton]

theorem tail_slashed_concat (names : List Bytes) (name : Bytes) :
    (slashed (names ++ [name])).tail =
      if names = [] then name else (slashed names).tail ++ sepPosix :: name := by
  rw [slashed_concat]
  split
  next h =>
    rw [h]
    rfl
  next h =>
    rw [tail_append_of_ne_nil (slashed_ne_nil h)]

/-- What is written ends with the last name. -/
theorem getLast?_tail_slashed (names : List Bytes) (hname : IsElement name) :
    ((slashed (names ++ [name])).tail).getLast?.any isSepPosix = false ∧
      (slashed (names ++ [name])).tail ≠ [] := by
  obtain ⟨front, c, rfl⟩ := (eq_nil_or_concat' name).resolve_left hname.ne_nil
  have hc : isSepPosix c = false := isSepPosix_eq_false fun hc =>
    hname.no_sep (hc ▸ mem_append_right _ mem_cons_self)
  rw [tail_slashed_concat]
  split
  · rw [getLast?_concat]
    exact ⟨hc, append_ne_nil_of_right_ne_nil _ (cons_ne_nil _ _)⟩
  · rw [← cons_append, ← append_assoc, getLast?_concat]
    exact ⟨hc, append_ne_nil_of_right_ne_nil _ (cons_ne_nil _ _)⟩

theorem addSlash_append (h : ∀ n ∈ names, IsElement n) (name : Bytes) :
    addSlash (slashed names).tail ++ name = (slashed (names ++ [name])).tail := by
  rw [tail_slashed_concat, addSlash]
  rcases eq_nil_or_concat' names with rfl | ⟨front, last, rfl⟩
  · rw [if_neg (fun hne => hne.1 rfl), if_pos rfl]
    rfl
  · obtain ⟨hsep, hne⟩ := getLast?_tail_slashed front
      (h last (mem_append_right _ mem_cons_self))
    rw [if_pos ⟨hne, fun h => Bool.false_ne_true (hsep.symm.trans h)⟩, if_neg (by simp),
      append_assoc, singleton_append]

theorem parentElement_tail (h : ∀ n ∈ names, IsName n) :
    parentElement false (slashed names).tail 0 = ((slashed names.dropLast).tail, 0) := by
  rw [parentElement]
  rcases eq_nil_or_concat' names with rfl | ⟨front, last, rfl⟩
  · rfl
  · have hlast := h last (mem_append_right _ mem_cons_self)
    have hall : ∀ c ∈ last, (!isSepPosix c) = true := fun c hc => by
      rw [isSepPosix_eq_false fun heq => hlast.no_sep (heq ▸ hc)]
      rfl
    rw [if_pos (length_pos_of_ne_nil (getLast?_tail_slashed front hlast.isElement).2),
      removeLastElement, dropLast_concat, take_zero, nil_append, drop_zero, tail_slashed_concat]
    split
    next hnil =>
      rw [hnil, rdropWhile_eq_nil_iff.2 hall]
      rfl
    · rw [append_cons, rdropWhile, reverse_append,
        dropWhile_append_of_pos (fun c hc => hall c (mem_reverse.1 hc)), reverse_append,
        reverse_singleton, singleton_append, dropWhile_cons_of_neg (by decide),
        reverse_cons, reverse_reverse, dropLast_concat]

theorem enter_isName (h : ∀ n ∈ names, IsName n) (hne : name ≠ []) (hsep : sepPosix ∉ name) :
    ∀ n ∈ enter names name, IsName n := by
  intro n hn
  rw [enter] at hn
  split at hn
  · exact h n hn
  · split at hn
    · exact h n (dropLast_subset _ hn)
    next hdot hdots =>
      rcases mem_append.1 hn with hn | hn
      · exact h n hn
      · rw [mem_singleton.1 hn]
        exact ⟨hne, hsep, hdot, hdots⟩

/-- An element goes to the names. -/
theorem normalizeLoop_enter {rest : Bytes} (h : ∀ n ∈ names, IsName n) (hne : name ≠ [])
    (hsep : sepPosix ∉ name) (hrest : endsElement rest = true) :
    normalizeLoop false (name ++ rest) false (slashed names).tail 0 =
      normalizeLoop false rest false (slashed (enter names name)).tail 0 := by
  rw [enter]
  by_cases hdot : name = [dot]
  · rw [if_pos hdot, hdot, normalizeLoop_dot hrest]
  rw [if_neg hdot]
  by_cases hdots : name = [dot, dot]
  · rw [if_pos hdots, hdots, normalizeLoop_dots hrest, parentElement_tail h]
  · rw [if_neg hdots, normalizeLoop_name ⟨hne, hsep, hdot, hdots⟩ hrest,
      addSlash_append fun n hn => (h n hn).isElement]

/-- A path is a separator and a path, or a name and a path that ends it. -/
theorem path_cases (path : Bytes) : path = [] ∨ (∃ rest, path = sepPosix :: rest) ∨
    ∃ name rest, path = name ++ rest ∧ name ≠ [] ∧ sepPosix ∉ name ∧ endsElement rest = true := by
  rcases path with _ | ⟨c, path⟩
  · exact .inl rfl
  rcases eq_or_ne c sepPosix with rfl | hc
  · exact .inr (.inl ⟨path, rfl⟩)
  refine .inr (.inr ⟨(c :: path).takeWhile fun c => !isSepPosix c,
    (c :: path).dropWhile fun c => !isSepPosix c, takeWhile_append_dropWhile.symm, ?_, ?_, ?_⟩)
  · rw [takeWhile_cons_of_pos (by rw [isSepPosix_eq_false hc]; rfl)]
    exact cons_ne_nil _ _
  · exact fun hmem => Bool.false_ne_true (mem_takeWhile_imp hmem)
  · cases hrest : (c :: path).dropWhile fun c => !isSepPosix c with
    | nil => rfl
    | cons d rest =>
      have hd := head?_dropWhile_not (fun c => !isSepPosix c) (c :: path)
      rw [hrest] at hd
      exact (Bool.not_not _).symm.trans (congrArg not hd)

theorem endsElement_iff {rest : Bytes} :
    endsElement rest = true ↔ ∀ c ∈ rest.head?, c = sepPosix := by
  cases rest with
  | nil => exact iff_of_true rfl fun c hc => nomatch hc
  | cons c rest => exact ⟨fun h d hd => Option.some.inj hd ▸ eq_of_beq h,
    fun h => beq_iff_eq.2 (h c rfl)⟩

theorem normalizeLoop_components : ∀ (n : ℕ) (path : Bytes) (names : List Bytes),
    path.length = n → (∀ name ∈ names, IsName name) →
    normalizeLoop false path false (slashed names).tail 0 =
        (slashed ((components path).foldl enter names)).tail ∧
      ∀ name ∈ (components path).foldl enter names, IsName name := by
  intro n
  induction n using Nat.strong_induction_on with
  | _ n ih =>
    intro path names hlen hnames
    rcases path_cases path with rfl | ⟨rest, rfl⟩ | ⟨name, rest, rfl, hne, hsep, hrest⟩
    · exact ⟨rfl, hnames⟩
    · rw [normalizeLoop_sep, components_sep]
      exact ih rest.length (hlen ▸ Nat.lt_succ_self _) rest names rfl hnames
    · rw [normalizeLoop_enter hnames hne hsep hrest,
        components_name hne hsep (endsElement_iff.1 hrest), foldl_cons]
      refine ih rest.length ?_ rest _ rfl (enter_isName hnames hne hsep)
      have := length_pos_of_ne_nil hne
      rw [← hlen, length_append]
      omega

/-- A normalized absolute path. -/
theorem normalizeStringNode_absolute {path : Bytes} (habs : isAbsolutePosix path = true) :
    normalizeStringNode path =
        absolute ((components path).foldl enter []) (path.getLast?.any isSepPosix) ∧
      ∀ name ∈ (components path).foldl enter [], IsName name := by
  obtain ⟨hloop, hnames⟩ := normalizeLoop_components path.length path [] rfl
    fun _ hname => nomatch hname
  refine ⟨?_, hnames⟩
  have hne : path ≠ [] := by
    rintro rfl
    exact Bool.false_ne_true habs
  rw [show (slashed []).tail = [] from rfl] at hloop
  generalize (components path).foldl enter [] = names at hloop hnames
  rw [normalizeStringNode, if_neg hne, habs]
  have hloop' : normalizeLoop (!true) path false [] 0 = (slashed names).tail := hloop
  dsimp only
  rw [hloop', absolute]
  rcases eq_nil_or_concat' names with rfl | ⟨front, last, rfl⟩
  · rfl
  · obtain ⟨hlast, hne'⟩ := getLast?_tail_slashed front
      (hnames last (mem_append_right _ mem_cons_self)).isElement
    have hconcat : front ++ [last] ≠ [] := append_ne_nil_of_right_ne_nil _ (cons_ne_nil _ _)
    rw [if_neg hne', if_pos rfl, if_neg hconcat, hlast, Bool.not_false, Bool.and_true]
    have hcons : slashed (front ++ [last]) = sepPosix :: (slashed (front ++ [last])).tail := by
      cases front <;> rfl
    cases path.getLast?.any isSepPosix with
    | true => rw [if_pos rfl, ← cons_append, ← hcons]; rfl
    | false => rw [if_neg Bool.false_ne_true, ← hcons, trail, if_neg Bool.false_ne_true, append_nil]

end Absolute

end Soup.Paths
