import Mathlib.Algebra.Order.Ring.Int
import Mathlib.Data.List.Basic
import Mathlib.Data.List.Induction
import Mathlib.Order.Nat
import Soup.Paths.CommonPath

/-!
# Relative paths

`relative_normalized_buf` of `resolve_path.rs` for `Platform::Posix`, whose only separator is `/`,
and what it calls. A buffer is a list of bytes, and a write or a read that is not in range gives
`none`.
-/

namespace Soup.Paths

open List Option

/-! ## The buffer -/

def isAbsolutePosix (p : Bytes) : Bool := p.head?.any isSepPosix

/-- `buf[at..at + bytes.len()].copy_from_slice(bytes)`. -/
def copyAt (buf : Bytes) (i : ℕ) (bytes : Bytes) : Option Bytes :=
  if i + bytes.length ≤ buf.length then
    some (buf.take i ++ bytes ++ buf.drop (i + bytes.length))
  else none

/-- `strings::last_index_of_char`. -/
def lastIndexOfChar (s : Bytes) (c : UInt8) : Option ℕ :=
  (s.reverse.findIdx? (· == c)).map fun i => s.length - 1 - i

/-- The buffer with `out_len`. -/
abbrev Output := Bytes × ℕ

/-- One `..`. -/
def pushParent (out : Output) : Option Output := do
  let (buf, outLen) := out
  if outLen = 0 then
    let buf ← copyAt buf 0 [dot, dot]
    some (buf, 2)
  else
    let buf ← copyAt buf outLen [sepPosix]
    let buf ← copyAt buf (outLen + 1) [dot, dot]
    some (buf, outLen + 3)

/-- The body of the loop over `from`. -/
def parentStep (source : Bytes) (out : Output) (i : ℕ) : Option Output :=
  if i = source.length ∨ (source[i]? = some sepPosix ∧ i + 1 < source.length) then pushParent out
  else some out

/-- What is appended of `to`. -/
def appendTail (source target : Bytes) (lastCommonSeparator : ℕ) (out : Output) :
    Option Output := do
  let (buf, outLen) := out
  let tail := target.drop lastCommonSeparator
  let tail ← if source ≠ [] ∧
      (lastCommonSeparator = source.length ∨ lastCommonSeparator = source.length - 1) then do
      let c ← tail[0]?
      some (if isSepPosix c then tail.drop 1 else tail)
    else some tail
  let c ← tail[0]?
  let insertLeadingSlash := !isSepPosix c && decide (outLen > 0) &&
    !(buf[outLen - 1]?).any isSepPosix
  let (buf, outLen) ← if insertLeadingSlash then do
      let buf ← copyAt buf outLen [sepPosix]
      some (buf, outLen + 1)
    else some (buf, outLen)
  let buf ← copyAt buf outLen tail
  some (buf, outLen + tail.length)

/-- The result, which is a part of the buffer or, without `alwaysCopy`, may be a part of `target`.
-/
def relativeToCommonPath (alwaysCopy : Bool) (commonPath_ source target buf : Bytes) :
    Option Bytes := do
  let commonPath := if isAbsolutePosix commonPath_ then commonPath_.drop 1 else commonPath_
  let shortest := min source.length target.length
  -- `buf[..part.len()].copy_from_slice(part)`, or no copy
  let copied (part : Bytes) : Option Bytes :=
    if alwaysCopy then (copyAt buf 0 part).map (·.take part.length) else some part
  if shortest = commonPath.length ∧ target.length ≥ source.length ∧ commonPath = [] then
    copied target
  else
    let endsFolder ← if shortest = commonPath.length ∧ target.length ≥ source.length then
        (target[commonPath.length - 1]?).map isSepPosix
      else some false
    if endsFolder then copied (target.drop commonPath.length)
    else
      let lastCommonSeparator := (lastIndexOfChar commonPath_ sepPosix).getD 0
      let out ← if source ≠ [] then
          let start := (source[0]?.any isSepPosix).toNat + 1 + lastCommonSeparator
          (range' start (source.length + 1 - start)).foldlM (parentStep source) (buf, 0)
        else some (buf, 0)
      let (buf, outLen) ← if target.length > lastCommonSeparator + 1 then
          appendTail source target lastCommonSeparator out
        else some out
      let outLen := if outLen > 3 ∧ buf[outLen - 1]? = some sepPosix then outLen - 1 else outLen
      some (buf.take outLen)

def relativeNormalizedBuf (alwaysCopy : Bool) (buf source target : Bytes) : Option Bytes :=
  if source = target then some []
  else
    let commonPath := longestCommonPathGeneric isSepPosix [source, target]
    relativeToCommonPath alwaysCopy commonPath source target buf

/-! ## The size of the buffer -/

def countSeparators (path : Bytes) : ℕ := path.count sepPosix + path.count 92

def relativeResultCapacity (fromSeparators toLen : ℕ) : ℕ := (fromSeparators + 1) * 3 + toLen

/-!
## Components

A path is a list of names behind separators. `components` takes it apart, and `follow` goes along a
relative path, where `..` leaves a directory and every other name enters one.
-/

/-- The names of a path, with `name` before it. -/
def componentsFrom (name : Bytes) : Bytes → List Bytes
  | [] => if name = [] then [] else [name]
  | c :: rest =>
    if c = sepPosix then
      if name = [] then componentsFrom [] rest else name :: componentsFrom [] rest
    else componentsFrom (name ++ [c]) rest

def components (path : Bytes) : List Bytes := componentsFrom [] path

/-- A component of a normalized path. -/
structure IsName (name : Bytes) : Prop where
  ne_nil : name ≠ []
  no_sep : sepPosix ∉ name
  ne_dot : name ≠ [dot]
  ne_dots : name ≠ [dot, dot]

/-- A component of a path. -/
structure IsElement (name : Bytes) : Prop where
  ne_nil : name ≠ []
  no_sep : sepPosix ∉ name

theorem IsName.isElement {name : Bytes} (h : IsName name) : IsElement name := ⟨h.ne_nil, h.no_sep⟩

/-- Names, each behind a separator. -/
def slashed (names : List Bytes) : Bytes := names.flatMap (sepPosix :: ·)

theorem slashed_ne_nil {names : List Bytes} (h : names ≠ []) : slashed names ≠ [] := by
  obtain ⟨name, names, rfl⟩ := exists_cons_of_ne_nil h
  exact cons_ne_nil _ _

def trail (trailing : Bool) : Bytes := if trailing then [sepPosix] else []

/-- A normalized absolute path. -/
def absolute (names : List Bytes) (trailing : Bool) : Bytes :=
  if names = [] then [sepPosix] else slashed names ++ trail trailing

/-- Where a relative path leads. -/
def follow (names : List Bytes) (relative : Bytes) : Option (List Bytes) :=
  (components relative).foldlM (fun names name =>
    if name = [dot, dot] then (if names = [] then none else some names.dropLast)
    else some (names ++ [name])) names

/-! ### Components of names -/

section Components

variable {name rest : Bytes} {names : List Bytes}

theorem componentsFrom_append : ∀ (name before rest : Bytes), sepPosix ∉ name →
    componentsFrom before (name ++ rest) = componentsFrom (before ++ name) rest
  | [], before, rest, _ => by rw [nil_append, append_nil]
  | c :: name, before, rest, h => by
    have hc : c ≠ sepPosix := fun hc => h (hc ▸ mem_cons_self)
    rw [cons_append, componentsFrom, if_neg hc, componentsFrom_append name _ _
      fun hmem => h (mem_cons_of_mem _ hmem), append_assoc, singleton_append]

@[simp] theorem components_nil : components [] = [] := rfl

@[simp] theorem components_sep : components (sepPosix :: rest) = components rest := by
  rw [components, componentsFrom, if_pos rfl, if_pos rfl]
  rfl

/-- A name before a separator, or at the end. -/
theorem components_name (hne : name ≠ []) (hsep : sepPosix ∉ name)
    (hrest : ∀ c ∈ rest.head?, c = sepPosix) :
    components (name ++ rest) = name :: components rest := by
  rw [components, componentsFrom_append _ _ _ hsep, nil_append]
  cases rest with
  | nil => rw [componentsFrom, if_neg hne, components_nil]
  | cons c rest =>
    rw [hrest c rfl, componentsFrom, if_pos rfl, if_neg hne, components_sep]
    rfl

theorem components_trail (trailing : Bool) : components (trail trailing) = [] := by
  cases trailing <;> rfl

/-- What follows a name is a separator, or nothing. -/
theorem head?_slashed (names : List Bytes) (trailing : Bool) :
    ∀ c ∈ (slashed names ++ trail trailing).head?, c = sepPosix := by
  intro c hc
  cases names with
  | nil =>
    cases trailing with
    | true => exact (some.inj hc).symm
    | false => cases hc
  | cons name names => exact (some.inj hc).symm

theorem components_slashed_of_isElement (h : ∀ name ∈ names, IsElement name) (trailing : Bool) :
    components (slashed names ++ trail trailing) = names := by
  induction names with
  | nil => exact components_trail trailing
  | cons name names ih =>
    have hname := h name mem_cons_self
    have hrest := ih fun n hn => h n (mem_cons_of_mem _ hn)
    rw [slashed, flatMap_cons, cons_append, cons_append, components_sep,
      append_assoc, ← slashed, components_name hname.ne_nil hname.no_sep (head?_slashed _ _),
      hrest]

theorem components_slashed (h : ∀ name ∈ names, IsName name) (trailing : Bool) :
    components (slashed names ++ trail trailing) = names :=
  components_slashed_of_isElement (fun name hname => (h name hname).isElement) trailing

theorem components_absolute (h : ∀ name ∈ names, IsName name) (trailing : Bool) :
    components (absolute names trailing) = names := by
  rw [absolute]
  split
  next hnil =>
    rw [hnil]
    rfl
  · exact components_slashed h trailing

theorem componentsFrom_sep (name rest : Bytes) : componentsFrom name (sepPosix :: rest) =
    if name = [] then components rest else name :: components rest := by
  rw [componentsFrom, if_pos rfl]
  rfl

/-- The names of a path that goes on after a separator. -/
theorem componentsFrom_append_sep : ∀ (path name rest : Bytes),
    componentsFrom name (path ++ sepPosix :: rest) = componentsFrom name path ++ components rest
  | [], name, rest => by
    rw [nil_append, componentsFrom_sep]
    by_cases h : name = [] <;> simp [componentsFrom, h]
  | c :: path, name, rest => by
    rw [cons_append, componentsFrom, componentsFrom, componentsFrom_append_sep path [],
      componentsFrom_append_sep path (name ++ [c])]
    split
    · split <;> rfl
    · rfl

theorem components_append_sep (path rest : Bytes) :
    components (path ++ sepPosix :: rest) = components path ++ components rest :=
  componentsFrom_append_sep path [] rest

end Components

/-! ### Relative paths -/

/-- `..`, `k` times. -/
def parents : ℕ → Bytes
  | 0 => []
  | 1 => [dot, dot]
  | k + 2 => parents (k + 1) ++ [sepPosix, dot, dot]

theorem length_parents : ∀ k, (parents (k + 1)).length = 3 * k + 2
  | 0 => rfl
  | k + 1 => by
    rw [parents, length_append, length_parents k]
    rfl

theorem components_parents : ∀ k, components (parents k) = replicate k [dot, dot]
  | 0 => rfl
  | 1 => rfl
  | k + 2 => by
    rw [parents, components_append_sep, components_parents (k + 1),
      show replicate (k + 2) [dot, dot] = replicate (k + 1) [dot, dot] ++ [[dot, dot]] from
        replicate_succ']
    rfl

/-- As many times `..` as there are names to leave, then the names to enter. -/
theorem follow_eq {common source target : List Bytes} {relative : Bytes}
    (hnames : ∀ name ∈ target, IsName name)
    (h : components relative = replicate source.length [dot, dot] ++ target) :
    follow (common ++ source) relative = some (common ++ target) := by
  have hup : ∀ source : List Bytes, (replicate source.length [dot, dot]).foldlM
      (fun names name => if name = [dot, dot]
        then (if names = [] then none else some names.dropLast)
        else some (names ++ [name])) (common ++ source) = some common := by
    intro source
    induction source using reverseRecOn with
    | nil => rw [append_nil]; rfl
    | append_singleton source name ih =>
      rw [length_append, length_singleton, replicate_succ, foldlM_cons,
        if_pos rfl, if_neg (by simp), ← append_assoc, dropLast_concat]
      exact ih
  have hdown : ∀ (target names : List Bytes), (∀ name ∈ target, IsName name) →
      target.foldlM (fun names name =>
        if name = [dot, dot] then (if names = [] then none else some names.dropLast)
        else some (names ++ [name])) names = some (names ++ target) := by
    intro target
    induction target with
    | nil => intro names _; rw [append_nil]; rfl
    | cons name target ih =>
      intro names hn
      rw [foldlM_cons, if_neg (hn name mem_cons_self).ne_dots]
      show foldlM _ (names ++ [name]) target = _
      rw [ih _ fun n hmem => hn n (mem_cons_of_mem _ hmem), append_assoc,
        singleton_append]
  rw [follow, h, foldlM_append, hup source]
  exact hdown target common hnames

end Soup.Paths
