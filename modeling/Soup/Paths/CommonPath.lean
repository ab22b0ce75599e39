import Soup.Bytes

/-!
# Common paths

`longest_common_path_generic` and `get_if_exists_longest_common_path_generic` of `resolve_path.rs`,
with the separators of the platform, which has no volumes. The two share their loops: the first
starts with a common separator at 0, so the early return of the second, where there is none, is not
for it (`isSome_commonIndex`).
-/

namespace Soup.Paths

open List

/-- `/`. -/
def sepPosix : UInt8 := 47

def dot : UInt8 := 46

def isSepPosix (c : UInt8) : Bool := c == sepPosix

def isSepAny (c : UInt8) : Bool := c = b '/' || c = b '\\'

/-- `min_length`, where there is a path. -/
def minLength (input : List Bytes) : ℕ := (input.map List.length).min?.getD 0

/-- `nql_at_index_dyn`. -/
def nqlAtIndex (first : Bytes) (others : List Bytes) (index : ℕ) : Bool :=
  others.any fun str => decide (first[index]? ≠ str[index]?)

/-- `index` and `last_common_separator`. -/
abbrev Common := ℕ × Option ℕ

/-- The inner loop for more paths: `index` goes on while the bytes are the same. -/
def sameUpTo (first str : Bytes) : ℕ → ℕ → ℕ
  | 0, index => index
  | n + 1, index => if first[index]? ≠ str[index]? then index else sameUpTo first str n (index + 1)

section

variable (isPathSeparator : UInt8 → Bool)

/-- `is_path_separator(str[index])`. -/
def isSepAt (str : Bytes) (index : ℕ) : Bool := str[index]?.any isPathSeparator

/-- The common separator after the byte at `index`. -/
def separatorAt (first : Bytes) (index : ℕ) (last : Option ℕ) : Option ℕ :=
  if isSepAt isPathSeparator first index then some index else last

/-- The loop for two to eight paths; the number is what is left to `min_length`. -/
def columnLoop (first : Bytes) (others : List Bytes) : ℕ → Common → Option Common
  | 0, common => some common
  | n + 1, (index, last) =>
    if nqlAtIndex first others index then last.map fun separator => (index, some separator)
    else columnLoop first others n (index + 1, separatorAt isPathSeparator first index last)

/-- The body of the loop for more than eight paths. -/
def stringStep (first : Bytes) (minLength : ℕ) (common : Common) (str : Bytes) : Option Common :=
  let index := sameUpTo first str (minLength - common.1) common.1
  if index < minLength ∧ common.2 = none then none
  else
    let index := if index = minLength then index - 1 else index
    some (index, separatorAt isPathSeparator first index common.2)

/-- The loops of both functions, from `last_common_separator` at their start; `none` is the early
return. -/
def commonIndex (last : Option ℕ) (first : Bytes) (others : List Bytes) : Option Common :=
  let minLength := minLength (first :: others)
  if others.length < 8 then columnLoop isPathSeparator first others minLength (0, last)
  else if minLength = 0 then some (0, last)
  else others.foldlM (stringStep isPathSeparator first minLength) (0, last)

/-- The loop that looks for a path with a separator after the common bytes; `none` is the end of the
loop without one. -/
def folderLoop (index : ℕ) : List Bytes → Option Bytes → Option Bytes
  | [], found => found
  | str :: rest, found =>
    match str[index]? with
    | some c => if isPathSeparator c then folderLoop index rest (some str) else none
    | none => folderLoop index rest found

end

section

variable {isPathSeparator : UInt8 → Bool} {first : Bytes} {index : ℕ} {last : Option ℕ}

theorem isSome_separatorAt (h : last.isSome = true) :
    (separatorAt isPathSeparator first index last).isSome = true := by
  rw [separatorAt]
  split
  · rfl
  · exact h

variable (isPathSeparator first)

theorem isSome_columnLoop (others : List Bytes) : ∀ (n : ℕ) (common : Common),
    common.2.isSome = true → (columnLoop isPathSeparator first others n common).isSome = true
  | 0, _, _ => rfl
  | n + 1, (index, last), h => by
    rw [columnLoop]
    split
    · rw [Option.isSome_map]
      exact h
    · exact isSome_columnLoop others n _ (isSome_separatorAt h)

theorem isSome_foldlM_stringStep (minLength : ℕ) : ∀ (others : List Bytes) (common : Common),
    common.2.isSome = true →
      (others.foldlM (stringStep isPathSeparator first minLength) common).isSome = true
  | [], _, _ => rfl
  | str :: others, common, h => by
    have hstep : ∃ common' : Common,
        stringStep isPathSeparator first minLength common str = some common' ∧
          common'.2.isSome = true := by
      rw [stringStep]
      rw [if_neg fun hcond => by rw [hcond.2] at h; cases h]
      exact ⟨_, rfl, isSome_separatorAt h⟩
    obtain ⟨common', hstep, h'⟩ := hstep
    rw [foldlM_cons, hstep]
    exact isSome_foldlM_stringStep minLength others common' h'

theorem isSome_commonIndex (separator : ℕ) (others : List Bytes) :
    (commonIndex isPathSeparator (some separator) first others).isSome = true := by
  rw [commonIndex]
  split
  · exact isSome_columnLoop isPathSeparator first others _ _ rfl
  · split
    · rfl
    · exact isSome_foldlM_stringStep isPathSeparator first _ others _ rfl

end

variable (isPathSeparator : UInt8 → Bool)

def longestCommonPathGeneric : List Bytes → Bytes
  | [] => []
  | [path] => path
  | first :: second :: rest =>
    let common := commonIndex isPathSeparator (some 0) first (second :: rest)
    let (index, last) := common.get (isSome_commonIndex isPathSeparator _ 0 _)
    if index = 0 then [sepPosix]
    else
      match folderLoop isPathSeparator index (first :: second :: rest) none with
      | some str => str.take (index + 1)
      | none => first.take (last.getD 0 + 1)

def getIfExistsLongestCommonPathGeneric : List Bytes → Option Bytes
  | [] => some []
  | [path] => some path
  | first :: second :: rest =>
    (commonIndex isPathSeparator none first (second :: rest)).map fun (index, last) =>
      if index = 0 then [sepPosix]
      else
        match last with
        | none => [dot]
        | some separator =>
          match (first :: second :: rest).find? fun str => isSepAt isPathSeparator str index with
          | some str => str.take (index + 1)
          | none => first.take (separator + 1)

/-- `longest_common_path`, for `Platform::Loose`. -/
def longestCommonPath (input : List Bytes) : Bytes := longestCommonPathGeneric isSepAny input

/-- `get_if_exists_longest_common_path`, for `Platform::Loose`. -/
def getIfExistsLongestCommonPath (input : List Bytes) : Option Bytes :=
  getIfExistsLongestCommonPathGeneric isSepAny input

end Soup.Paths
