import Mathlib.Data.List.Infix
import Soup.Paths.Normalize

/-!
# Package exports

`ESModule` of `package_json.rs` on Linux: `resolve` and `resolve_imports` over the value of a
package's `exports` or `imports`. A path is a list of bytes. `room` is the depth of the nested
targets for which `stack_check` lets `resolve_target` recurse.
-/

namespace Soup.Resolver

open Paths

inductive Status where
  | undefined
  | undefinedNoConditionsMatch
  | null
  | exact
  | exactEndsWithStar
  | inexact
  | invalidModuleSpecifier
  | invalidPackageConfiguration
  | invalidPackageTarget
  | packagePathNotExported
  | moduleNotFound
  | unsupportedDirectoryImport
  | packagePathDisabled
  | packageImportNotDefined
  | packageResolve
  deriving DecidableEq, Repr

def Status.isUndefined : Status → Bool
  | .undefined | .undefinedNoConditionsMatch => true
  | _ => false

/-- The statuses of a path that was resolved. -/
def Status.isResolved : Status → Bool
  | .exact | .exactEndsWithStar | .inexact => true
  | _ => false

structure Resolution where
  status : Status
  path : Bytes
  deriving DecidableEq, Repr

/-- A value of `exports` or `imports`. An object has its keys in order, and those with a `*` or a
`/` at the end once more, as `expansion_keys`. -/
inductive Entry where
  | invalid
  | null
  | string (text : Bytes)
  | array (items : List Entry)
  | map (list expansionKeys : List (Bytes × Entry))

def maxPathBytes : ℕ := 4096

def slash : UInt8 := b '/'

def star : UInt8 := b '*'

def percent : UInt8 := b '%'

/-! ## Segments -/

def hexDigitValue (c : UInt8) : Option UInt8 :=
  if b '0' ≤ c ∧ c ≤ b '9' then some (c - b '0')
  else if b 'a' ≤ c ∧ c ≤ b 'f' then some (c - b 'a' + 10)
  else if b 'A' ≤ c ∧ c ≤ b 'F' then some (c - b 'A' + 10)
  else none

def hexPairValue (hi lo : UInt8) : Option UInt8 := do
  let hi ← hexDigitValue hi
  let lo ← hexDigitValue lo
  some (hi <<< 4 ||| lo)

def toAsciiLowercase (c : UInt8) : UInt8 := if b 'A' ≤ c ∧ c ≤ b 'Z' then c + 32 else c

/-- The bytes that the loop of `is_invalid_segment` puts to `decoded`, in lower case, without its
end when `decoded` is full. -/
def decodedSegment : Bytes → Bytes
  | [] => []
  | [c] => [toAsciiLowercase c]
  | [c, d] => [toAsciiLowercase c, toAsciiLowercase d]
  | c :: hi :: lo :: rest =>
    if c = percent then
      match hexPairValue hi lo with
      | some byte => toAsciiLowercase byte :: decodedSegment rest
      | none => toAsciiLowercase c :: decodedSegment (hi :: lo :: rest)
    else toAsciiLowercase c :: decodedSegment (hi :: lo :: rest)

/-- A segment of more than 12 bytes does not fit in `decoded`, and is valid. -/
def isInvalidSegment (segment : Bytes) : Bool :=
  let decoded := decodedSegment segment
  decoded.length ≤
    12 && (decoded = text "." || decoded = text ".." || decoded = text "node_modules")

def segments (path : Bytes) : List Bytes := path.splitOnP isSepAny

/-- The segments are looked at one after the other. The source leaves out an empty one at the end,
which is not invalid. -/
def findInvalidSubpathSegment (path : Bytes) : Option Bytes :=
  (segments path).find? isInvalidSegment

def findInvalidSegment (path : Bytes) : Option Bytes :=
  if path.any isSepAny then
    findInvalidSubpathSegment ((path.dropWhile fun c => !isSepAny c).drop 1)
  else some []

/-! ## The end -/

def invalidPercentChars : List Bytes := [text "%2f", text "%2F", text "%5c", text "%5C"]

/-- `PercentEncoding::decode`, which fails at a `%` without two digits. -/
def percentDecode : Bytes → Option Bytes
  | [] => some []
  | c :: rest =>
    if c = percent then
      match rest with
      | hi :: lo :: rest => do
        let byte ← hexPairValue hi lo
        let decoded ← percentDecode rest
        some (byte :: decoded)
      | _ => none
    else do
      let decoded ← percentDecode rest
      some (c :: decoded)

/-- The same into a buffer of `MAX_PATH_BYTES`. -/
def decodeInto (path : Bytes) : Option Bytes :=
  (percentDecode path).bind fun decoded => if decoded.length ≤ maxPathBytes then some decoded
    else none

/-- `ends_with_any`, with `"/\\"`. -/
def endsWithSep (path : Bytes) : Bool := path.getLast?.any isSepAny

def finalize (result : Resolution) : Resolution :=
  if !result.status.isResolved then result
  else if !result.path.contains percent then
    if endsWithSep result.path then { result with status := .unsupportedDirectoryImport }
      else result
  else if ∃ p ∈ invalidPercentChars, p <:+: result.path then
    ⟨.invalidModuleSpecifier, result.path⟩
  else
    match decodeInto result.path with
    | none => ⟨.invalidModuleSpecifier, result.path⟩
    | some resolvedPath =>
      if endsWithSep resolvedPath then ⟨.unsupportedDirectoryImport, result.path⟩
      else { result with path := resolvedPath }

/-! ## Targets -/

/-- `replace`, for the needle `*`. -/
def replaceStar (input replacement : Bytes) : Bytes :=
  input.flatMap fun c => if c = star then replacement else [c]

def resolveString (pattern : Bool) (packageUrl str subpath : Bytes) (internal : Bool) :
    Resolution :=
  if packageUrl.length + str.length + subpath.length + 8 > maxPathBytes
    then ⟨.invalidPackageTarget, str⟩
  else if !pattern && subpath ≠ [] && str.getLast? ≠ some slash then ⟨.invalidModuleSpecifier, str⟩
  else if subpath ≠ [] && (findInvalidSubpathSegment subpath).isSome then
    ⟨.invalidModuleSpecifier, subpath⟩
  else if !(text "./").isPrefixOf str then
    if internal && !(text "../").isPrefixOf str && !(text "/").isPrefixOf str then
      if pattern then
        let result := replaceStar str subpath
        if result.length > maxPathBytes then ⟨.invalidModuleSpecifier, subpath⟩
        else ⟨.packageResolve, result⟩
      else ⟨.packageResolve, joinStringBuf [str, subpath]⟩
    else ⟨.invalidPackageTarget, str⟩
  else if (findInvalidSegment str).isSome then ⟨.invalidPackageTarget, str⟩
  else
    let resolvedTarget := joinStringBuf [packageUrl, str]
    if (findInvalidSegment resolvedTarget).isSome then ⟨.invalidModuleSpecifier, str⟩
    else if pattern then
      let result := replaceStar resolvedTarget subpath
      if result.length > maxPathBytes then ⟨.invalidModuleSpecifier, subpath⟩
      else if (findInvalidSegment result).isSome then ⟨.invalidModuleSpecifier, result⟩
      else ⟨.exactEndsWithStar, result⟩
    else ⟨.exact, joinStringBuf [packageUrl, str, subpath]⟩

/-- The loop over the conditions of an object. -/
def resolveConditions (resolveTarget : Entry → Resolution) (conditions : List Bytes) :
    List (Bytes × Entry) → Resolution
  | [] => ⟨.undefinedNoConditionsMatch, []⟩
  | (key, value) :: list =>
    if conditions.contains key then
      let result := resolveTarget value
      if result.status.isUndefined then resolveConditions resolveTarget conditions list else result
    else resolveConditions resolveTarget conditions list

/-- The loop over the targets of an array. -/
def resolveArray (resolveTarget : Entry → Resolution) (lastException : Status) :
    List Entry → Resolution
  | [] => ⟨lastException, []⟩
  | targetValue :: array =>
    let result := resolveTarget targetValue
    let lastException :=
      if result.status = .invalidPackageTarget ∨ result.status = .null then result.status
      else lastException
    if result.status.isUndefined then resolveArray resolveTarget lastException array else result

def resolveTarget (conditions : List Bytes) (pattern : Bool) (packageUrl subpath : Bytes)
    (internal : Bool) : ℕ → Entry → Resolution
  | 0, _ => ⟨.invalidPackageConfiguration, []⟩
  | _ + 1, .string str => resolveString pattern packageUrl str subpath internal
  | room + 1, .map list _ =>
    resolveConditions (resolveTarget conditions pattern packageUrl subpath internal room) conditions
      list
  | room + 1, .array array =>
    if array.isEmpty then ⟨.null, []⟩
    else resolveArray (resolveTarget conditions pattern packageUrl subpath internal room) .undefined
      array
  | _ + 1, .null => ⟨.null, []⟩
  | _ + 1, .invalid => ⟨.invalidPackageTarget, []⟩

/-! ## Exports and imports -/

def Entry.keysStartWithDot : Entry → Bool
  | .map ((key, _) :: _) _ => key.head? = some (b '.')
  | _ => false

def Entry.valueForKey (entry : Entry) (key : Bytes) : Option Entry :=
  match entry with
  | .map list _ => list.lookup key
  | _ => none

section Match

variable (conditions : List Bytes) (room : ℕ) (matchKey : Bytes) (isImports : Bool)
  (packageUrl : Bytes)

/-- What an expansion key leaves over of `matchKey`, with whether it is a pattern. -/
def matchExpansion (key : Bytes) : Option (Bool × Bytes) :=
  if key.contains star then
    let patternBase := key.takeWhile fun c => c ≠ star
    let patternTrailer := (key.dropWhile fun c => c ≠ star).drop 1
    if patternBase.isPrefixOf matchKey &&
        (patternTrailer = [] || patternTrailer.isSuffixOf matchKey && key.length ≤ matchKey.length)
          then
      some (true, (matchKey.take (matchKey.length - patternTrailer.length)).drop patternBase.length)
    else none
  else if key.isPrefixOf matchKey then some (false, matchKey.drop key.length)
  else none

def resolveExpansions : List (Bytes × Entry) → Resolution
  | [] => ⟨.null, []⟩
  | (key, target) :: expansionKeys =>
    match matchExpansion matchKey key with
    | some (true, subpath) => resolveTarget conditions true packageUrl subpath isImports room target
    | some (false, subpath) =>
      let result := resolveTarget conditions false packageUrl subpath isImports room target
      if result.status = .exact ∨ result.status = .exactEndsWithStar then
        { result with status := .inexact }
      else result
    | none => resolveExpansions expansionKeys

def resolveImportsExports (matchObj : Entry) : Resolution :=
  let exactTarget :=
    if matchKey.getLast? ≠ some slash && !matchKey.contains star then matchObj.valueForKey matchKey
    else none
  match exactTarget with
  | some target => resolveTarget conditions false packageUrl [] isImports room target
  | none =>
    match matchObj with
    | .map _ expansionKeys =>
      resolveExpansions conditions room matchKey isImports packageUrl expansionKeys
    | _ => ⟨.null, []⟩

end Match

/-- The target of `"."`. -/
def mainExport (exports : Entry) : Option Entry :=
  match exports with
  | .string _ | .array _ => some exports
  | .map _ _ => if exports.keysStartWithDot then exports.valueForKey (text ".") else some exports
  | _ => none

def resolveExports (conditions : List Bytes) (room : ℕ) (packageUrl subpath : Bytes)
    (exports : Entry) :
    Resolution :=
  match exports with
  | .invalid => ⟨.invalidPackageConfiguration, []⟩
  | _ =>
    if subpath = text "." then
      match mainExport exports with
      | some .null | none => ⟨.packagePathNotExported, []⟩
      | some target =>
        let result := resolveTarget conditions false packageUrl [] false room target
        if result.status ≠ .null ∧ result.status ≠ .undefined then result
        else ⟨.packagePathNotExported, []⟩
    else if exports.keysStartWithDot then
      let result := resolveImportsExports conditions room subpath false packageUrl exports
      if result.status ≠ .null ∧ result.status ≠ .undefined then result
      else if result.status = .null then ⟨.packagePathDisabled, []⟩
      else ⟨.packagePathNotExported, []⟩
    else ⟨.packagePathNotExported, []⟩

/-- `ESModule::resolve`. -/
def resolve (conditions : List Bytes) (room : ℕ) (packageUrl subpath : Bytes) (exports : Entry) :
    Resolution :=
  finalize (resolveExports conditions room packageUrl subpath exports)

/-- `ESModule::resolve_imports`. -/
def resolveImports (conditions : List Bytes) (room : ℕ) (specifier : Bytes) (imports : Entry) :
    Resolution :=
  match imports with
  | .map _ _ =>
    let result := resolveImportsExports conditions room specifier true (text "/") imports
    if result.status = .undefined ∨ result.status = .null then ⟨.packageImportNotDefined, []⟩
    else finalize result
  | _ => ⟨.invalidPackageConfiguration, []⟩

end Soup.Resolver
