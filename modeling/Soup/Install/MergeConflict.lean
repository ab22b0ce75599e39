import Mathlib.Data.List.Sort
import Soup.Semver.Version

/-!
# The union of a conflicted lockfile

`merge_conflict.rs` from the two JSON documents of a `bun.lock` with conflict markers to the
"packages" of the union document. A JSON object is the list of its properties, in which a key may
stand twice, and the union's "packages" are such a list of keys and rows. What `build_union` writes
besides them cannot fail and is left out.

`writeString` is the JSON string writer `format_json_string_utf8`; nothing here depends on it.
-/

namespace Soup.Install

open Soup.Semver List

/-! ## JSON -/

/-- `JsonValue`. A number is what `{}` prints for it. -/
inductive JsonValue
  | null
  | boolean (value : Bool)
  | number (printed : Bytes)
  | string (slice : Bytes)
  | object (properties : List (Bytes × JsonValue))
  | array (items : List JsonValue)

/-- `ObjectJSON`. -/
abbrev ObjectJSON := List (Bytes × JsonValue)

/-- `ObjectJSON::get`: the first property with the key. -/
def ObjectJSON.get (object : ObjectJSON) (key : Bytes) : Option JsonValue :=
  (object.find? fun property => property.1 == key).map Prod.snd

namespace JsonValue

def asStr : JsonValue → Option Bytes
  | string slice => some slice
  | _ => none

def asObject : JsonValue → Option ObjectJSON
  | object properties => some properties
  | _ => none

def asArray : JsonValue → Option (List JsonValue)
  | array items => some items
  | _ => none

def isObject : JsonValue → Bool
  | object _ => true
  | _ => false

end JsonValue

section Write

variable (writeString : Bytes → Bytes)

mutual

def writeValue : JsonValue → Bytes
  | .null => text "null"
  | .boolean true => text "true"
  | .boolean false => text "false"
  | .number printed => printed
  | .string slice => writeString slice
  | .object properties => b '\x7b' :: writeProperties true properties ++ [b '\x7d']
  | .array items => b '[' :: writeItems true items ++ [b ']']

def writeProperties (first : Bool) : List (Bytes × JsonValue) → Bytes
  | [] => []
  | property :: rest =>
    (if first then [] else [b ',']) ++ writeProperty property ++ writeProperties false rest

def writeProperty : Bytes × JsonValue → Bytes
  | (key, value) => writeString key ++ b ':' :: writeValue value

def writeItems (first : Bool) : List JsonValue → Bytes
  | [] => []
  | item :: rest => (if first then [] else [b ',']) ++ writeValue item ++ writeItems false rest

end

end Write

/-! ## Sides -/

inductive Side
  | ours
  | theirs
deriving DecidableEq

namespace Side

/-- `SIDES`. -/
def sides : List Side := [ours, theirs]

/-- `1 - side as usize`. -/
def other : Side → Side
  | ours => theirs
  | theirs => ours

/-- `OURS_PREFIX` and `THEIRS_PREFIX`. -/
def keyPrefix : Side → Bytes
  | ours => text ":ours/"
  | theirs => text ":theirs/"

end Side

/-- `both`: ours, then theirs. -/
def both {α : Type} (ours theirs : List α) : List (α × Side) :=
  ours.map (·, Side.ours) ++ theirs.map (·, Side.theirs)

/-- `Declined`, as far as building the union gets. -/
inductive Declined
  | unmergeable (reason : Bytes) (subject : Option Bytes)

namespace Declined

/-- `Declined::at`. -/
def «at» (reason subject : Bytes) : Declined := unmergeable reason (some subject)

def notALockfile : Declined := unmergeable (text "one side is not a lockfile") none

def twoRows : Bytes := text "one side has two packages at one path"

end Declined

/-- `ok_or`. -/
def okOr {α ε : Type} (error : ε) : Option α → Except ε α
  | some x => .ok x
  | none => .error error

def propertiesOf : Option JsonValue → Option ObjectJSON
  | none => some []
  | some (.object properties) => some properties
  | some _ => none

/-! ## Workspaces -/

structure Workspaces where
  paths : List Bytes := []
  /-- The loader registers every workspace but the root at its name. -/
  names : List Bytes := []

namespace Workspaces

/-- The body of the loop of `Workspaces::collect`. -/
def add (workspaces : Workspaces) (path : Bytes) (value : JsonValue) : Workspaces :=
  if path ∈ workspaces.paths then workspaces
  else
    let name := (value.asObject.bind fun object =>
      (object.get (text "name")).bind JsonValue.asStr).filter fun _ => !path.isEmpty
    match name with
    | some name =>
      if name ∈ workspaces.names then workspaces
      else { paths := path :: workspaces.paths, names := name :: workspaces.names }
    | none => { workspaces with paths := path :: workspaces.paths }

def collect (ours theirs : Option JsonValue) : Except Declined Workspaces := do
  let oursRows ← okOr Declined.notALockfile (propertiesOf ours)
  let theirsRows ← okOr Declined.notALockfile (propertiesOf theirs)
  return (both oursRows theirsRows).foldl (fun workspaces row => workspaces.add row.1.1 row.1.2) {}

end Workspaces

/-! ## Rows -/

/-- The part of a slice before a byte and the part behind it, at the first place it stands. -/
def splitAtFirst (c : UInt8) : Bytes → Option (Bytes × Bytes)
  | [] => none
  | x :: xs =>
    if x = c then some ([], xs) else (splitAtFirst c xs).map fun parts => (x :: parts.1, parts.2)

theorem splitAtFirst_append {c : UInt8} {line rest : Bytes} (hline : c ∉ line) :
    splitAtFirst c (line ++ c :: rest) = some (line, rest) := by
  induction line with
  | nil => simp [splitAtFirst]
  | cons x line ih =>
    have hx : x ≠ c := fun h => hline (by simp [h])
    have htail : c ∉ line := fun h => hline (mem_cons_of_mem _ h)
    simp [splitAtFirst, hx, ih htail]

theorem splitAtFirst_of_notMem {c : UInt8} {line : Bytes} (hline : c ∉ line) :
    splitAtFirst c line = none := by
  induction line with
  | nil => rfl
  | cons x line ih =>
    have hx : x ≠ c := fun h => hline (by simp [h])
    have htail : c ∉ line := fun h => hline (mem_cons_of_mem _ h)
    simp [splitAtFirst, hx, ih htail]

/-- `Some(&str[at + 1..])` unless nothing is left. -/
def versionBehind (rest : Bytes) : Option Bytes := if rest = [] then none else some rest

def splitNameAndMaybeVersion (str : Bytes) : Bytes × Option Bytes :=
  match splitAtFirst (b '@') str with
  | none => (str, none)
  | some ([], rest) =>
    match splitAtFirst (b '@') rest with
    | none => (str, none)
    | some (name, version) => (b '@' :: name, versionBehind version)
  | some (name, version) => (name, versionBehind version)

/-- `split_name_and_version`. -/
def splitNameAndVersion (str : Bytes) : Option (Bytes × Bytes) :=
  (splitNameAndMaybeVersion str).2.map ((splitNameAndMaybeVersion str).1, ·)

structure Row where
  /-- `canonical` of it is the row's `text`. -/
  value : JsonValue
  /-- `name@resolution` -/
  id : Bytes
  name : Bytes
  resolution : Bytes
  /-- `Some` for an npm row. -/
  version : Option Version
  workspace : Bool

namespace Row

/-- The name and the resolution in an id. -/
def split (id : Bytes) : Option (Bytes × Bytes) :=
  if (text "@root:").isPrefixOf id then some ([], id.drop 1) else splitNameAndVersion id

/-- The version of a row that comes from a registry, from its resolution and the item behind. -/
def versionOf (resolution : Bytes) (second : Option JsonValue) : Option Version :=
  if resolution.head?.any isAsciiDigit && second.any fun item => item.asStr.isSome then
    let parsed := Version.parse resolution
    if parsed.valid && parsed.len == resolution.length then some parsed.version.min else none
  else none

def parse (value : JsonValue) : Option Row := do
  let items ← value.asArray
  let id ← items.head? >>= JsonValue.asStr
  let (name, resolution) ← split id
  return {
    value
    id
    name
    resolution
    version := versionOf resolution items[1]?
    workspace := (text "workspace:").isPrefixOf resolution }

def workspacePath (row : Row) : Bytes := row.resolution.drop (text "workspace:").length

/-- What has to be the same wherever one package is listed: the row without the package's name and
without what its package.json says. -/
def source (writeString : Bytes → Bytes) (value : JsonValue) : Bytes :=
  ((value.asArray.getD []).drop 1).flatMap fun item =>
    if item.isObject then [] else writeValue writeString item ++ [b ',']

end Row

/-! ## Paths -/

/-- The parts of a key before and behind its last `/`. -/
def splitAtLastSlash (key : Bytes) : Option (Bytes × Bytes) :=
  (splitAtFirst (b '/') key.reverse).map fun parts => (parts.2.reverse, parts.1.reverse)

/-- The path that `key` is below: `a/@b/c` for `a/@b/c/d` and for `a/@b/c/@d/e`. -/
def parentOf (key : Bytes) : Option Bytes :=
  match splitAtLastSlash key with
  | none => none
  | some (above, _) =>
    match splitAtLastSlash above with
    -- The `/` of a scoped name is not a step of the path.
    | some (before, last) => if last.head? = some (b '@') then some before else some above
    | none => if above.head? = some (b '@') then none else some above

/-- One key of "packages" and the row each document has for it. -/
structure PackagePath where
  key : Bytes
  /-- The packages that the documents list at `key`, each with the documents that list it. -/
  listed : List (Row × (Side → Bool)) := []
  /-- The row of the document, as an index of `listed`. -/
  rows : Side → Option ℕ := fun _ => none
  /-- The rows of the document keep every path above `key`, so its row can keep `key`. -/
  fills : Side → Bool := fun _ => true
  /-- The document whose row keeps `key`. -/
  keeps : Option Side := none

namespace PackagePath

/-- The rows of a path with one more: it joins the one with its id. -/
def listRow (row : Row) (side : Side) : List (Row × (Side → Bool)) → List (Row × (Side → Bool))
  | [] => [(row, fun by' => by' == side)]
  | known :: rest =>
    if known.1.id = row.id then (known.1, Function.update known.2 side true) :: rest
    else known :: listRow row side rest

def list (path : PackagePath) (row : Row) (side : Side) : PackagePath :=
  { path with listed := listRow row side path.listed }

/-- Whether the document lists the package at an index of `listed`. -/
def lists (path : PackagePath) (side : Side) (i : ℕ) : Bool :=
  path.listed[i]?.any fun known => known.2 side

/-- The rows that the document lists and the other one does not. -/
def own (path : PackagePath) (side : Side) : List ℕ :=
  (range path.listed.length).filter fun i => path.lists side i && !path.lists side.other i

/-- The row of one document: its own, or the first that it lists. -/
def assignSide (path : PackagePath) (side : Side) : Except Declined (Option ℕ) :=
  match path.own side with
  | [i] => .ok (some i)
  | [] => .ok (path.listed.findIdx? fun known => known.2 side)
  | _ :: _ :: _ => .error (Declined.at Declined.twoRows path.key)

/-- A document is the lines outside the hunks and the lines of its side. Where a side has a row in
a hunk and git took the row of the other side for the same key outside of it, the document has two
rows. Its own is the one that the other document does not have. -/
def assign (path : PackagePath) : Except Declined PackagePath := do
  let ours ← path.assignSide .ours
  let theirs ← path.assignSide .theirs
  if (range path.listed.length).any fun i => ours ≠ some i ∧ theirs ≠ some i then
    .error (Declined.at Declined.twoRows path.key)
  else
    .ok { path with
      rows := fun side => match side with
        | .ours => ours
        | .theirs => theirs }

def rowOf (path : PackagePath) (side : Side) : Option Row :=
  (path.rows side).bind fun i => path.listed[i]?.map Prod.fst

/-- Both documents have the same row here. -/
def common (path : PackagePath) : Bool :=
  (path.rows .ours).isSome && path.rows .ours == path.rows .theirs

def kept (path : PackagePath) : Option Row := path.keeps.bind path.rowOf

/-- Whether the row of this document is the row at `key`. -/
def isKept (path : PackagePath) (side : Side) : Bool :=
  path.fills side && path.keeps.any fun kept => kept == side || path.common

/-- The row of a document that can keep the path. -/
def candidate (path : PackagePath) (side : Side) : Option Row :=
  (path.rowOf side).filter fun _ => path.fills side

/-- The document whose row keeps the path. -/
def decideKeeps (path : PackagePath) (workspaces : Workspaces) : Except Declined (Option Side) :=
  -- The loader puts the workspace at this path.
  if path.key ∈ workspaces.names then
    .ok (Side.sides.find? fun side => (path.candidate side).any fun row => row.workspace)
  else
    match path.candidate .ours, path.candidate .theirs with
    | none, none => .ok none
    | some _, none => .ok (some .ours)
    | none, some _ => .ok (some .theirs)
    | some ours, some theirs =>
      if path.common then .ok (some .ours)
      else
        match ours.version, theirs.version with
        | some oursVersion, some theirsVersion =>
          if ours.name = theirs.name ∧ theirsVersion.orderWithBuild oursVersion = .gt then
            .ok (some .theirs)
          else .ok (some .ours)
        -- A tarball, a repository or a folder has no version that says which one is later.
        | _, _ =>
          .error (Declined.at (text ("the sides have two packages at one path, and one of them " ++
            "is not from the registry")) path.key)

end PackagePath

/-! ## Packages -/

/-- A package that lost its path to another version of itself. -/
structure Spare where
  kept : Bytes
  lost : Bytes

/-- The paths and the sources that `Packages::collect` has read so far. -/
structure Listing where
  sources : List (Bytes × Bytes) := []
  paths : List PackagePath := []

namespace Listing

/-- The path of a key, a new one behind the others if there is none yet, lists a row. -/
def listAt (key : Bytes) (row : Row) (side : Side) : List PackagePath → List PackagePath
  | [] => [PackagePath.list { key } row side]
  | path :: rest =>
    if path.key = key then path.list row side :: rest else path :: listAt key row side rest

/-- One package has one source. -/
def checkSource (listing : Listing) (row : Row) (source : Bytes) : Except Declined Listing :=
  match (listing.sources.find? fun known => known.1 == row.id).map Prod.snd with
  | some known =>
    if known ≠ source then
      -- Which side is right is not for bun to say.
      .error (Declined.at (text "one package has two tarballs or two integrity hashes") row.id)
    else .ok listing
  | none => .ok { listing with sources := (row.id, source) :: listing.sources }

/-- The body of the first loop of `Packages::collect`. -/
def add (writeString : Bytes → Bytes) (workspaces : Workspaces) (listing : Listing)
    (property : (Bytes × JsonValue) × Side) : Except Declined Listing := do
  let row ← okOr Declined.notALockfile (Row.parse property.1.2)
  if row.workspace && !workspaces.paths.contains row.workspacePath then
    return listing
  else if row.workspace then
    return { listing with paths := listAt property.1.1 row property.2 listing.paths }
  else
    let listing ← listing.checkSource row (Row.source writeString property.1.2)
    return { listing with paths := listAt property.1.1 row property.2 listing.paths }

end Listing

structure Packages where
  paths : List PackagePath

namespace Packages

/-- `index`: where the path of a key is. -/
def index (paths : List PackagePath) (key : Bytes) : Option ℕ :=
  paths.findIdx? fun path => path.key == key

/-- Which documents keep every path above `key`. -/
def fillsOf (paths : List PackagePath) (key : Bytes) : Side → Bool :=
  match (parentOf key).bind (index paths) with
  | some parent => fun side => paths[parent]?.any fun path => path.isKept side
  | none => fun _ => true

/-- The body of the second loop of `Packages::collect`. -/
def settle (workspaces : Workspaces) (paths : List PackagePath) (i : ℕ) :
    Except Declined (List PackagePath) :=
  match paths[i]? with
  | none => .ok paths
  | some path => do
    let path ← path.assign
    let path := { path with fills := fillsOf paths path.key }
    let keeps ← path.decideKeeps workspaces
    return paths.set i { path with keeps }

/-- `paths[at].key.len()`. -/
def keyLength (paths : List PackagePath) (i : ℕ) : ℕ := paths[i]?.elim 0 fun path => path.key.length

/-- A path is shorter than every path below it. -/
def order (paths : List PackagePath) : List ℕ :=
  (range paths.length).insertionSort fun i j => keyLength paths i ≤ keyLength paths j

def collect (writeString : Bytes → Bytes) (ours theirs : Option JsonValue)
    (workspaces : Workspaces) : Except Declined Packages := do
  let oursRows ← okOr Declined.notALockfile (propertiesOf ours)
  let theirsRows ← okOr Declined.notALockfile (propertiesOf theirs)
  let listing ← (both oursRows theirsRows).foldlM (Listing.add writeString workspaces) {}
  let paths ← (order listing.paths).foldlM (settle workspaces) listing.paths
  return { paths }

/-- The rows of a path that move below the prefix of their side. -/
def moved (path : PackagePath) : List (Bytes × Row) :=
  Side.sides.filterMap fun side =>
    -- The workspace itself is at this path.
    ((path.rowOf side).filter fun row => !row.workspace && !path.isKept side).map fun row =>
      (side.keyPrefix ++ path.key, row)

/-- A row that does not keep its path moves below the prefix of its side, and so does every row
that its side has below that path. The loader binds the edges of a package from the last of its
rows, so the rows at real paths go last. -/
def write (packages : Packages) : List (Bytes × Row) :=
  packages.paths.flatMap moved ++
    packages.paths.filterMap fun path => path.kept.map fun row => (path.key, row)

/-- The rows of a path that lost it to another version of their package. -/
def sparesAt (path : PackagePath) : List Spare :=
  match path.kept.filter fun row => row.version.isSome with
  | none => []
  | some kept =>
    Side.sides.filterMap fun side =>
      ((path.rowOf side).filter fun row => !path.isKept side && row.version.isSome &&
        row.name == kept.name && row.id != kept.id).map fun row =>
          { kept := kept.id, lost := row.id }

def spares (packages : Packages) : List Spare := packages.paths.flatMap sparesAt

end Packages

/-! ## The union -/

structure Union where
  /-- The properties of its "packages". -/
  packages : List (Bytes × Row)
  /-- The higher `lockfileVersion` first. -/
  versions : Option ℕ × Option ℕ
  spares : List Spare

/-- `TextLockfile::Version::from_int` of a whole number, from how it is printed. -/
def versionOfNumber (printed : Bytes) : Option ℕ :=
  if printed = text "0" ∨ printed = text "-0" then some 0
  else if printed = text "1" then some 1
  else if printed = text "2" then some 2
  else if printed = text "3" then some 3
  else none

/-- A `lockfileVersion` that the loader of this build reads. -/
def lockfileVersionOf (side : ObjectJSON) : Except Declined (Option ℕ) :=
  let unread := Declined.unmergeable
    (text "one side has a lockfileVersion that this version of bun does not read") none
  match side.get (text "lockfileVersion") with
  | none => .ok none
  | some (.number printed) =>
    match versionOfNumber printed with
    | some version => .ok (some version)
    | none => .error unread
  | some _ => .error unread

def pick (ours theirs : Option ℕ) (higher : Bool) : Option ℕ :=
  match ours, theirs with
  | some ours, some theirs => some (if higher then max ours theirs else min ours theirs)
  | ours, theirs => ours.or theirs

def buildUnion (writeString : Bytes → Bytes) (ours theirs : ObjectJSON) :
    Except Declined Union := do
  let oursVersion ← lockfileVersionOf ours
  let theirsVersion ← lockfileVersionOf theirs
  let workspaces ← Workspaces.collect (ours.get (text "workspaces"))
    (theirs.get (text "workspaces"))
  let packages ← Packages.collect writeString (ours.get (text "packages"))
    (theirs.get (text "packages")) workspaces
  let higher := pick oursVersion theirsVersion true
  let lower := pick oursVersion theirsVersion false
  return {
    packages := packages.write
    versions := (higher, lower.filter fun _ => lower ≠ higher)
    spares := packages.spares }

end Soup.Install
