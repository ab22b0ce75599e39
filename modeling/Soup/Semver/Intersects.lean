import Soup.Semver.Query

/-!
# Bounds of a query

`intersects.rs`: `intersects` and `is_subset_of` look at a query as an `Interval`, the tightest
of its lower and of its upper bounds. `canonical` writes each bound in one way before two
intervals are compared.
-/

namespace Soup.Semver

structure Bound where
  version : Version
  inclusive : Bool
deriving DecidableEq, Repr

structure Interval where
  lower : Option Bound := none
  upper : Option Bound := none
deriving DecidableEq, Repr

def isLastPatch (version : Version) : Bool :=
  version.patch.toNat == u64Max && !version.tag.hasPre

/-- The version that follows `major.minor.MAX`, if there is one. -/
def afterLastPatch (version : Version) : Option Version :=
  match checkedAddOne version.minor with
  | some minor => some { major := version.major, minor }
  | none => (checkedAddOne version.major).map fun major => { major }

/-- Do two versions have the same `major.minor.patch`? -/
def sameTriple (u v : Version) : Bool :=
  u.major == v.major && u.minor == v.minor && u.patch == v.patch

namespace Interval

def raise (i : Interval) (b : Bound) : Interval :=
  let replace :=
    match i.lower with
    | none => true
    | some cur =>
      match b.version.orderWithoutBuild cur.version with
      | .gt => true
      | .eq => !b.inclusive
      | .lt => false
  if replace then { i with lower := some b } else i

def cap (i : Interval) (b : Bound) : Interval :=
  let replace :=
    match i.upper with
    | none => true
    | some cur =>
      match b.version.orderWithoutBuild cur.version with
      | .lt => true
      | .eq => !b.inclusive
      | .gt => false
  if replace then { i with upper := some b } else i

def narrow (i : Interval) (c : Comparator) : Interval :=
  let bound (inclusive : Bool) : Bound := { version := c.version, inclusive }
  match c.op with
  | .unset => i
  | .eql => (i.raise (bound true)).cap (bound true)
  | .gt => i.raise (bound false)
  | .gte => i.raise (bound true)
  | .lt => i.cap (bound false)
  | .lte => i.cap (bound true)

def andQuery (i : Interval) (query : Query) : Interval :=
  query.ranges.foldl (fun i r => (i.narrow r.left).narrow r.right) i

/-- A missing lower bound starts at `0.0.0-0`, the lowest version. -/
def isNonEmpty (i : Interval) : Bool :=
  match i.upper with
  | none => true
  | some u =>
    let l := i.lower.getD { version := Comparator.nullSet.version, inclusive := true }
    match l.version.orderWithoutBuild u.version with
    | .lt => true
    | .eq => l.inclusive && u.inclusive
    | .gt => false

/-- `>1.MAX.MAX` becomes `>=2.0.0`. -/
def carryLower (lower : Bound) : Bound :=
  if !lower.inclusive && isLastPatch lower.version then
    match afterLastPatch lower.version with
    | some version => { version, inclusive := true }
    | none => lower
  else lower

/-- `>=0.0.0` becomes no bound. -/
def dropZero (lower : Bound) : Option Bound :=
  if lower.inclusive && lower.version.isZero && !lower.version.tag.hasPre then none else some lower

/-- `<=1.MAX.MAX` becomes `<2.0.0`. -/
def carryUpper (upper : Bound) : Option Bound :=
  if upper.inclusive && isLastPatch upper.version then
    (afterLastPatch upper.version).map fun version => { version, inclusive := false }
  else some upper

/-- `<2.0.0` becomes `<2.0.0-0`. Only below a prerelease of `2.0.0` has `<2.0.0` more in it. -/
def belowPrereleases (lower : Option Bound) (upper : Bound) : Bound :=
  if !upper.inclusive && !upper.version.tag.hasPre &&
      !lower.any fun l => l.version.tag.hasPre && sameTriple l.version upper.version then
    { upper with version.tag := .ZERO_PRE }
  else upper

/-- Each bound is written in one canonical way. -/
def canonical (i : Interval) : Interval :=
  let lower := (i.lower.map carryLower).bind dropZero
  { lower, upper := (i.upper.bind carryUpper).map (belowPrereleases lower) }

def isWithin (i other : Interval) : Bool :=
  let lower :=
    match i.lower, other.lower with
    | _, none => true
    | none, some _ => false
    | some a, some c =>
      match a.version.orderWithoutBuild c.version with
      | .gt => true
      | .eq => c.inclusive || !a.inclusive
      | .lt => false
  let upper :=
    match i.upper, other.upper with
    | _, none => true
    | none, some _ => false
    | some a, some c =>
      match a.version.orderWithoutBuild c.version with
      | .lt => true
      | .eq => c.inclusive || !a.inclusive
      | .gt => false
  lower && upper

/-- Is `c` a prerelease of the `major.minor.patch` of `version`? -/
def isPrereleaseOf (version : Version) (c : Comparator) : Bool :=
  c.op != .unset && c.version.tag.hasPre && sameTriple c.version version

/-- Does `query` have, for each bound that is a prerelease, a comparator that is one of the same
`major.minor.patch`? No version is below `1.2.3-0`. -/
def prereleasesCanSatisfy (i : Interval) (query : Query) : Bool :=
  let lower := i.lower.filter fun it => it.version.tag.hasPre
  let upper := i.upper.filter fun it =>
    it.version.tag.hasPre && (it.inclusive || it.version.tag.pre != [b '0'])
  (lower.toList ++ upper.toList).all fun bound =>
    query.ranges.any fun r =>
      isPrereleaseOf bound.version r.left || isPrereleaseOf bound.version r.right

end Interval

/-- `*`, which is a lone `>=0.0.0`. -/
def Query.isStar (q : Query) : Bool :=
  q.next.isEmpty && q.range.left.op == .gte && q.range.left.version.isZero &&
    !q.range.left.version.tag.hasPre && !q.range.hasRight

namespace Group

/-- `satisfies`, except that `*` admits a prerelease too. -/
def admits (g : Group) (version : Version) : Bool :=
  g.satisfies version || (version.tag.hasPre && g.alternatives.any Query.isStar)

def admitsAnExactVersionOf (g other : Group) : Bool :=
  (other.alternatives.filterMap Query.exactVersion).any g.admits

/-- Is there a version that satisfies both groups? An exact version goes through `satisfies`,
and two ranges only compare their bounds. -/
def intersects (g other : Group) : Bool :=
  g.admitsAnExactVersionOf other || other.admitsAnExactVersionOf g ||
    (g.alternatives.filter fun q => q.exactVersion.isNone).any fun q =>
      let base := ({} : Interval).andQuery q
      base.isNonEmpty &&
        (other.alternatives.filter fun q => q.exactVersion.isNone).any fun q' =>
          (base.andQuery q').isNonEmpty

/-- Does every version that satisfies `g` also satisfy `other`? Each alternative of `g` has to be
within a single alternative of `other`. -/
def isSubsetOf (g other : Group) : Bool :=
  g.alternatives.all fun q =>
    let sub := (({} : Interval).andQuery q).canonical
    !sub.isNonEmpty ||
      other.alternatives.any fun q' =>
        sub.isWithin (({} : Interval).andQuery q').canonical && sub.prereleasesCanSatisfy q'

end Group

end Soup.Semver
