import Soup.Semver.PartialText
import Soup.Semver.Precedence

/-!
# The precedence of SemVer 2.0

The specification gives a prerelease as a list of identifiers of letters, digits and `-`. An
identifier of digits only is a number. `Lower` is its precedence in its own words, and
`order_without_build` decides it wherever the numbers among the identifiers are at most `u64::MAX`
(`orderWithoutBuild_spec`). That the function is a total preorder needs no such bound, and holds of
any bytes.
-/

namespace Soup.Semver

open List

/-! ## The specification -/

def isIdentifierChar (c : UInt8) : Bool := isAsciiAlphabetic c || isAsciiDigit c || c == b '-'

/-- An identifier of a prerelease. -/
structure IsIdentifier (name : Bytes) : Prop where
  ne_nil : name ≠ []
  allowed : ∀ c ∈ name, isIdentifierChar c = true

theorem isIdentifier_iff {name : Bytes} :
    IsIdentifier name ↔ (!name.isEmpty && name.all isIdentifierChar) = true := by
  rw [Bool.and_eq_true, Bool.not_eq_true', isEmpty_eq_false_iff, all_eq_true]
  exact ⟨fun h => ⟨h.ne_nil, h.allowed⟩, fun h => ⟨h.1, h.2⟩⟩

/-- A numeric identifier. -/
def isNumeric (name : Bytes) : Bool := name.all isAsciiDigit

/-- Numbers below texts, numbers as numbers, texts in ASCII order. -/
def IdentifierLower (x y : Bytes) : Prop :=
  match isNumeric x, isNumeric y with
  | true, true => decimal x < decimal y
  | true, false => True
  | false, true => False
  | false, false => x.map UInt8.toNat < y.map UInt8.toNat

/-- Two identifiers of one rank : numbers of one value, or one text. -/
def IdentifierSame (x y : Bytes) : Prop :=
  if isNumeric x && isNumeric y then decimal x = decimal y else x = y

/-- The first identifiers that differ decide, and a list that ends first is lower. -/
inductive IdentifiersLower : List Bytes → List Bytes → Prop
  | ends (y : Bytes) (ys : List Bytes) : IdentifiersLower [] (y :: ys)
  | differ {x y : Bytes} (xs ys : List Bytes) : IdentifierLower x y → IdentifiersLower (x :: xs)
      (y :: ys)
  | same {x y : Bytes} {xs ys : List Bytes} : IdentifierSame x y → IdentifiersLower xs ys →
    IdentifiersLower (x :: xs) (y :: ys)

/-- A version of the specification. No identifiers make a release. -/
structure SpecVersion where
  major : ℕ
  minor : ℕ
  patch : ℕ
  identifiers : List Bytes

namespace SpecVersion

/-- Prereleases of one `major.minor.patch`, and its release above them. -/
def PrereleaseLower (xs ys : List Bytes) : Prop := xs ≠ [] ∧ (ys = [] ∨ IdentifiersLower xs ys)

def Lower (u v : SpecVersion) : Prop :=
  u.major < v.major ∨ u.major = v.major ∧
    (u.minor < v.minor ∨ u.minor = v.minor ∧
      (u.patch < v.patch ∨ u.patch = v.patch ∧ PrereleaseLower u.identifiers v.identifiers))

/-- Neither is lower. -/
def Same (u v : SpecVersion) : Prop :=
  u.major = v.major ∧ u.minor = v.minor ∧ u.patch = v.patch ∧
    List.Forall₂ IdentifierSame u.identifiers v.identifiers

end SpecVersion

/-- `v` is the version `s` of the specification, and its numbers fit. -/
structure Version.Writes (v : Version) (s : SpecVersion) : Prop where
  major : v.major.toNat = s.major
  minor : v.minor.toNat = s.minor
  patch : v.patch.toNat = s.patch
  pre : v.tag.pre = [b '.'].intercalate s.identifiers
  isIdentifier : ∀ name ∈ s.identifiers, IsIdentifier name
  fits : ∀ name ∈ s.identifiers, isNumeric name = true → decimal name ≤ u64Max

/-! ## Identifiers -/

section Identifiers

variable {x y name : Bytes} {xs ys names : List Bytes}

/-- An identifier whose number fits, if it is one. -/
def Fits (name : Bytes) : Prop :=
  IsIdentifier name ∧ (isNumeric name = true → decimal name ≤ u64Max)

theorem accumulate_none : ∀ (name : Bytes) (acc : ℕ), (∀ c ∈ name, isIdentifierChar c = true) →
    isNumeric name = false → accumulate acc name = none
  | [], _, _, h => by cases h
  | c :: name, acc, hchars, h => by
    have hne : c ≠ b '_' := by
      rintro rfl
      exact absurd (hchars _ mem_cons_self) (by decide)
    rw [accumulate, if_neg hne]
    split
    next hdigit =>
      refine accumulate_none name _ (fun d hd => hchars d (mem_cons_of_mem _ hd)) ?_
      rwa [isNumeric, all_cons, hdigit, Bool.true_and] at h
    next => rfl

theorem identifier_numeric (h : Fits name) (hnumeric : isNumeric name = true) :
    identifier name = toLex (.inl (decimal name)) := by
  have hfits := h.2 hnumeric
  have hparse := Numeral.parseUnsigned_digits ⟨name, h.1.ne_nil, all_eq_true.1 hnumeric, hfits⟩
  rw [identifier, hparse]
  have hlt : decimal name < 2 ^ 64 := by
    unfold u64Max at hfits
    omega
  show toLex (Sum.inl (UInt64.ofNat (decimal name)).toNat) = _
  rw [UInt64.toNat_ofNat_of_lt' hlt]

theorem identifier_text (h : Fits name) (hnumeric : isNumeric name = false) :
    identifier name = toLex (.inr (name.map UInt8.toNat)) := by
  have hparse : parseUnsigned name = none := by
    rw [parseUnsigned, accumulate_none name 0 h.1.allowed hnumeric]
    split <;> rfl
  rw [identifier, hparse]

theorem identifierLower_iff (hx : Fits x) (hy : Fits y) :
    IdentifierLower x y ↔ identifier x < identifier y := by
  rw [IdentifierLower]
  cases hnx : isNumeric x with
  | true =>
    rw [identifier_numeric hx hnx]
    cases hny : isNumeric y with
    | true =>
      rw [identifier_numeric hy hny]
      exact Sum.Lex.inl_lt_inl_iff.symm
    | false =>
      rw [identifier_text hy hny]
      exact iff_of_true trivial (Sum.Lex.inl_lt_inr _ _)
  | false =>
    rw [identifier_text hx hnx]
    cases hny : isNumeric y with
    | true =>
      rw [identifier_numeric hy hny]
      exact iff_of_false id Sum.Lex.not_inr_lt_inl
    | false =>
      rw [identifier_text hy hny]
      exact Sum.Lex.inr_lt_inr_iff.symm

theorem map_toNat_inj : x.map UInt8.toNat = y.map UInt8.toNat ↔ x = y :=
  (map_injective_iff.2 fun _ _ => UInt8.toNat_inj.1).eq_iff

theorem identifierSame_iff (hx : Fits x) (hy : Fits y) :
    IdentifierSame x y ↔ identifier x = identifier y := by
  have hne : isNumeric x ≠ isNumeric y → x ≠ y := fun h heq => h (congrArg isNumeric heq)
  rw [IdentifierSame]
  cases hnx : isNumeric x with
  | true =>
    rw [identifier_numeric hx hnx]
    cases hny : isNumeric y with
    | true =>
      rw [identifier_numeric hy hny, Bool.and_true, if_pos rfl, toLex_inj, Sum.inl.injEq]
    | false =>
      rw [identifier_text hy hny, Bool.and_false, if_neg Bool.false_ne_true, toLex_inj]
      rw [hnx, hny] at hne
      exact iff_of_false (hne Bool.true_eq_false.mp) Sum.inl_ne_inr
  | false =>
    rw [identifier_text hx hnx, Bool.false_and, if_neg Bool.false_ne_true]
    cases hny : isNumeric y with
    | true =>
      rw [identifier_numeric hy hny, toLex_inj]
      rw [hnx, hny] at hne
      exact iff_of_false (hne Bool.false_ne_true) Sum.inr_ne_inl
    | false =>
      rw [identifier_text hy hny, toLex_inj, Sum.inr.injEq]
      exact map_toNat_inj.symm

theorem identifiersLower_iff (hxs : ∀ x ∈ xs, Fits x) (hys : ∀ y ∈ ys, Fits y) :
    IdentifiersLower xs ys ↔ xs.map identifier < ys.map identifier := by
  induction xs generalizing ys with
  | nil =>
    cases ys with
    | nil => exact iff_of_false (fun h => by cases h) (not_lt_nil _)
    | cons y ys => exact iff_of_true (.ends y ys) (nil_lt_cons _ _)
  | cons x xs ih =>
    cases ys with
    | nil => exact iff_of_false (fun h => by cases h) (not_lt_nil _)
    | cons y ys =>
      rw [forall_mem_cons] at hxs hys
      rw [map_cons, map_cons, cons_lt_cons_iff, ← identifierLower_iff hxs.1 hys.1,
        ← identifierSame_iff hxs.1 hys.1, ← ih hxs.2 hys.2]
      constructor
      · intro h
        cases h with
        | differ _ _ h => exact .inl h
        | same hsame h => exact .inr ⟨hsame, h⟩
      · rintro (h | ⟨hsame, h⟩)
        · exact .differ xs ys h
        · exact .same hsame h

theorem forall₂_same_iff (hxs : ∀ x ∈ xs, Fits x) (hys : ∀ y ∈ ys, Fits y) :
    List.Forall₂ IdentifierSame xs ys ↔ xs.map identifier = ys.map identifier := by
  induction xs generalizing ys with
  | nil =>
    cases ys with
    | nil => exact iff_of_true .nil rfl
    | cons y ys => exact iff_of_false (fun h => by cases h) (cons_ne_nil _ _).symm
  | cons x xs ih =>
    cases ys with
    | nil => exact iff_of_false (fun h => by cases h) (cons_ne_nil _ _)
    | cons y ys =>
      rw [forall_mem_cons] at hxs hys
      rw [forall₂_cons, identifierSame_iff hxs.1 hys.1, ih hxs.2 hys.2, map_cons, map_cons,
        List.cons.injEq]

end Identifiers

/-! ## Versions -/

section Versions

variable {u v : Version} {s t : SpecVersion}

section

variable (h : v.Writes s)
include h

theorem Version.Writes.forall_fits : ∀ name ∈ s.identifiers, Fits name :=
  fun name hname => ⟨h.isIdentifier name hname, h.fits name hname⟩

theorem Version.Writes.splitDots_pre (hne : s.identifiers ≠ []) :
    splitDots v.tag.pre = s.identifiers := by
  rw [splitDots, h.pre]
  refine splitOn_intercalate _ (fun name hname hdot => ?_) hne
  exact absurd ((h.isIdentifier name hname).allowed _ hdot) (by decide)

theorem Version.Writes.hasPre : v.tag.hasPre = true ↔ s.identifiers ≠ [] := by
  rw [hasPre_iff, h.pre, not_iff_not]
  refine ⟨fun hnil => ?_, fun hnil => by rw [hnil]; rfl⟩
  rcases hids : s.identifiers with _ | ⟨x, xs⟩
  · rfl
  · rw [hids] at hnil
    have hx := (h.isIdentifier x (hids ▸ mem_cons_self)).ne_nil
    cases xs with
    | nil => exact absurd (append_nil x ▸ hnil) hx
    | cons y ys => exact absurd (append_eq_nil_iff.1 hnil).1 hx

theorem Version.Writes.rank_eq : v.tag.rank =
    if s.identifiers = [] then ⊤
      else ((s.identifiers.map identifier : List Identifier) : WithTop _) := by
  split
  next hnil =>
    rw [rank_eq_top, ← Bool.not_eq_true, h.hasPre, not_not]
    exact hnil
  next hne => rw [rank_of_hasPre (h.hasPre.2 hne), h.splitDots_pre hne]

end

section

variable (hu : u.Writes s)
include hu

section

variable (hv : v.Writes t)
include hv

theorem prereleaseLower_iff :
    SpecVersion.PrereleaseLower s.identifiers t.identifiers ↔ u.tag.rank < v.tag.rank := by
  rw [hu.rank_eq, hv.rank_eq, SpecVersion.PrereleaseLower]
  by_cases hs : s.identifiers = []
  · rw [if_pos hs]
    exact iff_of_false (fun h => h.1 hs) not_top_lt
  rw [if_neg hs]
  by_cases ht : t.identifiers = []
  · rw [if_pos ht]
    exact iff_of_true ⟨hs, .inl ht⟩ (WithTop.coe_lt_top _)
  · rw [if_neg ht, WithTop.coe_lt_coe, ← identifiersLower_iff hu.forall_fits hv.forall_fits]
    exact ⟨fun h => h.2.resolve_left ht, fun h => ⟨hs, .inr h⟩⟩

theorem lower_iff : s.Lower t ↔ u.precedence < v.precedence := by
  rw [precedence_lt, ← prereleaseLower_iff hu hv, SpecVersion.Lower, Version.triple, Version.triple,
    Prod.Lex.toLex_lt_toLex, Prod.Lex.toLex_lt_toLex, toLex_inj, Prod.mk.injEq, toLex_inj,
    Prod.mk.injEq,
    hu.major, hu.minor, hu.patch, hv.major, hv.minor, hv.patch]
  tauto

theorem forall₂_same_iff_rank :
    List.Forall₂ IdentifierSame s.identifiers t.identifiers ↔ u.tag.rank = v.tag.rank := by
  rw [forall₂_same_iff hu.forall_fits hv.forall_fits, hu.rank_eq, hv.rank_eq]
  by_cases hs : s.identifiers = []
  · rw [if_pos hs, hs, map_nil, eq_comm, map_eq_nil_iff]
    by_cases ht : t.identifiers = []
    · rw [if_pos ht]
      exact iff_of_true ht rfl
    · rw [if_neg ht]
      exact iff_of_false ht (WithTop.coe_ne_top).symm
  rw [if_neg hs]
  by_cases ht : t.identifiers = []
  · rw [if_pos ht, ht, map_nil, map_eq_nil_iff]
    exact iff_of_false hs WithTop.coe_ne_top
  · rw [if_neg ht, WithTop.coe_inj]

theorem same_iff : s.Same t ↔ u.precedence = v.precedence := by
  rw [SpecVersion.Same, forall₂_same_iff_rank hu hv, Version.precedence, Version.precedence,
    toLex_inj,
    Prod.mk.injEq, Version.triple, Version.triple, toLex_inj, Prod.mk.injEq, toLex_inj,
    Prod.mk.injEq,
    hu.major, hu.minor, hu.patch, hv.major, hv.minor, hv.patch]
  tauto

end

end

theorem orderWithoutBuild_ne_gt : u.orderWithoutBuild v ≠ .gt ↔ u.precedence ≤ v.precedence :=
  (not_congr orderWithoutBuild_eq_gt).trans not_lt

theorem orderWithoutBuild_swap (u v : Version) :
    v.orderWithoutBuild u = (u.orderWithoutBuild v).swap := by
  cases h : u.orderWithoutBuild v with
  | lt => exact orderWithoutBuild_eq_gt.2 (orderWithoutBuild_eq_lt.1 h)
  | eq => exact orderWithoutBuild_eq_eq.2 (orderWithoutBuild_eq_eq.1 h).symm
  | gt => exact orderWithoutBuild_eq_lt.2 (orderWithoutBuild_eq_gt.1 h)

/-- The order of versions is a total preorder, and it is the precedence of the specification. -/
theorem orderWithoutBuild_spec :
    (∀ u : Version, u.orderWithoutBuild u = .eq) ∧
    (∀ u v : Version, v.orderWithoutBuild u = (u.orderWithoutBuild v).swap) ∧
    (∀ u v : Version, u.orderWithoutBuild v ≠ .gt → v.orderWithoutBuild u ≠ .gt →
      u.orderWithoutBuild v = .eq) ∧
    (∀ u v w : Version, u.orderWithoutBuild v ≠ .gt → v.orderWithoutBuild w ≠ .gt →
      u.orderWithoutBuild w ≠ .gt) ∧
    ∀ (u v : Version) (s t : SpecVersion), u.Writes s → v.Writes t →
      (u.orderWithoutBuild v = .lt ↔ s.Lower t) ∧ (u.orderWithoutBuild v = .gt ↔ t.Lower s) ∧
      (u.orderWithoutBuild v = .eq ↔ s.Same t) := by
  refine ⟨fun u => orderWithoutBuild_eq_eq.2 rfl, orderWithoutBuild_swap, fun u v h h' => ?_,
    fun u v w h h' => ?_, fun u v s t hu hv => ⟨?_, ?_, ?_⟩⟩
  · rw [orderWithoutBuild_ne_gt] at h h'
    exact orderWithoutBuild_eq_eq.2 (le_antisymm h h')
  · rw [orderWithoutBuild_ne_gt] at h h' ⊢
    exact h.trans h'
  · rw [orderWithoutBuild_eq_lt, lower_iff hu hv]
  · rw [orderWithoutBuild_eq_gt, lower_iff hv hu]
  · rw [orderWithoutBuild_eq_eq, same_iff hu hv]

/-- `1.0.0-alpha.9` and `1.0.0-alpha.beta`. -/
theorem orderWithoutBuild_spec_alpha :
    ({ major := 1, tag := { pre := text "alpha.9" } } : Version).orderWithoutBuild
      { major := 1, tag := { pre := text "alpha.beta" } } = .lt ↔
    SpecVersion.Lower ⟨1, 0, 0, [text "alpha", text "9"]⟩
      ⟨1, 0, 0, [text "alpha", text "beta"]⟩ := by
  have hnames : ∀ name ∈ [text "alpha", text "9", text "beta"], IsIdentifier name := by
    simp only [isIdentifier_iff]
    decide
  refine (orderWithoutBuild_spec.2.2.2.2 _ _ _ _
    ⟨rfl, rfl, rfl, by decide, fun name hname => hnames name ?_, by decide⟩
    ⟨rfl, rfl, rfl, by decide, fun name hname => hnames name ?_, by decide⟩).1
  · exact mem_of_mem_take (i := 2) hname
  · rcases mem_cons.1 hname with rfl | hname
    · exact mem_cons_self
    · exact mem_cons_of_mem _ (mem_cons_of_mem _ hname)

end Versions

end Soup.Semver
