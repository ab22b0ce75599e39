import Soup.Semver.Version
import Soup.Lib.Compare

/-!
# The order of versions

`order_without_build` compares number by number and then identifier by identifier. This file
gives each version a key in a linear order, its `precedence`, and shows that the function
compares the keys (`orderWithoutBuild_compares`). What the code calls equal are versions with
one key : `1.0.0-1` and `1.0.0-01`, or two that differ in their build metadata.
-/

namespace Soup.Semver

open Soup.Lib List

/-- An identifier of a prerelease. A number lies below any text. -/
abbrev Identifier := ℕ ⊕ₗ List ℕ

def identifier (part : Bytes) : Identifier :=
  match parseUnsigned part with
  | some n => toLex (.inl n.toNat)
  | none => toLex (.inr (part.map UInt8.toNat))

/-- The rank of a tag among those of one `major.minor.patch` : no prerelease is the highest. -/
def Tag.rank (t : Tag) : WithTop (List Identifier) :=
  if t.hasPre then ((splitDots t.pre).map identifier : List Identifier) else ⊤

/-- `major.minor.patch`. -/
abbrev Triple := ℕ ×ₗ ℕ ×ₗ ℕ

abbrev Precedence := Triple ×ₗ WithTop (List Identifier)

namespace Version

def triple (v : Version) : Triple := toLex (v.major.toNat, toLex (v.minor.toNat, v.patch.toNat))

def precedence (v : Version) : Precedence := toLex (v.triple, v.tag.rank)

end Version

/-! ## Tags -/

theorem order_compares : ∀ xs ys : Bytes,
    (order xs ys).Compares (xs.map UInt8.toNat) (ys.map UInt8.toNat)
  | [], [] => rfl
  | [], _ :: _ => nil_lt_cons _ _
  | _ :: _, [] => nil_lt_cons _ _
  | x :: xs, y :: ys => by
    rw [map_cons, map_cons]
    exact compares_cons (cmp_compares _ _) (order_compares xs ys)

theorem orderParts_cons (x y : Bytes) (xs ys : List Bytes) :
    ∃ o : Ordering, Tag.orderParts (x :: xs) (y :: ys) = o.then (Tag.orderParts xs ys) ∧
      o.Compares (identifier x) (identifier y) := by
  rw [identifier, identifier]
  conv in Tag.orderParts (x :: xs) (y :: ys) => whnf
  rcases parseUnsigned x with _ | m <;> rcases parseUnsigned y with _ | n
  · exact ⟨_, rfl, compares_inr (order_compares x y)⟩
  · exact ⟨.gt, rfl, Sum.Lex.inl_lt_inr _ _⟩
  · exact ⟨.lt, rfl, Sum.Lex.inl_lt_inr _ _⟩
  · exact ⟨_, rfl, compares_inl (cmp_compares _ _)⟩

theorem orderParts_compares : ∀ xs ys : List Bytes,
    (Tag.orderParts xs ys).Compares (xs.map identifier) (ys.map identifier)
  | [], [] => rfl
  | [], _ :: _ => nil_lt_cons _ _
  | _ :: _, [] => nil_lt_cons _ _
  | x :: xs, y :: ys => by
    obtain ⟨o, ho, hc⟩ := orderParts_cons x y xs ys
    rw [ho, map_cons, map_cons]
    exact compares_cons hc (orderParts_compares xs ys)

theorem hasPre_iff {t : Tag} : t.hasPre = true ↔ t.pre ≠ [] := by
  simp [Tag.hasPre]

theorem rank_eq_top {t : Tag} : t.rank = ⊤ ↔ t.hasPre = false := by
  unfold Tag.rank
  split <;> simp_all

theorem rank_of_hasPre {t : Tag} (h : t.hasPre = true) :
    t.rank = ((splitDots t.pre).map identifier : List Identifier) := if_pos h

theorem tag_orderWithoutBuild_compares {s t : Tag} (h : s.hasPre = t.hasPre) :
    (s.orderWithoutBuild t).Compares s.rank t.rank := by
  unfold Tag.orderWithoutBuild
  cases hs : s.hasPre with
  | true =>
    have ht : t.hasPre = true := by rw [← h, hs]
    rw [if_pos ⟨hasPre_iff.1 hs, hasPre_iff.1 ht⟩, rank_of_hasPre hs, rank_of_hasPre ht]
    exact compares_coe (orderParts_compares _ _)
  | false =>
    have ht : t.hasPre = false := by rw [← h, hs]
    have hs' : s.pre = [] := by simpa [Tag.hasPre] using hs
    have ht' : t.pre = [] := by simpa [Tag.hasPre] using ht
    rw [if_neg (fun hne => hne.1 hs'), rank_eq_top.2 hs, rank_eq_top.2 ht, hs', ht']
    rfl

/-! ## Versions -/

theorem compareNumber (a c : UInt64) (r : Ordering) :
    (if a < c then .lt else if a > c then .gt else r) = (cmp a.toNat c.toNat).then r := by
  have hlt {x y : UInt64} : x < y ↔ x.toNat < y.toNat := UInt64.lt_iff_toNat_lt
  rcases lt_trichotomy a.toNat c.toNat with h | h | h
  · rw [if_pos (hlt.2 h), h.cmp_eq_lt]
    rfl
  · rw [if_neg (hlt.not.2 h.not_lt), if_neg (hlt.not.2 h.symm.not_lt), h.cmp_eq_eq]
    rfl
  · rw [if_neg (hlt.not.2 h.not_gt), if_pos (hlt.2 h), h.cmp_eq_gt]
    rfl

/-- `order_without_tag` compares the triples, and where they are the same a prerelease lies below
what is none. -/
theorem orderWithoutTag_eq (u v : Version) :
    u.orderWithoutTag v =
      ((cmp u.major.toNat v.major.toNat).then
        ((cmp u.minor.toNat v.minor.toNat).then (cmp u.patch.toNat v.patch.toNat))).then
        (if u.tag.hasPre = v.tag.hasPre then .eq else if u.tag.hasPre then .lt else .gt) := by
  unfold Version.orderWithoutTag
  rw [compareNumber, compareNumber, compareNumber, Ordering.then_assoc, Ordering.then_assoc]
  cases u.tag.hasPre <;> cases v.tag.hasPre <;> rfl

theorem orderWithoutBuild_compares (u v : Version) :
    (u.orderWithoutBuild v).Compares u.precedence v.precedence := by
  have htriple := compares_toLex (cmp_compares u.major.toNat v.major.toNat)
    (compares_toLex (cmp_compares u.minor.toNat v.minor.toNat)
      (cmp_compares u.patch.toNat v.patch.toNat))
  have key : ∃ o : Ordering, u.orderWithoutBuild v =
      ((cmp u.major.toNat v.major.toNat).then
        ((cmp u.minor.toNat v.minor.toNat).then (cmp u.patch.toNat v.patch.toNat))).then o ∧
      o.Compares u.tag.rank v.tag.rank := by
    unfold Version.orderWithoutBuild
    rw [orderWithoutTag_eq]
    generalize (cmp u.major.toNat v.major.toNat).then _ = o
    by_cases hpre : u.tag.hasPre = v.tag.hasPre
    · refine ⟨_, ?_, tag_orderWithoutBuild_compares hpre⟩
      rw [if_pos hpre]
      cases o <;> simp
    · rw [if_neg hpre]
      cases hu : u.tag.hasPre with
      | true =>
        have hv : v.tag.hasPre = false := by simpa [hu] using hpre
        refine ⟨.lt, by cases o <;> rfl, ?_⟩
        rw [rank_eq_top.2 hv, rank_of_hasPre hu]
        exact WithTop.coe_lt_top _
      | false =>
        have hv : v.tag.hasPre = true := by simpa [hu] using hpre
        refine ⟨.gt, by cases o <;> rfl, ?_⟩
        rw [rank_eq_top.2 hu, rank_of_hasPre hv]
        exact WithTop.coe_lt_top _
  obtain ⟨o, ho, hc⟩ := key
  rw [ho]
  exact compares_toLex htriple hc

variable {u v : Version}

theorem orderWithoutBuild_eq_lt : u.orderWithoutBuild v = .lt ↔ u.precedence < v.precedence :=
  (orderWithoutBuild_compares u v).eq_lt

theorem orderWithoutBuild_eq_gt : u.orderWithoutBuild v = .gt ↔ v.precedence < u.precedence :=
  (orderWithoutBuild_compares u v).eq_gt

theorem orderWithoutBuild_eq_eq : u.orderWithoutBuild v = .eq ↔ u.precedence = v.precedence :=
  (orderWithoutBuild_compares u v).eq_eq

theorem precedence_lt :
    u.precedence < v.precedence ↔
      u.triple < v.triple ∨ u.triple = v.triple ∧ u.tag.rank < v.tag.rank :=
  Prod.Lex.toLex_lt_toLex

theorem precedence_le :
    u.precedence ≤ v.precedence ↔
      u.triple < v.triple ∨ u.triple = v.triple ∧ u.tag.rank ≤ v.tag.rank :=
  Prod.Lex.toLex_le_toLex

theorem triple_le_of_precedence_le (h : u.precedence ≤ v.precedence) : u.triple ≤ v.triple := by
  rcases precedence_le.1 h with h | ⟨h, -⟩
  · exact h.le
  · exact h.le

theorem hasPre_eq_of_precedence_eq (h : u.precedence = v.precedence) :
    u.tag.hasPre = v.tag.hasPre := by
  have hr : u.tag.rank = v.tag.rank := congrArg (fun p => (ofLex p).2) h
  cases hu : u.tag.hasPre with
  | true =>
    cases hv : v.tag.hasPre with
    | true => rfl
    | false =>
      rw [rank_eq_top.2 hv] at hr
      exact absurd (rank_eq_top.1 hr) (by simp [hu])
  | false =>
    rw [rank_eq_top.2 hu] at hr
    exact (rank_eq_top.1 hr.symm).symm

theorem triple_eq_of_precedence_eq (h : u.precedence = v.precedence) :
    u.triple = v.triple := congrArg (fun p => (ofLex p).1) h

/-- Between a prerelease and a higher version of its triple lie only versions of the triple, and
below a prerelease of it only prereleases. -/
theorem hasPre_of_precedence_le (h : u.precedence ≤ v.precedence)
    (ht : u.triple = v.triple) (hv : v.tag.hasPre = true) : u.tag.hasPre = true := by
  rcases precedence_le.1 h with h | ⟨-, h⟩
  · exact absurd h ht.not_lt
  · by_contra hu
    rw [rank_eq_top.2 (by simpa using hu), top_le_iff, rank_eq_top] at h
    simp [hv] at h

/-! ## The lowest version -/

theorem splitDots_ne_nil (s : Bytes) : splitDots s ≠ [] := by
  unfold splitDots
  exact splitOn_ne_nil _ _

theorem zero_le_rank (t : Tag) : Tag.ZERO_PRE.rank ≤ t.rank := by
  cases ht : t.hasPre with
  | false =>
    rw [rank_eq_top.2 ht]
    exact le_top
  | true =>
    rw [rank_of_hasPre ht, rank_of_hasPre (t := .ZERO_PRE) rfl, WithTop.coe_le_coe]
    have hz : (splitDots Tag.ZERO_PRE.pre).map identifier = [toLex (.inl 0)] := rfl
    rw [hz]
    obtain ⟨x, xs, hx⟩ := exists_cons_of_ne_nil (splitDots_ne_nil t.pre)
    rw [hx, map_cons]
    have hle : (toLex (.inl 0) : Identifier) ≤ identifier x := by
      unfold identifier
      split
      · exact Sum.Lex.inl_le_inl_iff.2 (Nat.zero_le _)
      · exact Sum.Lex.inl_le_inr _ _
    rcases hle.lt_or_eq with h | h
    · exact (cons_lt_cons_iff.2 (Or.inl h)).le
    · rw [← h]
      refine not_lt.1 fun hlt => ?_
      rcases cons_lt_cons_iff.1 hlt with h' | ⟨-, h'⟩
      · exact lt_irrefl _ h'
      · exact not_lt_nil _ h'

theorem zero_triple_le (v : Version) : (toLex (0, toLex (0, 0)) : Triple) ≤ v.triple := by
  refine not_lt.1 fun hlt => ?_
  simp [Version.triple, Prod.Lex.toLex_lt_toLex] at hlt

/-- `0.0.0-0` is the lowest version. -/
theorem precedence_zero_le {u : Version} (hu : u.triple = toLex (0, toLex (0, 0)))
    (ht : u.tag = Tag.ZERO_PRE) (v : Version) : u.precedence ≤ v.precedence := by
  rw [precedence_le, hu, ht]
  rcases (zero_triple_le v).lt_or_eq with h | h
  · exact Or.inl h
  · exact Or.inr ⟨h, zero_le_rank _⟩

end Soup.Semver
