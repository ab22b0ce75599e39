import Soup.Semver.Separated

/-!
# The bars between two ranges

`A || B` should be satisfied by what satisfies `A` and by what satisfies `B`. The parser carries
its state over the bars, but they forget the pending operator and start an alternative, so that
the comparators of `B` land behind those of `A` (`run_union`).

What comes before the bars is read as `A` alone is, unless `A` ends in a loose tag (`satisfies_or`).
-/

namespace Soup.Semver

open List

/-! ## What the groups of a run are -/

theorem satisfies_of_alternatives {g h k : Group}
    (h' : k.alternatives = g.alternatives ++ h.alternatives) (v : Version) :
    k.satisfies v = (g.satisfies v || h.satisfies v) := by
  unfold Group.satisfies Group.listSatisfies Group.listSatisfiesPre
  rw [h']
  split <;> rw [any_append]

variable {g : Group}

theorem orRange_alternatives (hg : g.isEmpty = false) (r : Range) :
    (g.orRange r).alternatives = g.alternatives ++ [{ range := r }] := by
  unfold Group.orRange
  rw [if_neg (by simpa [Group.isEmpty] using hg)]
  rfl

theorem andRange_alternatives {qs : List Query} {q : Query}
    (hg : g.alternatives = qs ++ [q]) (r : Range) :
    (g.andRange r).alternatives = qs ++ [q.andRange r] := by
  unfold Group.alternatives at hg ⊢
  unfold Group.andRange
  rcases eq_nil_or_concat g.next with hnext | ⟨next, last, hnext⟩
  · rw [hnext] at hg ⊢
    obtain ⟨rfl, hq⟩ := append_inj' (show [] ++ [g.head] = qs ++ [q] from hg) rfl
    obtain rfl := singleton_inj.1 hq
    simp
  · rw [concat_eq_append] at hnext
    rw [hnext, ← cons_append] at hg
    obtain ⟨rfl, hq⟩ := append_inj' hg rfl
    obtain rfl := singleton_inj.1 hq
    simp [hnext]

/-- A list that no range has been put in. -/
def Group.Blank (g : Group) : Prop := g.alternatives = [{}]

theorem Group.Blank.isEmpty (hg : g.Blank) : g.isEmpty = true := by
  obtain ⟨hhead, hnext⟩ := cons.inj hg
  simp [Group.isEmpty, hhead, hnext, Range.hasLeft]

theorem Group.Blank.orRange (hg : g.Blank) (r : Range) :
    (g.orRange r).alternatives = [{ range := r }] := by
  obtain ⟨hhead, hnext⟩ := cons.inj hg
  unfold Group.orRange Group.alternatives
  simp [hhead, hnext, Range.hasLeft]

theorem Group.Blank.andRange (hg : g.Blank) (r : Range) :
    (g.andRange r).alternatives = [{ range := r }] := by
  rw [@andRange_alternatives g [] {} hg]
  rfl

/-! ## Behind the bars -/

namespace Parser

/-- The parser `s` has read what `p` has, behind the bars after `queries`. -/
structure Follows (queries : List Query) (p s : Parser) : Prop where
  token : s.token = p.token
  nonempty : s.list.isEmpty = false
  list : p.list.Blank ∧ s.isOr = true ∧ s.list.alternatives = queries ∨
    p.list.isEmpty = false ∧ s.isOr = p.isOr ∧ s.afterComparator = p.afterComparator ∧
      s.list.alternatives = queries ++ p.list.alternatives

section

variable {queries : List Query} {p s : Parser}

section

variable (h : Follows queries p s)
include h

theorem Follows.setTag (tag : TokenTag) :
    Follows queries { p with token.tag := tag } { s with token.tag := tag } where
  token := by rw [h.token]
  nonempty := h.nonempty
  list := h.list

theorem Follows.barred : Follows queries p.barred s.barred where
  token := by
    unfold Parser.barred
    rw [h.token]
  nonempty := h.nonempty
  list := h.list.imp (fun ⟨h₁, _, h₃⟩ => ⟨h₁, rfl, h₃⟩) fun ⟨h₁, _, h₃⟩ => ⟨h₁, rfl, h₃⟩

theorem Follows.round {c : UInt8} {cs : Bytes} (hclean : (p.round c cs).parser.Clean) :
    ∃ s', s.round c cs = { p.round c cs with parser := s' } ∧
      Follows queries (p.round c cs).parser s' := by
  obtain ⟨moved, rest, skipRound, noOperator, hround, hmoves⟩ := round_cases c cs
  rw [hround] at hclean ⊢
  rw [hround]
  cases hmoves with
  | tag => exact ⟨_, rfl, h.setTag _⟩
  | bar => exact ⟨_, rfl, h.barred⟩
  | hyphen | space => exact ⟨_, rfl, h⟩
  | text => cases hclean

/-- A comparator lands behind the ones before it on both sides. -/
theorem Follows.append {range : Range} (hrange : range.hasLeft = true) (afterComparator : Bool) :
    Follows queries (p.append range afterComparator) (s.append range afterComparator) where
  token := by
    unfold Parser.append
    rw [h.token]
  nonempty := append_nonempty hrange _
  list := by
    refine .inr ⟨append_nonempty hrange _, rfl, rfl, ?_⟩
    obtain ⟨hblank, hor, hlist⟩ | ⟨hne, hor, -, hlist⟩ := h.list
    · have hp : (p.append range afterComparator).list.alternatives = [{ range }] := by
        unfold Parser.append
        split
        · exact hblank.orRange range
        · exact hblank.andRange range
      rw [hp]
      unfold Parser.append
      rw [hor]
      exact (orRange_alternatives h.nonempty range).trans (by rw [hlist])
    · unfold Parser.append
      rw [hor]
      split
      · rw [orRange_alternatives h.nonempty, orRange_alternatives hne, hlist, append_assoc]
      · obtain ⟨qs, q, hqs⟩ : ∃ qs q, p.list.alternatives = qs ++ [q] := by
          rcases eq_nil_or_concat p.list.alternatives with hnil | ⟨qs, q, hqs⟩
          · cases hnil
          · exact ⟨qs, q, by rw [hqs, concat_eq_append]⟩
        rw [andRange_alternatives hqs, @andRange_alternatives s.list (queries ++ qs) q
          (by rw [hlist, hqs, append_assoc]), append_assoc]

theorem Follows.setFlags (parsed : ParseResult) :
    Follows queries (p.setFlags parsed) (s.setFlags parsed) where
  token := h.token
  nonempty := h.nonempty
  list := h.list

theorem Follows.read (wildcard : Wildcard) {pOr sOr : Bool}
    (hor : s.afterComparator = p.afterComparator → sOr = pOr) :
    Follows queries { p with token.wildcard := wildcard, isOr := p.isOr || pOr }
      { s with token.wildcard := wildcard, isOr := s.isOr || sOr } where
  token := by rw [h.token]
  nonempty := h.nonempty
  list := by
    obtain ⟨h₁, h₂, h₃⟩ | ⟨h₁, h₂, h₃, h₄⟩ := h.list
    · exact .inl ⟨h₁, by rw [h₂, Bool.true_or], h₃⟩
    · exact .inr ⟨h₁, by rw [h₂, hor h₃], h₃, h₄⟩

omit h in
theorem Follows.comparator {r : Round} (h : Follows queries r.parser s) {rest : Bytes}
    (hp : comparator r {} = some (p, rest)) (hclean : p.Clean) :
    ∃ s', Parser.comparator { r with parser := s } {} = some (s', rest) ∧
      Follows queries p s' := by
  have hvalid := comparator_valid hp hclean
  obtain ⟨hover, ⟨second, hsecond, hover', rfl, rfl⟩ | ⟨hnone, rfl, hskip | ⟨htag, rfl⟩⟩⟩ :=
    comparator_cases hp
  · refine ⟨_, @comparator_of_hyphen { r with parser := s } _ _ second rfl hover hsecond rfl hover',
      ?_⟩
    exact (((h.setFlags _).read _ fun _ => rfl).setFlags _).append rfl _
  · rw [Clean, hskip] at hclean
    cases hclean
  · have htag' : s.token.tag ≠ .none := by
      rw [h.token]
      exact htag
    refine ⟨_, @comparator_of_single { r with parser := s } _ rfl hover hnone htag', ?_⟩
    unfold afterSingle
    simp only [h.token]
    have hleft : (({ r.parser.token with wildcard := (Version.parse r.rest).wildcard } :
        Token).toRange (Version.parse r.rest) {}).hasLeft = true := toRange_hasLeft _ htag hvalid
    refine ((h.setFlags _).read _ fun hafter => ?_).append hleft _
    simp only [Parser.setFlags] at hafter
    rw [hafter]

theorem Follows.step {c : UInt8} {cs rest : Bytes} {p' : Parser}
    (hp : p.step {} c cs = some (p', rest)) (hclean : p'.Clean) :
    ∃ s', s.step {} c cs = some (s', rest) ∧ Follows queries p' s' := by
  unfold Parser.step at hp ⊢
  dsimp only at hp ⊢
  have hround : (p.round c cs).parser.Clean := by
    rw [Clean, ← Bool.not_eq_true]
    intro hskipped
    have hskipped' : p'.list.flags.skipped = true := by
      split at hp
      · cases hp
        exact hskipped
      · exact comparator_skipped hp hskipped
    rw [Clean, hskipped'] at hclean
    cases hclean
  obtain ⟨s', hs', hfollows⟩ := h.round hround
  rw [hs']
  split at hp
  next hskip =>
    cases hp
    exact ⟨s', by rw [if_pos hskip], hfollows⟩
  next hskip =>
    obtain ⟨s'', hs'', hfollows'⟩ := hfollows.comparator hp hclean
    exact ⟨s'', by rw [if_neg hskip, hs''], hfollows'⟩

/-- A whole run behind the bars. -/
theorem run_union {input : Bytes} (hp : p.run input = some g)
    (hg : g.flags.skipped = false) (hne : g.isEmpty = false) :
    ∃ k, s.run input = some k ∧ k.alternatives = queries ++ g.alternatives := by
  induction hn : input.length using Nat.strong_induction_on generalizing p s input with
  | _ n ih =>
    subst hn
    rcases input with _ | ⟨c, cs⟩
    · cases hp
      obtain ⟨hblank, -⟩ | ⟨-, -, -, hlist⟩ := h.list
      · rw [hblank.isEmpty] at hne
        cases hne
      · exact ⟨s.list, rfl, hlist⟩
    · rw [run_cons] at hp ⊢
      rcases hstep : p.step {} c cs with _ | ⟨p', rest⟩
      · rw [hstep] at hp
        cases hp
      rw [hstep] at hp
      have hrun : p'.run rest = some g := hp
      obtain ⟨s', hs', hfollows⟩ := h.step hstep (clean_of_run hrun hg)
      rw [hs']
      exact ih rest.length (Nat.lt_succ_of_le (step_length hstep)) hfollows hrun rfl

end

end

theorem follows_passed {queries : List Query} {q : Parser} (hq : q.list.isEmpty = false)
    (hqueries : q.list.alternatives = queries) (hwildcard : q.token.wildcard = .none)
    (input : Bytes) : Follows queries (({} : Parser).passed input) q.barred where
  token := by
    unfold passed
    split <;> simp [barred, hwildcard]
  nonempty := hq
  list := by
    refine .inl ⟨?_, rfl, hqueries⟩
    rw [passed_list]
    rfl

theorem strip_spaces (n : ℕ) (rest : Bytes) : strip (replicate n (b ' ') ++ rest) = strip rest := by
  induction n with
  | zero => rfl
  | succ n ih => exact ih

theorem strip_bars (k m : ℕ) (c : Bytes) : strip (replicate k (b ' ') ++
    b '|' :: b '|' :: (replicate m (b ' ') ++ c)) = strip c :=
  (strip_spaces k _).trans (strip_spaces m c)

theorem hasBar_bars (k : ℕ) (rest : Bytes) :
    hasBar (replicate k (b ' ') ++ b '|' :: rest) = true := by
  induction k with
  | zero => rfl
  | succ k ih =>
    have hspace : isSeparator (b ' ') = true := rfl
    unfold hasBar at ih ⊢
    rw [replicate_succ, cons_append, takeWhile_cons, if_pos hspace, contains_cons, ih,
      Bool.or_true]

end Parser

/-! ## The law -/

/-- `a || c` with `k` spaces before the bars and `m` spaces behind them. -/
def bars (a : Bytes) (k m : ℕ) (c : Bytes) : Bytes :=
  a ++ (replicate k (b ' ') ++ b '|' :: b '|' :: (replicate m (b ' ') ++ c))

theorem run_of_overflows {a : Bytes} (h : overflows a = false) :
    ({} : Parser).run a = some (parse a) := by
  rcases hrun : ({} : Parser).run a with _ | g
  · unfold Parser.run at hrun
    simp [overflows, hrun] at h
  · rw [Parser.parse_of_run hrun]

/-- The alternatives of `a || c` are those of `a` and those of `c`. -/
theorem bars_alternatives {a c : Bytes} (k m : ℕ) (ha : overflows a = false)
    (hc : overflows c = false) (haskip : (parse a).flags.skipped = false)
    (hcskip : (parse c).flags.skipped = false) (hane : (parse a).isEmpty = false)
    (hcne : (parse c).isEmpty = false) (htag : ¬EndsInLooseTag a) :
    (parse (bars a k m c)).alternatives = (parse a).alternatives ++ (parse c).alternatives := by
  have hopens : Opens [] a := .inl (.inl fun z hz => by cases hz)
  obtain ⟨list, hne, hsame, hends⟩ := Parser.run_append (run_of_overflows ha) haskip rfl hopens
  obtain ⟨q, hq, hwildcard, hrun⟩ :=
    hends _ (Parser.separates_bars k (replicate m (b ' ') ++ c))
  have hpassed : ∀ rest, q.passed (replicate k (b ' ') ++ b '|' :: rest) = q.barred := by
    intro rest
    unfold Parser.passed
    rw [Parser.hasBar_bars, if_pos rfl]
  have hc' := run_of_overflows hc
  rw [Parser.run_strip] at hc'
  obtain ⟨g, hg, hlist⟩ := Parser.run_union (Parser.follows_passed (by rw [hq]; exact hne hane)
    (congrArg _ hq) hwildcard c) hc' hcskip hcne
  rw [Parser.strip_bars, hpassed, hg] at hrun
  rw [bars, Parser.parse_of_run hrun, hlist, hsame htag]

/-- What satisfies `a || c` is what satisfies `a` and what satisfies `c`, where `a` does not end in
a loose tag. -/
theorem satisfies_or (a c : Bytes) (k m : ℕ) (v : Version)
    (ha : overflows a = false) (hc : overflows c = false)
    (haskip : (parse a).flags.skipped = false) (hcskip : (parse c).flags.skipped = false)
    (hane : (parse a).isEmpty = false) (hcne : (parse c).isEmpty = false)
    (htag : ¬EndsInLooseTag a) :
    (parse (bars a k m c)).satisfies v = true ↔
      (parse a).satisfies v = true ∨ (parse c).satisfies v = true := by
  rw [satisfies_of_alternatives (bars_alternatives k m ha hc haskip hcskip hane hcne htag),
    Bool.or_eq_true]

/-- `1.0.0-1a-b` satisfies `1.0.0-1a-b || ^2.0rc-x`. -/
theorem satisfies_or_tag :
    ((parse (bars (text "1.0.0-1a-b") 1 1 (text "^2.0rc-x"))).satisfies
        { major := 1, tag := { pre := text "1a-b" } } = true ↔
      (parse (text "1.0.0-1a-b")).satisfies { major := 1, tag := { pre := text "1a-b" } } = true ∨
        (parse (text "^2.0rc-x")).satisfies { major := 1, tag := { pre := text "1a-b" } } = true) ∧
      (parse (text "1.0.0-1a-b")).satisfies { major := 1, tag := { pre := text "1a-b" } } = true :=
  ⟨satisfies_or (text "1.0.0-1a-b") (text "^2.0rc-x") 1 1
    { major := 1, tag := { pre := text "1a-b" } }
    (by decide +kernel) (by decide +kernel) (by decide +kernel) (by decide +kernel)
    (by decide +kernel) (by decide +kernel) (by decide +kernel), by decide +kernel⟩

/-- `1.0.0rc-x` is satisfied by `1.0.0-x`, and `1.0.0rc-x || 2` is not. -/
theorem satisfies_or_loose_tag :
    ¬∀ (a c : Bytes) (k m : ℕ) (v : Version), overflows a = false → overflows c = false →
      (parse a).flags.skipped = false → (parse c).flags.skipped = false →
      (parse a).isEmpty = false → (parse c).isEmpty = false →
      ((parse (bars a k m c)).satisfies v = true ↔
        (parse a).satisfies v = true ∨ (parse c).satisfies v = true) := by
  intro h
  have hfalse := h (text "1.0.0rc-x") (text "2") 1 1 { major := 1, tag := { pre := text "x" } }
    (by decide +kernel) (by decide +kernel) (by decide +kernel) (by decide +kernel)
    (by decide +kernel) (by decide +kernel)
  revert hfalse
  decide +kernel

end Soup.Semver
