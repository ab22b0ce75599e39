import Soup.Semver.Run
import Soup.Semver.Terminated

/-!
# What the parser reads before a separator

The bars of `A || B` are reached by a parser that has read `A` and a separator (`run_append`). That
is what it reads from `A` alone, except for a loose tag : `1.0.0rc-x` is `1.0.0-x`, but before a
space or a bar it is `1.0.0-rc-x`.
-/

namespace Soup.Semver

open List Option Token

/-! ## Ranges of valid versions -/

variable {g : Group}

theorem orRange_nonempty {r : Range} (hr : r.hasLeft = true) : (g.orRange r).isEmpty = false := by
  unfold Group.orRange
  split
  · simp [Group.isEmpty, hr]
  · simp [Group.isEmpty]

theorem andRange_nonempty {r : Range} (hr : r.hasLeft = true) : (g.andRange r).isEmpty = false := by
  unfold Group.andRange
  split
  next hlast =>
    have hnext : g.next = [] := getLast?_eq_none_iff.1 hlast
    unfold Query.andRange
    split
    · simp [Group.isEmpty, hr]
    · simp [Group.isEmpty, hnext]
  · simp [Group.isEmpty]

theorem initWildcard_hasLeft (version : Version) (wildcard : Wildcard) (floor : Tag) :
    (Range.initWildcard version wildcard floor).hasLeft = true := by
  cases wildcard with
  | none => rfl
  | major => rfl
  | minor => simpa [Range.initWildcard, Range.hasLeft] using ltNextMajor_set _
  | patch => simpa [Range.initWildcard, Range.hasLeft] using ltNextMinor_set _ _

theorem xRange_hasLeft {op : Op} (hop : op ≠ .unset) (wildcard : Wildcard) (parsed : ParseResult)
    (floor : Tag) : (xRange op wildcard parsed floor).hasLeft = true := by
  unfold xRange
  split
  · simpa [Range.hasLeft] using hop
  · split
    · rfl
    · exact initWildcard_hasLeft _ _ _
  · rfl
  · rfl
  · simpa [Range.hasLeft] using gteNextMajor_set _ _
  · simpa [Range.hasLeft] using gteNextMinor_set _ _ _
  · simpa [Range.hasLeft] using ltNextMajor_set _
  · simpa [Range.hasLeft] using ltNextMinor_set _ _

variable {parsed : ParseResult}

theorem toRange_hasLeft {token : Token} (floor : Tag)
    (htag : token.tag ≠ .none) (hvalid : parsed.valid = true) :
    (token.toRange parsed floor).hasLeft = true := by
  rcases token with ⟨tag, wildcard⟩
  rcases parsed with ⟨w, valid, o, ⟨_ | major, _ | minor, _ | patch, t⟩, len⟩ <;>
    obtain rfl : valid = true := hvalid
  all_goals
    cases tag
    case none => exact absurd rfl htag
    case gt => exact xRange_hasLeft (by simp) _ _ _
    case gte => exact xRange_hasLeft (by simp) _ _ _
    case lt => exact xRange_hasLeft (by simp) _ _ _
    case lte => exact xRange_hasLeft (by simp) _ _ _
    case version =>
      simp only [toRange]
      split
      · exact initWildcard_hasLeft _ _ _
      · rfl
    case tilda => rfl
    case caret =>
      first
        | rfl
        | (simp only [toRange, caretRange]; split <;> rfl)

/-- No range takes the tag of a version without a third part. -/
theorem toRange_tag (token : Token) (tag floor : Tag)
    (hwildcard : parsed.wildcard = .patch) (hpatch : parsed.version.patch = none) :
    ({ token with wildcard := parsed.wildcard } : Token).toRange
        { parsed with version.tag := tag } floor =
      ({ token with wildcard := parsed.wildcard } : Token).toRange parsed floor := by
  rcases parsed with ⟨w, valid, o, ⟨major, minor, patch, t⟩, len⟩
  obtain rfl : w = .patch := hwildcard
  obtain rfl : patch = none := hpatch
  rcases token with ⟨_ | _ | _ | _ | _ | _ | _ | _, w⟩ <;> rfl

variable {second : ParseResult}

theorem hyphenRange_tag (first : ParseResult) (tag floor : Tag)
    (hwildcard : second.wildcard = .patch) :
    Parser.hyphenRange first { second with version.tag := tag } floor =
      Parser.hyphenRange first second floor := by
  unfold Parser.hyphenRange
  rw [hwildcard]
  rfl

theorem orRange_flags (g : Group) (flags flags' : Flags) (r : Range) :
    (({ g with flags } : Group).orRange r).alternatives =
      (({ g with flags := flags' } : Group).orRange r).alternatives := by
  unfold Group.orRange
  cases g.next.isEmpty && g.head.next.isEmpty && !g.head.range.hasLeft <;> rfl

theorem andRange_flags (g : Group) (flags flags' : Flags) (r : Range) :
    (({ g with flags } : Group).andRange r).alternatives =
      (({ g with flags := flags' } : Group).andRange r).alternatives := by
  unfold Group.andRange
  cases g.next.getLast? <;> rfl

/-! ## What has been skipped stays skipped -/

variable {r : Round} {p : Parser} {rest cs input : Bytes} {c : UInt8}

namespace Parser

/-- Nothing has been passed over so far. -/
def Clean (p : Parser) : Prop := p.list.flags.skipped = false

theorem flags_append (p : Parser) (r : Range) (afterComparator : Bool) :
    (p.append r afterComparator).list.flags = p.list.flags := by
  unfold append Group.orRange Group.andRange
  split
  · split <;> rfl
  · split <;> rfl

theorem round_skipped (p : Parser) (c : UInt8) (cs : Bytes)
    (h : p.list.flags.skipped = true) : (p.round c cs).parser.list.flags.skipped = true := by
  obtain ⟨moved, rest, skipRound, noOperator, hround, hmoves⟩ := round_cases c cs
  rw [hround]
  cases hmoves <;> first | exact h | rfl

/-- The parser after a round that has read `first`, where no hyphen follows. -/
def afterSingle (r : Round) (first : ParseResult) (space : Bool) : Parser :=
  ({ r.parser.setFlags first with
      token.wildcard := first.wildcard
      isOr := r.parser.isOr ||
        (r.noOperator && !(r.parser.afterComparator && first.valid)) } : Parser).append
    (({ r.parser.token with wildcard := first.wildcard } : Token).toRange first {})
    (first.valid && space)

/-- The parser after a round that has read `first - second`. -/
def afterHyphen (r : Round) (first second : ParseResult) : Parser :=
  (({ r.parser.setFlags first with
      token.wildcard := first.wildcard
      isOr := r.parser.isOr || r.noOperator } : Parser).setFlags second).append
    (hyphenRange first second {}) false

theorem comparator_of_hyphen {r : Round} {first second : ParseResult} {rest : Bytes}
    (hfirst : Version.parse r.rest = first) (hover : first.overflow = false)
    (hrest : hyphenate (r.rest.drop first.len) = some rest)
    (hsecond : Version.parse rest = second) (hover' : second.overflow = false) :
    comparator r {} = some (afterHyphen r first second, rest.drop (second.len + 1)) := by
  subst hfirst hsecond
  unfold comparator
  rw [if_neg (by simp [hover])]
  simp only [hrest]
  rw [if_neg (by simp [hover'])]
  rfl

theorem comparator_of_single {r : Round} {first : ParseResult}
    (hfirst : Version.parse r.rest = first) (hover : first.overflow = false)
    (hnone : hyphenate (r.rest.drop first.len) = none) (htag : r.parser.token.tag ≠ .none) :
    comparator r {} = some (afterSingle r first ((r.rest.drop first.len).head? = some (b ' ')),
      (r.rest.drop first.len).drop 1) := by
  subst hfirst
  unfold comparator
  rw [if_neg (by simp [hover])]
  simp only [hnone]
  rw [if_neg (by simpa [setFlags] using htag)]
  rfl

/-- A round that reads versions, step by step. -/
theorem comparator_cases (h : comparator r {} = some (p, rest)) :
    (Version.parse r.rest).overflow = false ∧
      ((∃ second, hyphenate (r.rest.drop (Version.parse r.rest).len) = some second ∧
          (Version.parse second).overflow = false ∧
          p = afterHyphen r (Version.parse r.rest) (Version.parse second) ∧
          rest = second.drop ((Version.parse second).len + 1)) ∨
        hyphenate (r.rest.drop (Version.parse r.rest).len) = none ∧
          rest = (r.rest.drop (Version.parse r.rest).len).drop 1 ∧
          (p.list.flags.skipped = true ∨ r.parser.token.tag ≠ .none ∧
            p = afterSingle r (Version.parse r.rest)
              ((r.rest.drop (Version.parse r.rest).len).head? = some (b ' ')))) := by
  unfold comparator at h
  dsimp only at h
  split at h
  · cases h
  next hover =>
    refine ⟨by simpa using hover, ?_⟩
    split at h
    next second hsecond =>
      split at h
      · cases h
      next hover' =>
        cases h
        exact .inl ⟨second, hsecond, by simpa using hover', rfl, rfl⟩
    next hnone =>
      refine .inr ⟨hnone, ?_⟩
      split at h
      next htag =>
        cases h
        exact ⟨rfl, .inl rfl⟩
      next htag =>
        cases h
        exact ⟨rfl, .inr ⟨htag, rfl⟩⟩

theorem afterSingle_skipped (r : Round) (first : ParseResult) (space : Bool) :
    (afterSingle r first space).list.flags.skipped =
      (r.parser.list.flags.skipped || !first.valid) := by
  unfold afterSingle
  rw [flags_append]
  rfl

theorem afterHyphen_skipped (r : Round) (first second : ParseResult) :
    (afterHyphen r first second).list.flags.skipped =
      (r.parser.list.flags.skipped || !first.valid || !second.valid) := by
  unfold afterHyphen
  rw [flags_append]
  rfl

theorem comparator_skipped (h : comparator r {} = some (p, rest))
    (hr : r.parser.list.flags.skipped = true) : p.list.flags.skipped = true := by
  obtain ⟨-, ⟨second, -, -, rfl, -⟩ | ⟨-, -, hp | ⟨-, rfl⟩⟩⟩ := comparator_cases h
  · rw [afterHyphen_skipped, hr]
    rfl
  · exact hp
  · rw [afterSingle_skipped, hr]
    rfl

theorem step_skipped {p' : Parser} (h : p.step {} c cs = some (p', rest))
    (hp : p.list.flags.skipped = true) : p'.list.flags.skipped = true := by
  have hround := round_skipped p c cs hp
  unfold step at h
  dsimp only at h
  split at h
  · cases h
    exact hround
  · exact comparator_skipped h hround

theorem run_skipped (h : p.run input = some g) (hp : p.list.flags.skipped = true) :
    g.flags.skipped = true := by
  induction hn : input.length using Nat.strong_induction_on generalizing p input with
  | _ n ih =>
    subst hn
    rcases input with _ | ⟨c, cs⟩
    · cases h
      exact hp
    · rw [run_cons] at h
      split at h
      · cases h
      next p' rest hstep =>
        exact ih rest.length (Nat.lt_succ_of_le (step_length hstep)) h (step_skipped hstep hp) rfl

theorem clean_of_run (h : p.run input = some g) (hg : g.flags.skipped = false) : p.Clean := by
  rw [Clean, ← Bool.not_eq_true]
  intro hp
  rw [run_skipped h hp] at hg
  cases hg

end Parser

/-! ## What follows a range -/

namespace Parser

/-- `tail` is a space, or spaces and two bars. -/
structure Separates (tail : Bytes) : Prop where
  terminated : Terminated tail
  white : ∀ c cs, skipWhitespace tail = c :: cs → c = b '|'
  strip_drop : strip (tail.drop 1) = strip tail
  hasBar_drop : hasBar (tail.drop 1) = hasBar tail

theorem isWhitespaceChar_space : isWhitespaceChar (b ' ') = true := by decide

theorem separates_bars (n : ℕ) (rest : Bytes) :
    Separates (replicate n (b ' ') ++ b '|' :: b '|' :: rest) where
  terminated := by
    rcases n with _ | n
    · exact .inr rfl
    · exact .inl rfl
  white := by
    intro c cs h
    induction n with
    | zero =>
      cases h
      rfl
    | succ n ih =>
      refine ih ?_
      rw [replicate_succ, cons_append, skipWhitespace, dropWhile_cons,
        if_pos isWhitespaceChar_space] at h
      exact h
  strip_drop := by
    rcases n with _ | n <;> rfl
  hasBar_drop := by
    rcases n with _ | n
    · rfl
    · simp only [replicate_succ, cons_append, drop_succ_cons, drop_zero]
      unfold hasBar
      simp +decide [isSeparator]

theorem dropWhile_append_cases (p : UInt8 → Bool) (xs ys : Bytes) :
    (xs.dropWhile p = [] ∧ (xs ++ ys).dropWhile p = ys.dropWhile p) ∨
      ∃ c cs, xs.dropWhile p = c :: cs ∧ (xs ++ ys).dropWhile p = c :: cs ++ ys := by
  rw [dropWhile_append]
  cases h : xs.dropWhile p with
  | nil => exact .inl ⟨rfl, by simp⟩
  | cons c cs => exact .inr ⟨c, cs, rfl, by simp⟩

theorem skipWhitespace_append (xs tail : Bytes) :
    skipWhitespace xs = [] ∧ skipWhitespace (xs ++ tail) = skipWhitespace tail ∨
      ∃ c cs, skipWhitespace xs = c :: cs ∧ skipWhitespace (xs ++ tail) = c :: (cs ++ tail) :=
  dropWhile_append_cases isWhitespaceChar xs tail

theorem skipWhitespace_bar (cs : Bytes) : skipWhitespace (b '|' :: cs) = b '|' :: cs :=
  dropWhile_cons_of_neg (by decide)

variable {tail : Bytes}

theorem hyphenateAt_append (ht : Separates tail) (rest : Bytes) :
    hyphenateAt (rest ++ tail) = (hyphenateAt rest).map (· ++ tail) := by
  have hnil {xs : Bytes} (h : skipWhitespace xs = []) : hyphenateAt xs = none := by
    cases xs with
    | nil => rfl
    | cons x xs =>
      rw [hyphenateAt, h]
      exact fun h => by cases h
  have hcons {xs es : Bytes} {e : UInt8} (h : skipWhitespace xs = e :: es) :
      hyphenateAt xs = if isAsciiDigit e ∨ isWildcardChar e then some (e :: es) else none := by
    cases xs with
    | nil => cases h
    | cons x xs =>
      rw [hyphenateAt, h]
      exact fun h => by cases h
  rcases skipWhitespace_append rest tail with ⟨h, h'⟩ | ⟨c, cs, h, h'⟩
  · rw [hnil h]
    rcases hs : skipWhitespace tail with _ | ⟨d, ds⟩
    · exact hnil (h'.trans hs)
    · obtain rfl := ht.white d ds hs
      exact hcons (h'.trans hs)
  · rw [hcons h, hcons h']
    split <;> rfl

/-- The lookahead for a hyphen does not see past a separator. -/
theorem hyphenate_append (hrest : rest ≠ []) (ht : Separates tail) :
    hyphenate (rest ++ tail) = (hyphenate rest).map (· ++ tail) := by
  obtain ⟨r, rs, rfl⟩ := exists_cons_of_ne_nil hrest
  have hhead : (r :: rs ++ tail).head? = (r :: rs).head? := rfl
  unfold hyphenate
  rw [hhead]
  split
  · rcases skipWhitespace_append (r :: rs) tail with ⟨h, h'⟩ | ⟨c, cs, h, h'⟩
    · rw [h, h']
      rcases hs : skipWhitespace tail with _ | ⟨d, ds⟩
      · rfl
      · obtain rfl := ht.white d ds hs
        rfl
    · rw [h, h']
      simp only
      split
      · rfl
      rcases skipWhitespace_append cs tail with ⟨h, h'⟩ | ⟨d, ds, h, h'⟩
      · rw [h, h']
        rcases hs : skipWhitespace tail with _ | ⟨d, ds⟩
        · rfl
        · obtain rfl := ht.white d ds hs
          have hat : hyphenateAt (b '|' :: ds) = none := by
            unfold hyphenateAt
            rw [skipWhitespace_bar]
            rfl
          exact hat
      · rw [h, h']
        simp only
        rw [← hyphenateAt_append ht]
        split <;> rfl
  · rfl

/-- After a version that ends where a separator starts there is no hyphen. -/
theorem hyphenate_separates (ht : Separates tail) : hyphenate tail = none := by
  unfold hyphenate
  split
  · rcases hs : skipWhitespace tail with _ | ⟨d, ds⟩
    · rfl
    · obtain rfl := ht.white d ds hs
      rfl
  · rfl

theorem isLeading_of_white {c : UInt8} (h : isWhitespaceChar c = true) : isLeading c = true := by
  rw [isLeading, h, Bool.true_or, Bool.true_or]

theorem exists_white (xs : Bytes) : ∃ white, xs = white ++ skipWhitespace xs ∧
    (∀ c ∈ white, isWhitespaceChar c = true) ∧ white = xs.takeWhile isWhitespaceChar :=
  ⟨_, takeWhile_append_dropWhile.symm, fun _ hc => mem_takeWhile_imp hc, rfl⟩

theorem hyphenateAt_eq {second : Bytes} (h : hyphenateAt rest = some second) :
    skipWhitespace rest = second := by
  unfold hyphenateAt at h
  split at h
  · cases h
  · split at h
    · cases h
    next e es hes =>
      split at h
      · rw [hes, some.inj h]
      · cases h

/-- What stands before the second version, where no hyphen follows the first one at once. -/
theorem hyphenate_spec {second : Bytes} (h : hyphenate rest = some second)
    (hdash : rest.head? ≠ some (b '-')) :
    ∃ white lead, rest = white ++ b '-' :: (lead ++ second) ∧
      (∃ z ∈ white.getLast?, isWhitespaceChar z = true) ∧ ∀ d ∈ lead, isLeading d = true := by
  unfold hyphenate at h
  split at h
  next hor =>
    have hspace := hor.resolve_right hdash
    obtain ⟨white, hrest, hwhite, htake⟩ := exists_white rest
    have hne : white ≠ [] := by
      rw [htake]
      intro hnil
      obtain ⟨cs, hcs⟩ := head?_eq_some_iff.1 hspace
      rw [hcs, takeWhile_cons, if_pos isWhitespaceChar_space] at hnil
      cases hnil
    split at h
    next c cs hc =>
      split at h
      · cases h
      next hne' =>
        rw [not_not] at hne'
        split at h
        · cases h
        next d ds hd =>
          obtain ⟨lead, hlead, hall, -⟩ := exists_white cs
          refine ⟨white, ?_⟩
          have hlast : ∃ z ∈ white.getLast?, isWhitespaceChar z = true :=
            ⟨white.getLast hne, getLast?_eq_getLast_of_ne_nil hne, hwhite _ (getLast_mem hne)⟩
          obtain ⟨more, hmore, hmoreWhite, -⟩ :=
            exists_white (if d = b 'v' ∨ d = b '=' then ds else d :: ds)
          rw [hyphenateAt_eq h] at hmore
          rw [hc, hne'] at hrest
          rw [hd] at hlead
          have hlead' : ∀ e ∈ lead ++ more, isLeading e = true := forall_mem_append.2
            ⟨fun e he => isLeading_of_white (hall e he),
              fun e he => isLeading_of_white (hmoreWhite e he)⟩
          split at hmore
          next hv =>
            refine ⟨lead ++ d :: more, ?_, hlast, ?_⟩
            · rw [hrest, hlead, hmore, append_assoc, cons_append]
            · rw [forall_mem_append] at hlead'
              refine forall_mem_append.2 ⟨hlead'.1, forall_mem_cons.2 ⟨?_, hlead'.2⟩⟩
              rcases hv with rfl | rfl <;> rfl
          next hv =>
            exact ⟨lead ++ more, by rw [hrest, hlead, hmore, append_assoc], hlast, hlead'⟩
    · cases h
  · cases h

/-- The second version starts behind the hyphen. -/
theorem starts_of_hyphen {second front : Bytes} (h : hyphenate rest = some second)
    (hdash : rest.head? ≠ some (b '-')) :
    ∃ taken, rest = taken ++ second ∧ Starts (front ++ taken) := by
  obtain ⟨white, lead, hrest, ⟨z, hz, hwhite⟩, hlead⟩ := hyphenate_spec h hdash
  refine ⟨white ++ b '-' :: lead, by rw [hrest, append_assoc, cons_append],
    front ++ white ++ [b '-'], lead, ?_, .inr ⟨getLast?_concat, .inl fun y hy => ?_⟩, hlead⟩
  · simp only [append_assoc, singleton_append]
  · rw [dropLast_concat, getLast?_append, mem_def.1 hz, some_or, mem_some_iff] at hy
    exact .inl (hy ▸ hwhite)

theorem hyphenate_cons_of_ne {d : UInt8} (h₁ : d ≠ b ' ') (h₂ : d ≠ b '-') :
    hyphenate (d :: cs) = none := by
  unfold hyphenate
  rw [if_neg (by simp [h₁, h₂])]

/-! ## A round before a separator -/

theorem append_nonempty {range : Range} (h : range.hasLeft = true) (afterComparator : Bool) :
    (p.append range afterComparator).list.isEmpty = false := by
  unfold append
  split
  · exact orRange_nonempty h
  · exact andRange_nonempty h

/-- With whatever separator the input goes on, the round ends at it and leaves the list `list`. -/
def EndsWith (round : Bytes → Option (Parser × Bytes)) (list : Group) : Prop :=
  ∀ tail, Separates tail → ∃ q rest, round tail = some (q, rest) ∧ q.list = list ∧
    q.token.wildcard = .none ∧ strip rest = strip tail ∧ hasBar rest = hasBar tail

variable {xs : Bytes}

/-- What is dropped after a version that ends where the input goes on. -/
theorem drop_succ_append {back : ℕ} (ht : Separates tail)
    (hback : back = 0 ∨ back = 1 ∧ tail.head? = some (b '|') ∧
      ∃ front d, input = front ++ [d] ∧ d ≠ b ' ' ∧ d ≠ b '-') :
    strip ((input ++ tail).drop (input.length - back + 1)) = strip tail ∧
      hasBar ((input ++ tail).drop (input.length - back + 1)) = hasBar tail := by
  rcases hback with rfl | ⟨rfl, -, front, d, rfl, -, -⟩
  · have hdrop : (input ++ tail).drop (input.length - 0 + 1) = tail.drop 1 := by
      rw [drop_append]
      simp
    rw [hdrop]
    exact ⟨ht.strip_drop, ht.hasBar_drop⟩
  · have hdrop : (front ++ [d] ++ tail).drop ((front ++ [d]).length - 1 + 1) = tail := by
      rw [drop_append]
      simp
    rw [hdrop]
    exact ⟨rfl, rfl⟩

/-- No hyphen follows a version that ends where the input goes on. -/
theorem hyphenate_drop_append {back : ℕ} (ht : Separates tail)
    (hback : back = 0 ∨ back = 1 ∧ tail.head? = some (b '|') ∧
      ∃ front d, input = front ++ [d] ∧ d ≠ b ' ' ∧ d ≠ b '-') :
    hyphenate ((input ++ tail).drop (input.length - back)) = none := by
  rcases hback with rfl | ⟨rfl, -, front, d, rfl, hd₁, hd₂⟩
  · have hdrop : (input ++ tail).drop (input.length - 0) = tail := by
      rw [drop_append]
      simp
    rw [hdrop]
    exact hyphenate_separates ht
  · have hdrop : (front ++ [d] ++ tail).drop ((front ++ [d]).length - 1) = d :: tail := by
      simp
    rw [hdrop]
    exact hyphenate_cons_of_ne hd₁ hd₂

theorem afterHyphen_tag (r : Round) (first second : ParseResult) (tag : Tag) (len : ℕ) :
    (afterHyphen r first { second with version.tag := tag, len }).list =
      (afterHyphen r first { second with version.tag := tag }).list := rfl

theorem afterSingle_space (r : Round) (first : ParseResult) (space : Bool) :
    (afterSingle r first space).list = (afterSingle r first false).list := rfl

/-- The tag only changes the flags. -/
theorem afterHyphen_alternatives (r : Round) (first : ParseResult) (tag : Tag)
    (hwildcard : second.wildcard = .patch) :
    (afterHyphen r first { second with version.tag := tag }).list.alternatives =
      (afterHyphen r first second).list.alternatives := by
  unfold afterHyphen append
  rw [hyphenRange_tag first tag {} hwildcard]
  dsimp only [Parser.setFlags]
  cases r.parser.isOr || r.noOperator
  · exact andRange_flags r.parser.list _ _ _
  · exact orRange_flags r.parser.list _ _ _

theorem afterSingle_alternatives (r : Round) {first : ParseResult} (tag : Tag) (space : Bool)
    (hwildcard : first.wildcard = .patch) (hpatch : first.version.patch = none) :
    (afterSingle r { first with version.tag := tag } false).list.alternatives =
      (afterSingle r first space).list.alternatives := by
  unfold afterSingle append
  dsimp only [Parser.setFlags]
  rw [toRange_tag r.parser.token tag {} hwildcard hpatch]
  cases r.parser.isOr || (r.noOperator && !(r.parser.afterComparator && first.valid))
  · exact andRange_flags r.parser.list _ _ _
  · exact orRange_flags r.parser.list _ _ _

theorem afterSingle_tag (r : Round) (first : ParseResult) (tag : Tag) (len : ℕ) (space : Bool) :
    (afterSingle r { first with version.tag := tag, len } space).list =
      (afterSingle r { first with version.tag := tag } false).list := rfl

/-- With whatever separator `input` goes on, the round leaves `p` and `rest`, where the next round
may be taken. -/
def GoesOn (before input : Bytes) (round : Bytes → Option (Parser × Bytes)) (p : Parser)
    (rest : Bytes) : Prop :=
  ∃ taken, input = taken ++ rest ∧ Opens (before ++ taken) rest ∧
    ∀ tail, Separates tail → round tail = some (p, rest ++ tail)

/-- With whatever separator `input` goes on, the round ends at it and leaves the alternatives of
`p`, but for a loose tag at the end of `input`. -/
def Finishes (before input : Bytes) (round : Bytes → Option (Parser × Bytes)) (p : Parser)
    (rest : Bytes) : Prop :=
  rest = [] ∧ ∃ list : Group, list.isEmpty = false ∧
    (¬EndsInLooseTag (before ++ input) → list.alternatives = p.list.alternatives) ∧
    EndsWith round list

variable {front before : Bytes}

/-- A separator behind the second version of `first - second`. -/
theorem afterHyphen_append {first : ParseResult} {second taken : Bytes}
    (hover : first.overflow = false)
    (hfirst : ∀ tail, Separates tail → Version.parse (r.rest ++ tail) = first)
    (hsecond : ∀ tail, Separates tail →
      hyphenate ((r.rest ++ tail).drop first.len) = some (second ++ tail))
    (hrest : r.rest = taken ++ second) (hstarts : Starts (front ++ taken))
    (hvalid' : (Version.parse second).valid = true)
    (hover' : (Version.parse second).overflow = false) :
    GoesOn front r.rest (fun tail => comparator { r with rest := r.rest ++ tail } {})
        (afterHyphen r first (Version.parse second))
        (second.drop ((Version.parse second).len + 1)) ∨
      Finishes front r.rest (fun tail => comparator { r with rest := r.rest ++ tail } {})
        (afterHyphen r first (Version.parse second))
        (second.drop ((Version.parse second).len + 1)) := by
  have hround : ∀ tail, Separates tail → ∀ parsed, Version.parse (second ++ tail) = parsed →
      parsed.overflow = false → comparator { r with rest := r.rest ++ tail } {} =
        some (afterHyphen r first parsed, (second ++ tail).drop (parsed.len + 1)) := by
    intro tail ht parsed hparsed hover''
    exact comparator_of_hyphen (hfirst tail ht) hover (hsecond tail ht) hparsed hover''
  have happend := version_append hvalid' hover'
  generalize Version.parse second = parsed at *
  rcases happend with ⟨hlen, hstops, hparse⟩ | ⟨hlen, tag, htag, hparse⟩
  · refine .inl ⟨taken ++ second.take (parsed.len + 1), ?_, ?_, fun tail ht => ?_⟩
    · rw [hrest, append_assoc, take_append_drop]
    · rw [← append_assoc]
      exact hstops.opens _
    · dsimp only
      rw [hround tail ht parsed (hparse tail ht.terminated) hover', drop_append_of_le_length hlen]
  · refine .inr ⟨by rw [hlen, drop_eq_nil_of_le (Nat.le_succ _)],
      (afterHyphen r first { parsed with version.tag := tag }).list, ?_, ?_, ?_⟩
    · exact append_nonempty rfl _
    · intro hloose
      rcases htag with rfl | hends | ⟨hwildcard, -⟩
      · rfl
      · rw [hrest, ← append_assoc] at hloose
        exact absurd (hstarts.ends hends) hloose
      · exact afterHyphen_alternatives r first tag hwildcard
    · intro tail ht
      obtain ⟨back, hp, hback⟩ := hparse tail ht.terminated
      exact ⟨_, _, hround tail ht _ hp hover', afterHyphen_tag r first parsed tag _, rfl,
        drop_succ_append ht hback⟩

section

variable (h : comparator r {} = some (p, rest))
include h

theorem comparator_valid (hclean : p.Clean) : (Version.parse r.rest).valid = true := by
  obtain ⟨-, ⟨second, -, -, rfl, -⟩ | ⟨-, -, hp | ⟨-, rfl⟩⟩⟩ := comparator_cases h
  · rw [Clean, afterHyphen_skipped] at hclean
    simp only [Bool.or_eq_false_iff, Bool.not_eq_false'] at hclean
    exact hclean.1.2
  · rw [Clean, hp] at hclean
    cases hclean
  · rw [Clean, afterSingle_skipped] at hclean
    simp only [Bool.or_eq_false_iff, Bool.not_eq_false'] at hclean
    exact hclean.2

/-- A round that reads versions, before a separator: it reads the same, or it ends there. -/
theorem comparator_append (hclean : p.Clean) (hstarts : Starts front) :
    GoesOn front r.rest (fun tail => comparator { r with rest := r.rest ++ tail } {}) p rest ∨
      Finishes front r.rest (fun tail => comparator { r with rest := r.rest ++ tail } {}) p
        rest := by
  obtain ⟨hover, hcases⟩ := comparator_cases h
  have hvalid := comparator_valid h hclean
  have happend := version_append hvalid hover
  clear h
  generalize hfirst : Version.parse r.rest = first at *
  rcases happend with ⟨hlen, hstops, hparse⟩ | ⟨hlen, tag, htag, hparse⟩
  · -- the first version ends inside the input
    have hdrop : ∀ tail : Bytes, (r.rest ++ tail).drop first.len = r.rest.drop first.len ++ tail :=
      fun tail => drop_append_of_le_length (le_of_lt hlen)
    have hne : r.rest.drop first.len ≠ [] := by
      intro hnil
      have := drop_eq_nil_iff.1 hnil
      omega
    rcases hcases with ⟨second, hsecond, hover', rfl, rfl⟩ | ⟨hnone, rfl, hp | ⟨htok, rfl⟩⟩
    · have hdash : (r.rest.drop first.len).head? ≠ some (b '-') := by
        rw [head?_drop]
        exact hstops.ne_dash
      obtain ⟨taken, htaken, hstarts'⟩ :=
        @starts_of_hyphen _ second (front ++ r.rest.take first.len) hsecond hdash
      rw [append_assoc] at hstarts'
      refine afterHyphen_append hover (fun tail ht => hparse tail ht.terminated) ?_ ?_ hstarts' ?_
        hover'
      · intro tail ht
        rw [hdrop, hyphenate_append hne ht, hsecond]
        rfl
      · rw [append_assoc, ← htaken, take_append_drop]
      · rw [Clean, afterHyphen_skipped] at hclean
        simp only [Bool.or_eq_false_iff, Bool.not_eq_false'] at hclean
        exact hclean.2
    · rw [Clean, hp] at hclean
      cases hclean
    · rw [drop_drop]
      refine .inl ⟨r.rest.take (first.len + 1), (take_append_drop _ _).symm, hstops.opens _,
        fun tail ht => ?_⟩
      have hnone' : hyphenate ((r.rest ++ tail).drop first.len) = none := by
        rw [hdrop, hyphenate_append hne ht, hnone]
        rfl
      have hsingle := @comparator_of_single { r with rest := r.rest ++ tail } first
        (hparse tail ht.terminated) hover hnone' htok
      rw [← drop_drop]
      obtain ⟨c, cs, hcons⟩ := exists_cons_of_ne_nil hne
      dsimp only
      rw [hsingle]
      simp only [hdrop, hcons]
      rfl
  · -- the first version ends where the input goes on
    have hdrop : r.rest.drop first.len = [] := by rw [hlen, drop_length]
    have hnohyphen : hyphenate ([] : Bytes) = none := rfl
    rw [hdrop, hnohyphen] at hcases
    rcases hcases with ⟨second, hsecond, -⟩ | ⟨-, rfl, hp | ⟨htok, rfl⟩⟩
    · cases hsecond
    · rw [Clean, hp] at hclean
      cases hclean
    · refine .inr ⟨rfl, (afterSingle r { first with version.tag := tag } false).list, ?_, ?_, ?_⟩
      · have hleft : (({ r.parser.token with wildcard := first.wildcard } : Token).toRange
            { first with version.tag := tag } {}).hasLeft = true := toRange_hasLeft _ htok hvalid
        exact append_nonempty hleft _
      · intro hloose
        rcases htag with rfl | hends | ⟨hwildcard, hpatch⟩
        · rw [afterSingle_space r first (decide _)]
        · exact absurd (hstarts.ends hends) hloose
        · exact afterSingle_alternatives r tag _ hwildcard hpatch
      · intro tail ht
        obtain ⟨back, hp, hback⟩ := hparse tail ht.terminated
        have hsingle := @comparator_of_single { r with rest := r.rest ++ tail } _ hp hover
          (hyphenate_drop_append ht hback) htok
        refine ⟨_, _, hsingle, afterSingle_tag r first tag _ _, rfl, ?_⟩
        rw [drop_drop]
        exact drop_succ_append ht hback

theorem comparator_wildcard (hclean : p.Clean) : p.token.wildcard = .none := by
  obtain ⟨-, ⟨second, -, -, rfl, -⟩ | ⟨-, -, hp | ⟨-, rfl⟩⟩⟩ := comparator_cases h
  · rfl
  · rw [Clean, hp] at hclean
    cases hclean
  · rfl

end

/-! ## A run before a separator -/

theorem skipByte_append (h : skipByte c xs ≠ []) (tail : Bytes) :
    skipByte c (xs ++ tail) = skipByte c xs ++ tail := by
  unfold skipByte at h ⊢
  rw [dropWhile_append]
  simp [List.isEmpty_iff, h]

theorem head?_append (h : xs ≠ []) (tail : Bytes) : (xs ++ tail).head? = xs.head? := by
  obtain ⟨x, xs, rfl⟩ := exists_cons_of_ne_nil h
  rfl

theorem drop_one_append (h : xs ≠ []) (tail : Bytes) : (xs ++ tail).drop 1 = xs.drop 1 ++ tail := by
  obtain ⟨x, xs, rfl⟩ := exists_cons_of_ne_nil h
  rfl

theorem angle_append (h : (p.angle c cs).rest ≠ []) (tail : Bytes) :
    p.angle c (cs ++ tail) = { p.angle c cs with rest := (p.angle c cs).rest ++ tail } := by
  unfold angle at h ⊢
  dsimp only at h ⊢
  have hcs : skipByte (b ' ') cs ≠ [] := by
    intro hnil
    rw [hnil] at h
    exact h rfl
  rw [skipByte_append hcs, head?_append hcs]
  split_ifs at h ⊢ <;> simp only [drop_one_append hcs, skipByte_append h]

/-- The match of a round that has found the start of a version, before a tail. -/
theorem round_append (hskip : (p.round c cs).skipRound = false) (hrest : (p.round c cs).rest ≠ [])
    (tail : Bytes) :
    p.round c (cs ++ tail) = { p.round c cs with rest := (p.round c cs).rest ++ tail } := by
  unfold round at hskip hrest ⊢
  by_cases h₁ : c = b '>' ∨ c = b '<'
  · simp only [if_pos h₁] at hrest ⊢
    exact angle_append hrest tail
  simp only [if_neg h₁] at hskip hrest ⊢
  by_cases h₂ : c = b '=' ∨ c = b 'v'
  · simp only [if_pos h₂] at hrest ⊢
    rw [skipByte_append hrest]
  simp only [if_neg h₂] at hskip hrest ⊢
  by_cases h₃ : c = b '~'
  · simp only [if_pos h₃] at hrest ⊢
    have hcs : cs ≠ [] := by
      rintro rfl
      exact hrest rfl
    rw [head?_append hcs]
    split_ifs at hrest ⊢ <;> simp only [drop_one_append hcs, skipByte_append hrest]
  simp only [if_neg h₃] at hskip hrest ⊢
  by_cases h₄ : c = b '^'
  · simp only [if_pos h₄] at hrest ⊢
    rw [skipByte_append hrest]
  simp only [if_neg h₄] at hskip hrest ⊢
  by_cases h₅ : isAsciiDigit c ∨ isWildcardChar c
  · simp only [if_pos h₅]
    rfl
  simp only [if_neg h₅] at hskip hrest ⊢
  by_cases h₆ : c = b '|'
  · simp [h₆] at hskip
  simp only [if_neg h₆] at hskip hrest ⊢
  by_cases h₇ : c = b '-'
  · simp only [if_pos h₇] at hrest ⊢
    rw [skipByte_append hrest]
  simp only [if_neg h₇] at hskip
  split_ifs at hskip

theorem exists_spaces (xs : Bytes) :
    ∃ spaces, xs = spaces ++ skipByte (b ' ') xs ∧ ∀ d ∈ spaces, isLeading d = true := by
  refine ⟨xs.takeWhile (· == b ' '), takeWhile_append_dropWhile.symm, fun d hd => ?_⟩
  obtain rfl : d = b ' ' := by simpa using mem_takeWhile_imp hd
  rfl

theorem angle_lead (p : Parser) (c : UInt8) (cs : Bytes) :
    ∃ lead, cs = lead ++ (p.angle c cs).rest ∧ ∀ d ∈ lead, isLeading d = true := by
  obtain ⟨spaces, hcs, hspaces⟩ := exists_spaces cs
  unfold angle
  dsimp only
  generalize skipByte (b ' ') cs = rest at hcs
  split
  next hhead =>
    obtain ⟨ds, rfl⟩ := head?_eq_some_iff.1 hhead
    obtain ⟨more, hds, hmore⟩ := exists_spaces ds
    refine ⟨spaces ++ b '=' :: more, ?_,
      forall_mem_append.2 ⟨hspaces, forall_mem_cons.2 ⟨rfl, hmore⟩⟩⟩
    rw [hcs, drop_one, tail_cons, append_assoc, cons_append, ← hds]
  next =>
    obtain ⟨more, hds, hmore⟩ := exists_spaces rest
    refine ⟨spaces ++ more, ?_, forall_mem_append.2 ⟨hspaces, hmore⟩⟩
    rw [hcs, append_assoc, ← hds]

/-- Behind an operator, and white space or a `=`, a version starts. -/
theorem starts_of_operator {lead : Bytes} (hc : isTagByte c = false) (hcs : cs = lead ++ rest)
    (hlead : ∀ d ∈ lead, isLeading d = true) :
    ∃ taken, c :: cs = taken ++ rest ∧ Starts (before ++ taken) := by
  refine ⟨c :: lead, by rw [hcs, cons_append], before ++ [c], lead, ?_, .inl fun z hz => ?_, hlead⟩
  · rw [append_assoc, singleton_append]
  · rw [getLast?_concat, mem_some_iff] at hz
    exact hz ▸ hc

/-- A round that finds the start of a version. -/
theorem round_starts (hopens : Opens before (c :: cs)) (hskip : (p.round c cs).skipRound = false) :
    ∃ taken, c :: cs = taken ++ (p.round c cs).rest ∧ Starts (before ++ taken) := by
  have htoken : isStepBack c = false → EndsToken before := by
    intro hback
    refine hopens.resolve_right ?_
    rintro ⟨d, hd, hd'⟩
    rw [head?_cons, mem_some_iff] at hd
    rw [hd, hd'] at hback
    cases hback
  obtain ⟨spaces, hspaces, hlead⟩ := exists_spaces cs
  unfold round at hskip ⊢
  by_cases h₁ : c = b '>' ∨ c = b '<'
  · simp only [if_pos h₁]
    obtain ⟨lead, hcs, hlead⟩ := angle_lead p c cs
    refine starts_of_operator ?_ hcs hlead
    rcases h₁ with rfl | rfl <;> rfl
  simp only [if_neg h₁] at hskip ⊢
  by_cases h₂ : c = b '=' ∨ c = b 'v'
  · simp only [if_pos h₂]
    have hlead' : ∀ d ∈ c :: spaces, isLeading d = true := by
      refine forall_mem_cons.2 ⟨?_, hlead⟩
      rcases h₂ with rfl | rfl <;> rfl
    refine ⟨c :: spaces, by rw [cons_append, ← hspaces], before, c :: spaces, rfl, ?_, hlead'⟩
    refine (htoken ?_).startsVersion
    rcases h₂ with rfl | rfl <;> rfl
  simp only [if_neg h₂] at hskip ⊢
  by_cases h₃ : c = b '~'
  · simp only [if_pos h₃]
    split
    next hhead =>
      obtain ⟨ds, rfl⟩ := head?_eq_some_iff.1 hhead
      obtain ⟨more, hds, hmore⟩ := exists_spaces ds
      obtain ⟨taken, htaken, hstarts⟩ :=
        @starts_of_operator _ _ (b '>') (before ++ [c]) more rfl hds hmore
      refine ⟨c :: taken, ?_, by rwa [← singleton_append, ← append_assoc]⟩
      rw [drop_one, tail_cons, cons_append, ← htaken]
    next => exact starts_of_operator (h₃ ▸ rfl) hspaces hlead
  simp only [if_neg h₃] at hskip ⊢
  by_cases h₄ : c = b '^'
  · simp only [if_pos h₄]
    exact starts_of_operator (h₄ ▸ rfl) hspaces hlead
  simp only [if_neg h₄] at hskip ⊢
  by_cases h₅ : isAsciiDigit c ∨ isWildcardChar c
  · simp only [if_pos h₅]
    refine ⟨[], rfl, before, [], rfl, (htoken ?_).startsVersion, fun d hd => absurd hd not_mem_nil⟩
    rw [← Bool.not_eq_true]
    intro hback
    simp only [isStepBack, Bool.or_eq_true, beq_iff_eq] at hback
    rcases hback with ((((rfl | rfl) | rfl) | rfl) | rfl) | rfl <;> revert h₅ <;> decide
  simp only [if_neg h₅] at hskip ⊢
  by_cases h₆ : c = b '|'
  · simp [h₆] at hskip
  simp only [if_neg h₆] at hskip ⊢
  by_cases h₇ : c = b '-'
  · simp only [if_pos h₇]
    refine ⟨c :: spaces, by rw [cons_append, ← hspaces], before ++ [c], spaces, ?_,
      .inr ⟨by rw [getLast?_concat, h₇], ?_⟩, hlead⟩
    · rw [append_assoc, singleton_append]
    · rw [dropLast_concat]
      exact htoken (h₇ ▸ rfl)
  simp only [if_neg h₇] at hskip
  split_ifs at hskip

/-- A round that is skipped has found a separator, or text that is passed over. -/
theorem round_skip (hc : isSeparator c = false) (hskip : (p.round c cs).skipRound = true) :
    (p.round c cs).parser.list.flags.skipped = true := by
  have hne : c ≠ b ' ' ∧ c ≠ b '|' := by simpa [isSeparator] using hc
  obtain ⟨moved, rest, skipRound, noOperator, hround, hmoves⟩ := round_cases c cs
  rw [hround] at hskip ⊢
  cases hmoves with
  | tag | hyphen => cases hskip
  | bar hbar => exact absurd hbar hne.2
  | space hspace => exact absurd hspace hne.1
  | text => rfl

theorem isSeparator_strip (h : strip input = c :: cs) : isSeparator c = false := by
  have hne : strip input ≠ [] := by simp [h]
  have hhead := head_dropWhile_not isSeparator hne
  have hc : (strip input).head hne = c := by simp [h]
  rw [← hc]
  exact hhead

theorem strip_append_nil (h : strip input = []) (tail : Bytes) :
    strip (input ++ tail) = strip tail ∧
      hasBar (input ++ tail) = (hasBar input || hasBar tail) := by
  have hall : ∀ c ∈ input, isSeparator c = true := dropWhile_eq_nil_iff.1 h
  constructor
  · exact dropWhile_append_of_pos hall
  · unfold hasBar
    rw [takeWhile_append_of_pos hall, takeWhile_eq_self_iff.2 hall]
    simp

theorem strip_append_cons (h : strip input = c :: cs) (tail : Bytes) :
    strip (input ++ tail) = c :: (cs ++ tail) ∧ hasBar (input ++ tail) = hasBar input := by
  have hc := isSeparator_strip h
  have hinput : input.takeWhile isSeparator ++ c :: cs = input := by
    rw [← h]
    exact takeWhile_append_dropWhile
  constructor
  · unfold strip at h ⊢
    rw [dropWhile_append, h]
    rfl
  · have hpos : ∀ d ∈ input.takeWhile isSeparator, isSeparator d = true :=
      fun d hd => mem_takeWhile_imp hd
    unfold hasBar
    rw [← hinput, append_assoc, takeWhile_append_of_pos hpos, takeWhile_append_of_pos hpos]
    simp [hc]

theorem passed_append (h : hasBar (input ++ tail) = (hasBar input || hasBar tail)) :
    p.passed (input ++ tail) = (p.passed input).passed tail := by
  unfold passed
  rw [h]
  cases hasBar input <;> cases hasBar tail <;> rfl

theorem passed_list (p : Parser) (input : Bytes) : (p.passed input).list = p.list := by
  unfold passed
  split <;> rfl

theorem passed_wildcard (p : Parser) (input : Bytes) :
    (p.passed input).token.wildcard = p.token.wildcard := by
  unfold passed
  split <;> rfl

/-- A round at the start of a comparator, before a separator. -/
theorem step_append (hc : isSeparator c = false) (h : p.run (c :: cs) = some g)
    (hg : g.flags.skipped = false) (hopens : Opens before (c :: cs)) :
    ∃ p' rest, p'.run rest = some g ∧ p'.token.wildcard = .none ∧ rest.length ≤ cs.length ∧
      (GoesOn before (c :: cs) (fun tail => p.step {} c (cs ++ tail)) p' rest ∨
        Finishes before (c :: cs) (fun tail => p.step {} c (cs ++ tail)) p' rest) := by
  rw [run_cons] at h
  rcases hstep : p.step {} c cs with _ | ⟨p', rest⟩
  · rw [hstep] at h
    cases h
  rw [hstep] at h
  have hrun : p'.run rest = some g := h
  have hlen := step_length hstep
  have hclean : p'.Clean := clean_of_run hrun hg
  have hskip : (p.round c cs).skipRound = false := by
    rw [← Bool.not_eq_true]
    intro hskip
    rw [step, if_pos hskip] at hstep
    cases hstep
    rw [Clean, round_skip hc hskip] at hclean
    cases hclean
  rw [step, if_neg (by simp [hskip])] at hstep
  have hrest : (p.round c cs).rest ≠ [] := by
    intro hnil
    have hvalid := comparator_valid hstep hclean
    rw [hnil] at hvalid
    cases hvalid
  have hlonger : ∀ tail, p.step {} c (cs ++ tail) =
      comparator { p.round c cs with rest := (p.round c cs).rest ++ tail } {} := by
    intro tail
    unfold step
    rw [round_append hskip hrest]
    rw [if_neg (by simp [hskip])]
  obtain ⟨taken, htaken, hstarts⟩ := round_starts hopens hskip
  refine ⟨p', rest, hrun, comparator_wildcard hstep hclean, hlen, ?_⟩
  rcases comparator_append hstep hclean hstarts with
    ⟨more, hmore, hopens', hsame⟩ | ⟨hnil, list, hne, hlist, hends⟩
  · refine .inl ⟨taken ++ more, by rw [htaken, hmore, append_assoc], ?_, fun tail ht => ?_⟩
    · rwa [← append_assoc]
    · dsimp only
      rw [hlonger]
      exact hsame tail ht
  · refine .inr ⟨hnil, list, hne, fun hloose => hlist ?_, fun tail ht => ?_⟩
    · rwa [htaken, ← append_assoc] at hloose
    · simp only [hlonger]
      exact hends tail ht

theorem opens_strip (hopens : Opens before input) (hs : strip input = c :: cs) :
    input = input.takeWhile isSeparator ++ c :: cs ∧
      Opens (before ++ input.takeWhile isSeparator) (c :: cs) := by
  have hinput : input = input.takeWhile isSeparator ++ c :: cs := by
    rw [← hs]
    exact takeWhile_append_dropWhile.symm
  refine ⟨hinput, ?_⟩
  rcases eq_nil_or_concat (input.takeWhile isSeparator) with hnil | ⟨xs, z, hxs⟩
  · rw [hnil, nil_append] at hinput
    rw [hnil, append_nil, ← hinput]
    exact hopens
  · have hz : isSeparator z = true := by
      refine mem_takeWhile_imp (l := input) ?_
      rw [hxs, concat_eq_append]
      exact mem_concat_self
    refine .inl (.inl fun y hy => ?_)
    rw [hxs, concat_eq_append, ← append_assoc, getLast?_concat, mem_some_iff] at hy
    rw [← hy]
    simp only [isSeparator, Bool.or_eq_true, beq_iff_eq] at hz
    rcases hz with rfl | rfl
    · exact .inl rfl
    · exact .inr rfl

/-- What is read from `input` when a separator follows: the alternatives it ends with are those read
from `input` alone, but for a loose tag at its end. -/
theorem run_append {p : Parser} {input : Bytes} {g : Group} (h : p.run input = some g)
    (hg : g.flags.skipped = false) (hwildcard : p.token.wildcard = .none)
    (hopens : Opens before input) :
    ∃ list : Group, (g.isEmpty = false → list.isEmpty = false) ∧
      (¬EndsInLooseTag (before ++ input) → list.alternatives = g.alternatives) ∧
      ∀ tail, Separates tail → ∃ q : Parser, q.list = list ∧ q.token.wildcard = .none ∧
        p.run (input ++ tail) = (q.passed tail).run (strip tail) := by
  induction hn : input.length using Nat.strong_induction_on generalizing p before input with
  | _ n ih =>
    subst hn
    rw [run_strip] at h
    rcases hs : strip input with _ | ⟨c, cs⟩
    · -- nothing but separators is left
      rw [hs, run_nil, passed_list] at h
      cases h
      refine ⟨p.list, id, fun _ => rfl, fun tail ht => ⟨p.passed input, passed_list _ _, ?_, ?_⟩⟩
      · rw [passed_wildcard, hwildcard]
      · obtain ⟨h₁, h₂⟩ := strip_append_nil hs tail
        rw [run_strip, h₁, passed_append h₂]
    · have hc := isSeparator_strip hs
      obtain ⟨hinput, hopens'⟩ := opens_strip hopens hs
      have hle : (c :: cs).length ≤ input.length := by
        rw [← hs]
        exact (dropWhile_suffix _).length_le
      have hrun : ∀ tail, p.run (input ++ tail) =
          ((p.passed input).step {} c (cs ++ tail)).bind fun next => next.1.run next.2 := by
        intro tail
        obtain ⟨h₁, h₂⟩ := strip_append_cons hs tail
        have hpassed : p.passed (input ++ tail) = p.passed input := by
          unfold passed
          rw [h₂]
        rw [run_strip, h₁, hpassed]
        rw [run_cons]
        rcases (p.passed input).step {} c (cs ++ tail) with _ | ⟨p', rest⟩ <;> rfl
      rw [hs] at h
      obtain ⟨p', rest, hrun', hwildcard', hlen, ⟨taken, htaken, hopens'', hsame⟩ |
        ⟨rfl, list, hne, hlist, hends⟩⟩ := step_append hc h hg hopens'
      · have hlt : rest.length < input.length := lt_of_le_of_lt hlen hle
        obtain ⟨list, h₁, h₂, h₃⟩ := ih _ hlt hrun' hwildcard' hopens'' rfl
        refine ⟨list, h₁, fun hloose => h₂ ?_, fun tail ht => ?_⟩
        · rwa [hinput, htaken, ← append_assoc, ← append_assoc] at hloose
        · obtain ⟨q, hq, hq', htail⟩ := h₃ tail ht
          refine ⟨q, hq, hq', ?_⟩
          rw [hrun]
          simp only [hsame tail ht]
          exact htail
      · rw [run_nil] at hrun'
        cases hrun'
        refine ⟨list, fun _ => hne, fun hloose => hlist ?_, fun tail ht => ?_⟩
        · rwa [hinput, ← append_assoc] at hloose
        · obtain ⟨q, rest, hq, hq', hq'', hstrip, hbar⟩ := hends tail ht
          refine ⟨q, hq', hq'', (hrun tail).trans ?_⟩
          simp only at hq
          rw [hq, bind_some]
          rw [run_strip, hstrip]
          unfold passed
          rw [hbar]

end Parser

end Soup.Semver
