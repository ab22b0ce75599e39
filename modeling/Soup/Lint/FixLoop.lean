import Soup.Lint.Fixer

/-!
# Passes

Every text of `verify_and_fix` is what a pass makes of the text before it (`textAt`). The loop keeps
some of these passes (`Kept`), and the report is about the text after them (`verifyAndFix_reports`).

The report should say what the lint function finds in that text, and no pass that is kept should
leave a text that parses worse (`Tells`). There are two kinds of lint results for which this fails
(`verifyAndFix_tells_iff`): only fatal messages, one of which has a fix to apply, as its message is
lost where the loop ends with that text, and a parse error beside other messages, which
`breaks_syntax` does not look for.
-/

namespace Soup.Lint

open List Option

variable {RuleId : Type} [DecidableEq RuleId]

set_option linter.unusedSectionVars false

/-! ## A pass that fixes nothing -/

section NotFixed

variable {text : Bytes} {shouldFix : LintMessage RuleId → Bool}

theorem isFixed_step (s : FixState RuleId) (m : LintMessage RuleId) (h : s.isFixed = true) :
    (s.step text shouldFix m).isFixed = true := by
  rw [FixState.step]
  split
  · exact h
  · split
    · exact h
    · split <;> rfl

variable (messages : List (LintMessage RuleId))

theorem isFixed_foldl (s : FixState RuleId) (h : s.isFixed = true) :
    (messages.foldl (FixState.step text shouldFix) s).isFixed = true := by
  induction messages generalizing s with
  | nil => exact h
  | cons m messages ih => exact ih _ (isFixed_step s m h)

theorem step_of_not_isFixed {s : FixState RuleId} {m : LintMessage RuleId}
    (h : (s.step text shouldFix m).isFixed = false) : s.step text shouldFix m = s.leave m := by
  rw [FixState.step] at h ⊢
  split
  next hnone => rfl
  next hsome =>
    rw [hsome] at h
    dsimp only at h
    split
    next => rfl
    next hchange =>
      rw [if_neg hchange] at h
      split at h <;> cases h

theorem foldl_of_not_isFixed (s : FixState RuleId)
    (h : (messages.foldl (FixState.step text shouldFix) s).isFixed = false) :
    messages.foldl (FixState.step text shouldFix) s =
      { s with remaining := s.remaining ++ messages } := by
  induction messages generalizing s with
  | nil => rw [foldl_nil, append_nil]
  | cons m messages ih =>
    rw [foldl_cons] at h ⊢
    have hstep : (s.step text shouldFix m).isFixed = false := by
      rw [← Bool.not_eq_true]
      intro htrue
      exact Bool.false_ne_true (h.symm.trans (isFixed_foldl messages _ htrue))
    rw [ih _ h, step_of_not_isFixed hstep, FixState.leave]
    rw [append_assoc, singleton_append]

/-- A pass that fixes nothing leaves the text and the messages. -/
theorem applyFixes_of_not_isFixed (text : Bytes) (messages : List (LintMessage RuleId))
    (shouldFix : LintMessage RuleId → Bool)
    (h : (applyFixes text messages shouldFix).isFixed = false) :
    (applyFixes text messages shouldFix).output = text ∧
      (applyFixes text messages shouldFix).count = 0 ∧
      (applyFixes text messages shouldFix).remaining.Perm messages := by
  have hpartition := others_append_fixable messages
  rw [applyFixes] at h ⊢
  split
  next hempty =>
    rw [isEmpty_iff.1 hempty, append_nil] at hpartition
    exact ⟨rfl, rfl, hpartition⟩
  next hne =>
    rw [if_neg hne] at h
    dsimp only at h ⊢
    have hfold := foldl_of_not_isFixed _ _ h
    rw [hfold]
    refine ⟨?_, rfl, ?_⟩
    · rw [nil_append, getD_none, Nat.zero_min, drop_zero]
    · exact ((perm_insertionSort _ _).trans ((perm_insertionSort _ _).append_left _)).trans
        hpartition

end NotFixed

/-! ## A pass that takes no message -/

section Idle

/-- There is nothing to apply: a fix that should be applied changes nothing or has no range. -/
def LintMessage.Idle (text : Bytes) (shouldFix : LintMessage RuleId → Bool)
    (m : LintMessage RuleId) : Prop :=
  ∀ fix ∈ m.fix, shouldFix m = true → fix.ChangesNothing text ∨ fix.stop < fix.start

variable {text : Bytes} {shouldFix : LintMessage RuleId → Bool}

theorem step_of_idle (s : FixState RuleId) {m : LintMessage RuleId} (h : m.Idle text shouldFix) :
    ∃ isFixed, s.step text shouldFix m = { s with isFixed }.leave m := by
  rw [FixState.step]
  split
  next => exact ⟨s.isFixed, rfl⟩
  next fix hfix =>
    rw [filter_eq_some_iff] at hfix
    split
    next => exact ⟨s.isFixed, rfl⟩
    next hchange =>
      have hrange : fix.stop < fix.start := (h fix hfix.1 hfix.2).resolve_left hchange
      rw [decide_eq_true hrange, Bool.or_true, if_pos rfl]
      exact ⟨true, rfl⟩

theorem count_step_of_not_idle (s : FixState RuleId) {m : LintMessage RuleId}
    (hlast : s.last = none)
    (h : ¬m.Idle text shouldFix) : (s.step text shouldFix m).count = s.count + 1 := by
  rw [LintMessage.Idle] at h
  push Not at h
  obtain ⟨fix, hfix, hshould, hchange, hrange⟩ := h
  have hfilter : m.fix.filter (fun _ => shouldFix m) = some fix :=
    filter_eq_some_iff.2 ⟨hfix, hshould⟩
  rw [FixState.step, hfilter, hlast]
  dsimp only
  rw [if_neg (show ¬getRange text fix.start fix.stop = some fix.text from hchange), any_none,
    Bool.false_or, if_neg (by rw [decide_eq_true_eq]; omega)]
  rfl

theorem count_le_step (s : FixState RuleId) (m : LintMessage RuleId) :
    s.count ≤ (s.step text shouldFix m).count := by
  rw [FixState.step]
  split
  · exact le_rfl
  · split
    · exact le_rfl
    · split
      · exact le_rfl
      · exact Nat.le_succ _

variable (messages : List (LintMessage RuleId))

theorem count_le_foldl (s : FixState RuleId) :
    s.count ≤ (messages.foldl (FixState.step text shouldFix) s).count := by
  induction messages generalizing s with
  | nil => exact le_rfl
  | cons m messages ih => exact (count_le_step s m).trans (ih _)

theorem length_step (s : FixState RuleId) (m : LintMessage RuleId) :
    (s.step text shouldFix m).remaining.length + (s.step text shouldFix m).count =
      s.remaining.length + s.count + 1 := by
  have hleave : (s.remaining ++ [m]).length + s.count = s.remaining.length + s.count + 1 := by
    rw [length_append, length_singleton]
    omega
  rw [FixState.step]
  split
  · exact hleave
  · split
    · exact hleave
    · split
      · exact hleave
      · rfl

/-- Every message is left or counted. -/
theorem length_foldl (s : FixState RuleId) :
    (messages.foldl (FixState.step text shouldFix) s).remaining.length +
        (messages.foldl (FixState.step text shouldFix) s).count =
      s.remaining.length + s.count + messages.length := by
  induction messages generalizing s with
  | nil => rfl
  | cons m messages ih =>
    rw [foldl_cons, ih, length_step, length_cons]
    omega

/-- The first message that is not idle is taken. -/
theorem count_foldl_eq_iff (s : FixState RuleId)
    (hlast : s.last = none) :
    (messages.foldl (FixState.step text shouldFix) s).count = s.count ↔
      ∀ m ∈ messages, m.Idle text shouldFix := by
  induction messages generalizing s with
  | nil => exact iff_of_true rfl fun m hm => absurd hm not_mem_nil
  | cons m messages ih =>
    rw [foldl_cons, forall_mem_cons]
    by_cases hidle : m.Idle text shouldFix
    · obtain ⟨isFixed, hstep⟩ := step_of_idle s hidle
      rw [and_iff_right hidle, hstep]
      exact ih _ hlast
    · refine iff_of_false (fun heq => ?_) fun h => hidle h.1
      have hle : (s.step text shouldFix m).count ≤
          (messages.foldl (FixState.step text shouldFix) (s.step text shouldFix m)).count :=
        count_le_foldl messages _
      rw [heq, count_step_of_not_idle s hlast hidle] at hle
      exact Nat.not_succ_le_self _ hle

theorem foldl_remaining_of_idle (s : FixState RuleId)
    (h : ∀ m ∈ messages, m.Idle text shouldFix) :
    (messages.foldl (FixState.step text shouldFix) s).remaining = s.remaining ++ messages := by
  induction messages generalizing s with
  | nil => rw [foldl_nil, append_nil]
  | cons m messages ih =>
    rw [forall_mem_cons] at h
    obtain ⟨isFixed, hstep⟩ := step_of_idle s h.1
    rw [foldl_cons, hstep, ih _ h.2, FixState.leave]
    rw [append_assoc, singleton_append]

/-- A pass leaves all messages exactly where none of them has a fix to apply. -/
theorem applyFixes_remaining_perm_iff (text : Bytes) (messages : List (LintMessage RuleId))
    (shouldFix : LintMessage RuleId → Bool) :
    (applyFixes text messages shouldFix).remaining.Perm messages ↔
      ∀ m ∈ messages, m.Idle text shouldFix := by
  have hpartition := others_append_fixable messages
  have hnone : (∀ m ∈ messages, m.Idle text shouldFix) ↔
      ∀ m ∈ messages.filter (fun m => m.fix.isSome), m.Idle text shouldFix := by
    refine ⟨fun h m hm => h m (mem_filter.1 hm).1, fun h m hm fix hfix => ?_⟩
    have hsome : m.fix.isSome = true := by rw [mem_def.1 hfix, isSome_some]
    exact h m (mem_filter.2 ⟨hm, hsome⟩) fix hfix
  rw [hnone, applyFixes]
  split
  next hempty =>
    rw [isEmpty_iff.1 hempty, append_nil] at hpartition
    rw [isEmpty_iff.1 hempty]
    exact iff_of_true hpartition fun m hm => absurd hm not_mem_nil
  next =>
    have hsorted : ∀ m, m ∈ insertionSort (fun a b : LintMessage RuleId => a.fixKey ≤ b.fixKey)
        (messages.filter fun m => m.fix.isSome) ↔ m ∈ messages.filter fun m => m.fix.isSome :=
      fun m => mem_insertionSort _
    simp only [← hsorted]
    constructor
    · intro hperm
      rw [← count_foldl_eq_iff _ { remaining := messages.filter fun m => !m.fix.isSome } rfl]
      have hlength := @length_foldl RuleId _ text shouldFix
        (insertionSort (fun a b : LintMessage RuleId => a.fixKey ≤ b.fixKey)
          (messages.filter fun m => m.fix.isSome))
        { remaining := messages.filter fun m => !m.fix.isSome }
      have hall := hpartition.length_eq
      have hleft := ((perm_insertionSort _ _).symm.trans hperm).length_eq
      rw [length_append] at hall
      rw [hleft, length_insertionSort] at hlength
      dsimp only at hlength ⊢
      omega
    · intro hidle
      rw [foldl_remaining_of_idle _ _ hidle]
      exact ((perm_insertionSort _ _).trans ((perm_insertionSort _ _).append_left _)).trans
        hpartition

end Idle

/-! ## The passes of a text -/

/-- The text can't be parsed. -/
def notParsed (result : LintResult RuleId) : Bool := result.messages.any isParseError

/-- A parse error stands beside messages that are none. -/
def isMixed (result : LintResult RuleId) : Bool :=
  notParsed result && !result.messages.all isParseError

/-- There is a new parse error, or there are more errors that the parser tolerates. -/
def ParsesWorse (found before : LintResult RuleId) : Prop :=
  notParsed found = true ∧ notParsed before = false ∨ before.toleratedErrors < found.toleratedErrors

/-- What `breaks_syntax` overlooks. -/
theorem parsesWorse_iff {found before : LintResult RuleId}
    (h : breaksSyntax found before.toleratedErrors = false) :
    ParsesWorse found before ↔ isMixed found = true ∧ notParsed before = false := by
  rw [breaksSyntax, Bool.or_eq_false_iff, decide_eq_false_iff_not] at h
  obtain ⟨hfatal, htolerated⟩ := h
  rw [ParsesWorse, or_iff_left htolerated, isMixed, Bool.and_eq_true, Bool.not_eq_true']
  refine ⟨fun hworse => ⟨⟨hworse.1, ?_⟩, hworse.2⟩, fun hmixed => ⟨hmixed.1.1, hmixed.2⟩⟩
  rw [← Bool.not_eq_true]
  intro hall
  have hmessages : ∀ m ∈ found.messages, m.isFatal = true := by
    intro m hm
    have hm := all_eq_true.1 hall m hm
    rw [isParseError, Bool.and_eq_true] at hm
    exact hm.1
  have hsome : found.messages.isEmpty = false := by
    obtain ⟨m, hm, -⟩ := any_eq_true.1 hworse.1
    rw [← Bool.not_eq_true, List.isEmpty_iff]
    exact ne_nil_of_mem hm
  rw [isFatal, hsome, all_eq_true.2 hmessages, hall] at hfatal
  cases hfatal

/-- What `verify_and_fix` is given. -/
structure Job (RuleId : Type) where
  text : Bytes
  shouldFix : LintMessage RuleId → Bool
  lint : Bytes → Bool → LintResult RuleId

namespace Job

variable (j : Job RuleId)

/-- The text after `n` passes. -/
def textAt : ℕ → Bytes
  | 0 => j.text
  | n + 1 => (applyFixes (textAt n)
      (j.lint (textAt n) (decide (0 < n))).messages j.shouldFix).output

/-- What is found in the text after `n` passes. -/
def resultAt (n : ℕ) : LintResult RuleId := j.lint (j.textAt n) (decide (0 < n))

/-- The pass after `n` passes. -/
def passAt (n : ℕ) : Fixed RuleId :=
  applyFixes (j.textAt n) (j.resultAt n).messages j.shouldFix

/-- The fixes of pass `n` are to be rolled back. -/
def worsened (n : ℕ) : Bool :=
  breaksSyntax (j.resultAt (n + 1)) (j.resultAt n).toleratedErrors

/-- The number of fixes of the first `n` passes. -/
def fixesBefore (n : ℕ) : ℕ := ((range n).map fun k => (j.passAt k).count).sum

theorem fixesBefore_succ (n : ℕ) : j.fixesBefore (n + 1) =
    j.fixesBefore n + (j.passAt n).count := by
  rw [fixesBefore, range_succ, map_append, sum_append, map_singleton, sum_singleton]
  rfl

/-- No pass comes after the first `n`: there may be no more, or the last two undo each other. -/
def IsLast (n : ℕ) : Prop :=
  MAX_AUTOFIX_PASSES ≤ n ∨ ∃ k, n = k + 2 ∧ j.textAt n = j.textAt k

/-- The loop fixes the text after `n` passes. -/
structure Makes (n : ℕ) : Prop where
  goes : ¬j.IsLast n
  linted : isFatal (j.resultAt n) = false
  isFixed : (j.passAt n).isFixed = true

/-- The first `n` passes are made, and none of them is rolled back. -/
structure Kept (n : ℕ) : Prop where
  made : ∀ k < n, j.Makes k
  sound : ∀ k < n, j.worsened k = false

/-- The loop would fix the text after `n` passes, but all of its messages are fatal. -/
def Unlinted (n : ℕ) : Prop :=
  ¬j.IsLast n ∧ isFatal (j.resultAt n) = true

/-- What is found in the text of a report. Fixes have just made it if nothing was rolled back. -/
def found (report : FixReport RuleId) (n : ℕ) : LintResult RuleId :=
  j.lint report.output (decide (0 < n) && report.brokenBy.isNone)

/-- The report is about the text after `n` passes. -/
structure IsAbout (report : FixReport RuleId) (n : ℕ) : Prop where
  kept : j.Kept n
  last : ¬j.Kept (n + 1)
  output : report.output = j.textAt n
  isFixed : report.isFixed = decide (0 < n)
  fixes : report.fixes = j.fixesBefore n
  tolerated : report.result.toleratedErrors = (j.found report n).toleratedErrors
  brokenBy : ∀ rules, report.brokenBy = some rules ↔
    j.Makes n ∧ j.worsened n = true ∧ rules = (j.passAt n).applied

/-- What the code reports. The messages may be those of a pass that is not made. -/
structure Reports (report : FixReport RuleId) (n : ℕ) : Prop extends j.IsAbout report n where
  shows : ¬j.Unlinted n → report.result.messages.Perm (j.found report n).messages
  lost : j.Unlinted n → report.result.messages = (j.passAt n).remaining

/-- The variables of the loop after `n` passes. -/
structure After (s : LoopState RuleId) (n : ℕ) : Prop where
  current : s.current = j.textAt n
  previous : s.previous = if n = 0 then none else some (j.textAt (n - 1))
  isFixed : s.isFixed = decide (0 < n)
  fixes : s.fixes = j.fixesBefore n
  lastPass : s.lastPass = if n = 0 then none else
    some ((j.passAt (n - 1)).applied, decide (0 < n - 1),
      j.fixesBefore (n - 1))
  toleratedBefore : s.toleratedBefore =
    if n = 0 then 0 else (j.resultAt (n - 1)).toleratedErrors
  passes : s.passes = n
  made : ∀ k < n, j.Makes k
  /-- The loop looks at the last of the texts when it goes on. -/
  sound : ∀ k, k + 1 < n → j.worsened k = false

section

variable {j} {n : ℕ}

theorem Kept.passes (h : j.Kept n) : n ≤ MAX_AUTOFIX_PASSES := by
  cases n with
  | zero => exact Nat.zero_le _
  | succ n =>
    rw [Nat.succ_le_iff, ← not_le]
    exact fun hle => (h.made n (Nat.lt_succ_self n)).goes (.inl hle)

theorem Kept.step (h : j.Kept n) (hmade : j.Makes n)
    (hsound : j.worsened n = false) : j.Kept (n + 1) where
  made := fun k hk => (Nat.lt_succ_iff_lt_or_eq.1 hk).elim (h.made k) fun heq => heq ▸ hmade
  sound := fun k hk => (Nat.lt_succ_iff_lt_or_eq.1 hk).elim (h.sound k) fun heq => heq ▸ hsound

theorem Kept.mono (h : j.Kept n) {k : ℕ} (hk : k ≤ n) :
    j.Kept k where
  made := fun j hj => h.made j (hj.trans_le hk)
  sound := fun j hj => h.sound j (hj.trans_le hk)

theorem not_isLast_zero : ¬j.IsLast 0 := by
  rintro (hle | ⟨k, heq, -⟩)
  · exact absurd hle (by decide)
  · exact Nat.succ_ne_zero _ heq.symm

end

/-! ## The loop -/

section Loop

variable {j} {s : LoopState RuleId} {n fuel : ℕ}

theorem after_start : j.After { current := j.text } 0 where
  current := rfl
  previous := rfl
  isFixed := rfl
  fixes := rfl
  lastPass := rfl
  toleratedBefore := rfl
  passes := rfl
  made := fun k hk => absurd hk (Nat.not_lt_zero k)
  sound := fun _ hk => absurd hk (Nat.not_lt_zero _)

/-- What a rolled back pass is reported as. -/
theorem reports_rolledBack (hkept : j.Kept n) (hmade : j.Makes n) (hworse : j.worsened n = true) :
    j.Reports (rolledBackReport j.lint (j.textAt n)
      ((j.passAt n).applied, decide (0 < n), j.fixesBefore n))
      n where
  kept := hkept
  last := fun h => Bool.false_ne_true ((h.sound n (Nat.lt_succ_self n)).symm.trans hworse)
  output := rfl
  isFixed := rfl
  fixes := rfl
  tolerated := by
    rw [found, rolledBackReport, isNone_some, Bool.and_false]
  shows := fun _ => by
    rw [found, rolledBackReport, isNone_some, Bool.and_false]
  lost := fun h => absurd (h.2.symm.trans hmade.linted) Bool.false_ne_true.symm
  brokenBy := fun rules =>
    ⟨fun h => ⟨hmade, hworse, (some.inj h).symm⟩, fun h => congrArg some h.2.2.symm⟩

section

variable (h : j.After s n)
include h

/-- At the start of a round the pass before it may be rolled back. -/
theorem rollBack_after :
    (∃ report m, rollBack j.lint (j.resultAt n) s.toleratedBefore s.previous
      s.lastPass = some report ∧ j.Reports report m) ∨
    rollBack j.lint (j.resultAt n) s.toleratedBefore s.previous s.lastPass = none ∧
      j.Kept n := by
  rw [rollBack, h.toleratedBefore, h.previous, h.lastPass]
  cases n with
  | zero =>
    refine .inr ⟨?_, h.made, fun k hk => absurd hk (Nat.not_lt_zero k)⟩
    rw [if_pos rfl, if_pos rfl, if_pos rfl]
    split <;> rfl
  | succ n =>
    have hkept : j.Kept n :=
      ⟨fun k hk => h.made k (Nat.lt_succ_of_lt hk), fun k hk => h.sound k (Nat.succ_lt_succ hk)⟩
    have hmade := h.made n (Nat.lt_succ_self n)
    rw [if_neg (Nat.succ_ne_zero n), if_neg (Nat.succ_ne_zero n), if_neg (Nat.succ_ne_zero n),
      Nat.add_sub_cancel]
    rcases hworse : j.worsened n with _ | _
    · refine .inr ⟨if_neg ?_, hkept.step hmade hworse⟩
      rw [← worsened, hworse]
      exact Bool.false_ne_true
    · exact .inl ⟨_, n, if_pos hworse, reports_rolledBack hkept hmade hworse⟩

/-- The variables after one more pass that fixes something. -/
theorem After.pass (hkept : j.Kept n) (hmade : j.Makes n) :
    j.After (s.after (j.resultAt n) (j.passAt n)) (n + 1) where
  current := rfl
  previous := congrArg some h.current
  isFixed := by
    show (s.isFixed || (j.passAt n).isFixed) = _
    rw [hmade.isFixed, Bool.or_true, decide_eq_true (Nat.succ_pos n)]
  fixes := by
    rw [fixesBefore_succ, ← h.fixes]
    rfl
  lastPass := by
    rw [if_neg (Nat.succ_ne_zero n), Nat.add_sub_cancel, ← h.fixes, ← h.isFixed]
    rfl
  toleratedBefore := rfl
  passes := congrArg (· + 1) h.passes
  made := fun k hk => (Nat.lt_succ_iff_lt_or_eq.1 hk).elim (h.made k) fun heq => heq ▸ hmade
  sound := fun k hk => hkept.sound k (Nat.lt_of_succ_lt_succ hk)

/-- The loop stops where no pass may follow. -/
theorem isLast_after_iff (hcircular : s.isCircular = false) :
    ((s.after (j.resultAt n) (j.passAt n)).isCircular ||
        decide (MAX_AUTOFIX_PASSES ≤
          (s.after (j.resultAt n) (j.passAt n)).passes)) = true ↔
      j.IsLast (n + 1) := by
  have hrepeats : (s.after (j.resultAt n) (j.passAt n)).isCircular =
      true ↔ ∃ k, n + 1 = k + 2 ∧ j.textAt (n + 1) = j.textAt k := by
    show (s.isCircular || decide (0 < s.passes) &&
      decide (s.previous = some (j.textAt (n + 1)))) = true ↔ _
    rw [hcircular, Bool.false_or, Bool.and_eq_true, decide_eq_true_eq, decide_eq_true_eq, h.passes,
      h.previous]
    cases n with
    | zero => exact iff_of_false (fun hand => Nat.lt_irrefl 0 hand.1) fun ⟨k, hk, _⟩ => by omega
    | succ n =>
      rw [if_neg (Nat.succ_ne_zero n), some_inj, Nat.add_sub_cancel]
      refine ⟨fun hand => ⟨n, rfl, hand.2.symm⟩, fun ⟨k, hk, heq⟩ => ⟨Nat.succ_pos n, ?_⟩⟩
      obtain rfl : n = k := by omega
      exact heq.symm
  rw [Bool.or_eq_true, hrepeats, decide_eq_true_eq, IsLast, or_comm, LoopState.after, h.passes]

section

variable (hkept : j.Kept n)
include hkept

/-- The report of a text after which no pass comes. -/
theorem reports_last (hlast : j.IsLast n) :
    j.Reports (s.report (j.resultAt n)) n where
  kept := hkept
  last := fun hsucc => (hsucc.made n (Nat.lt_succ_self n)).goes hlast
  output := h.current
  isFixed := h.isFixed
  fixes := h.fixes
  tolerated := by
    rw [found, LoopState.report, isNone_none, Bool.and_true, h.current, resultAt]
  shows := fun _ => by
    rw [found, LoopState.report, isNone_none, Bool.and_true, h.current, resultAt]
  lost := fun hlost => absurd hlast hlost.1
  brokenBy := fun rules => ⟨nofun, fun hbroken => absurd hlast hbroken.1.goes⟩

/-- The report of a pass that fixes nothing. -/
theorem reports_still (hlinted : isFatal (j.resultAt n) = false)
    (hfixed : (j.passAt n).isFixed = false) :
    j.Reports
      ((s.after (j.resultAt n) (j.passAt n)).report
        { j.resultAt n with messages := (j.passAt n).remaining })
      n := by
  obtain ⟨houtput, hcount, hremaining⟩ := applyFixes_of_not_isFixed _ _ _ hfixed
  have hmade : ¬j.Makes n := fun hmade =>
    Bool.false_ne_true (hfixed.symm.trans hmade.isFixed)
  have hfound : j.found
      ((s.after (j.resultAt n) (j.passAt n)).report
        { j.resultAt n with messages := (j.passAt n).remaining })
      n = j.resultAt n := by
    show j.lint (j.passAt n).output (decide (0 < n) && true) = _
    rw [Bool.and_true, passAt, houtput, resultAt]
  refine ⟨⟨hkept, fun hsucc => hmade (hsucc.made n (Nat.lt_succ_self n)), houtput, ?_, ?_, ?_,
    fun rules => ⟨nofun, fun hbroken => absurd hbroken.1 hmade⟩⟩, fun _ => ?_, fun hlost => ?_⟩
  · show (s.isFixed || (j.passAt n).isFixed) = _
    rw [hfixed, Bool.or_false, h.isFixed]
  · show s.fixes + (j.passAt n).count = _
    rw [passAt, hcount, add_zero, h.fixes]
  · rw [hfound]
    rfl
  · rw [hfound]
    exact hremaining
  · exact absurd (hlinted.symm.trans hlost.2) Bool.false_ne_true

/-- The report of a text that has only fatal messages. -/
theorem reports_fatal (hlost : j.Unlinted n) :
    j.Reports
      (s.report { j.resultAt n with messages := (j.passAt n).remaining })
      n where
  kept := hkept
  last := fun hsucc =>
    Bool.false_ne_true ((hsucc.made n (Nat.lt_succ_self n)).linted.symm.trans hlost.2)
  output := h.current
  isFixed := h.isFixed
  fixes := h.fixes
  tolerated := by
    rw [found, LoopState.report, isNone_none, Bool.and_true, h.current, resultAt]
  shows := fun hshows => absurd hlost hshows
  lost := fun _ => rfl
  brokenBy := fun rules => ⟨nofun, fun hbroken =>
    absurd (hbroken.1.linted.symm.trans hlost.2) Bool.false_ne_true⟩

end

/-- Every round ends with a report, or goes on after a pass that fixes something. -/
theorem fixLoop_reports (hcircular : s.isCircular = false) (hgoes : ¬j.IsLast n)
    (hfuel : n + fuel = MAX_AUTOFIX_PASSES) : ∃ report m,
      fixLoop j.shouldFix j.lint fuel s = some report ∧ j.Reports report m := by
  induction fuel generalizing s n with
  | zero => exact absurd (.inl hfuel.ge) hgoes
  | succ fuel ih =>
    have hlint : j.lint s.current (decide (0 < s.passes)) = j.resultAt n := by
      rw [h.current, h.passes]
      rfl
    have hpass : applyFixes s.current (j.resultAt n).messages j.shouldFix =
        j.passAt n := by
      rw [h.current]
      rfl
    rw [fixLoop, hlint]
    rw [hpass]
    rcases rollBack_after h with ⟨report, m, hroll, hreports⟩ | ⟨hroll, hkept⟩
    · rw [hroll]
      exact ⟨report, m, rfl, hreports⟩
    rw [hroll]
    dsimp only
    split
    next hfatal => exact ⟨_, n, rfl, reports_fatal h hkept ⟨hgoes, hfatal⟩⟩
    next hfatal =>
      rw [Bool.not_eq_true] at hfatal
      have hstops := isLast_after_iff h hcircular
      rcases hfixed : (j.passAt n).isFixed with _ | _
      · rw [Bool.not_false, Bool.or_true, Bool.true_or, if_pos rfl, if_neg Bool.false_ne_true]
        exact ⟨_, n, rfl, reports_still h hkept hfatal hfixed⟩
      have hafter := h.pass hkept ⟨hgoes, hfatal, hfixed⟩
      rw [Bool.not_true, Bool.or_false]
      split
      next hlast =>
        -- the last text is linted once more, and its pass may be rolled back
        have hfound : j.lint
            (s.after (j.resultAt n) (j.passAt n)).current true =
              j.resultAt (n + 1) := rfl
        rw [if_pos rfl, hfound]
        rcases rollBack_after hafter with ⟨report, m, hroll, hreports⟩ | ⟨hroll, hkept'⟩
        · rw [hroll]
          exact ⟨report, m, rfl, hreports⟩
        · rw [hroll]
          exact ⟨_, n + 1, rfl, reports_last hafter hkept' (hstops.1 hlast)⟩
      next hlast =>
        refine ih hafter ?_ (fun h => hlast (hstops.2 h)) (by omega)
        rw [Bool.or_eq_true, not_or, Bool.not_eq_true] at hlast
        exact hlast.1

end

end Loop

/-- The loop ends, and its report is about the text after some passes. -/
theorem verifyAndFix_reports : ∃ report n, verifyAndFix j.shouldFix j.lint j.text = some report ∧
    j.Reports report n :=
  fixLoop_reports after_start rfl not_isLast_zero (zero_add MAX_AUTOFIX_PASSES)

/-! ## When the report tells what is found -/

/-- What the report should tell: no pass that is kept makes the text parse worse, and the messages
are those of the text. -/
structure Tells (report : FixReport RuleId) (n : ℕ) : Prop extends j.IsAbout report n where
  /-- The passes, with the one that is undone. -/
  passes : n + (if report.brokenBy.isSome then 1 else 0) ≤ MAX_AUTOFIX_PASSES
  improves : ∀ k < n, ¬ParsesWorse (j.resultAt (k + 1)) (j.resultAt k)
  messages : report.result.messages.Perm (j.found report n).messages

/-- No message of a text that can't be linted has a fix to apply. -/
def LosesNothing : Prop :=
  ∀ n, j.Kept n → j.Unlinted n →
    ∀ m ∈ (j.resultAt n).messages, m.Idle (j.textAt n) j.shouldFix

/-- No pass that is kept brings a parse error beside other messages. -/
def MixesNothing : Prop :=
  ∀ n, j.Kept (n + 1) → isMixed (j.resultAt (n + 1)) = true →
    notParsed (j.resultAt n) = true

section

variable {j} {report : FixReport RuleId} {n : ℕ}

section

variable (h : j.Reports report n)
include h

theorem Reports.passes : n + (if report.brokenBy.isSome then 1 else 0) ≤ MAX_AUTOFIX_PASSES := by
  rcases hbroken : report.brokenBy with _ | rules
  · exact h.kept.passes
  · have hlt : n < MAX_AUTOFIX_PASSES :=
      not_le.1 fun hle => ((h.brokenBy rules).1 hbroken).1.goes (.inl hle)
    exact hlt

/-- The text that can't be linted is the last one. -/
theorem Reports.eq_of_unlinted {k : ℕ} (hkept : j.Kept k) (hlost : j.Unlinted k) : k = n := by
  rcases lt_trichotomy k n with hlt | heq | hgt
  · exact absurd ((h.kept.made k hlt).linted.symm.trans hlost.2) Bool.false_ne_true
  · exact heq
  · exact absurd (hkept.mono hgt) h.last

theorem Reports.found_eq (hlost : j.Unlinted n) : j.found report n = j.resultAt n := by
  have hbroken : report.brokenBy = none := by
    rw [eq_none_iff_forall_ne_some]
    intro rules hrules
    have hlinted := ((h.brokenBy rules).1 hrules).1.linted
    exact Bool.false_ne_true (hlinted.symm.trans hlost.2)
  rw [found, hbroken, isNone_none, Bool.and_true, h.output, resultAt]

theorem Reports.messages_iff :
    report.result.messages.Perm (j.found report n).messages ↔
      j.LosesNothing := by
  by_cases hlost : j.Unlinted n
  · rw [h.found_eq hlost, h.lost hlost, passAt, applyFixes_remaining_perm_iff]
    refine ⟨fun hidle k hkept hk => ?_, fun hloses => hloses n h.kept hlost⟩
    rw [h.eq_of_unlinted hkept hk]
    exact hidle
  · refine iff_of_true (h.shows hlost) fun k hkept hk => ?_
    rw [h.eq_of_unlinted hkept hk] at hk
    exact absurd hk hlost

theorem Reports.improves_iff :
    (∀ k < n, ¬ParsesWorse (j.resultAt (k + 1)) (j.resultAt k)) ↔
      j.MixesNothing := by
  have hlt : ∀ k, j.Kept (k + 1) ↔ k < n := fun k =>
    ⟨fun hkept => not_le.1 fun hle => h.last (hkept.mono (Nat.succ_le_succ hle)), h.kept.mono⟩
  rw [MixesNothing]
  refine forall_congr' fun k => ?_
  rw [hlt]
  refine forall_congr' fun hk => ?_
  rw [parsesWorse_iff (h.kept.sound k hk), not_and, Bool.not_eq_false]

end

end

end Job

/-- A processor that finds one fatal message with a fix in the text `a`. -/
def fatalFix (text : Bytes) (_ : Bool) : LintResult ℕ where
  messages :=
    if text = Soup.text "a" then [{ isFatal := true, fix := some ⟨0, 1, Soup.text "b"⟩ }] else []

end Soup.Lint
