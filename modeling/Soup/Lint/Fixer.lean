import Mathlib.Data.List.Induction
import Mathlib.Data.List.Sort
import Mathlib.Data.Prod.Lex
import Mathlib.Order.WithBot
import Soup.Bytes

/-!
# Fixes

`fixer.rs`: `apply_fixes` applies the fixes of messages to a text, and `verify_and_fix` lints and
fixes until nothing is left to fix.

A message has here what these two read of it, and a lint result its messages and the count of
tolerated errors. An offset is a natural number. The stable sorts of the source are
`List.insertionSort`; `LintMessage::sort` skips a sorted list, which the sort would leave as it is.
-/

namespace Soup.Lint

open List Option Nat

/-- A fix: the text that goes to the place of the bytes from `start` to `stop`, the source's `end`.
-/
structure Fix where
  start : ℕ
  stop : ℕ
  text : Bytes
deriving DecidableEq, Repr

structure LintMessage (RuleId : Type) where
  ruleId : Option RuleId := none
  message : Bytes := []
  line : UInt32 := 0
  column : UInt32 := 0
  isFatal : Bool := false
  fix : Option Fix := none
deriving DecidableEq, Repr

structure LintResult (RuleId : Type) where
  messages : List (LintMessage RuleId) := []
  toleratedErrors : ℕ := 0
deriving DecidableEq, Repr

/-- The result of `apply_fixes`. -/
structure Fixed (RuleId : Type) where
  isFixed : Bool := false
  output : Bytes := []
  remaining : List (LintMessage RuleId) := []
  applied : List RuleId := []
  count : ℕ := 0
deriving DecidableEq, Repr

def BYTE_ORDER_MARK : Bytes := [0xEF, 0xBB, 0xBF]

def MAX_AUTOFIX_PASSES : ℕ := 10

variable {RuleId : Type} [DecidableEq RuleId]

/-! ## One pass -/

/-- `(fix.span.start, fix.span.end)`. -/
def LintMessage.fixKey (m : LintMessage RuleId) : WithBot (ℕ ×ₗ ℕ) :=
  m.fix.map fun fix => toLex (fix.start, fix.stop)

def LintMessage.sortKey (m : LintMessage RuleId) : ℤ ×ₗ ℤ :=
  toLex (m.line.toInt32.toInt, m.column.toInt32.toInt)

/-- `LintMessage::sort`. -/
def LintMessage.sort (messages : List (LintMessage RuleId)) : List (LintMessage RuleId) :=
  messages.insertionSort fun a b => a.sortKey ≤ b.sortKey

/-- `text.get(start..end)`. -/
def getRange (text : Bytes) (start stop : ℕ) : Option Bytes :=
  if start ≤ stop ∧ stop ≤ text.length then some ((text.take stop).drop start) else none

/-- `&text[last.unwrap_or(0).min(text.len())..start.min(text.len())]`. -/
def gap (text : Bytes) (last : Option ℕ) (start : ℕ) : Bytes :=
  (text.take (min start text.length)).drop (min (last.getD 0) text.length)

/-- The variables of the loop of `apply_fixes`. -/
structure FixState (RuleId : Type) where
  output : Bytes := []
  last : Option ℕ := none
  isFixed : Bool := false
  remaining : List (LintMessage RuleId)
  applied : List RuleId := []
  count : ℕ := 0

/-- `applied.push(rule)`, if there is a rule and it is not there. -/
def addRule (applied : List RuleId) (ruleId : Option RuleId) : List RuleId :=
  match ruleId with
  | some rule => if applied.contains rule then applied else applied ++ [rule]
  | none => applied

/-- What the loop does with a fix that is applied. -/
def FixState.apply (text : Bytes) (s : FixState RuleId) (message : LintMessage RuleId) (fix : Fix) :
    FixState RuleId :=
  let output := s.output ++ gap text s.last fix.start
  let output :=
    if fix.start = BYTE_ORDER_MARK.length ∧ BYTE_ORDER_MARK.isPrefixOf text ∧
      BYTE_ORDER_MARK.isPrefixOf fix.text
      then [] else output
  { output := output ++ fix.text
    last := some fix.stop
    isFixed := true
    remaining := s.remaining
    applied := addRule s.applied message.ruleId
    count := s.count + 1 }

/-- The message is not fixed. -/
def FixState.leave (s : FixState RuleId) (message : LintMessage RuleId) : FixState RuleId :=
  { s with remaining := s.remaining ++ [message] }

/-- The body of the loop of `apply_fixes`. -/
def FixState.step (text : Bytes) (shouldFix : LintMessage RuleId → Bool) (s : FixState RuleId)
    (message : LintMessage RuleId) : FixState RuleId :=
  match message.fix.filter fun _ => shouldFix message with
  | none => s.leave message
  | some fix =>
    if getRange text fix.start fix.stop = some fix.text then s.leave message
    else if s.last.any (fix.start ≤ ·) || decide (fix.stop < fix.start) then
      { s with isFixed := true }.leave message
    else s.apply text message fix

def applyFixes (text : Bytes) (messages : List (LintMessage RuleId))
    (shouldFix : LintMessage RuleId → Bool) : Fixed RuleId :=
  let fixable := messages.filter fun m => m.fix.isSome
  let remaining := messages.filter fun m => !m.fix.isSome
  if fixable.isEmpty then { output := text, remaining }
  else
    let sorted := fixable.insertionSort fun a b => a.fixKey ≤ b.fixKey
    let s := sorted.foldl (FixState.step text shouldFix) { remaining }
    { isFixed := s.isFixed
      output := s.output ++ text.drop (min (s.last.getD 0) text.length)
      remaining := LintMessage.sort s.remaining
      applied := s.applied
      count := s.count }

/-! ## All passes -/

/-- The result of `verify_and_fix`. -/
structure FixReport (RuleId : Type) where
  isFixed : Bool
  fixes : ℕ
  output : Bytes
  result : LintResult RuleId
  isCircular : Bool
  brokenBy : Option (List RuleId)
deriving DecidableEq, Repr

def isFatal (result : LintResult RuleId) : Bool :=
  !result.messages.isEmpty && result.messages.all LintMessage.isFatal

def isParseError (message : LintMessage RuleId) : Bool :=
  message.isFatal && (Soup.text "Parsing error: ").isPrefixOf message.message

def breaksSyntax (result : LintResult RuleId) (toleratedBefore : ℕ) : Bool :=
  isFatal result && result.messages.all isParseError || decide
    (toleratedBefore < result.toleratedErrors)

section Loop

variable (shouldFix : LintMessage RuleId → Bool) (lint : Bytes → Bool → LintResult RuleId)

/-- The rules of a pass, then `is_fixed` and `fixes` as they were before it. -/
abbrev Pass (RuleId : Type) := List RuleId × Bool × ℕ

def rolledBackReport (before : Bytes) (pass : Pass RuleId) : FixReport RuleId where
  isFixed := pass.2.1
  fixes := pass.2.2
  output := before
  result := lint before false
  isCircular := false
  brokenBy := some pass.1

/-- The report of `rolled_back_report`, where the syntax is broken and there is a pass to roll back.
-/
def rollBack (result : LintResult RuleId) (toleratedBefore : ℕ) (previous : Option Bytes)
    (lastPass : Option (Pass RuleId)) : Option (FixReport RuleId) :=
  if breaksSyntax result toleratedBefore then
    previous.bind fun before => lastPass.map fun pass => rolledBackReport lint before pass
  else none

/-- The variables of the loop of `verify_and_fix`. -/
structure LoopState (RuleId : Type) where
  current : Bytes
  previous : Option Bytes := none
  isFixed : Bool := false
  isCircular : Bool := false
  fixes : ℕ := 0
  lastPass : Option (Pass RuleId) := none
  toleratedBefore : ℕ := 0
  passes : ℕ := 0

/-- The report where nothing is rolled back. -/
def LoopState.report (s : LoopState RuleId) (result : LintResult RuleId) : FixReport RuleId where
  isFixed := s.isFixed
  fixes := s.fixes
  output := s.current
  result := result
  isCircular := s.isCircular
  brokenBy := none

/-- The variables after a pass whose fixes are `fixed`. -/
def LoopState.after (s : LoopState RuleId) (result : LintResult RuleId) (fixed : Fixed RuleId) :
    LoopState RuleId where
  current := fixed.output
  previous := some s.current
  isFixed := s.isFixed || fixed.isFixed
  isCircular := s.isCircular || decide (0 < s.passes) && decide (s.previous = some fixed.output)
  fixes := s.fixes + fixed.count
  lastPass := some (fixed.applied, s.isFixed, s.fixes)
  toleratedBefore := result.toleratedErrors
  passes := s.passes + 1

/-- The loop of `verify_and_fix`. It makes no more rounds than there may be passes. -/
def fixLoop : ℕ → LoopState RuleId → Option (FixReport RuleId)
  | 0, _ => none
  | fuel + 1, s =>
    let result := lint s.current (decide (0 < s.passes))
    match rollBack lint result s.toleratedBefore s.previous s.lastPass with
    | some report => some report
    | none =>
      let fixed := applyFixes s.current result.messages shouldFix
      let left := { result with messages := fixed.remaining }
      if isFatal result then some (s.report left)
      else
        let s' := s.after result fixed
        if s'.isCircular || !fixed.isFixed || decide (MAX_AUTOFIX_PASSES ≤ s'.passes) then
          if fixed.isFixed then
            let result := lint s'.current true
            match rollBack lint result s'.toleratedBefore s'.previous s'.lastPass with
            | some report => some report
            | none => some (s'.report result)
          else some (s'.report left)
        else fixLoop fuel s'

def verifyAndFix (text : Bytes) : Option (FixReport RuleId) :=
  fixLoop shouldFix lint MAX_AUTOFIX_PASSES { current := text }

end Loop

/-!
## What a pass replaces

The fixes that a pass applies come one behind the other with something between them. Replacing their
ranges from the last to the first, so that no range moves, gives the output of the pass
(`applyFixes_replaces`).
-/

variable {RuleId : Type} [DecidableEq RuleId]

set_option linter.unusedSectionVars false

/-! ### Replacing -/

/-- The text with one range replaced. The range is cut off at the length `len` of the first text. -/
def replaceOne (len : ℕ) (fix : Fix) (text : Bytes) : Bytes :=
  text.take (min fix.start len) ++ fix.text ++ text.drop (min fix.stop len)

/-- The text with all ranges replaced, from the last to the first. -/
def replaceAll (text : Bytes) (fixes : List Fix) : Bytes :=
  fixes.foldr (replaceOne text.length) text

/-- The ranges overlap, or one starts where the other ends. -/
def Fix.Touches (a f : Fix) : Prop := a.start ≤ f.stop ∧ f.start ≤ a.stop

/-- The range holds the text of the fix. -/
def Fix.ChangesNothing (text : Bytes) (fix : Fix) : Prop :=
  getRange text fix.start fix.stop = some fix.text

theorem replaceOne_take (text tail : Bytes) {fix : Fix} {n : ℕ} (hn : n ≤ min fix.start text.length)
    (hrange : fix.start ≤ fix.stop) :
    replaceOne text.length fix (text.take (min fix.stop text.length) ++ tail) =
      text.take n ++ ((text.take (min fix.start text.length)).drop n ++ fix.text ++ tail) := by
  have hlength : (text.take (min fix.stop text.length)).length = min fix.stop text.length := by
    rw [length_take]
    omega
  have hle : min fix.start text.length ≤ min fix.stop text.length := by omega
  have htake : text.take n = (text.take (min fix.start text.length)).take n := by
    rw [take_take, min_eq_left hn]
  rw [replaceOne, take_append_of_le_length (hle.trans_eq hlength.symm), take_take, min_eq_left hle,
    drop_left' hlength, htake, append_assoc, append_assoc, ← append_assoc (take n _),
    take_append_drop]

/-! ### The loop -/

variable {applied : List RuleId}

theorem mem_addRule {ruleId : Option RuleId} {rule : RuleId} :
    rule ∈ addRule applied ruleId ↔ rule ∈ applied ∨ ruleId = some rule := by
  cases ruleId with
  | none => simp [addRule]
  | some new =>
    rw [addRule, some_inj]
    split
    next hmem =>
      rw [contains_iff_mem] at hmem
      exact ⟨.inl, fun hor => hor.elim id fun heq => heq ▸ hmem⟩
    next => rw [mem_append, mem_singleton, eq_comm]

theorem nodup_addRule (h : applied.Nodup) (ruleId : Option RuleId) :
    (addRule applied ruleId).Nodup := by
  cases ruleId with
  | none => exact h
  | some new =>
    rw [addRule]
    split
    next => exact h
    next hnew =>
      rw [contains_iff_mem] at hnew
      exact h.append (nodup_singleton new) (disjoint_singleton.2 hnew)

/-- What the loop of `apply_fixes` has made of the messages `done`, with the fixes that it applied.
-/
structure Applies (text : Bytes) (shouldFix : LintMessage RuleId → Bool)
    (others done : List (LintMessage RuleId))
    (s : FixState RuleId) (fixes : List (LintMessage RuleId × Fix)) : Prop where
  mem : ∀ a ∈ fixes, a.1 ∈ done ∧ a.1.fix = some a.2 ∧ shouldFix a.1 = true
  range : ∀ a ∈ fixes, a.2.start ≤ a.2.stop
  separate : fixes.Pairwise fun a b => a.2.stop < b.2.start
  last : s.last = fixes.getLast?.map fun a => a.2.stop
  output : ∀ tail, (fixes.map Prod.snd).foldr (replaceOne text.length)
    (text.take (min (s.last.getD 0) text.length) ++ tail) = s.output ++ tail
  isFixed : s.isFixed = true ↔ 0 < fixes.length
  count : s.count = fixes.length
  nodup : s.applied.Nodup
  applied : ∀ rule, rule ∈ s.applied ↔ ∃ a ∈ fixes, a.1.ruleId = some rule
  perm : (others ++ done).Perm (fixes.map Prod.fst ++ s.remaining)
  waits : ∀ m ∈ s.remaining, ∀ fix ∈ m.fix, shouldFix m = true →
    fix.ChangesNothing text ∨ ∃ a ∈ fixes, a.2.Touches fix

section Loop

variable {text : Bytes} {shouldFix : LintMessage RuleId → Bool}
  {others done : List (LintMessage RuleId)}
  {s : FixState RuleId} {fixes : List (LintMessage RuleId × Fix)} {m : LintMessage RuleId}
    {fix : Fix}

theorem applies_start (h : ∀ m ∈ others, m.fix = none) :
    Applies text shouldFix others [] { remaining := others } [] where
  mem := fun a ha => absurd ha not_mem_nil
  range := fun a ha => absurd ha not_mem_nil
  separate := .nil
  last := rfl
  output := fun tail => by simp
  isFixed := iff_of_false Bool.false_ne_true (lt_irrefl _)
  count := rfl
  nodup := .nil
  applied := fun rule => by simp
  perm := by simp
  waits := fun m hm fix hfix => by
    rw [h m hm] at hfix
    cases hfix

section

variable (h : Applies text shouldFix others done s fixes)
include h

/-- A message that is left has its reason. -/
theorem Applies.leave (isFixed : Bool) (hfixed : isFixed = true ↔ 0 < fixes.length)
    (hm : ∀ fix ∈ m.fix, shouldFix m = true → fix.ChangesNothing text ∨ ∃ a ∈ fixes,
      a.2.Touches fix) :
    Applies text shouldFix others (done ++ [m]) ({ s with isFixed }.leave m) fixes where
  mem := fun a ha => ⟨mem_append_left _ (h.mem a ha).1, (h.mem a ha).2⟩
  range := h.range
  separate := h.separate
  last := h.last
  output := h.output
  isFixed := hfixed
  count := h.count
  nodup := h.nodup
  applied := h.applied
  perm := by
    rw [← append_assoc]
    refine (h.perm.append_right [m]).trans ?_
    rw [append_assoc]
    exact List.Perm.refl _
  waits := fun m' hm' => by
    rcases mem_append.1 hm' with hm' | hm'
    · exact h.waits m' hm'
    · rw [mem_singleton.1 hm']
      exact hm

theorem Applies.apply (hfix : m.fix = some fix)
    (hshould : shouldFix m = true) (hrange : fix.start ≤ fix.stop)
    (hmark : BYTE_ORDER_MARK.isPrefixOf fix.text = false)
    (hlast : ∀ a ∈ fixes, a.2.stop < fix.start) (hgap : s.last.getD 0 ≤ fix.start) :
    Applies text shouldFix others (done ++ [m]) (s.apply text m fix) (fixes ++ [(m, fix)]) where
  mem := by
    intro a ha
    rcases mem_append.1 ha with ha | ha
    · exact ⟨mem_append_left _ (h.mem a ha).1, (h.mem a ha).2⟩
    · rw [mem_singleton.1 ha]
      exact ⟨mem_append_right _ mem_cons_self, hfix, hshould⟩
  range := by
    intro a ha
    rcases mem_append.1 ha with ha | ha
    · exact h.range a ha
    · rw [mem_singleton.1 ha]
      exact hrange
  separate := by
    refine pairwise_append.2 ⟨h.separate, pairwise_singleton _ _, fun a ha c hc => ?_⟩
    rw [mem_singleton.1 hc]
    exact hlast a ha
  last := by
    rw [getLast?_concat]
    rfl
  output := by
    intro tail
    have hout : (s.apply text m fix).output = s.output ++ gap text s.last fix.start ++
        fix.text := by
      rw [FixState.apply]
      rw [if_neg fun hbom => Bool.false_ne_true (hmark.symm.trans hbom.2.2)]
    have hlast' : (s.apply text m fix).last = some fix.stop := rfl
    rw [hout, hlast', getD_some, map_append, foldr_append, map_cons, map_nil,
      foldr_cons, foldr_nil, replaceOne_take text tail (n := min (s.last.getD 0) text.length)
      (by omega)
      hrange, h.output, gap]
    simp only [append_assoc]
  isFixed := iff_of_true rfl (by rw [length_append]; exact succ_pos _)
  count := by
    rw [length_append, length_singleton, ← h.count]
    rfl
  nodup := nodup_addRule h.nodup m.ruleId
  applied := fun rule => by
    rw [show (s.apply text m fix).applied = addRule s.applied m.ruleId from rfl, mem_addRule,
      h.applied]
    simp only [mem_append, mem_singleton, or_and_right, exists_or, exists_eq_left]
  perm := by
    rw [← append_assoc, map_append, append_assoc (fixes.map Prod.fst)]
    refine (h.perm.append_right [m]).trans ?_
    rw [append_assoc]
    exact (perm_append_comm).append_left _
  waits := fun m' hm' fix' hfix' hshould' => by
    rcases h.waits m' hm' fix' hfix' hshould' with hnothing | ⟨a, ha, htouches⟩
    · exact .inl hnothing
    · exact .inr ⟨a, mem_append_left _ ha, htouches⟩

/-- A message after all that start before it. -/
theorem Applies.step (hrange : ∀ fix ∈ m.fix, fix.start ≤ fix.stop)
    (hmark : ∀ fix ∈ m.fix, BYTE_ORDER_MARK.isPrefixOf fix.text = false)
    (hsorted : ∀ a ∈ done, a.fixKey ≤ m.fixKey) :
    ∃ fixes', Applies text shouldFix others (done ++ [m]) (s.step text shouldFix m) fixes' := by
  rw [FixState.step]
  rcases hfix : m.fix with _ | fix
  · refine ⟨fixes, h.leave s.isFixed h.isFixed fun fix hfix' => ?_⟩
    rw [hfix] at hfix'
    cases hfix'
  have hrange := hrange fix hfix
  have hmark := hmark fix hfix
  rcases hshould : shouldFix m with _ | _
  · refine ⟨fixes, h.leave s.isFixed h.isFixed fun fix _ hshould' => ?_⟩
    rw [hshould] at hshould'
    cases hshould'
  rw [filter_some, if_pos rfl]
  dsimp only
  have hone : ∀ fix' ∈ m.fix, fix' = fix := fun fix' hfix' => some.inj (hfix'.symm.trans hfix)
  split
  next hnothing =>
    refine ⟨fixes, h.leave s.isFixed h.isFixed fun fix' hfix' _ => .inl ?_⟩
    rw [hone fix' hfix']
    exact hnothing
  next =>
    split
    next hwaits =>
      rcases eq_nil_or_concat' fixes with rfl | ⟨front, a, rfl⟩
      · rw [h.last] at hwaits
        exact absurd hrange (not_le.2 (by simpa using hwaits))
      · have ha := h.mem a (mem_append_right _ mem_cons_self)
        have hle : fix.start ≤ a.2.stop := by
          rw [h.last, getLast?_concat] at hwaits
          simpa [not_lt.2 hrange] using hwaits
        refine ⟨_, h.leave true (iff_of_true rfl (by simp)) fun fix' hfix' _ =>
          .inr ⟨a, mem_append_right _ mem_cons_self, ?_⟩⟩
        rw [hone fix' hfix']
        have hkey := hsorted a.1 ha.1
        rw [LintMessage.fixKey, LintMessage.fixKey, ha.2.1, hfix] at hkey
        refine ⟨?_, hle⟩
        rcases Prod.Lex.toLex_le_toLex.1 (WithBot.coe_le_coe.1 hkey) with hlt | heq
        · exact hlt.le.trans hrange
        · exact heq.1.le.trans hrange
    next hfree =>
      have hlast : ∀ n ∈ s.last, n < fix.start := fun n hn => by
        rw [hn] at hfree
        simpa [not_lt.2 hrange] using hfree
      refine ⟨_, h.apply hfix hshould hrange hmark (fun c hc => ?_) ?_⟩
      · rcases eq_nil_or_concat' fixes with rfl | ⟨front, a, rfl⟩
        · exact absurd hc not_mem_nil
        · have hlt : a.2.stop < fix.start := hlast _ (by rw [h.last, getLast?_concat]; rfl)
          rcases mem_append.1 hc with hc | hc
          · have hbefore := (pairwise_append.1 h.separate).2.2 c hc a mem_cons_self
            exact (hbefore.trans_le (h.range a (mem_append_right _ mem_cons_self))).trans hlt
          · rw [mem_singleton.1 hc]
            exact hlt
      · rcases hs : s.last with _ | n
        · exact zero_le _
        · exact (hlast n hs).le

end

/-- The loop over messages that are sorted by their ranges. -/
theorem applies_foldl (messages : List (LintMessage RuleId)) (hothers : ∀ m ∈ others, m.fix = none)
    (hrange : ∀ m ∈ messages, ∀ fix ∈ m.fix, fix.start ≤ fix.stop)
    (hmark : ∀ m ∈ messages, ∀ fix ∈ m.fix, BYTE_ORDER_MARK.isPrefixOf fix.text = false)
    (hsorted : messages.Pairwise fun a b => a.fixKey ≤ b.fixKey) :
    ∃ fixes, Applies text shouldFix others messages
      (messages.foldl (FixState.step text shouldFix) { remaining := others }) fixes := by
  induction messages using reverseRecOn with
  | nil => exact ⟨[], applies_start hothers⟩
  | append_singleton messages m ih =>
    rw [forall_mem_append] at hrange hmark
    rw [pairwise_append] at hsorted
    obtain ⟨fixes, h⟩ := ih hrange.1 hmark.1 hsorted.1
    rw [foldl_append, foldl_cons, foldl_nil]
    exact h.step (hrange.2 m mem_cons_self) (hmark.2 m mem_cons_self)
      fun a ha => hsorted.2.2 a ha m mem_cons_self

end Loop

theorem pairwise_fixKey_insertionSort (messages : List (LintMessage RuleId)) :
    (messages.insertionSort fun a b => a.fixKey ≤ b.fixKey).Pairwise fun a b => a.fixKey ≤
      b.fixKey := by
  exact pairwise_insertionSort _ messages

theorem others_append_fixable (messages : List (LintMessage RuleId)) :
    (messages.filter (fun m => !m.fix.isSome) ++ messages.filter fun m => m.fix.isSome).Perm
      messages :=
  perm_append_comm.trans (filter_append_perm _ messages)

/-- A pass replaces the ranges of the fixes that it applies, and says why it leaves a message. -/
theorem applyFixes_replaces (text : Bytes) (messages : List (LintMessage RuleId))
    (shouldFix : LintMessage RuleId → Bool)
    (hrange : ∀ m ∈ messages, ∀ fix ∈ m.fix, fix.start ≤ fix.stop)
    (hmark : ∀ m ∈ messages, ∀ fix ∈ m.fix, BYTE_ORDER_MARK.isPrefixOf fix.text = false) :
    ∃ fixes : List (LintMessage RuleId × Fix),
      (∀ a ∈ fixes, a.1.fix = some a.2 ∧ shouldFix a.1 = true) ∧
      (fixes.Pairwise fun a b => a.2.stop < b.2.start) ∧
      (applyFixes text messages shouldFix).output = replaceAll text (fixes.map Prod.snd) ∧
      ((applyFixes text messages shouldFix).isFixed = true ↔ 0 < fixes.length) ∧
      (applyFixes text messages shouldFix).count = fixes.length ∧
      (applyFixes text messages shouldFix).applied.Nodup ∧
      (∀ rule, rule ∈ (applyFixes text messages shouldFix).applied ↔ ∃ a ∈ fixes,
        a.1.ruleId = some rule) ∧
      messages.Perm (fixes.map Prod.fst ++ (applyFixes text messages shouldFix).remaining) ∧
      ∀ m ∈ (applyFixes text messages shouldFix).remaining, ∀ fix ∈ m.fix, shouldFix m = true →
        fix.ChangesNothing text ∨ ∃ a ∈ fixes, a.2.Touches fix := by
  have hpartition := others_append_fixable messages
  have hothers : ∀ m ∈ messages.filter fun m => !m.fix.isSome, m.fix = none := fun m hm => by
    simpa using (mem_filter.1 hm).2
  rw [applyFixes]
  split
  next hempty =>
    rw [isEmpty_iff.1 hempty, append_nil] at hpartition
    refine ⟨[], fun a ha => absurd ha not_mem_nil, .nil, rfl,
      iff_of_false Bool.false_ne_true (lt_irrefl _), rfl, .nil, fun rule => by simp,
      hpartition.symm,
      fun m hm fix hfix => ?_⟩
    rw [hothers m hm] at hfix
    cases hfix
  next =>
    have hperm := perm_insertionSort (fun a b => a.fixKey ≤ b.fixKey)
      (messages.filter fun m => m.fix.isSome)
    have hmem : ∀ m ∈ (messages.filter fun m => m.fix.isSome).insertionSort fun a b => a.fixKey ≤
      b.fixKey, m ∈ messages := fun m hm => mem_of_mem_filter (hperm.mem_iff.1 hm)
    obtain ⟨fixes, h⟩ := applies_foldl _ hothers (fun m hm => hrange m (hmem m hm))
      (fun m hm => hmark m (hmem m hm)) (pairwise_fixKey_insertionSort _)
    dsimp only
    generalize foldl (FixState.step text shouldFix) _ _ = s at h
    have hsort := perm_insertionSort (fun a b => a.sortKey ≤ b.sortKey) s.remaining
    refine ⟨fixes, fun a ha => (h.mem a ha).2, h.separate, ?_, h.isFixed, h.count, h.nodup,
      h.applied, ?_, fun m hm => ?_⟩
    · rw [← h.output, take_append_drop]
      rfl
    · exact ((hpartition.symm.trans (hperm.symm.append_left _)).trans h.perm).trans
        (hsort.symm.append_left _)
    · exact h.waits m (hsort.mem_iff.1 hm)

/-- Two fixes that touch, of which the second waits, and one that is past the end of the text. -/
theorem applyFixes_replaces_touching :
    let waits : LintMessage ℕ := { fix := some ⟨2, 3, text "C"⟩ }
    let inner : LintMessage ℕ := { ruleId := some 7, fix := some ⟨1, 2, text "B"⟩ }
    let atEnd : LintMessage ℕ := { fix := some ⟨5, 6, text "!"⟩ }
    let report := applyFixes (text "abc") [waits, atEnd, inner] fun _ => true
    report.remaining = [waits] ∧ report.output = text "aBc!" ∧
      ∃ fixes : List (LintMessage ℕ × Fix), fixes.map Prod.fst = [inner, atEnd] ∧
        report.output = replaceAll (text "abc") (fixes.map Prod.snd) ∧
        ∃ a ∈ fixes, a.2.Touches ⟨2, 3, text "C"⟩ := by
  intro waits inner atEnd report
  have hremaining : report.remaining = [waits] := by decide +kernel
  obtain ⟨fixes, hmem, hsep, houtput, -, hcount, -, -, hperm, hwaits⟩ :=
    applyFixes_replaces (text "abc") [waits, atEnd, inner] (fun _ => true)
      (by simp [waits, atEnd, inner]) (by simp [waits, atEnd, inner]; decide)
  obtain ⟨a, c, rfl⟩ := length_eq_two.1 (hcount.symm.trans (by decide +kernel))
  have happlied : [atEnd, inner].Perm [a.1, c.1] := by
    refine (perm_cons waits).1 (hperm.trans ?_)
    rw [show (applyFixes _ _ _).remaining = [waits] from hremaining]
    exact perm_append_comm
  have hone : ∀ m ∈ [a.1, c.1], m = atEnd ∨ m = inner := fun m hm => by
    simpa using happlied.mem_iff.2 hm
  obtain ⟨a, fixA⟩ := a
  obtain ⟨c, fixC⟩ := c
  have horder : fixA.stop < fixC.start := (pairwise_cons.1 hsep).1 _ mem_cons_self
  have hfixA : a.fix = some fixA := (hmem _ mem_cons_self).1
  have hfixC : c.fix = some fixC := (hmem _ (mem_cons_of_mem _ mem_cons_self)).1
  obtain ⟨rfl, rfl⟩ : a = inner ∧ c = atEnd := by
    rcases hone a (by simp) with rfl | rfl <;> rcases hone c (by simp) with rfl | rfl <;>
    · cases hfixA
      cases hfixC
      first
      | exact ⟨rfl, rfl⟩
      | exact absurd horder (by decide)
  refine ⟨hremaining, by decide +kernel, _, rfl, houtput, ?_⟩
  refine (hwaits waits ?_ _ rfl rfl).resolve_left ?_
  · exact hremaining ▸ mem_cons_self
  · rw [Fix.ChangesNothing]
    decide

end Soup.Lint
