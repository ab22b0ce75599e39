import Mathlib.Data.List.GetD
import Mathlib.Data.List.Perm.Subperm
import Mathlib.Data.List.Sort
import Mathlib.Data.Prod.Lex
import Soup.Bytes

/-!
# Minified names and symbols

`NameMinifier` of `nodes.rs` and `CharFreq::compile` of `char_freq.rs`: the number of a name is read
with 54 digits for the first byte, then with 64 digits, so different numbers have different names
(`numberToMinifiedName_injective`). A number is a natural number. The digits are those of the
defaults, in the order of how often they occur, and the two lists of a `NameMinifier` are there with
that fact.
-/

namespace Soup.Renamer

open List Function Nat

def DEFAULT_HEAD : Bytes := text "abcdefghijklmnopqrstuvwxyzABCDEFGHIJKLMNOPQRSTUVWXYZ_$"

def DEFAULT_TAIL : Bytes := text "abcdefghijklmnopqrstuvwxyzABCDEFGHIJKLMNOPQRSTUVWXYZ0123456789_$"

def CHAR_FREQ_COUNT : ℕ := 64

structure NameMinifier where
  head : Bytes
  tail : Bytes
  head_perm : head.Perm DEFAULT_HEAD
  tail_perm : tail.Perm DEFAULT_TAIL

/-! ## Compilation -/

/-- `CharAndCount`. -/
structure CharAndCount where
  char : UInt8
  index : ℕ
  count : ℤ

/-- Descending by count, then ascending by index and char. -/
def CharAndCount.key (a : CharAndCount) : ℤ ×ₗ ℕ ×ₗ ℕ :=
  toLex (-a.count, toLex (a.index, a.char.toNat))

/-- The array that `CharFreq::compile` sorts. -/
def charAndCounts (freqs : ℕ → ℤ) : List CharAndCount :=
  DEFAULT_TAIL.zipIdx.map fun (char, index) => { char, index, count := freqs index }

def sortedChars (freqs : ℕ → ℤ) : Bytes :=
  ((charAndCounts freqs).insertionSort fun a b => a.key ≤ b.key).map CharAndCount.char

/-- The bytes that a name may start with. -/
def isHeadChar (char : UInt8) : Bool := decide (char < b '0') || decide (b '9' < char)

theorem sortedChars_perm (freqs : ℕ → ℤ) : (sortedChars freqs).Perm DEFAULT_TAIL := by
  refine ((perm_insertionSort _ _).map _).trans (List.Perm.of_eq ?_)
  rw [charAndCounts, map_map]
  exact zipIdx_map_fst 0 DEFAULT_TAIL

/-- `CharFreq::compile`; `freqs` are the 64 counts. -/
def compile (freqs : ℕ → ℤ) : NameMinifier where
  head := (sortedChars freqs).filter isHeadChar
  tail := sortedChars freqs
  head_perm := ((sortedChars_perm freqs).filter isHeadChar).trans (List.Perm.of_eq (by decide))
  tail_perm := sortedChars_perm freqs

/-! ## Names -/

section Names

variable (m : NameMinifier)

/-- The loop of `number_to_minified_name`. -/
def NameMinifier.tailOf (m : NameMinifier) (i : ℕ) : Bytes :=
  if i = 0 then [] else m.tail.getD ((i - 1) % CHAR_FREQ_COUNT) 0 :: m.tailOf
    ((i - 1) / CHAR_FREQ_COUNT)
termination_by i
decreasing_by exact (Nat.div_le_self _ _).trans_lt (Nat.sub_lt (Nat.pos_of_ne_zero ‹_›) Nat.one_pos)

def NameMinifier.numberToMinifiedName (m : NameMinifier) (i : ℕ) : Bytes :=
  m.head.getD (i % 54) 0 :: m.tailOf (i / 54)

theorem NameMinifier.length_head : m.head.length = 54 := m.head_perm.length_eq

theorem NameMinifier.length_tail : m.tail.length = CHAR_FREQ_COUNT := m.tail_perm.length_eq

theorem NameMinifier.head_nodup : m.head.Nodup := m.head_perm.nodup_iff.2 (by decide)

theorem NameMinifier.tail_nodup : m.tail.Nodup := m.tail_perm.nodup_iff.2 (by decide)

theorem getD_mem {l : Bytes} {i : ℕ} (h : i < l.length) : l.getD i 0 ∈ l := by
  rw [getD_eq_getElem _ _ h]
  exact getElem_mem h

theorem getD_inj {l : Bytes} {i j : ℕ} (hnodup : l.Nodup) (hi : i < l.length) (hj : j < l.length)
    (h : l.getD i 0 = l.getD j 0) : i = j := by
  rw [getD_eq_getElem _ _ hi, getD_eq_getElem _ _ hj] at h
  exact (hnodup.getElem_inj_iff).1 h

variable (i : ℕ)

theorem NameMinifier.head_lt : i % 54 < m.head.length := by
  rw [m.length_head]
  exact mod_lt i (by decide)

theorem NameMinifier.tail_lt : i % CHAR_FREQ_COUNT < m.tail.length := by
  rw [m.length_tail]
  exact mod_lt i (by decide)

theorem NameMinifier.tailOf_zero : m.tailOf 0 = [] := by
  rw [tailOf, if_pos rfl]

theorem NameMinifier.tailOf_succ : m.tailOf (i + 1) =
    m.tail.getD (i % CHAR_FREQ_COUNT) 0 :: m.tailOf (i / CHAR_FREQ_COUNT) := by
  rw [tailOf, if_neg (Nat.succ_ne_zero i), Nat.add_sub_cancel]

theorem NameMinifier.tailOf_injective : Function.Injective m.tailOf := by
  intro i
  induction i using Nat.strong_induction_on with
  | _ i ih =>
    intro j h
    rcases i with _ | i
    · rcases j with _ | j
      · rfl
      · rw [tailOf_zero, tailOf_succ] at h
        cases h
    · rcases j with _ | j
      · rw [tailOf_zero, tailOf_succ] at h
        cases h
      · rw [tailOf_succ, tailOf_succ] at h
        obtain ⟨hdigit, hrest⟩ := cons.inj h
        have hmod := getD_inj m.tail_nodup (m.tail_lt i) (m.tail_lt j) hdigit
        have hdiv := ih _ (lt_succ_of_le (div_le_self i _)) hrest
        rw [← div_add_mod i CHAR_FREQ_COUNT, ← div_add_mod j CHAR_FREQ_COUNT, hmod, hdiv]

/-- Different numbers have different names. -/
theorem NameMinifier.numberToMinifiedName_injective :
    Function.Injective m.numberToMinifiedName := by
  intro i j h
  obtain ⟨hdigit, hrest⟩ := cons.inj h
  have hmod := getD_inj m.head_nodup (m.head_lt i) (m.head_lt j) hdigit
  have hdiv := m.tailOf_injective hrest
  rw [← div_add_mod i 54, ← div_add_mod j 54, hmod, hdiv]

/-! ## Identifiers -/

def isIdentifierStart (c : UInt8) : Bool := isAsciiAlphabetic c || c == b '_' || c == b '$'

def isIdentifierPart (c : UInt8) : Bool := isIdentifierStart c || isAsciiDigit c

/-- An identifier of ASCII bytes. -/
def IsIdentifier (name : Bytes) : Prop :=
  ∃ c rest, name = c :: rest ∧ isIdentifierStart c = true ∧ ∀ d ∈ rest, isIdentifierPart d = true

theorem isIdentifierStart_of_mem {c : UInt8} (h : c ∈ DEFAULT_HEAD) : isIdentifierStart c = true :=
  all_eq_true.1 (show DEFAULT_HEAD.all isIdentifierStart = true by decide) c h

theorem isIdentifierPart_of_mem {c : UInt8} (h : c ∈ DEFAULT_TAIL) : isIdentifierPart c = true :=
  all_eq_true.1 (show DEFAULT_TAIL.all isIdentifierPart = true by decide) c h

theorem NameMinifier.isIdentifierPart_tailOf : ∀ d ∈ m.tailOf i, isIdentifierPart d = true := by
  induction i using Nat.strong_induction_on with
  | _ i ih =>
    rcases i with _ | i
    · rw [tailOf_zero]
      exact fun d hd => absurd hd not_mem_nil
    · rw [tailOf_succ]
      exact forall_mem_cons.2
        ⟨isIdentifierPart_of_mem (m.tail_perm.mem_iff.1 (getD_mem (m.tail_lt i))),
        ih _ (lt_succ_of_le (div_le_self i _))⟩

theorem NameMinifier.isIdentifier : IsIdentifier (m.numberToMinifiedName i) :=
  ⟨_, _, rfl, isIdentifierStart_of_mem (m.head_perm.mem_iff.1 (getD_mem (m.head_lt i))),
    m.isIdentifierPart_tailOf _⟩

end Names

/-!
## Minified symbols

`MinifyRenamer::assign_names_by_frequency` of `renamer.rs`. A namespace has one number that goes up,
and a slot gets the name of the first number from there on that the slot may have, so different
slots get different names (`assignNamesByFrequency_named`) and the ones that are used more get short
ones (`assignNamespace_shorter`). A loop over numbers has as much fuel as there are names to skip:
the reserved names and the keywords are finitely many, and one in 54 names starts with `A`.

A slot has its name, its use count and its two flags. Where the name is stored is left out.
-/

inductive SlotNamespace
  | mustNotBeRenamed
  | default
  | label
  | privateName
  | mangledProp
deriving DecidableEq, Repr

def SLOT_NAMESPACES : List SlotNamespace := [.default, .label, .privateName, .mangledProp]

structure SymbolSlot where
  name : Bytes := []
  count : UInt32 := 0
  needsCapitalForJsx : Bool := false
  pinned : Bool := false
deriving DecidableEq, Repr

/-- The keys of `KEYWORDS`. -/
def KEYWORDS : List Bytes :=
  [text "break", text "case", text "catch", text "class", text "const", text "continue",
    text "debugger",
    text "default", text "delete", text "do", text "else", text "enum", text "export",
    text "extends", text "false",
    text "finally", text "for", text "function", text "if", text "import", text "in",
    text "instanceof", text "new",
    text "null", text "return", text "super", text "switch", text "this", text "throw", text "true",
    text "try",
    text "typeof", text "var", text "void", text "while", text "with"]

structure MinifyRenamer where
  reservedNames : List Bytes
  slots : SlotNamespace → List SymbolSlot

/-- `SlotAndCount`. -/
structure SlotAndCount where
  slot : ℕ
  count : UInt32

/-- Descending by count, then ascending by slot. -/
def SlotAndCount.key (a : SlotAndCount) : ℤ ×ₗ ℕ := toLex (-(a.count.toNat : ℤ), a.slot)

/-- The slots that are not pinned, the most used first. -/
def sortedSlots (slots : List SymbolSlot) : List SlotAndCount :=
  ((slots.zipIdx.filter fun (slot, _) => !slot.pinned).map fun (slot, i) =>
    { slot := i, count := slot.count } ).insertionSort fun a b => a.key ≤ b.key

section Assign

variable (m : NameMinifier) (reservedNames : List Bytes)

/-- The numbers of the names that are skipped are passed, from `i` on. -/
def skipNames (skip : Bytes → Bool) : ℕ → ℕ → Option ℕ
  | 0, _ => none
  | fuel + 1, i => if skip (m.numberToMinifiedName i) then skipNames skip fuel (i + 1) else some i

/-- `name_buf[0] >= b'a' && name_buf[0] <= b'z'`. -/
def startsLowercase (name : Bytes) : Bool :=
  name.head?.any fun c => decide (b 'a' ≤ c) && decide (c ≤ b 'z')

/-- The number of the name that a slot gets, from `nextName` on. -/
def numberFor (ns : SlotNamespace) (needsCapital : Bool) (nextName : ℕ) : Option ℕ :=
  match ns with
  | .default =>
    (skipNames m reservedNames.contains (reservedNames.length + 1) nextName).bind fun i =>
      if needsCapital then skipNames m startsLowercase 54 i else some i
  | .label => skipNames m KEYWORDS.contains (KEYWORDS.length + 1) nextName
  | _ => some nextName

/-- The name of a number in a namespace. -/
def nameIn (ns : SlotNamespace) (i : ℕ) : Bytes :=
  match ns with
  | .privateName => b '#' :: m.numberToMinifiedName i
  | _ => m.numberToMinifiedName i

/-- The body of the loop over the sorted slots. -/
def assignSlot (ns : SlotNamespace) (s : List SymbolSlot × ℕ) (data : SlotAndCount) :
    Option (List SymbolSlot × ℕ) :=
  s.1[data.slot]?.bind fun slot =>
    (numberFor m reservedNames ns slot.needsCapitalForJsx s.2).map fun i =>
      (s.1.set data.slot { slot with name := nameIn m ns i }, i + 1)

def assignNamespace (ns : SlotNamespace) (slots : List SymbolSlot) : Option (List SymbolSlot) :=
  ((sortedSlots slots).foldlM (assignSlot m reservedNames ns) (slots, 0)).map Prod.fst

end Assign

def assignNamesByFrequency (m : NameMinifier) (r : MinifyRenamer) : Option MinifyRenamer :=
  SLOT_NAMESPACES.foldlM (fun r ns => (assignNamespace m r.reservedNames ns (r.slots ns)).map
    fun slots =>
    { r with slots := update r.slots ns slots }) r

/-! ### The number of a slot -/

section Number

variable (m : NameMinifier) {reservedNames : List Bytes} {ns : SlotNamespace} {skip : Bytes → Bool}

theorem skipNames_spec (fuel i : ℕ)
    (h : ∃ n, i ≤ n ∧ n < i + fuel ∧ skip (m.numberToMinifiedName n) = false) :
    ∃ n, skipNames m skip fuel i = some n ∧ i ≤ n ∧ skip (m.numberToMinifiedName n) = false := by
  induction fuel generalizing i with
  | zero =>
    obtain ⟨n, hle, hlt, -⟩ := h
    omega
  | succ fuel ih =>
    rw [skipNames]
    rcases hskip : skip (m.numberToMinifiedName i) with _ | _
    · exact ⟨i, if_neg Bool.false_ne_true, le_refl i, hskip⟩
    · obtain ⟨n, hle, hlt, hn⟩ := h
      have hne : n ≠ i := fun heq => Bool.false_ne_true (hn.symm.trans (heq ▸ hskip))
      obtain ⟨n', hsome, hle', hn'⟩ := ih (i + 1) ⟨n, by omega, by omega, hn⟩
      exact ⟨n', by rw [if_pos rfl, hsome], by omega, hn'⟩

/-- Of the names of one more number than there are names, one is not among them. -/
theorem exists_not_contains (names : List Bytes) (i : ℕ) :
    ∃ n, i ≤ n ∧ n < i + (names.length + 1) ∧ names.contains (m.numberToMinifiedName n) =
      false := by
  by_contra hnot
  push Not at hnot
  have hsubset : (range' i (names.length + 1)).map m.numberToMinifiedName ⊆ names := by
    intro name hname
    obtain ⟨n, hn, rfl⟩ := mem_map.1 hname
    obtain ⟨hle, hlt⟩ := mem_range'_1.1 hn
    exact contains_iff_mem.1 (Bool.eq_true_of_not_eq_false (hnot n hle hlt))
  have hnodup :=
    (nodup_range' (s := i) (n := names.length + 1)).map m.numberToMinifiedName_injective
  have hlen := (subperm_of_subset hnodup hsubset).length_le
  rw [length_map, length_range'] at hlen
  omega

/-- One in 54 names starts with `A`. -/
theorem exists_not_startsLowercase (i : ℕ) :
    ∃ n, i ≤ n ∧ n < i + 54 ∧ startsLowercase (m.numberToMinifiedName n) = false := by
  have hmem : b 'A' ∈ m.head := m.head_perm.mem_iff.2 (by decide)
  obtain ⟨j, hj, hget⟩ := mem_iff_getElem.1 hmem
  have hlen := m.length_head
  refine ⟨i + (j + 54 - i % 54) % 54, by omega, by omega, ?_⟩
  have hmod : (i + (j + 54 - i % 54) % 54) % 54 = j := by omega
  rw [NameMinifier.numberToMinifiedName, hmod, getD_eq_getElem _ _ hj, hget]
  show (decide (b 'a' ≤ b 'A') && decide (b 'A' ≤ b 'z')) = false
  decide

/-- A name that a slot of a namespace may have. -/
def Usable (reservedNames : List Bytes) (ns : SlotNamespace) (needsCapital : Bool) (name : Bytes) :
    Prop :=
  match ns with
  | .default => IsIdentifier name ∧ (needsCapital = false → name ∉ reservedNames) ∧
      (needsCapital = true → startsLowercase name = false) ∧
        (KEYWORDS ⊆ reservedNames → name ∉ KEYWORDS)
  | .label => IsIdentifier name ∧ name ∉ KEYWORDS
  | .privateName => ∃ rest, name = b '#' :: rest ∧ IsIdentifier rest
  | _ => IsIdentifier name

theorem not_mem_of_contains {names : List Bytes} {name : Bytes} (h : names.contains name = false) :
    name ∉ names :=
  fun hmem => Bool.false_ne_true (h.symm.trans (contains_iff_mem.2 hmem))

/-- Keywords start with a lowercase letter. -/
theorem not_keyword {name : Bytes} (h : startsLowercase name = false) : name ∉ KEYWORDS := by
  have hall : KEYWORDS.all startsLowercase = true := by decide
  exact fun hmem => Bool.false_ne_true (h.symm.trans (all_eq_true.1 hall name hmem))

theorem numberFor_spec (reservedNames : List Bytes) (ns : SlotNamespace) (needsCapital : Bool)
    (nextName : ℕ) :
    ∃ i, numberFor m reservedNames ns needsCapital nextName = some i ∧ nextName ≤ i ∧
      Usable reservedNames ns needsCapital (nameIn m ns i) := by
  cases ns with
  | default =>
    obtain ⟨i, hi, hle, hnot⟩ :=
      skipNames_spec m _ nextName (exists_not_contains m reservedNames nextName)
    have hfree := not_mem_of_contains hnot
    rw [numberFor, hi, Option.bind_some]
    cases needsCapital with
    | false => exact ⟨i, rfl, hle, m.isIdentifier i, fun _ => hfree, (fun h => by cases h),
        fun hsubset hmem => hfree (hsubset hmem)⟩
    | true =>
      obtain ⟨i', hi', hle', hlower⟩ := skipNames_spec m _ i (exists_not_startsLowercase m i)
      exact ⟨i', hi', hle.trans hle', m.isIdentifier i', (fun h => by cases h), fun _ => hlower,
        fun _ => not_keyword hlower⟩
  | label =>
    obtain ⟨i, hi, hle, hnot⟩ :=
      skipNames_spec m _ nextName (exists_not_contains m KEYWORDS nextName)
    exact ⟨i, hi, hle, m.isIdentifier i, not_mem_of_contains hnot⟩
  | privateName => exact ⟨nextName, rfl, le_rfl, _, rfl, m.isIdentifier nextName⟩
  | mangledProp => exact ⟨nextName, rfl, le_rfl, m.isIdentifier nextName⟩
  | mustNotBeRenamed => exact ⟨nextName, rfl, le_rfl, m.isIdentifier nextName⟩

theorem nameIn_injective (ns : SlotNamespace) : Function.Injective (nameIn m ns) := by
  intro i j h
  cases ns
  case privateName => exact m.numberToMinifiedName_injective (cons.inj h).2
  all_goals exact m.numberToMinifiedName_injective h

end Number

/-! ### The slots of a namespace -/

section Namespace

variable {m : NameMinifier} {reservedNames : List Bytes} {ns : SlotNamespace}
  {slots : List SymbolSlot}
  {s s' : List SymbolSlot × ℕ} {more : List SlotAndCount} {number : ℕ → ℕ}

/-- What the loop leaves: the slots of `more` have the names of numbers that go up, and the other
ones are as they were. -/
structure Assigned (m : NameMinifier) (reservedNames : List Bytes) (ns : SlotNamespace)
    (s : List SymbolSlot × ℕ)
    (more : List SlotAndCount) (s' : List SymbolSlot × ℕ) (number : ℕ → ℕ) : Prop where
  length : s'.1.length = s.1.length
  kept : ∀ i ∉ more.map SlotAndCount.slot, s'.1[i]? = s.1[i]?
  increasing : more.Pairwise fun a b => number a.slot < number b.slot
  named : ∀ data ∈ more, s.2 ≤ number data.slot ∧ ∀ slot, s.1[data.slot]? = some slot →
    s'.1[data.slot]? = some { slot with name := nameIn m ns (number data.slot) } ∧
      Usable reservedNames ns slot.needsCapitalForJsx (nameIn m ns (number data.slot))

variable (m reservedNames ns) in
theorem exists_assigned (hnodup : (more.map SlotAndCount.slot).Nodup)
    (hlt : ∀ data ∈ more, data.slot < s.1.length) : ∃ s' number,
      more.foldlM (assignSlot m reservedNames ns) s = some s' ∧
        Assigned m reservedNames ns s more s' number := by
  induction more generalizing s with
  | nil => exact ⟨s, id, rfl, rfl, fun _ _ => rfl, .nil, nofun⟩
  | cons data more ih =>
    rw [map_cons, nodup_cons] at hnodup
    rw [forall_mem_cons] at hlt
    have hslot : s.1[data.slot]? = some s.1[data.slot] := getElem?_eq_getElem hlt.1
    generalize s.1[data.slot] = slot at hslot
    obtain ⟨i, hi, hle, husable⟩ := numberFor_spec m reservedNames ns slot.needsCapitalForJsx s.2
    obtain ⟨s', number, hrun, h⟩ :=
      @ih (s.1.set data.slot { slot with name := nameIn m ns i }, i + 1) hnodup.2
      fun a ha => (hlt.2 a ha).trans_eq length_set.symm
    have hother : ∀ a ∈ more, a.slot ≠ data.slot :=
      fun a ha heq => hnodup.1 (heq ▸ mem_map_of_mem ha)
    have hupdate : ∀ a ∈ more, update number data.slot i a.slot = number a.slot := fun a ha =>
      update_of_ne (hother a ha) _ _
    refine ⟨s', update number data.slot i, ?_, h.length.trans length_set, fun j hj => ?_,
      pairwise_cons.2 ⟨fun a ha => ?_, ?_⟩, forall_mem_cons.2 ⟨?_, fun a ha => ?_⟩⟩
    · rw [foldlM_cons, assignSlot, hslot, Option.bind_some, hi, Option.map_some]
      exact hrun
    · rw [map_cons, mem_cons, not_or] at hj
      rw [h.kept j hj.2, getElem?_set_ne (Ne.symm hj.1)]
    · rw [update_self, hupdate a ha]
      exact (h.named a ha).1
    · exact h.increasing.imp_of_mem fun ha hb hlt => by rwa [hupdate _ ha, hupdate _ hb]
    · rw [update_self, h.kept _ hnodup.1, getElem?_set_self hlt.1]
      refine ⟨hle, fun slot' hslot' => ?_⟩
      obtain rfl := Option.some.inj (hslot.symm.trans hslot')
      exact ⟨rfl, husable⟩
    · have hnamed := h.named a ha
      rw [getElem?_set_ne (Ne.symm (hother a ha))] at hnamed
      rw [hupdate a ha]
      exact hnamed.imp_left fun hle' => hle.trans ((le_succ i).trans hle')

/-- The names that a namespace gets. -/
structure Named (reservedNames : List Bytes) (ns : SlotNamespace) (before after : List SymbolSlot) :
    Prop where
  length : after.length = before.length
  pinned : ∀ (i : ℕ) (slot : SymbolSlot), before[i]? = some slot → slot.pinned = true →
    after[i]? = some slot
  named : ∀ (i : ℕ) (slot : SymbolSlot), before[i]? = some slot → slot.pinned = false → ∃ name,
    after[i]? = some { slot with name } ∧ Usable reservedNames ns slot.needsCapitalForJsx name
  distinct : ∀ (i j : ℕ) (slot slot' : SymbolSlot), after[i]? = some slot → after[j]? = some slot' →
    slot.pinned = false → slot'.pinned = false → slot.name = slot'.name → i = j

theorem mem_sortedSlots {data : SlotAndCount} : data ∈ sortedSlots slots ↔
    ∃ slot, slots[data.slot]? = some slot ∧ slot.pinned = false ∧ data.count = slot.count := by
  obtain ⟨i, count⟩ := data
  rw [sortedSlots, mem_insertionSort, mem_map]
  constructor
  · rintro ⟨⟨slot, j⟩, hmem, heq⟩
    cases heq
    obtain ⟨hmem, hpinned⟩ := mem_filter.1 hmem
    exact ⟨slot, mem_zipIdx_iff_getElem?.1 hmem, by simpa using hpinned, rfl⟩
  · rintro ⟨slot, hget, hpinned, rfl⟩
    exact ⟨(slot, i), mem_filter.2 ⟨mem_zipIdx_iff_getElem?.2 hget, by simpa using hpinned⟩, rfl⟩

theorem nodup_sortedSlots (slots : List SymbolSlot) :
    ((sortedSlots slots).map SlotAndCount.slot).Nodup := by
  have hperm : ((sortedSlots slots).map SlotAndCount.slot).Perm
      ((slots.zipIdx.filter fun (slot, _) => !slot.pinned).map Prod.snd) := by
    refine ((perm_insertionSort _ _).map _).trans (List.Perm.of_eq ?_)
    rw [map_map]
    rfl
  rw [hperm.nodup_iff]
  refine List.Nodup.sublist (filter_sublist.map Prod.snd) ?_
  rw [zipIdx_map_snd]
  exact nodup_range'

variable (m reservedNames ns slots) in
theorem assignNamespace_assigned : ∃ s number, assignNamespace m reservedNames ns slots = some s.1 ∧
    Assigned m reservedNames ns (slots, 0) (sortedSlots slots) s number := by
  obtain ⟨s, number, hrun, h⟩ :=
    exists_assigned m reservedNames ns (nodup_sortedSlots slots) (s := (slots, 0))
    fun data hdata => by
      obtain ⟨slot, hget, -⟩ := mem_sortedSlots.1 hdata
      exact (List.getElem?_eq_some_iff.1 hget).1
  exact ⟨s, number, by rw [assignNamespace, hrun, Option.map_some], h⟩

section Slots

variable (h : Assigned m reservedNames ns (slots, 0) (sortedSlots slots) s number)
include h

/-- A slot that is not pinned has the name of its number. -/
theorem Assigned.exists_data {i : ℕ} {slot : SymbolSlot} (hget : s.1[i]? = some slot)
    (hpin : slot.pinned = false) :
    ∃ data ∈ sortedSlots slots, data.slot = i ∧ data.count = slot.count ∧
      slot.name = nameIn m ns (number data.slot) := by
  have hmem : i ∈ (sortedSlots slots).map SlotAndCount.slot := by
    by_contra hnot
    exact hnot (mem_map.2
      ⟨⟨i, slot.count⟩, mem_sortedSlots.2 ⟨slot, (h.kept i hnot).symm.trans hget, hpin, rfl⟩, rfl⟩)
  obtain ⟨data, hdata, rfl⟩ := mem_map.1 hmem
  obtain ⟨before, hbefore, -, hcount⟩ := mem_sortedSlots.1 hdata
  obtain rfl := Option.some.inj (hget.symm.trans ((h.named data hdata).2 before hbefore).1)
  exact ⟨data, hdata, rfl, hcount, rfl⟩

theorem Assigned.toNamed : Named reservedNames ns slots s.1 where
  length := h.length
  pinned i slot hget hpin := by
    rw [h.kept i, hget]
    intro hmem
    obtain ⟨data, hdata, rfl⟩ := mem_map.1 hmem
    obtain ⟨slot', hget', hpin', -⟩ := mem_sortedSlots.1 hdata
    rw [Option.some.inj (hget.symm.trans hget'), hpin'] at hpin
    cases hpin
  named i slot hget hpin :=
    ⟨_, (h.named ⟨i, slot.count⟩ (mem_sortedSlots.2 ⟨slot, hget, hpin, rfl⟩)).2 slot hget⟩
  distinct i j slot slot' hi hj hpin hpin' hname := by
    obtain ⟨a, ha, rfl, -, hname₁⟩ := h.exists_data hi hpin
    obtain ⟨a', ha', rfl, -, hname₂⟩ := h.exists_data hj hpin'
    rw [hname₁, hname₂] at hname
    have hne : (sortedSlots slots).Pairwise fun a b => number a.slot = number b.slot →
        a.slot = b.slot :=
      h.increasing.imp fun hlt heq => absurd heq hlt.ne
    exact Pairwise.forall_of_forall_of_flip (fun _ _ _ => rfl) hne
      (h.increasing.imp fun hlt heq => absurd heq.symm hlt.ne) ha ha' (nameIn_injective m ns hname)

/-- The slots that are used more have lower numbers. -/
theorem Assigned.lt_of_count {a b : SlotAndCount} (ha : a ∈ sortedSlots slots)
    (hb : b ∈ sortedSlots slots) (hcount : b.count < a.count) : number a.slot < number b.slot := by
  have hsorted : (sortedSlots slots).Pairwise fun a b => a.key ≤ b.key := pairwise_insertionSort _ _
  have hup : (sortedSlots slots).Pairwise fun a b => b.count < a.count →
      number a.slot < number b.slot :=
    h.increasing.imp fun {a b} hlt (_ : b.count < a.count) => hlt
  refine Pairwise.forall_of_forall_of_flip (fun a _ hlt => absurd hlt (UInt32.lt_irrefl _)) hup
    (hsorted.imp fun {a b} hkey hlt => ?_) ha hb hcount
  have hkey := Prod.Lex.toLex_le_toLex.1 hkey
  have hlt := UInt32.lt_iff_toNat_lt.1 hlt
  omega

end Slots

theorem assignNamespace_named (m : NameMinifier) (reservedNames : List Bytes) (ns : SlotNamespace)
    (slots : List SymbolSlot) : ∃ after, assignNamespace m reservedNames ns slots = some after ∧
      Named reservedNames ns slots after := by
  obtain ⟨s, number, hassign, h⟩ := assignNamespace_assigned m reservedNames ns slots
  exact ⟨s.1, hassign, h.toNamed⟩

/-! ### Short names -/

theorem NameMinifier.length_tailOf_le (m : NameMinifier) {i j : ℕ} (h : i ≤ j) :
    (m.tailOf i).length ≤ (m.tailOf j).length := by
  induction j using Nat.strong_induction_on generalizing i with
  | _ j ih =>
    rcases i with _ | i
    · rw [tailOf_zero]
      exact zero_le _
    · obtain ⟨j, rfl⟩ := Nat.exists_eq_succ_of_ne_zero (Nat.ne_zero_of_lt (Nat.succ_le_iff.1 h))
      rw [tailOf_succ, tailOf_succ, length_cons, length_cons]
      exact succ_le_succ (ih _ (lt_succ_of_le (div_le_self j _))
        (Nat.div_le_div_right (Nat.le_of_succ_le_succ h)))

theorem length_nameIn_le {i j : ℕ} (h : i ≤ j) :
    (nameIn m ns i).length ≤ (nameIn m ns j).length := by
  have hle : (m.numberToMinifiedName i).length ≤ (m.numberToMinifiedName j).length :=
    Nat.succ_le_succ (m.length_tailOf_le (Nat.div_le_div_right h))
  cases ns
  case privateName => exact succ_le_succ hle
  all_goals exact hle

/-- Of two slots of a namespace, the one that is used more gets a name that is not longer. -/
theorem assignNamespace_shorter (m : NameMinifier) (reservedNames : List Bytes) (ns : SlotNamespace)
    (slots : List SymbolSlot) : ∃ after, assignNamespace m reservedNames ns slots = some after ∧
      ∀ (i j : ℕ) (slot slot' : SymbolSlot), after[i]? = some slot → after[j]? = some slot' →
        slot.pinned = false →
        slot'.pinned = false → slot'.count < slot.count → slot.name.length ≤ slot'.name.length := by
  obtain ⟨s, number, hassign, h⟩ := assignNamespace_assigned m reservedNames ns slots
  refine ⟨s.1, hassign, fun i j slot slot' hi hj hpin hpin' hcount => ?_⟩
  obtain ⟨a, ha, -, hcounta, hname⟩ := h.exists_data hi hpin
  obtain ⟨b, hb, -, hcountb, hname'⟩ := h.exists_data hj hpin'
  rw [hname, hname']
  exact length_nameIn_le (h.lt_of_count ha hb (by rwa [hcounta, hcountb])).le

end Namespace

/-! ### All namespaces -/

theorem assign_run (m : NameMinifier) (namespaces : List SlotNamespace) (hnodup : namespaces.Nodup)
    (r : MinifyRenamer) : ∃ r', namespaces.foldlM (fun r ns =>
        (assignNamespace m r.reservedNames ns (r.slots ns)).map fun slots =>
          { r with slots := update r.slots ns slots }) r = some r' ∧
      r'.reservedNames = r.reservedNames ∧
      (∀ ns ∈ namespaces, Named r.reservedNames ns (r.slots ns) (r'.slots ns)) ∧
      ∀ ns, ns ∉ namespaces → r'.slots ns = r.slots ns := by
  induction namespaces generalizing r with
  | nil => exact ⟨r, rfl, rfl, fun ns hns => absurd hns not_mem_nil, fun _ _ => rfl⟩
  | cons ns namespaces ih =>
    rw [nodup_cons] at hnodup
    obtain ⟨slots, hslots, hnamed⟩ := assignNamespace_named m r.reservedNames ns (r.slots ns)
    obtain ⟨r', hrun, hreserved, hall, hother⟩ :=
      ih hnodup.2 { r with slots := update r.slots ns slots }
    have hne : ∀ ns', ns' ≠ ns → update r.slots ns slots ns' = r.slots ns' := fun ns' hns' =>
      update_of_ne hns' _ _
    refine ⟨r', ?_, hreserved, forall_mem_cons.2 ⟨?_, fun ns' hns' => ?_⟩, fun ns' hns' => ?_⟩
    · rw [foldlM_cons, hslots]
      exact hrun
    · rw [hother ns hnodup.1]
      dsimp only
      rwa [update_self]
    · have h := hall ns' hns'
      dsimp only at h
      rwa [hne ns' fun heq => hnodup.1 (heq ▸ hns')] at h
    · rw [mem_cons, not_or] at hns'
      rw [hother ns' hns'.2]
      exact hne ns' hns'.1

/-- Every slot that is not pinned gets a name that it may have, and different slots get different
names. -/
theorem assignNamesByFrequency_named (m : NameMinifier) (r : MinifyRenamer) : ∃ r',
    assignNamesByFrequency m r = some r' ∧
      ∀ ns ∈ SLOT_NAMESPACES, Named r.reservedNames ns (r.slots ns) (r'.slots ns) := by
  obtain ⟨r', hrun, -, hall, -⟩ := assign_run m SLOT_NAMESPACES (by decide) r
  exact ⟨r', hrun, hall⟩

/-- The names that start with a lowercase letter are skipped after the reserved names. -/
example : ((assignNamesByFrequency (compile fun _ => 0) ⟨[text "A"], fun ns =>
    if ns = .default then [{ needsCapitalForJsx := true }] else []⟩).map fun r =>
      (r.slots .default).map SymbolSlot.name) = some [text "A"] := by
  decide +kernel

/-- Of 27 slots that need a capital letter, the last one gets `_`. -/
def jsxSlots : MinifyRenamer where
  reservedNames := []
  slots := fun ns => if ns = .default then replicate 27 { needsCapitalForJsx := true } else []

/-- A slot that needs a capital letter gets a name that does not start with one. -/
theorem not_capital :
    ¬∀ (m : NameMinifier) (r r' : MinifyRenamer), assignNamesByFrequency m r = some r' →
    ∀ (i : ℕ) slot, (r'.slots .default)[i]? = some slot → slot.needsCapitalForJsx = true →
      slot.name.head?.any (fun c => decide (b 'A' ≤ c) && decide (c ≤ b 'Z')) = true := by
  intro h
  obtain ⟨r', hr', -⟩ := assignNamesByFrequency_named (compile fun _ => 0) jsxSlots
  have hlast : (assignNamesByFrequency (compile fun _ => 0) jsxSlots).bind
    (fun r => (r.slots .default)[26]?) = some { name := text "_", needsCapitalForJsx := true } := by
    decide +kernel
  rw [hr', Option.bind_some] at hlast
  exact absurd (h _ _ _ hr' 26 _ hlast rfl) (by decide)

end Soup.Renamer
