import Mathlib.Data.List.Nodup
import Soup.Bytes
import Soup.Lib.LittleEndian
import Soup.Lib.Run
import Soup.Sema.Slots

/-!
# Atoms

`Interner` of `sema/atom.rs`, for calls one after another. A session has the tables of its interners
in the order in which they are made, and an interner refers to its own and to its base by their
places. Each thread has a cache installed, and a call is given the one of its thread; a cache is a
function of its number.

The hashes of a text and of a packed text are any functions (`Hasher`), and so is the test whether a
text is what the number that is read from it prints as. The known texts are any list without
repetitions.
-/

namespace Soup.Sema

open Lib List Option Function

inductive AtomPanic
  | outOfBounds
  | assertion
  | endless
  deriving DecidableEq, Repr

/-! ## Short texts -/

/-- Up to eight bytes of `text`, starting at `start`. -/
def word (text : Bytes) (start : ℕ) : ℕ :=
  if text.length < start then 0
  else
    let rest := text.drop start
    let len := rest.length
    if 8 ≤ len then ofLittleEndian (rest.take 8)
    else if 4 ≤ len then
      let first := ofLittleEndian (rest.take 4)
      let last := ofLittleEndian (rest.drop (len - 4))
      first ||| last <<< ((len - 4) * 8)
    else if 2 ≤ len then
      let first := ofLittleEndian (rest.take 2)
      first ||| (rest.getD (len - 1) 0).toNat <<< ((len - 1) * 8)
    else if len = 1 then (rest.getD 0 0).toNat
    else 0

/-- The words of a short text. -/
structure Packed where
  start : ℕ × ℕ × ℕ
  ending : ℕ
  deriving DecidableEq

/-- `pack_short`, whose `ending` is a `u32`. -/
def packShort (text : Bytes) : Packed where
  start := (word text 0, word text 8, word text 16)
  ending := word text 24 % 2 ^ 32 ||| text.length <<< 24 % 2 ^ 32

/-- `Recent::MAX_PACKED_LEN`. -/
def maxPackedLen : ℕ := 27

/-- `spread_hash` of a text and of a packed text. -/
structure Hasher where
  text : Bytes → UInt64
  packed : Packed → UInt64

/-- `hash_of`. -/
def Hasher.hashOf (hasher : Hasher) (text : Bytes) : UInt64 :=
  if maxPackedLen < text.length then hasher.text text else hasher.packed (packShort text)

/-! ## Classes -/

/-- `is_numeric_literal_name`, where `roundTrips` says whether a text is what its number prints as.
-/
def isNumericLiteralName (roundTrips : Bytes → Bool) (text : Bytes) : Bool :=
  match text.head? with
  | some c =>
    if isAsciiDigit c then
      if text.length ≤ 15 ∧ text.all isAsciiDigit then c ≠ b '0' || text.length = 1
        else roundTrips text
    else if c = b '-' then roundTrips text
    else if c = b 'I' then text = Soup.text "Infinity"
    else if c = b 'N' then text = Soup.text "NaN"
    else false
  | none => false

/-- `class_of`. -/
def classOf (roundTrips : Bytes → Bool) (text : Bytes) : ℕ :=
  if text.head? = some 0xFE ∧ text[1]? = some (b '@') then 1
  else if text.head? = some 0xFE ∧ text[1]? = some (b '#') then 2
  else if text.head? = some (b '#') then 4
  else if isNumericLiteralName roundTrips text then 8
  else 0

/-- `class::BITS`. -/
def classBits : ℕ := 4

/-- `class::PER_CELL`. -/
def classesPerCell : ℕ := 8

/-! ## Tables -/

/-- A table of texts. The source's words of classes are zero at first. -/
structure Tables where
  shards : ℕ → Shard := fun _ => {}
  texts : List Bytes := []
  classes : ℕ → ℕ := fun _ => 0
  isShared : Bool

namespace Tables

def setClass (t : Tables) (roundTrips : Bytes → Bool) (index : ℕ) (text : Bytes) : Tables :=
  let cls := classOf roundTrips text
  if cls ≠ 0 then
    let shifted := cls <<< (index % classesPerCell * classBits)
    let cell := index / classesPerCell
    { t with classes := update t.classes cell (t.classes cell ||| shifted) }
  else t

/-- `class`. -/
def classAt (t : Tables) (index : ℕ) : ℕ :=
  t.classes (index / classesPerCell) >>> (index % classesPerCell * classBits) &&&
    (1 <<< classBits - 1)

/-- `slots.find`. -/
def find (t : Tables) (spread : UInt64) (isMatch : ℕ → Bool) : Except AtomPanic (Option ℕ) :=
  match (t.shards (shardAmong spread shardCount)).find spread isMatch with
  | some found => .ok found
  | none => .error .endless

/-- `matches` of the texts that are numbered from `first` on. -/
def isOwn (t : Tables) (first : ℕ) (text : Bytes) (i : ℕ) : Bool := t.texts[i - first]? = some text

/-- `slots.find_or_add`, whose entry is the new text. -/
def findOrAdd (t : Tables) (roundTrips : Bytes → Bool) (first : ℕ) (spread : UInt64)
    (text : Bytes) : Except AtomPanic (Tables × ℕ) := do
  match ← t.find spread (t.isOwn first text) with
  | some found => .ok (t, found)
  | none =>
    let index := t.texts.length
    let t := { t with texts := t.texts ++ [text] }.setClass roundTrips index text
    let shard := shardAmong spread shardCount
    match (t.shards shard).add spread (first + index) with
    | some added => .ok ({ t with shards := update t.shards shard added }, first + index)
    | none => .error .endless

end Tables

/-! ## Interners -/

structure Interner where
  tables : ℕ
  base : ℕ
  first : ℕ
  number : ℕ
  deriving DecidableEq, Repr

structure RecentEntry where
  packed : Packed
  atom : ℕ

/-- `Recent::EMPTY_ENTRY`. -/
def emptyEntry : RecentEntry := ⟨⟨(0, 0, 0), 2 ^ 32 - 1⟩, 0⟩

/-- `Recent`, which is `Recent::EMPTY` at first. -/
structure Recent where
  internerNumber : ℕ := 0
  entries : List RecentEntry := []

/-- `Recent::BITS`. -/
def recentBits : ℕ := 11

/-- The tables and the interners of a session, and the caches. -/
structure Session where
  tables : List Tables := []
  interners : List Interner := []
  recents : ℕ → Recent := fun _ => {}
  nextNumber : ℕ := 1

namespace Session

variable (hasher : Hasher) (roundTrips : Bytes → Bool)

def table (s : Session) (place : ℕ) : Except AtomPanic Tables :=
  match s.tables[place]? with
  | some t => .ok t
  | none => .error .outOfBounds

def findInBase (s : Session) (it : Interner) (spread : UInt64) (text : Bytes) :
    Except AtomPanic (Option ℕ) :=
  if it.first = 0 then .ok none
  else do
    let t ← s.table it.base
    t.find spread fun i => i < it.first && t.texts[i]? = some text

def internShared (s : Session) (it : Interner) (spread : UInt64) (text : Bytes) :
    Except AtomPanic (Session × ℕ) := do
  match ← s.findInBase it spread text with
  | some atom => .ok (s, atom)
  | none =>
    let t ← s.table it.tables
    match ← t.find spread (t.isOwn it.first text) with
    | some atom => .ok (s, atom)
    | none =>
      let (t, atom) ← t.findOrAdd roundTrips it.first spread text
      .ok ({ s with tables := s.tables.set it.tables t }, atom)

/-- The entries of a cache, for an interner. -/
def recentEntries (recent : Recent) (it : Interner) : List RecentEntry :=
  if recent.internerNumber ≠ it.number then replicate (2 ^ recentBits) emptyEntry
    else recent.entries

/-- `Interner::intern`, on a thread that has the given cache. -/
def intern (s : Session) (it : Interner) (cache : ℕ) (text : Bytes) :
    Except AtomPanic (Session × ℕ) :=
  if maxPackedLen < text.length then s.internShared roundTrips it (hasher.hashOf text) text
  else do
    let packed := packShort text
    let spread := hasher.packed packed
    let entries := recentEntries (s.recents cache) it
    let s := { s with recents := update s.recents cache ⟨it.number, entries⟩ }
    let place := spread.toNat >>> (64 - recentBits)
    match entries[place]? with
    | none => .error .outOfBounds
    | some entry =>
      if entry.packed = packed then .ok (s, entry.atom)
      else
        let (s, atom) ← s.internShared roundTrips it spread text
        let entries := entries.set place ⟨packed, atom⟩
        .ok ({ s with recents := update s.recents cache ⟨it.number, entries⟩ }, atom)

def lookup (s : Session) (it : Interner) (text : Bytes) : Except AtomPanic (Option ℕ) := do
  let spread := hasher.hashOf text
  match ← s.findInBase it spread text with
  | some atom => .ok (some atom)
  | none =>
    let t ← s.table it.tables
    t.find spread (t.isOwn it.first text)

/-- The tables that have an atom, and its index there. -/
def tableOf (s : Session) (it : Interner) (atom : ℕ) : Except AtomPanic (Tables × ℕ) :=
  if it.first ≤ atom then (s.table it.tables).map (·, atom - it.first)
  else (s.table it.base).map (·, atom)

def bytes (s : Session) (it : Interner) (atom : ℕ) : Except AtomPanic Bytes := do
  let (t, index) ← s.tableOf it atom
  match t.texts[index]? with
  | some text => .ok text
  | none => .error .outOfBounds

/-- `class`. -/
def classAt (s : Session) (it : Interner) (atom : ℕ) : Except AtomPanic ℕ := do
  let (t, index) ← s.tableOf it atom
  .ok (t.classAt index)

/-- `next_interner_number`, and an interner with new tables. -/
def make (s : Session) (isShared : Bool) (base : Option ℕ) (first : ℕ) : Session × Interner :=
  let place := s.tables.length
  let it : Interner := ⟨place, base.getD place, first, s.nextNumber⟩
  ({ s with
    tables := s.tables ++ [{ isShared }]
    interners := s.interners ++ [it]
    nextNumber := s.nextNumber + 1 }, it)

/-- The body of the loop over the known texts. -/
def addKnown (it : Interner) (cache : ℕ) (s : Session) (entry : Bytes × ℕ) :
    Except AtomPanic Session := do
  let (s, atom) ← s.intern hasher roundTrips it cache entry.1
  if atom = entry.2 then .ok s else .error .assertion

/-- `with_known_atoms`. -/
def withKnownAtoms (known : List Bytes) (s : Session) (isShared : Bool) (cache : ℕ) :
    Except AtomPanic Session :=
  let (s, it) := s.make isShared none 0
  known.zipIdx.foldlM (addKnown hasher roundTrips it cache) s

/-- `Interner::over`. -/
def layerOver (s : Session) (base : Interner) : Except AtomPanic Session := do
  let t ← s.table base.tables
  if t.isShared then .ok (s.make false (some base.tables) t.texts.length).1 else .error .assertion

end Session

/-! ## Calls -/

/-- A call, with the interner by its place and the cache of the thread. -/
inductive Call
  | newIn (cache : ℕ)
  | inCommon (cache : ℕ)
  | layerOver (base : ℕ)
  | intern (interner cache : ℕ) (text : Bytes)
  | lookup (interner : ℕ) (text : Bytes)

inductive Answer
  | made
  | atom (atom : ℕ)
  | found (atom : Option ℕ)
  deriving DecidableEq, Repr

namespace Session

variable (hasher : Hasher) (roundTrips : Bytes → Bool) (known : List Bytes)

def interner (s : Session) (place : ℕ) : Except AtomPanic Interner :=
  match s.interners[place]? with
  | some it => .ok it
  | none => .error .outOfBounds

def call (s : Session) : Call → Except AtomPanic (Session × Answer)
  | .newIn cache => (s.withKnownAtoms hasher roundTrips known false cache).map (·, .made)
  | .inCommon cache => (s.withKnownAtoms hasher roundTrips known true cache).map (·, .made)
  | .layerOver base => do
    let it ← s.interner base
    (s.layerOver it).map (·, .made)
  | .intern interner cache text => do
    let it ← s.interner interner
    (s.intern hasher roundTrips it cache text).map fun r => (r.1, .atom r.2)
  | .lookup interner text => do
    let it ← s.interner interner
    (s.lookup hasher it text).map fun found => (s, .found found)

/-- The calls one after another, with their answers. -/
def run (s : Session) : List Call → Except AtomPanic (Session × List Answer)
  | [] => .ok (s, [])
  | c :: calls => do
    let (s, answer) ← s.call hasher roundTrips known c
    (run s calls).map fun r => (r.1, answer :: r.2)

end Session

/-!
## Interners as their callers see them

Each interner has a list of texts of its own, in the order of their atoms, and a layer starts with
those that its base has when it is made. The lists have no repetitions and only grow
(`Names.run_grows`).
-/

/-- The texts that an interner has. -/
structure Names where
  texts : List Bytes
  isShared : Bool

namespace Names

def intern (n : Names) (text : Bytes) : Names × ℕ :=
  if n.texts.contains text then (n, n.texts.idxOf text)
  else ({ n with texts := n.texts ++ [text] }, n.texts.length)

def lookup (n : Names) (text : Bytes) : Option ℕ :=
  if n.texts.contains text then some (n.texts.idxOf text) else none

def call (known : List Bytes) (ns : List Names) : Call → Option (List Names × Answer)
  | .newIn _ => some (ns ++ [⟨known, false⟩], .made)
  | .inCommon _ => some (ns ++ [⟨known, true⟩], .made)
  | .layerOver base => do
    let n ← ns[base]?
    if n.isShared then some (ns ++ [⟨n.texts, false⟩], .made) else none
  | .intern interner _ text => do
    let n ← ns[interner]?
    some (ns.set interner (n.intern text).1, .atom (n.intern text).2)
  | .lookup interner text => do
    let n ← ns[interner]?
    some (ns, .found (n.lookup text))

/-- The calls one after another, where each is for an interner that was made, and only a common one
is layered. -/
def run (known : List Bytes) (ns : List Names) : List Call → Option (List Names × List Answer)
  | [] => some (ns, [])
  | c :: calls => do
    let (ns, answer) ← call known ns c
    (run known ns calls).map fun r => (r.1, answer :: r.2)

/-! ### One interner -/

section One

variable {n : Names} {text : Bytes} {atom : ℕ}

theorem intern_of_mem (h : text ∈ n.texts) : n.intern text = (n, n.texts.idxOf text) :=
  if_pos (contains_iff_mem.2 h)

theorem intern_of_notMem (h : text ∉ n.texts) :
    n.intern text = ({ n with texts := n.texts ++ [text] }, n.texts.length) :=
  if_neg (mt contains_iff_mem.1 h)

theorem isShared_intern (n : Names) (text : Bytes) : (n.intern text).1.isShared = n.isShared := by
  rw [intern]
  split <;> rfl

theorem idxOf_of_getElem? (hnodup : n.texts.Nodup) (h : n.texts[atom]? = some text) :
    n.texts.idxOf text = atom := by
  obtain ⟨hlt, rfl⟩ := List.getElem?_eq_some_iff.1 h
  exact hnodup.idxOf_getElem atom hlt

/-- A text that is there keeps its atom. -/
theorem intern_of_getElem? (hnodup : n.texts.Nodup) (h : n.texts[atom]? = some text) :
    n.intern text = (n, atom) := by
  rw [intern_of_mem (mem_of_getElem? h), idxOf_of_getElem? hnodup h]

theorem lookup_eq_some (hnodup : n.texts.Nodup) :
    n.lookup text = some atom ↔ n.texts[atom]? = some text := by
  rw [lookup]
  split
  next hmem =>
    rw [some_inj]
    refine ⟨fun h => ?_, idxOf_of_getElem? hnodup⟩
    rw [← h]
    exact getElem?_idxOf (contains_iff_mem.1 hmem)
  next hmem =>
    exact iff_of_false (fun h => by cases h) fun h => hmem (contains_iff_mem.2 (mem_of_getElem? h))

theorem lookup_eq_none : n.lookup text = none ↔ text ∉ n.texts := by
  rw [lookup, ← contains_iff_mem]
  split
  next hmem => exact iff_of_false (fun h => by cases h) fun h => h hmem
  next hmem => exact iff_of_true rfl hmem

theorem getElem?_intern (n : Names) (text : Bytes) :
    (n.intern text).1.texts[(n.intern text).2]? = some text := by
  rw [intern]
  split
  next hmem => exact getElem?_idxOf (contains_iff_mem.1 hmem)
  next => exact getElem?_concat_length

theorem prefix_intern (n : Names) (text : Bytes) : n.texts <+: (n.intern text).1.texts := by
  rw [intern]
  split
  · exact prefix_refl _
  · exact prefix_append _ _

theorem nodup_intern (hnodup : n.texts.Nodup) (text : Bytes) : (n.intern text).1.texts.Nodup := by
  rw [intern]
  split
  next => exact hnodup
  next hmem =>
    rw [nodup_append]
    refine ⟨hnodup, nodup_singleton text, fun a ha b hb heq => hmem (contains_iff_mem.2 ?_)⟩
    rw [← mem_singleton.1 hb, ← heq]
    exact ha

end One

/-! ### Runs -/

/-- No interner loses a text. -/
def Grows (ns ns' : List Names) : Prop :=
  ∀ (i : ℕ) (n : Names), ns[i]? = some n → ∃ n', ns'[i]? = some n' ∧ n.texts <+: n'.texts

theorem Grows.refl (ns : List Names) : Grows ns ns := fun _ n h => ⟨n, h, prefix_refl _⟩

theorem Grows.trans {ns ns' ns'' : List Names} (h : Grows ns ns') (h' : Grows ns' ns'') :
    Grows ns ns'' := by
  intro i n hn
  obtain ⟨n', hn', hpre⟩ := h i n hn
  obtain ⟨n'', hn'', hpre'⟩ := h' i n' hn'
  exact ⟨n'', hn'', hpre.trans hpre'⟩

theorem Grows.getElem? {ns ns' : List Names} (h : Grows ns ns') {i atom : ℕ} {n : Names}
    {text : Bytes} (hn : ns[i]? = some n) (htext : n.texts[atom]? = some text) :
    ∃ n', ns'[i]? = some n' ∧ n'.texts[atom]? = some text := by
  obtain ⟨n', hn', more, hmore⟩ := h i n hn
  refine ⟨n', hn', ?_⟩
  rw [← hmore, getElem?_append_left (List.getElem?_eq_some_iff.1 htext).1]
  exact htext

theorem grows_append (ns more : List Names) : Grows ns (ns ++ more) := fun _ n h =>
  ⟨n, (getElem?_append_left (List.getElem?_eq_some_iff.1 h).1).trans h, prefix_refl _⟩

theorem grows_set {ns : List Names} {i : ℕ} {n n' : Names} (hn : ns[i]? = some n)
    (h : n.texts <+: n'.texts) : Grows ns (ns.set i n') := by
  intro j m hm
  by_cases hj : j = i
  · subst hj
    obtain rfl := some.inj (hn.symm.trans hm)
    exact ⟨n', getElem?_set_self (List.getElem?_eq_some_iff.1 hn).1, h⟩
  · exact ⟨m, (getElem?_set_ne (Ne.symm hj)).trans hm, prefix_refl _⟩

variable {known : List Bytes} {ns ns' : List Names} {answer : Answer} {answers : List Answer}

theorem call_grows {c : Call} (h : call known ns c = some (ns', answer)) : Grows ns ns' := by
  cases c with
  | newIn cache =>
    cases h
    exact grows_append _ _
  | inCommon cache =>
    cases h
    exact grows_append _ _
  | layerOver base =>
    obtain ⟨n, -, h⟩ := bind_eq_some_iff.1 h
    split at h
    · cases h
      exact grows_append _ _
    · cases h
  | intern i cache text =>
    obtain ⟨n, hn, h⟩ := bind_eq_some_iff.1 h
    cases h
    exact grows_set hn (prefix_intern n text)
  | lookup i text =>
    obtain ⟨n, -, h⟩ := bind_eq_some_iff.1 h
    cases h
    exact .refl _

theorem run_grows {calls : List Call} (h : run known ns calls = some (ns', answers)) :
    Grows ns ns' := by
  induction calls generalizing ns answers with
  | nil =>
    cases h
    exact .refl _
  | cons c calls ih =>
    obtain ⟨⟨next, answer⟩, hcall, h⟩ := bind_eq_some_iff.1 h
    obtain ⟨⟨last, rest⟩, hrest, h⟩ := map_eq_some_iff.1 h
    cases h
    exact (call_grows hcall).trans (ih hrest)

/-- A run up to a call, the call, and the rest of the run. -/
theorem run_at {calls : List Call} (h : run known ns calls = some (ns', answers)) {k : ℕ} {c : Call}
    (hc : calls[k]? = some c) : ∃ before after answer, run known ns (calls.take k) =
      some (before, answers.take k) ∧ call known before c = some (after, answer) ∧
      answers[k]? = some answer ∧ Grows after ns' := by
  induction calls generalizing ns answers k with
  | nil => cases hc
  | cons first calls ih =>
    obtain ⟨⟨next, answer⟩, hcall, h⟩ := bind_eq_some_iff.1 h
    obtain ⟨⟨last, rest⟩, hrest, h⟩ := map_eq_some_iff.1 h
    cases h
    cases k with
    | zero =>
      obtain rfl := some.inj hc
      exact ⟨ns, next, answer, rfl, hcall, rfl, run_grows hrest⟩
    | succ k =>
      obtain ⟨before, after, answer', hbefore, hafter, hanswer, hgrows⟩ := ih hrest hc
      refine ⟨before, after, answer', ?_, hafter, hanswer, hgrows⟩
      rw [take_succ_cons, run, hcall]
      change (run known next (calls.take k)).map _ = _
      rw [hbefore]
      rfl

end Names

end Soup.Sema
