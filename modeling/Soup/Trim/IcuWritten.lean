import Soup.Trim.IcuPlan

/-!
# What a removal writes

The tombstones with the entries that point to them (`Tombstoned`), the names that are zeroed
(`Zeroed`) and the entries that move up (`Compacted`): each pass in its part of the package.
-/

namespace Soup.Trim

open Lib List Option TableOfContents

variable {table : TableOfContents} {package package₁ : Bytes}

variable {bytes : Bytes}

theorem u32Of_overwrite_of_disjoint {position field : ℕ}
    (h : position + bytes.length ≤ package.length)
    (hfield : field + 4 ≤ position ∨ position + bytes.length ≤ field) :
    u32Of (overwrite package position bytes) field = u32Of package field := by
  rw [u32Of, take_drop_overwrite_of_disjoint h hfield]
  rfl

theorem u32Of_overwrite {position n : ℕ} (hn : n < 2 ^ 32) (h : position + 4 ≤ package.length) :
    u32Of (overwrite package position (toLittleEndian 4 n)) position = n := by
  have hfits : position + (toLittleEndian 4 n).length ≤ package.length := by
    rwa [length_toLittleEndian]
  have hwindow := take_drop_overwrite hfits
  rw [length_toLittleEndian] at hwindow
  rw [u32Of, hwindow, ofLittleEndian_toLittleEndian hn]

theorem u32Of_congr {p q : ℕ} {package' : Bytes} (h : ∀ j < 4, package'[p + j]? = package[q + j]?) :
    u32Of package' p = u32Of package q := by
  rw [u32Of, take_drop_congr h]
  rfl

/-! ## Tombstones -/

/-- The entries of some indexes are pointed to another place. -/
structure Pointed (table : TableOfContents) (package : Bytes) (offset : ℕ) (done : List ℕ)
    (package₁ : Bytes) : Prop where
  length : package₁.length = package.length
  same : ∀ x, x < table.entryPosition 0 ∨ table.start + table.entriesSize ≤ x →
    package₁[x]? = package[x]?
  name : ∀ i < table.count, table.nameOf package₁ i = table.nameOf package i
  moved : ∀ i ∈ done, table.dataOf package₁ i = offset
  data : ∀ i < table.count, i ∉ done → table.dataOf package₁ i = table.dataOf package i

theorem Pointed.step {offset index : ℕ} {done : List ℕ}
    (h : Pointed table package offset done package₁)
    (hsize : table.start + table.entriesSize ≤ package.length) (hoffset : offset < 2 ^ 32)
    (hindex : index < table.count) :
    ∃ package₂, copyFromSlice package₁ (table.entryPosition index + dataOffsetField)
        (toLittleEndian 4 offset) = .ok package₂ ∧
      Pointed table package offset (done ++ [index]) package₂ := by
  have hlen := h.length
  have hfield : table.entryPosition index + 4 + 4 ≤ package₁.length := by
    rw [entryPosition_eq]
    rw [entriesSize_eq] at hsize
    omega
  have hfits : table.entryPosition index + 4 + (toLittleEndian 4 offset).length ≤
      package₁.length := by
    rwa [length_toLittleEndian]
  have hother : ∀ field, field + 4 ≤ table.entryPosition index + 4 ∨
      table.entryPosition index + 4 + 4 ≤ field →
      u32Of (overwrite package₁ (table.entryPosition index + 4) (toLittleEndian 4 offset)) field =
        u32Of package₁ field := by
    intro field hdisjoint
    exact u32Of_overwrite_of_disjoint hfits (by rwa [length_toLittleEndian])
  have hsame : table.dataOf (overwrite package₁ (table.entryPosition index + 4)
      (toLittleEndian 4 offset)) index = offset := u32Of_overwrite hoffset hfield
  have hdata : ∀ i, i ≠ index → table.dataOf (overwrite package₁ (table.entryPosition index + 4)
      (toLittleEndian 4 offset)) i = table.dataOf package₁ i := by
    intro i hne
    refine hother _ ?_
    rw [entryPosition_eq, entryPosition_eq, dataOffsetField]
    omega
  refine ⟨_, copyFromSlice_ok hfits, (length_overwrite hfits).trans h.length, fun x hx => ?_,
    fun i hi => ?_, fun i hi => ?_, fun i hi hnot => ?_⟩
  · rw [← h.same x hx]
    rw [entriesSize_eq, entryPosition_eq] at hx
    rcases hx with hx | hx
    · refine getElem?_overwrite_of_lt hfits ?_
      rw [entryPosition_eq]
      omega
    · refine getElem?_overwrite_of_le hfits ?_
      rw [length_toLittleEndian, entryPosition_eq, dataOffsetField]
      omega
  · rw [← h.name i hi]
    refine hother _ ?_
    rw [entryPosition_eq, entryPosition_eq]
    omega
  · rcases eq_or_ne i index with rfl | hne
    · exact hsame
    · have hdone := (mem_append.1 hi).resolve_right fun hi => hne (mem_singleton.1 hi)
      exact (hdata i hne).trans (h.moved i hdone)
  · rw [mem_append, mem_singleton, not_or] at hnot
    exact (hdata i hnot.2).trans (h.data i hi hnot.1)

variable (table) in
theorem pointed_foldlM {offset : ℕ} (indexes : List ℕ)
    (hsize : table.start + table.entriesSize ≤ package.length) (hoffset : offset < 2 ^ 32)
    (hindexes : ∀ i ∈ indexes, i < table.count) :
    ∃ package₁, indexes.foldlM (fun package index =>
        copyFromSlice package (table.entryPosition index + dataOffsetField)
          (toLittleEndian 4 offset)) package = .ok package₁ ∧
      Pointed table package offset indexes package₁ := by
  refine exists_foldlM indexes ⟨rfl, fun _ _ => rfl, fun _ _ => rfl,
    fun i hi => absurd hi not_mem_nil, fun _ _ _ => rfl⟩ ?_
  intro done index rest hsplit package₁ h
  exact h.step hsize hoffset (hindexes index (hsplit ▸ mem_append_right _ mem_cons_self))

/-- The tombstones that are done are written, and their entries point to them. -/
structure Tombstoned (table : TableOfContents) (package : Bytes) (done : List Tombstone)
    (package₁ : Bytes) : Prop where
  length : package₁.length = package.length
  same : ∀ x, x < table.entryPosition 0 ∨ table.start + table.entriesSize ≤ x →
    (∀ tombstone ∈ done, ¬(tombstone.start ≤ x ∧ x < tombstone.start + tombstoneSize)) →
    package₁[x]? = package[x]?
  bytes : ∀ tombstone ∈ done, (package₁.drop tombstone.start).take tombstoneSize = tombstoneBytes
  name : ∀ i < table.count, table.nameOf package₁ i = table.nameOf package i
  moved : ∀ tombstone ∈ done, ∀ i, tombstone.entries.Has i →
    table.dataOf package₁ i = tombstone.start - table.start
  data : ∀ i < table.count, (∀ tombstone ∈ done, ¬tombstone.entries.Has i) →
    table.dataOf package₁ i = table.dataOf package i

variable {tombstone : Tombstone}

theorem TombstoneOk.start_ge (h : TombstoneOk table package tombstone)
    (haccepted : table.Accepted package) : table.start + table.entriesSize ≤ tombstone.start := by
  rw [h.start_eq]
  have hfirst := firstOwned_le table package h.proper
  exact le_startOf haccepted (hfirst.2.trans h.le_count)

theorem TombstoneOk.le_length (h : TombstoneOk table package tombstone)
    (haccepted : table.Accepted package) : tombstone.start + tombstoneSize ≤ package.length :=
  h.fits.trans (startOf_le haccepted h.le_count)

theorem length_tombstoneBytes : tombstoneBytes.length = tombstoneSize := rfl

theorem Tombstoned.step {done : List Tombstone} (h : Tombstoned table package done package₁)
    (haccepted : table.Accepted package) (hok : TombstoneOk table package tombstone)
    (hdone : ∀ earlier ∈ done, TombstoneOk table package earlier ∧
      earlier.entries.stop < tombstone.entries.start) :
    ∃ package₂, writeTombstone table package₁ tombstone = .ok package₂ ∧
      Tombstoned table package (done ++ [tombstone]) package₂ := by
  have hlen := h.length
  have hsize := haccepted.entries_le
  have hge := hok.start_ge haccepted
  have hle := hok.le_length haccepted
  have hfits : tombstone.start + tombstoneBytes.length ≤ package₁.length := by
    rw [length_tombstoneBytes]
    omega
  have hoffset : tombstone.start - table.start < 2 ^ 32 := by
    have := haccepted.size_lt
    omega
  have hlength := length_overwrite hfits
  obtain ⟨package₂, hrun, hpointed⟩ := pointed_foldlM table tombstone.entries.indexes
    (by omega : table.start + table.entriesSize ≤
      (overwrite package₁ tombstone.start tombstoneBytes).length) hoffset
    fun i hi => (mem_indexes.1 hi).2.trans_le hok.le_count
  have hfield : ∀ field, field + 4 ≤ table.start + table.entriesSize →
      u32Of (overwrite package₁ tombstone.start tombstoneBytes) field = u32Of package₁ field :=
    fun field hfield => u32Of_overwrite_of_disjoint hfits (.inl (by omega))
  have hname : ∀ i < table.count, table.nameOf
      (overwrite package₁ tombstone.start tombstoneBytes) i = table.nameOf package₁ i := by
    intro i hi
    refine hfield _ ?_
    rw [entryPosition_eq, entriesSize_eq]
    omega
  have hdata : ∀ i < table.count, table.dataOf
      (overwrite package₁ tombstone.start tombstoneBytes) i = table.dataOf package₁ i := by
    intro i hi
    refine hfield _ ?_
    rw [entryPosition_eq, entriesSize_eq, dataOffsetField]
    omega
  have hwindow : ∀ q, table.start + table.entriesSize ≤ q → (package₂.drop q).take tombstoneSize =
      ((overwrite package₁ tombstone.start tombstoneBytes).drop q).take tombstoneSize :=
    fun q hq => take_drop_congr fun j _ => hpointed.same _ (.inr (by omega))
  refine ⟨package₂, ?_, (hpointed.length.trans hlength).trans hlen, fun x hx hnot => ?_,
    fun other hother => ?_, fun i hi => ?_, fun other hother i hi => ?_, fun i hi hnot => ?_⟩
  · rw [writeTombstone, copyFromSlice_ok hfits]
    exact hrun
  · have hdone' : ∀ earlier ∈ done, ¬(earlier.start ≤ x ∧ x < earlier.start + tombstoneSize) :=
      fun earlier hearlier => hnot earlier (mem_append_left _ hearlier)
    rw [hpointed.same x hx, ← h.same x hx hdone']
    have hnot := hnot tombstone (mem_append_right _ (mem_singleton_self _))
    rcases lt_or_ge x tombstone.start with hlt | hge
    · exact getElem?_overwrite_of_lt hfits hlt
    · refine getElem?_overwrite_of_le hfits ?_
      rw [length_tombstoneBytes]
      omega
  · rcases mem_append.1 hother with hother | hother
    · obtain ⟨hotherOk, hbefore⟩ := hdone other hother
      rw [hwindow _ (hotherOk.start_ge haccepted)]
      refine (take_drop_overwrite_of_disjoint hfits (.inl ?_)).trans (h.bytes other hother)
      rw [hok.start_eq]
      exact hotherOk.fits.trans (not_has_ownedExtent_of_le haccepted hok.proper
        hok.le_count (le_of_lt hbefore))
    · rw [mem_singleton.1 hother, hwindow _ hge]
      exact take_drop_overwrite hfits
  · rw [hpointed.name i hi, hname i hi, h.name i hi]
  · rcases mem_append.1 hother with hother | hother
    · obtain ⟨hotherOk, hbefore⟩ := hdone other hother
      have hlt := hi.2.trans_le hotherOk.le_count
      rw [hpointed.data i hlt, hdata i hlt, h.moved other hother i hi]
      exact fun hmem => absurd ((mem_indexes.1 hmem).1.trans_lt (hi.2.trans hbefore)) (lt_irrefl _)
    · obtain rfl := mem_singleton.1 hother
      exact hpointed.moved i (mem_indexes.2 hi)
  · rw [hpointed.data i hi fun hmem => hnot tombstone
      (mem_append_right _ (mem_singleton_self _)) (mem_indexes.1 hmem), hdata i hi]
    exact h.data i hi fun earlier hearlier => hnot earlier (mem_append_left _ hearlier)

/-! ## Names -/

/-- The name of an item, up to its zero. -/
def TableOfContents.nameBytes (table : TableOfContents) (package : Bytes) (index : ℕ) : Bytes :=
  (package.drop (table.start + table.nameOf package index)).takeWhile fun byte => byte ≠ 0

/-- The bytes of the name of an item, with its zero. -/
def TableOfContents.nameRange (table : TableOfContents) (package : Bytes) (index : ℕ) : Range :=
  ⟨table.start + table.nameOf package index, table.start + table.nameOf package index +
    (table.nameBytes package index).length + 1⟩

/-- A text up to its zero. -/
theorem takeWhile_of_take {name : Bytes} (h : bytes.take (name.length + 1) = name ++ [0])
    (hname : ∀ byte ∈ name, byte ≠ 0) : bytes.takeWhile (fun byte => byte ≠ 0) = name := by
  rw [← take_append_drop (name.length + 1) bytes, h, append_assoc,
    takeWhile_append_of_pos fun byte hbyte => decide_eq_true (hname byte hbyte)]
  exact append_nil name

theorem take_takeWhile (h : 0 ∈ bytes) :
    bytes.take ((bytes.takeWhile fun byte => byte ≠ 0).length + 1) =
      (bytes.takeWhile fun byte => byte ≠ 0) ++ [0] := by
  induction bytes with
  | nil => exact absurd h not_mem_nil
  | cons byte bytes ih =>
    rcases eq_or_ne byte 0 with rfl | hne
    · rfl
    · have htrue : decide (byte ≠ 0) = true := decide_eq_true hne
      have hmem := (mem_cons.1 h).resolve_left hne.symm
      rw [takeWhile_cons, if_pos htrue, length_cons, take_succ_cons, ih hmem, cons_append]

/-- The bytes up to the zero decide the text. -/
theorem takeWhile_congr {other : Bytes} {p q : ℕ} (h : 0 ∈ bytes.drop q)
    (hsame : ∀ j ≤ ((bytes.drop q).takeWhile fun byte => byte ≠ 0).length,
      other[p + j]? = bytes[q + j]?) :
    (other.drop p).takeWhile (fun byte => byte ≠ 0) =
        (bytes.drop q).takeWhile (fun byte => byte ≠ 0) ∧ 0 ∈ other.drop p := by
  have hwindow : (other.drop p).take (((bytes.drop q).takeWhile fun byte => byte ≠ 0).length + 1) =
      ((bytes.drop q).takeWhile fun byte => byte ≠ 0) ++ [0] := by
    rw [take_drop_congr fun j hj => hsame j (Nat.lt_succ_iff.1 hj)]
    exact take_takeWhile h
  refine ⟨takeWhile_of_take hwindow fun byte hbyte => ?_, ?_⟩
  · have hne := mem_takeWhile_imp hbyte
    rwa [decide_eq_true_eq] at hne
  · have hmem : 0 ∈ (other.drop p).take
        (((bytes.drop q).takeWhile fun byte => byte ≠ 0).length + 1) := by
      rw [hwindow]
      exact mem_append_right _ (mem_singleton_self _)
    exact mem_of_mem_take hmem

/-- The names are in order, apart, and in front of the data. -/
structure Tidy (table : TableOfContents) (package : Bytes) : Prop where
  ascending : ∀ i j, i < j → j < table.count → table.nameBytes package i < table.nameBytes package j
  apart : ∀ i j, i < j → j < table.count →
    (table.nameRange package i).stop ≤ (table.nameRange package j).start ∨
      (table.nameRange package j).stop ≤ (table.nameRange package i).start
  before : ∀ i < table.count, ∀ j < table.count,
    (table.nameRange package i).stop ≤ table.startOf package j

/-- Some names are zeroed, and nothing else. -/
structure Zeroed (table : TableOfContents) (package : Bytes) (removedItems : List Range)
    (package₁ package₂ : Bytes) : Prop where
  length : package₂.length = package₁.length
  same : ∀ x, package₂[x]? = package₁[x]? ∨ package₂[x]? = some 0 ∧ ∃ index < table.count,
    InRanges removedItems index ∧ (table.nameRange package index).Has x

theorem length_takeWhile_le {p k : ℕ} (h : bytes[p + k]? = some 0) :
    ((bytes.drop p).takeWhile fun byte => byte ≠ 0).length ≤ k := by
  by_contra hlt
  have hk := not_le.1 hlt
  have hne := mem_takeWhile_imp (getElem_mem hk)
  have hpre := takeWhile_prefix (l := bytes.drop p) fun byte => byte ≠ 0
  have hleads := hpre.getElem hk
  rw [getElem_drop, (List.getElem?_eq_some_iff.1 h).2] at hleads
  rw [hleads, decide_eq_true_eq] at hne
  exact hne rfl

variable {package₂ : Bytes}

theorem Zeroed.step {removedItems : List Range} {index : ℕ}
    (h : Zeroed table package removedItems package₁ package₂)
    (hle : table.start + table.nameOf package index ≤ package₁.length)
    (hindex : index < table.count) (hremoved : InRanges removedItems index)
    (hzero : package₁[table.start + table.nameOf package index +
      (table.nameBytes package index).length]? = some 0) :
    ∃ package₃, zeroName package₂ (table.start + table.nameOf package index) = .ok package₃ ∧
      Zeroed table package removedItems package₁ package₃ := by
  have hzero₂ : package₂[table.start + table.nameOf package index +
      (table.nameBytes package index).length]? = some 0 := by
    rcases h.same _ with hsame | ⟨hsome, -⟩
    · exact hsame.trans hzero
    · exact hsome
  have hlen := length_takeWhile_le hzero₂
  have hbound := (List.getElem?_eq_some_iff.1 hzero₂).1
  have hfits : table.start + table.nameOf package index + (replicate
      ((package₂.drop (table.start + table.nameOf package index)).takeWhile
        fun byte => byte ≠ 0).length (0 : UInt8)).length ≤ package₂.length := by
    rw [length_replicate]
    omega
  refine ⟨_, if_pos (h.length ▸ hle), (length_overwrite hfits).trans h.length, fun x => ?_⟩
  rcases getElem?_overwrite_cases hfits x with hsame | ⟨j, hj, rfl, hnew⟩
  · rw [hsame]
    exact h.same x
  · refine .inr ⟨?_, index, hindex, hremoved, Nat.le_add_right _ _, ?_⟩
    · rw [hnew, getElem?_replicate_of_lt (by rwa [length_replicate] at hj)]
    · rw [length_replicate] at hj
      rw [nameRange]
      dsimp only
      omega

/-! ## Entries -/

/-- What is kept behind the first one of some spans. -/
def keptBehind (count : ℕ) : List Range → List ℕ
  | [] => []
  | span :: spans =>
    range' span.stop ((spans.head?.map Range.start).getD count - span.stop) ++
      keptBehind count spans

theorem keptBehind_spec : ∀ {span : Range} {spans : List Range}, Spans table (span :: spans) →
    (keptBehind table.count (span :: spans)).Pairwise (· < ·) ∧
      ∀ i, i ∈ keptBehind table.count (span :: spans) ↔
        span.stop ≤ i ∧ i < table.count ∧ ¬InRanges spans i
  | span, [], h => by
    have hle := h.le_count span (mem_singleton_self _)
    rw [keptBehind, keptBehind, append_nil, head?_nil, map_none, getD_none]
    refine ⟨pairwise_lt_range' 1, fun i => ?_⟩
    have hnot : ¬InRanges [] i := fun ⟨_, hrange, _⟩ => absurd hrange not_mem_nil
    rw [mem_range'_1, iff_true_intro hnot, and_true]
    omega
  | span, next :: spans, h => by
    have hrest : Spans table (next :: spans) :=
      ⟨⟨fun r hr => h.spaced.proper r (mem_cons_of_mem _ hr),
        (pairwise_cons.1 h.spaced.pairwise).2⟩, fun r hr => h.le_count r (mem_cons_of_mem _ hr)⟩
    obtain ⟨hpairwise, hmem⟩ := keptBehind_spec hrest
    have hnext := (pairwise_cons.1 h.spaced.pairwise).1 next mem_cons_self
    have hproper := hrest.spaced.proper next mem_cons_self
    have hcount := hrest.le_count next mem_cons_self
    have hbehind : ∀ i, InRanges spans i → next.stop ≤ i := by
      rintro i ⟨range, hrange, hi⟩
      have := (pairwise_cons.1 hrest.spaced.pairwise).1 range hrange
      exact (le_of_lt this).trans hi.1
    rw [keptBehind, head?_cons, map_some, getD_some]
    refine ⟨pairwise_append.2 ⟨pairwise_lt_range' 1, hpairwise, fun i hi j hj => ?_⟩,
      fun i => ?_⟩
    · have hi := (mem_range'_1.1 hi).2
      have hj := ((hmem j).1 hj).1
      omega
    · have hor : InRanges (next :: spans) i ↔ next.Has i ∨ InRanges spans i := by
        rw [← inRanges_singleton, ← inRanges_append]
        rfl
      rw [mem_append, mem_range'_1, hmem, hor, Range.Has]
      constructor
      · rintro (⟨hge, hlt⟩ | ⟨hge, hlt, hnot⟩)
        · refine ⟨hge, by omega, ?_⟩
          rintro (⟨hstart, -⟩ | hin)
          · omega
          · have := hbehind i hin
            omega
        · refine ⟨by omega, hlt, ?_⟩
          rintro (⟨-, hstop⟩ | hin)
          · omega
          · exact hnot hin
      · rintro ⟨hge, hlt, hnot⟩
        rw [not_or] at hnot
        rcases lt_or_ge i next.start with hbefore | hafter
        · exact .inl ⟨hge, by omega⟩
        · exact .inr ⟨not_lt.1 fun hstop => hnot.1 ⟨hafter, hstop⟩, hlt, hnot.2⟩

/-- The entries that are kept so far have moved up. -/
structure Moved (table : TableOfContents) (package₂ : Bytes) (kept : List ℕ) (package₃ : Bytes) :
    Prop where
  length : package₃.length = package₂.length
  same : ∀ x, x < table.entryPosition 0 ∨ table.entryPosition kept.length ≤ x →
    package₃[x]? = package₂[x]?
  entry : ∀ k i, kept[k]? = some i → ∀ j < 8,
    package₃[table.entryPosition k + j]? = package₂[table.entryPosition i + j]?

theorem Moved.step {package₃ : Bytes} {kept : List ℕ} {start stop : ℕ}
    (h : Moved table package₂ kept package₃) (hkept : kept.length ≤ start) (hle : start ≤ stop)
    (hstop : stop ≤ table.count) (hsize : table.start + table.entriesSize ≤ package₂.length) :
    ∃ package₄, copyWithin package₃ (table.entryPosition start) (table.entryPosition stop)
        (table.entryPosition kept.length) = .ok package₄ ∧
      Moved table package₂ (kept ++ range' start (stop - start)) package₄ := by
  have hlen := h.length
  have hentry := entryPosition_eq table
  rw [entriesSize_eq] at hsize
  have hmoved : ((package₃.drop (table.entryPosition start)).take
      (table.entryPosition stop - table.entryPosition start)).length = 8 * (stop - start) := by
    rw [length_take, length_drop, hentry, hentry]
    omega
  have hfits : table.entryPosition kept.length + ((package₃.drop (table.entryPosition start)).take
      (table.entryPosition stop - table.entryPosition start)).length ≤ package₃.length := by
    rw [hmoved, hentry]
    omega
  have hrun : copyWithin package₃ (table.entryPosition start) (table.entryPosition stop)
      (table.entryPosition kept.length) = .ok (overwrite package₃ (table.entryPosition kept.length)
        ((package₃.drop (table.entryPosition start)).take
          (table.entryPosition stop - table.entryPosition start))) := by
    rw [copyWithin, if_pos (by rw [hentry, hentry]; omega), copyFromSlice_ok hfits]
  refine ⟨_, hrun, (length_overwrite hfits).trans hlen, fun x hx => ?_, fun k i hk j hj => ?_⟩
  · rw [length_append, length_range', hentry, hentry] at hx
    rw [← h.same x (by rw [hentry, hentry]; omega)]
    rcases hx with hx | hx
    · exact getElem?_overwrite_of_lt hfits (by rw [hentry]; omega)
    · exact getElem?_overwrite_of_le hfits (by rw [hmoved, hentry]; omega)
  · rcases lt_or_ge k kept.length with hlt | hge
    · rw [getElem?_append_left hlt] at hk
      rw [← h.entry k i hk j hj]
      exact getElem?_overwrite_of_lt hfits (by rw [hentry, hentry]; omega)
    · rw [getElem?_append_right hge] at hk
      have hbound := (List.getElem?_eq_some_iff.1 hk).1
      rw [length_range'] at hbound
      rw [getElem?_range' hbound, some_inj] at hk
      have htarget : table.entryPosition k + j =
          table.entryPosition kept.length + (8 * (k - kept.length) + j) := by
        rw [hentry, hentry]
        omega
      have hsource : table.entryPosition start + (8 * (k - kept.length) + j) =
          table.entryPosition i + j := by
        rw [hentry, hentry]
        omega
      rw [htarget, getElem?_overwrite hfits (by rw [hmoved]; omega),
        getElem?_take_of_lt (by rw [hentry, hentry]; omega), getElem?_drop, hsource]
      exact h.same _ (.inr (by rw [hentry, hentry]; omega))

theorem compactSpans_ok (hsize : table.start + table.entriesSize ≤ package₂.length) :
    ∀ {spans : List Range} {kept : List ℕ} {package₃ : Bytes}, Spans table spans →
      (∀ span ∈ spans, kept.length ≤ span.start) → Moved table package₂ kept package₃ →
      ∃ package₄, compactSpans table spans kept.length package₃ =
          .ok ((kept ++ keptBehind table.count spans).length, package₄) ∧
        Moved table package₂ (kept ++ keptBehind table.count spans) package₄
  | [], kept, package₃, _, _, h => by
    rw [keptBehind, append_nil]
    exact ⟨package₃, rfl, h⟩
  | span :: spans, kept, package₃, hspans, hkept, h => by
    have hrest : Spans table spans :=
      ⟨⟨fun r hr => hspans.spaced.proper r (mem_cons_of_mem _ hr),
        (pairwise_cons.1 hspans.spaced.pairwise).2⟩,
        fun r hr => hspans.le_count r (mem_cons_of_mem _ hr)⟩
    have hbehind := (pairwise_cons.1 hspans.spaced.pairwise).1
    have hproper := hspans.spaced.proper span mem_cons_self
    have hlength := hkept span mem_cons_self
    have hnext : span.stop ≤ (spans.head?.map Range.start).getD table.count ∧
        (spans.head?.map Range.start).getD table.count ≤ table.count := by
      cases spans with
      | nil => exact ⟨hspans.le_count span mem_cons_self, le_rfl⟩
      | cons next spans =>
        have hproper := hrest.spaced.proper next mem_cons_self
        have hcount := hrest.le_count next mem_cons_self
        exact ⟨le_of_lt (hbehind next mem_cons_self), (le_of_lt hproper).trans hcount⟩
    obtain ⟨package₄, hrun, hmoved⟩ :=
      h.step (by omega : kept.length ≤ span.stop) hnext.1 hnext.2 hsize
    rw [compactSpans, hrun, ok_bind, keptBehind, ← append_assoc]
    have hnewLength : (kept ++ range' span.stop
        ((spans.head?.map Range.start).getD table.count - span.stop)).length =
        kept.length + ((spans.head?.map Range.start).getD table.count - span.stop) := by
      rw [length_append, length_range']
    rw [← hnewLength]
    refine compactSpans_ok hsize hrest (fun next hmem => ?_) hmoved
    rw [hnewLength]
    cases spans with
    | nil => exact absurd hmem not_mem_nil
    | cons first spans =>
      have hfirst : first.start ≤ next.start := by
        rcases mem_cons.1 hmem with rfl | hmem
        · exact le_rfl
        · have hlt := (pairwise_cons.1 hrest.spaced.pairwise).1 next hmem
          have hproper := hrest.spaced.proper first mem_cons_self
          omega
      have hlt := hbehind first mem_cons_self
      rw [head?_cons, map_some, getD_some]
      omega

/-- What is kept is at the front of the table, with the number of it. -/
structure Compacted (table : TableOfContents) (package₂ : Bytes) (kept : List ℕ)
    (package₃ : Bytes) : Prop where
  length : package₃.length = package₂.length
  same : ∀ x, x < table.start ∨ table.start + table.entriesSize ≤ x → package₃[x]? = package₂[x]?
  count : u32Of package₃ table.start = kept.length
  entry : ∀ k i, kept[k]? = some i → ∀ j < 8,
    package₃[table.entryPosition k + j]? = package₂[table.entryPosition i + j]?

theorem Moved.compacted {package₃ : Bytes} {kept : List ℕ} (h : Moved table package₂ kept package₃)
    (hkept : kept.length ≤ table.count) (hsize : table.start + table.entriesSize ≤ package₂.length)
    (hcount : table.count < 2 ^ 32) :
    ∃ package₄ package₅, fillZero package₃ (table.entryPosition kept.length)
        (table.entryPosition table.count) = .ok package₄ ∧
      copyFromSlice package₄ table.start (toLittleEndian countSize kept.length) = .ok package₅ ∧
      Compacted table package₂ kept package₅ := by
  have hlen := h.length
  have hentry := entryPosition_eq table
  rw [entriesSize_eq] at hsize
  have hfits : table.entryPosition kept.length + (replicate
      (table.entryPosition table.count - table.entryPosition kept.length) (0 : UInt8)).length ≤
      package₃.length := by
    rw [length_replicate, hentry, hentry]
    omega
  have hlength := length_overwrite hfits
  have hfits' : table.start + (toLittleEndian countSize kept.length).length ≤
      (overwrite package₃ (table.entryPosition kept.length) (replicate
        (table.entryPosition table.count - table.entryPosition kept.length) 0)).length := by
    rw [length_toLittleEndian, hlength, countSize]
    omega
  refine ⟨_, _, ?_, copyFromSlice_ok hfits', (length_overwrite hfits').trans (hlength.trans hlen),
    fun x hx => ?_, ?_, fun k i hk j hj => ?_⟩
  · rw [fillZero, if_pos (by rw [hentry, hentry]; omega), copyFromSlice_ok hfits]
  · rw [entriesSize_eq] at hx
    rw [← h.same x (by rw [hentry, hentry]; omega)]
    rcases hx with hx | hx
    · rw [getElem?_overwrite_of_lt hfits' hx]
      exact getElem?_overwrite_of_lt hfits (by rw [hentry]; omega)
    · rw [getElem?_overwrite_of_le hfits' (by rw [length_toLittleEndian, countSize]; omega)]
      refine getElem?_overwrite_of_le hfits ?_
      rw [length_replicate, hentry, hentry]
      omega
  · exact u32Of_overwrite (by omega) (by rw [hlength]; omega)
  · have hbound := (List.getElem?_eq_some_iff.1 hk).1
    rw [← h.entry k i hk j hj,
      getElem?_overwrite_of_le hfits' (by rw [length_toLittleEndian, countSize, hentry]; omega)]
    exact getElem?_overwrite_of_lt hfits (by rw [hentry, hentry]; omega)

end Soup.Trim
