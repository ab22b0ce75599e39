import Soup.SourceMap.Window

/-!
# From the builder to the blob

The windows that a builder has flushed and the mappings that are pending are the mappings that were
appended (`run_holds`). A finalized blob has the windows at the offsets of its sync entries
(`finalize_holds`), so that the readers start at each of them (`Blob.Holds`).
-/

namespace Soup.SourceMap

open Soup.Lib List Nat WindowReader Builder

/-! ## Runs of the builder -/

/-- A call on the builder. -/
inductive Op where
  | lineSeparator
  | mapping (current : SourceMapState)
  | objectBrace (last : SourceMapState)
deriving DecidableEq, Repr

namespace Builder

def apply (self : Builder) : Op → Builder
  | .lineSeparator => self.appendLineSeparator
  | .mapping current => self.appendMapping current
  | .objectBrace last => self.markObjectBrace last

/-- The builder after the calls. -/
def run (ops : List Op) : Builder := ops.foldl apply {}

end Builder

/-- The mappings of the calls. -/
def mappings : List Op → List SourceMapState
  | [] => []
  | .mapping current :: ops => current :: mappings ops
  | .lineSeparator :: ops => mappings ops
  | .objectBrace _ :: ops => mappings ops

/-- The coordinates of the mappings are not negative, and their generated lines are the number of
separators so far. -/
def Counted : ℤ → List Op → Prop
  | _, [] => True
  | line, .lineSeparator :: ops => Counted (line + 1) ops
  | line, .mapping current :: ops =>
    current.generatedLine = line ∧ current.Valid ∧ Counted line ops
  | line, .objectBrace _ :: ops => Counted line ops

/-- The mappings of a window, the first and the others. -/
abbrev Window := SourceMapState × List SourceMapState

namespace Window

def states (w : Window) : List SourceMapState := w.1 :: w.2

def bytes (w : Window) : Bytes := window w.1 w.2

/-- The sync entry of a window. -/
def entry (w : Window) (byteOffset : ℕ) : SyncEntry where
  generatedLine := w.1.generatedLine
  generatedColumn := w.1.generatedColumn
  byteOffset
  originalLine := w.1.originalLine
  originalColumn := w.1.originalColumn
  sourceIndex := w.1.sourceIndex

/-- A window that the reader can read. -/
structure Valid (w : Window) : Prop where
  length : w.2.length < syncInterval
  states : ∀ s ∈ w.states, s.Valid

end Window

/-- The windows one after the other. -/
def streamOf (ws : List Window) : Bytes := (ws.map Window.bytes).flatten

/-- The sync entries of windows that start at `offset`. -/
def entriesOf : ℕ → List Window → List SyncEntry
  | _, [] => []
  | offset, w :: ws => w.entry (offset % 2 ^ 32) :: entriesOf (offset + w.bytes.length) ws

theorem streamOf_append (ws ws' : List Window) :
    streamOf (ws ++ ws') = streamOf ws ++ streamOf ws' := by
  simp [streamOf]

theorem entriesOf_append (offset : ℕ) (ws ws' : List Window) :
    entriesOf offset (ws ++ ws') =
      entriesOf offset ws ++ entriesOf (offset + (streamOf ws).length) ws' := by
  induction ws generalizing offset with
  | nil => rfl
  | cons w ws ih =>
    rw [cons_append, entriesOf, entriesOf, ih, cons_append]
    congr 3
    simp only [streamOf, map_cons, flatten_cons, length_append]
    omega

theorem length_entriesOf (offset : ℕ) (ws : List Window) :
    (entriesOf offset ws).length = ws.length := by
  induction ws generalizing offset with
  | nil => rfl
  | cons w ws ih => rw [entriesOf, length_cons, length_cons, ih]

/-- What a builder has flushed, and what is pending. -/
structure Builder.Holds (b : Builder) (ws : List Window) (line : ℤ)
    (states : List SourceMapState) : Prop where
  stream : b.winStream = streamOf ws
  entries : b.syncEntries = entriesOf 0 ws
  windows : ∀ w ∈ ws, w.Valid
  pending : b.pending.length < syncInterval
  pendingValid : ∀ s ∈ b.pending, s.Valid
  line : b.generatedLine + b.pendingGeneratedLineDelta = line
  states : ws.flatMap Window.states ++ b.pending = states

variable {ops : List Op}

namespace Builder.Holds

variable {b : Builder} {ws : List Window} {line : ℤ} {states : List SourceMapState}

theorem flush (hs : b.winStream = streamOf ws) (he : b.syncEntries = entriesOf 0 ws)
    (hw : ∀ w ∈ ws, w.Valid) (hpending : b.pending.length ≤ syncInterval)
    (hvalid : ∀ s ∈ b.pending, s.Valid)
    (hline : b.generatedLine + b.pendingGeneratedLineDelta = line)
    (hstates : ws.flatMap Window.states ++ b.pending = states) :
    ∃ ws', b.flushWindow.Holds ws' line states ∧ b.flushWindow.pending = [] := by
  unfold flushWindow
  split
  next hnil =>
    exact ⟨ws, ⟨hs, he, hw, by rw [hnil]; decide, hvalid, hline, hstates⟩, hnil⟩
  next first rest hcons =>
    rw [hcons] at hvalid hpending hstates
    refine ⟨ws ++ [(first, rest)], ⟨?_, ?_, ?_, succ_pos 63, by simp, hline, ?_⟩, rfl⟩
    · rw [streamOf_append, hs]
      simp [streamOf, Window.bytes]
    · rw [entriesOf_append, he, hs, zero_add]
      rfl
    · intro w hw'
      rcases mem_append.1 hw' with hw' | hw'
      · exact hw w hw'
      · obtain rfl := mem_singleton.1 hw'
        exact ⟨hpending, hvalid⟩
    · rw [← hstates]
      simp [Window.states]

section

variable (h : b.Holds ws line states)
include h

theorem appendMapping {current : SourceMapState}
    (hline : current.generatedLine = line) (hvalid : current.Valid) :
    ∃ ws', (b.appendMapping current).Holds ws' line (states ++ [current]) := by
  have hcurrent : { current with generatedLine := b.generatedLine + b.pendingGeneratedLineDelta } =
      current := by
    rw [h.line, ← hline]
  have hall : ∀ s ∈ b.pending ++ [current], s.Valid := by
    intro s hs
    rcases mem_append.1 hs with hs | hs
    · exact h.pendingValid s hs
    · obtain rfl := mem_singleton.1 hs
      exact hvalid
  have hlen : (b.pending ++ [current]).length ≤ syncInterval := by
    rw [length_append]
    exact h.pending
  have hstates : ws.flatMap Window.states ++ (b.pending ++ [current]) = states ++ [current] := by
    rw [← append_assoc, h.states]
  have hsum : b.generatedLine + b.pendingGeneratedLineDelta + 0 = line := by
    rw [Int.add_zero, h.line]
  unfold Builder.appendMapping
  dsimp only
  rw [hcurrent]
  split
  · obtain ⟨ws', hholds, -⟩ := @flush
      { b with
        generatedLine := b.generatedLine + b.pendingGeneratedLineDelta
        pendingGeneratedLineDelta := 0
        pending := b.pending ++ [current]
        count := b.count + 1 } ws line _ h.stream h.entries h.windows hlen hall hsum hstates
    exact ⟨ws', hholds⟩
  next hne =>
    exact ⟨ws, ⟨h.stream, h.entries, h.windows, lt_of_le_of_ne hlen hne, hall, hsum, hstates⟩⟩

theorem apply {op : Op} (hop : Counted line (op :: ops)) :
    ∃ ws' line', (b.apply op).Holds ws' line' (states ++ mappings [op]) ∧ Counted line' ops := by
  cases op with
  | lineSeparator =>
    refine ⟨ws, line + 1, ⟨h.stream, h.entries, h.windows, h.pending, h.pendingValid, ?_, ?_⟩, hop⟩
    · rw [← h.line]
      exact (Int.add_assoc _ _ _).symm
    · exact h.states.trans (append_nil states).symm
  | mapping current =>
    obtain ⟨hline, hvalid, hops⟩ := hop
    obtain ⟨ws', hholds⟩ := h.appendMapping hline hvalid
    exact ⟨ws', line, hholds, hops⟩
  | objectBrace last =>
    refine ⟨ws, line, ⟨h.stream, h.entries, h.windows, h.pending, h.pendingValid, h.line, ?_⟩, hop⟩
    exact h.states.trans (append_nil states).symm

theorem run (hops : Counted line ops) :
    ∃ ws' line', (ops.foldl Builder.apply b).Holds ws' line' (states ++ mappings ops) := by
  induction ops generalizing b ws line states with
  | nil => exact ⟨ws, line, by simpa [mappings] using h⟩
  | cons op ops ih =>
    obtain ⟨ws', line', hholds, hops'⟩ := h.apply hops
    obtain ⟨ws'', line'', hholds'⟩ := ih hholds hops'
    have hcons : states ++ mappings (op :: ops) = states ++ mappings [op] ++ mappings ops := by
      cases op <;> simp [mappings]
    exact ⟨ws'', line'', by rw [hcons]; exact hholds'⟩

end

end Builder.Holds

theorem run_holds (hops : Counted 0 ops) :
    ∃ ws line, (Builder.run ops).Holds ws line (mappings ops) := by
  have hinit : ({} : Builder).Holds [] 0 [] :=
    ⟨rfl, rfl, by simp, by decide, by simp, rfl, rfl⟩
  exact hinit.run hops

/-! ## Reading a blob -/

/-- The readers of `blob` start at each of the windows `ws`. -/
structure Blob.Holds (blob : Bytes) (ws : List Window) : Prop where
  syncCount : Blob.syncCount blob = ws.length
  windows : ∀ w ∈ ws, w.Valid
  entry : ∀ {ws₁ ws₂ : List Window} {w : Window}, ws = ws₁ ++ w :: ws₂ →
    (Blob.syncEntry blob ws₁.length).toState = w.1
  seed : ∀ {ws₁ ws₂ : List Window} {w : Window}, ws = ws₁ ++ w :: ws₂ →
    ∃ reader, Blob.seedWindow blob ws₁.length = some (reader, w.1) ∧
      reader.Reads 0 (deltas w.1 w.2)

theorem length_syncEntry (e : SyncEntry) : e.bytes.length = 24 := by
  simp [SyncEntry.bytes]

theorem length_entries (es : List SyncEntry) :
    (es.map SyncEntry.bytes).flatten.length = 24 * es.length := by
  induction es with
  | nil => rfl
  | cons e es ih =>
    rw [map_cons, flatten_cons, length_append, ih, length_syncEntry, length_cons]
    omega

variable {blob : Bytes}

/-- The sync entry at the start of what is left. -/
theorem syncEntry_of_drop {index byteOffset : ℕ} {w : Window} (hw : w.Valid)
    (hoffset : byteOffset ≤ u32Max) (tail : Bytes)
    (h : blob.drop (32 + index * 24) = (w.entry byteOffset).bytes ++ tail) :
    Blob.syncEntry blob index = w.entry byteOffset := by
  have hvalid := hw.states w.1 mem_cons_self
  have hi32 := length_i32Bytes
  have hu32 := length_toLittleEndian 4
  unfold Blob.syncEntry
  rw [h]
  unfold SyncEntry.bytes Window.entry
  simp only [append_assoc]
  rw [readI32_i32Bytes hvalid.generatedLine.isI32,
    drop_append_length (hi32 _) 0, drop_zero,
    readI32_i32Bytes hvalid.generatedColumn.isI32,
    drop_append_length (hi32 _) 4, drop_append_length (hi32 _) 0,
    drop_zero, readU32_toLittleEndian hoffset,
    drop_append_length (hi32 _) 8, drop_append_length (hi32 _) 4,
    drop_append_length (hu32 _) 0, drop_zero,
    readI32_i32Bytes hvalid.originalLine.isI32,
    drop_append_length (hi32 _) 12, drop_append_length (hi32 _) 8,
    drop_append_length (hu32 _) 4, drop_append_length (hi32 _) 0,
    drop_zero, readI32_i32Bytes hvalid.originalColumn.isI32,
    drop_append_length (hi32 _) 16, drop_append_length (hi32 _) 12,
    drop_append_length (hu32 _) 8, drop_append_length (hi32 _) 4,
    drop_append_length (hi32 _) 0, drop_zero,
    readI32_i32Bytes hvalid.sourceIndex.isI32]

theorem Window.Valid.fits {w : Window} (hw : w.Valid) : ∀ d ∈ deltas w.1 w.2, d.Fits := by
  obtain ⟨-, hstates⟩ := hw
  obtain ⟨first, rest⟩ := w
  obtain ⟨hfirst, hrest⟩ := forall_mem_cons.1 hstates
  clear hstates
  induction rest generalizing first with
  | nil => simp [deltas]
  | cons current rest ih =>
    obtain ⟨hcurrent, hrest⟩ := forall_mem_cons.1 hrest
    exact forall_mem_cons.2
      ⟨Delta.between_fits hfirst hcurrent, ih current hcurrent hrest⟩

/-- `blob` has the sync entries of the windows behind its header, and the windows behind them. -/
structure Blob.Layout (blob : Bytes) (ws : List Window) : Prop where
  bytes : ∃ header tail, header.length = 32 ∧
    blob = header ++ (((entriesOf 0 ws).map SyncEntry.bytes).flatten ++ (streamOf ws ++ tail))
  windows : ∀ w ∈ ws, w.Valid
  length : (streamOf ws).length ≤ u32Max
  totalLen : Blob.totalLen blob = blob.length
  syncCount : Blob.syncCount blob = ws.length
  streamOffset : Blob.streamOffset blob = 32 + 24 * ws.length

namespace Blob.Layout

variable {blob : Bytes} {ws₁ ws₂ : List Window} {w : Window}

theorem syncEntry (h : Blob.Layout blob (ws₁ ++ w :: ws₂)) :
    Blob.syncEntry blob ws₁.length = w.entry (streamOf ws₁).length := by
  obtain ⟨header, tail, hheader, hblob⟩ := h.bytes
  have hlen := h.length
  have hfits : (streamOf ws₁).length ≤ u32Max := by
    rw [streamOf_append, length_append] at hlen
    omega
  have hentries := entriesOf_append 0 ws₁ (w :: ws₂)
  rw [zero_add, entriesOf, mod_eq_of_lt (by unfold u32Max at hfits; omega)] at hentries
  have hlength : (((entriesOf 0 ws₁).map SyncEntry.bytes).flatten).length = ws₁.length * 24 := by
    rw [length_entries, length_entriesOf, mul_comm]
  refine syncEntry_of_drop (h.windows w (by simp)) hfits
    (((entriesOf ((streamOf ws₁).length + w.bytes.length) ws₂).map SyncEntry.bytes).flatten ++
      (streamOf (ws₁ ++ w :: ws₂) ++ tail)) ?_
  rw [hblob, drop_append_length hheader, hentries, map_append,
    flatten_append, append_assoc]
  have hdrop := drop_append_length hlength 0
  simp only [add_zero] at hdrop
  rw [hdrop, drop_zero, map_cons, flatten_cons, append_assoc]

theorem stream (h : Blob.Layout blob (ws₁ ++ w :: ws₂)) :
    ∃ tail, (Blob.stream blob).drop (streamOf ws₁).length = w.bytes ++ tail := by
  obtain ⟨header, tail, hheader, hblob⟩ := h.bytes
  have hlength : (((entriesOf 0 (ws₁ ++ w :: ws₂)).map SyncEntry.bytes).flatten).length =
      24 * (ws₁ ++ w :: ws₂).length := by
    rw [length_entries, length_entriesOf]
  refine ⟨streamOf ws₂ ++ tail, ?_⟩
  unfold Blob.stream
  rw [h.totalLen, take_length, h.streamOffset, hblob, drop_append_length hheader]
  have hdrop := drop_append_length hlength 0
  simp only [add_zero] at hdrop
  rw [hdrop, drop_zero, streamOf_append, append_assoc, drop_left]
  simp [streamOf]

/-- The readers start at each of the windows. -/
theorem holds {ws : List Window} (h : Blob.Layout blob ws) : Blob.Holds blob ws where
  syncCount := h.syncCount
  windows := h.windows
  entry := by
    rintro ws₁ ws₂ w rfl
    rw [h.syncEntry]
    rfl
  seed := by
    rintro ws₁ ws₂ w rfl
    obtain ⟨tail, htail⟩ := h.stream
    have hw := h.windows w (by simp)
    obtain ⟨r, hr, hreads⟩ := parse_window hw.length hw.fits tail
    refine ⟨r, ?_, hreads⟩
    unfold Blob.seedWindow
    rw [h.syncEntry]
    have hoffset : (w.entry (streamOf ws₁).length).byteOffset = (streamOf ws₁).length := rfl
    simp only
    rw [hoffset, htail]
    unfold Window.bytes
    rw [hr]
    rfl

end Blob.Layout

/-- The fields of the header that the readers look at. -/
theorem header_fields {total count braces sync offset : ℕ} (htotal : total < 256 ^ 8)
    (hsync : sync ≤ u32Max) (hoffset : offset ≤ u32Max) (rest : Bytes)
    (hblob : blob = toLittleEndian 8 total ++ (toLittleEndian 8 count ++ (toLittleEndian 4 0 ++
      (toLittleEndian 4 braces ++ (toLittleEndian 4 sync ++ (toLittleEndian 4 offset ++ rest)))))) :
    Blob.totalLen blob = total ∧ Blob.syncCount blob = sync ∧ Blob.streamOffset blob = offset := by
  have h₈ := length_toLittleEndian 8
  have h₄ := length_toLittleEndian 4
  rw [hblob]
  refine ⟨ofLittleEndian_take htotal _, ?_, ?_⟩
  · unfold Blob.syncCount
    rw [drop_append_length (h₈ _) 16, drop_append_length (h₈ _) 8,
      drop_append_length (h₄ _) 4, drop_append_length (h₄ _) 0,
      drop_zero, readU32_toLittleEndian hsync]
  · unfold Blob.streamOffset
    rw [drop_append_length (h₈ _) 20, drop_append_length (h₈ _) 12,
      drop_append_length (h₄ _) 8, drop_append_length (h₄ _) 4,
      drop_append_length (h₄ _) 0, drop_zero, readU32_toLittleEndian hoffset]

theorem length_objectBraces (os : List ObjectBrace) :
    (os.map ObjectBrace.bytes).flatten.length = 16 * os.length := by
  induction os with
  | nil => rfl
  | cons o os ih =>
    rw [map_cons, flatten_cons, length_append, ih, length_cons]
    have hbytes : o.bytes.length = 16 := by simp [ObjectBrace.bytes]
    omega

/-- The assertion of `flush_window` about the offsets, for the whole stream. -/
def Builder.StreamFits (self : Builder) : Prop := self.flushWindow.winStream.length ≤ u32Max

/-- A finalized blob has the windows of the builder, the pending one flushed. -/
theorem finalize_layout {b : Builder} {ws : List Window} {line : ℤ}
    {states : List SourceMapState} (h : b.Holds ws line states)
    (hblob : b.finalize = some blob) (hfits : b.StreamFits) :
    ∃ ws', Blob.Layout blob ws' ∧ ws'.flatMap Window.states = states := by
  obtain ⟨ws', hholds, hnil⟩ := Builder.Holds.flush h.stream h.entries h.windows h.pending.le
    h.pendingValid h.line h.states
  unfold finalize at hblob
  unfold Builder.StreamFits at hfits
  generalize b.flushWindow = b at *
  dsimp only at hblob
  split at hblob
  next hcounts =>
    obtain ⟨hoffset, hbraces, hcount⟩ := hcounts
    rw [Option.some.injEq] at hblob
    rw [hholds.entries, length_entries, length_entriesOf] at hblob hoffset
    rw [hholds.entries, length_entriesOf] at hcount
    simp only [append_assoc] at hblob
    have htotal : blob.length = 32 + 24 * ws'.length + b.winStream.length +
        16 * b.objectBraces.length + 1 := by
      rw [← hblob, ← length_objectBraces]
      simp only [length_append, length_toLittleEndian, length_entries, length_entriesOf,
        length_singleton]
      omega
    rw [length_objectBraces, ← htotal] at hblob
    have hsmall : blob.length < 256 ^ 8 := by
      unfold u32Max at hoffset hfits hbraces
      omega
    obtain ⟨hread₁, hread₂, hread₃⟩ := header_fields hsmall hcount hoffset _ hblob.symm
    refine ⟨ws', ⟨?_, hholds.windows, hholds.stream ▸ hfits, hread₁, hread₂, hread₃⟩, ?_⟩
    · refine ⟨toLittleEndian 8 blob.length ++ toLittleEndian 8 b.count ++ toLittleEndian 4 0 ++
        toLittleEndian 4 b.objectBraces.length ++ toLittleEndian 4 ws'.length ++
        toLittleEndian 4 (32 + 24 * ws'.length),
        (b.objectBraces.map ObjectBrace.bytes).flatten ++ [0], by simp, ?_⟩
      rw [← hholds.stream]
      simp only [append_assoc]
      exact hblob.symm
    · have hstates := hholds.states
      rwa [hnil, append_nil] at hstates
  · cases hblob

/-! ## All mappings of a blob -/

theorem walkWindows_holds {ws₁ ws₂ : List Window} (h : Blob.Holds blob (ws₁ ++ ws₂)) :
    Blob.walkWindows blob ws₂.length ws₁.length = ws₂.flatMap Window.states := by
  induction ws₂ generalizing ws₁ with
  | nil => rfl
  | cons w ws₂ ih =>
    obtain ⟨r, hseed, hreads⟩ := h.seed rfl
    have hw := h.windows w (by simp)
    obtain ⟨hfirst, hrest⟩ := forall_mem_cons.1 hw.states
    have hfuel : w.2.length ≤ r.count := by
      rw [hreads.count, length_deltas]
      omega
    have hnext : Blob.Holds blob ((ws₁ ++ [w]) ++ ws₂) := by
      rw [append_assoc]
      exact h
    have hwalk := ih hnext
    rw [length_append, length_singleton] at hwalk
    rw [length_cons, Blob.walkWindows, hseed]
    simp only
    rw [walk_window hreads hfirst hrest hfuel]
    simp only [if_true]
    rw [hwalk]
    rfl

/-- The readers pass the mappings of the windows, in order. -/
theorem states_holds {ws : List Window} (h : Blob.Holds blob ws) :
    Blob.states blob = ws.flatMap Window.states := by
  unfold Blob.states
  rw [h.syncCount]
  exact @walkWindows_holds blob [] ws h

/-- What is read from the blob of a run is what was appended. -/
theorem states_finalize (hops : Counted 0 ops)
    (hblob : (run ops).finalize = some blob) (hfits : (run ops).StreamFits) :
    Blob.states blob = mappings ops := by
  obtain ⟨ws, line, hholds⟩ := run_holds hops
  obtain ⟨ws', hlayout, hstates⟩ := finalize_layout hholds hblob hfits
  rw [states_holds hlayout.holds, hstates]

/-! ## The size of a blob -/

theorem lanes_rare_lengths (k : ℕ) (ds : List Delta) :
    (lanes k ds).genLine.length ≤ 6 * ds.length ∧ (lanes k ds).srcIdx.length ≤ 5 * ds.length := by
  induction ds generalizing k with
  | nil => exact ⟨le_rfl, le_rfl⟩
  | cons d ds ih =>
    obtain ⟨h₁, h₂⟩ := ih (k + 1)
    have hgenLine := length_writeVarint d.genLine
    have hsrcIdx := length_writeVarint d.srcIdx
    unfold lanes
    simp only [length_cons]
    constructor
    · split
      · rw [length_cons, length_append]
        omega
      · omega
    · split
      · omega
      · rw [length_append]
        omega

/-- A window takes at most 41 bytes for each of its mappings. -/
theorem Window.length_bytes (w : Window) : w.bytes.length ≤ 41 * w.states.length := by
  obtain ⟨first, rest⟩ := w
  obtain ⟨h₁, h₂, h₃⟩ := lanes_lengths 0 (deltas first rest)
  obtain ⟨h₄, h₅⟩ := lanes_rare_lengths 0 (deltas first rest)
  rw [length_deltas] at h₁ h₂ h₃ h₄ h₅
  have hsections : (genLineSection (lanes 0 (deltas first rest))).length ≤ 6 * rest.length + 1 ∧
      (srcIdxSection (lanes 0 (deltas first rest))).length ≤ 5 * rest.length + 8 := by
    unfold genLineSection srcIdxSection
    constructor <;> split <;> simp only [length_append, length_singleton,
      length_toLittleEndian, length_nil] <;> omega
  unfold Window.bytes Window.states window windowHeader
  simp only [length_append, length_cons, length_nil, length_toLittleEndian]
  omega

theorem length_streamOf (ws : List Window) :
    (streamOf ws).length ≤ 41 * (ws.flatMap Window.states).length ∧
      ws.length ≤ (ws.flatMap Window.states).length := by
  induction ws with
  | nil => exact ⟨le_rfl, le_rfl⟩
  | cons w ws ih =>
    obtain ⟨h₁, h₂⟩ := ih
    have hw := w.length_bytes
    unfold streamOf at h₁ ⊢
    rw [map_cons, flatten_cons, flatMap_cons, length_append, length_append, length_cons]
    have hpos : 0 < w.states.length := succ_pos _
    omega

/-- How many of the calls leave something in the blob. -/
def written : List Op → ℕ
  | [] => 0
  | .lineSeparator :: ops => written ops
  | .mapping _ :: ops => written ops + 1
  | .objectBrace _ :: ops => written ops + 1

theorem length_mappings (ops : List Op) : (mappings ops).length ≤ written ops := by
  induction ops with
  | nil => exact le_rfl
  | cons op ops ih =>
    cases op with
    | lineSeparator => exact ih
    | mapping current => exact succ_le_succ ih
    | objectBrace last => exact le_succ_of_le ih

theorem flushWindow_objectBraces (b : Builder) : b.flushWindow.objectBraces = b.objectBraces := by
  unfold flushWindow
  split <;> rfl

theorem length_objectBraces_run (b : Builder) (ops : List Op) :
    (ops.foldl apply b).objectBraces.length ≤ b.objectBraces.length + written ops := by
  induction ops generalizing b with
  | nil => exact le_rfl
  | cons op ops ih =>
    have hrun := ih (b.apply op)
    rw [foldl_cons]
    cases op with
    | lineSeparator => exact hrun
    | mapping current =>
      have hstep : (b.apply (.mapping current)).objectBraces = b.objectBraces := by
        unfold apply appendMapping
        dsimp only
        split
        · rw [flushWindow_objectBraces]
        · rfl
      rw [hstep] at hrun
      exact hrun.trans (le_succ _)
    | objectBrace last =>
      have hstep : (b.apply (.objectBrace last)).objectBraces.length =
          b.objectBraces.length + 1 := length_append
      rw [hstep] at hrun
      rw [written]
      omega

/-- A run of less than a hundred million mappings and braces is finalized, in a stream that
fits. -/
theorem finalize_isSome (hops : Counted 0 ops) (hlen : 41 * written ops + 32 ≤ u32Max) :
    ∃ blob, (run ops).finalize = some blob ∧ (run ops).StreamFits := by
  obtain ⟨ws, line, h⟩ := run_holds hops
  obtain ⟨ws', hholds, hnil⟩ := Builder.Holds.flush h.stream h.entries h.windows h.pending.le
    h.pendingValid h.line h.states
  have hbraces := length_objectBraces_run {} ops
  have hmappings := length_mappings ops
  obtain ⟨hstream, hcount⟩ := length_streamOf ws'
  have hstates := hholds.states
  rw [hnil, append_nil] at hstates
  rw [hstates] at hstream hcount
  have hflush : (run ops).flushWindow.objectBraces.length ≤ written ops := by
    rw [flushWindow_objectBraces]
    exact hbraces.trans (zero_add _).le
  unfold Builder.StreamFits finalize
  dsimp only
  rw [hholds.entries, length_entries, length_entriesOf, hholds.stream]
  rw [if_pos (by omega)]
  exact ⟨_, rfl, by omega⟩

end Soup.SourceMap
