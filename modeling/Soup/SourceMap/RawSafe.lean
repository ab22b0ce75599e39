import Soup.SourceMap.Blob
import Soup.SourceMap.RawReads

/-!
# A blob from disk is safe to read

On a blob that `is_valid_blob` accepts no read leaves the blob, whatever is in its stream: the
header and the sync entries are inside what was checked, a slice checks each of its reads, and a
delta index is below 64, since no window has more mappings than that. So `find`, `for_each` and
`append_vlq_to` end as the model without addresses says (`find_eq`, `forEach_eq`,
`appendVlqTo_eq`), and without a fault (`valid_blob_safe`). A blob that was written is accepted
(`isValidBlob_finalize`).

The mapping count of the header is not checked. What bounds the mappings is the number of windows.
-/

namespace Soup.SourceMap

open Soup.Lib List Outcome

namespace Raw

/-! ## The blob -/

/-- What `is_valid_blob` says. -/
structure Valid (blob : Bytes) : Prop where
  header : 32 ≤ blob.length
  total : Blob.totalLen blob = blob.length
  entries : 32 + Blob.syncCount blob * 24 ≤ Blob.streamOffset blob
  stream : Blob.streamOffset blob < blob.length

section Headers

variable {blob : Bytes} (h : 32 ≤ blob.length)
include h

theorem totalLen_eq : totalLen blob = .ok (Blob.totalLen blob) := by
  rw [totalLen, readAt_eq (by omega)]
  rfl

theorem syncCount_eq : syncCount blob = .ok (Blob.syncCount blob) := by
  rw [syncCount, readAt_eq (by omega)]
  rfl

theorem streamOffset_eq : streamOffset blob = .ok (Blob.streamOffset blob) := by
  rw [streamOffset, readAt_eq (by omega)]
  rfl

theorem mappingCount_eq :
    mappingCount blob = .ok (ofLittleEndian ((blob.drop 8).take 8)) := by
  rw [mappingCount, readAt_eq (by omega)]
  rfl

end Headers

/-- `is_valid_blob` itself reads within the blob, whatever it is. -/
theorem isValidBlob_iff (blob : Bytes) :
    isValidBlob blob ≠ .fault ∧ (isValidBlob blob = .ok true ↔ Valid blob) := by
  rw [isValidBlob]
  by_cases hshort : blob.length < 32
  · rw [if_pos hshort]
    exact ⟨by simp, iff_of_false (by simp) fun h => absurd h.header (not_le.2 hshort)⟩
  have hheader : 32 ≤ blob.length := not_lt.1 hshort
  rw [if_neg hshort, totalLen_eq hheader, syncCount_eq hheader, streamOffset_eq hheader]
  simp only [Outcome.bind_ok]
  split_ifs with htotal hentries hstream htail
  · exact ⟨by simp, iff_of_false (by simp) fun h => htotal h.total⟩
  · exact ⟨by simp, iff_of_false (by simp) fun h => absurd h.entries (not_le.2 hentries)⟩
  · exact ⟨by simp, iff_of_false (by simp) fun h => by have := h.stream; omega⟩
  · exact ⟨by simp, iff_of_false (by simp) fun h => by have := h.stream; omega⟩
  · exact ⟨by simp, iff_of_true rfl ⟨hheader, not_not.1 htotal, by omega, by omega⟩⟩

/-! ## Windows -/

theorem remaining_of_not_done {raw : WindowReader} (hdone : ¬raw.done = true) :
    1 < raw.remaining := by
  rw [WindowReader.done, decide_eq_true_iff] at hdone
  unfold WindowReader.remaining
  omega

/-- A window of `for_each` and of `append_vlq_to`: what is done with the mappings of the walk. -/
theorem walk_eq {σ : Type} (each : σ → SourceMapState → σ) :
    ∀ (fuel : ℕ) {raw : WindowReader} {reader : SourceMap.WindowReader} (state : SourceMapState)
      (acc : σ), Reads raw reader → raw.remaining ≤ fuel + 1 →
      walk each raw state acc = .ok ((Blob.walk fuel reader state).1.foldl each acc,
          (Blob.walk fuel reader state).2) ∧
        (Blob.walk fuel reader state).1.length ≤ raw.remaining - 1
  | fuel, raw, reader, state, acc, h, hfuel => by
    rw [walk]
    by_cases hdone : raw.done = true
    · have hnil : Blob.walk fuel reader state = ([], true) := by
        cases fuel with
        | zero => rfl
        | succ fuel => rw [Blob.walk, if_pos (h.done ▸ hdone)]
      rw [dif_pos hdone, hnil]
      exact ⟨rfl, Nat.zero_le _⟩
    · obtain ⟨⟨raw', _⟩, hnext, h', rfl⟩ := h.next hdone state
      replace h' : Reads raw' (reader.next state).1 := h'
      have hless : raw'.remaining < raw.remaining := WindowReader.remaining_next hdone hnext
      have hmore := remaining_of_not_done hdone
      obtain ⟨fuel, rfl⟩ : ∃ more, fuel = more + 1 := ⟨fuel - 1, by omega⟩
      rw [dif_neg hdone, Blob.walk, if_neg (h.done ▸ hdone)]
      split
      next raw₁ state₁ heq =>
        obtain ⟨rfl, rfl⟩ := Prod.mk.inj (Outcome.ok.inj (hnext.symm.trans heq))
        dsimp only
        rw [← h'.count]
        split_ifs
        · exact ⟨rfl, Nat.zero_le _⟩
        · obtain ⟨hwalk, hlength⟩ := walk_eq each fuel (reader.next state).2
            (each acc (reader.next state).2) h' (by omega)
          refine ⟨hwalk, ?_⟩
          rw [length_cons]
          omega
      next heq => cases hnext.symm.trans heq
      next heq => cases hnext.symm.trans heq

/-- The loop of `find` in a window. -/
theorem findLoop_eq (line column : ℤ) :
    ∀ (fuel : ℕ) {raw : WindowReader} {reader : SourceMap.WindowReader} (state : SourceMapState),
      Reads raw reader → raw.remaining ≤ fuel + 1 →
      ∃ result, findLoop line column raw state = .ok result ∧
        Reads.With result (Blob.findLoop line column fuel reader state)
  | fuel, raw, reader, state, h, hfuel => by
    rw [findLoop]
    by_cases hdone : raw.done = true
    · rw [dif_pos hdone]
      refine ⟨_, rfl, ?_⟩
      cases fuel with
      | zero => exact ⟨h, rfl⟩
      | succ fuel =>
        rw [Blob.findLoop, if_pos (h.done ▸ hdone)]
        exact ⟨h, rfl⟩
    · obtain ⟨⟨raw', _⟩, hnext, h', rfl⟩ := h.next hdone state
      replace h' : Reads raw' (reader.next state).1 := h'
      have hless : raw'.remaining < raw.remaining := WindowReader.remaining_next hdone hnext
      have hmore := remaining_of_not_done hdone
      obtain ⟨fuel, rfl⟩ : ∃ more, fuel = more + 1 := ⟨fuel - 1, by omega⟩
      rw [dif_neg hdone, Blob.findLoop, if_neg (h.done ▸ hdone)]
      split
      next raw₁ state₁ heq =>
        obtain ⟨rfl, rfl⟩ := Prod.mk.inj (Outcome.ok.inj (hnext.symm.trans heq))
        dsimp only
        split_ifs
        · exact findLoop_eq line column fuel (reader.next state).2 h' (by omega)
        · exact ⟨_, rfl, h', rfl⟩
      next heq => cases hnext.symm.trans heq
      next heq => cases hnext.symm.trans heq

/-! ## Queries -/

section Queries

variable {blob : Bytes} (h : Valid blob)
include h

theorem syncEntry_eq {index : ℕ} (hindex : index < Blob.syncCount blob) :
    syncEntry blob index = .ok (Blob.syncEntry blob index) := by
  have hentries := h.entries
  have hstream := h.stream
  have hfield : ∀ k ≤ 20, readU32 (((blob.drop (32 + index * 24)).take 24).drop k) =
      readU32 ((blob.drop (32 + index * 24)).drop k) := fun k hk => by
    rw [readU32, readU32, drop_take, take_take, Nat.min_eq_left (by omega)]
  have hsigned : ∀ k ≤ 20, readI32 (((blob.drop (32 + index * 24)).take 24).drop k) =
      readI32 ((blob.drop (32 + index * 24)).drop k) := fun k hk => by
    unfold readI32
    rw [hfield k hk]
  have hfirst := hsigned 0 (by omega)
  rw [drop_zero, drop_zero] at hfirst
  rw [syncEntry, readAt_eq (by omega), bind_ok, pure_eq, Blob.syncEntry, Outcome.ok.injEq,
    SyncEntry.mk.injEq]
  exact ⟨hfirst, hsigned 4 (by omega), hfield 8 (by omega), hsigned 12 (by omega),
    hsigned 16 (by omega), hsigned 20 le_rfl⟩

/-- The slice of the stream. -/
theorem stream_eq : ∃ s : Slice, stream blob = .ok s ∧ s.Inside ∧ s.rest 0 = Blob.stream blob := by
  have hstream := h.stream
  have htotal := h.total
  refine ⟨⟨blob, Blob.streamOffset blob, Blob.totalLen blob - Blob.streamOffset blob⟩, ?_, ?_, ?_⟩
  · rw [stream, streamOffset_eq h.header, totalLen_eq h.header]
    exact if_pos (by omega)
  · unfold Slice.Inside
    dsimp only
    omega
  · rw [Slice.rest, Blob.stream, drop_take]
    rfl

theorem seedWindow_simulates {s : Slice} (hs : s.Inside) (hrest : s.rest 0 = Blob.stream blob)
    {idx : ℕ} (hidx : idx < Blob.syncCount blob) :
    Simulates Reads.With (seedWindow blob s idx) (Blob.seedWindow blob idx) := by
  rw [seedWindow, syncEntry_eq h hidx, bind_ok, Blob.seedWindow, Option.map_eq_bind, ← hrest,
    Slice.drop_rest, Nat.zero_add]
  exact (Reads.parse hs _).bind fun a b hab => ⟨hab, rfl⟩

/-- The windows from `idx` on, which have at most 64 mappings each. -/
theorem walkWindows_eq {σ : Type} (each : σ → SourceMapState → σ) {s : Slice} (hs : s.Inside)
    (hrest : s.rest 0 = Blob.stream blob) : ∀ (n idx : ℕ) (acc : σ), idx + n = Blob.syncCount blob →
      walkWindows each blob s (Blob.syncCount blob) idx acc =
          .ok ((Blob.walkWindows blob n idx).foldl each acc) ∧
        (Blob.walkWindows blob n idx).length ≤ syncInterval * n
  | 0, idx, acc, hidx => by
    rw [walkWindows, if_neg (by omega)]
    exact ⟨rfl, le_rfl⟩
  | n + 1, idx, acc, hidx => by
    rw [walkWindows, if_pos (by omega), Blob.walkWindows]
    have hlt : idx < Blob.syncCount blob := by omega
    rcases (seedWindow_simulates h hs hrest hlt).cases with
      ⟨hraw, hread⟩ | ⟨⟨raw, state⟩, ⟨reader, _⟩, hraw, hread, hreads, rfl⟩
    · rw [hraw, hread]
      exact ⟨rfl, Nat.zero_le _⟩
    · have hle := hreads.le
      have hinterval : syncInterval = 64 := rfl
      obtain ⟨hwalk, hlength⟩ := walk_eq each reader.count state (each acc state) hreads (by
        rw [← hreads.count]
        exact (Nat.sub_le _ _).trans (Nat.le_succ _))
      rw [hraw, hread]
      dsimp only at hwalk hlength ⊢
      rw [hwalk, bind_ok]
      dsimp only
      have hbound : raw.remaining ≤ 64 := (Nat.sub_le _ _).trans hle
      split_ifs
      · obtain ⟨hmore, hmoreLength⟩ := walkWindows_eq each hs hrest n (idx + 1)
          ((Blob.walk reader.count reader state).1.foldl each (each acc state)) (by omega)
        rw [hmore, cons_append, foldl_cons, foldl_append]
        refine ⟨rfl, ?_⟩
        rw [hinterval] at hmoreLength ⊢
        rw [length_cons, length_append]
        omega
      · rw [append_nil, foldl_cons, length_cons, hinterval]
        refine ⟨rfl, ?_⟩
        omega

/-- The binary search looks at entries that there are, and ends at most at the last. -/
theorem locateLoop_eq (line column : ℤ) : ∀ (fuel lo hi : ℕ), lo ≤ hi → hi ≤ Blob.syncCount blob →
    hi - lo ≤ fuel →
      locateLoop blob line column lo hi = .ok (Blob.locateLoop blob line column fuel lo hi) ∧
      Blob.locateLoop blob line column fuel lo hi ≤ hi
  | 0, lo, hi, hlo, hhi, hfuel => by
    rw [locateLoop, if_neg (by omega)]
    exact ⟨rfl, hlo⟩
  | fuel + 1, lo, hi, hlo, hhi, hfuel => by
    rw [locateLoop, Blob.locateLoop]
    split_ifs with hlt
    · dsimp only
      rw [syncEntry_eq h (by omega), bind_ok]
      split_ifs
      · exact locateLoop_eq line column fuel _ hi (by omega) hhi (by omega)
      · obtain ⟨hloop, hfound⟩ := locateLoop_eq line column fuel lo (lo + (hi - lo) / 2) (by omega)
          (by omega) (by omega)
        exact ⟨hloop, hfound.trans (by omega)⟩
    · exact ⟨rfl, hlo⟩

theorem locateWindow_eq (line column : ℤ) :
    locateWindow blob line column = ofOption (Blob.locateWindow blob line column) ∧
      ∀ idx, Blob.locateWindow blob line column = some idx → idx < Blob.syncCount blob := by
  obtain ⟨hloop, hfound⟩ := locateLoop_eq h line column (Blob.syncCount blob) 0
    (Blob.syncCount blob) (Nat.zero_le _) le_rfl le_rfl
  rw [locateWindow, syncCount_eq h.header, bind_ok, hloop, bind_ok, Blob.locateWindow]
  by_cases hzero : Blob.locateLoop blob line column (Blob.syncCount blob) 0 (Blob.syncCount blob) =
    0
  · rw [if_pos hzero, if_pos hzero]
    refine ⟨ite_self _, ?_⟩
    rintro _ ⟨⟩
  · rw [if_neg hzero, if_neg hzero, if_neg (by omega)]
    refine ⟨rfl, ?_⟩
    rintro _ ⟨⟩
    omega

/-- `find` does what it does on the bytes that are left. -/
theorem find_eq (line column : ℤ) :
    find blob line column = ofOption (Blob.find blob line column) := by
  obtain ⟨s, hstream, hs, hrest⟩ := stream_eq h
  obtain ⟨hlocate, hbelow⟩ := locateWindow_eq h line column
  rw [find, hlocate, Blob.find]
  cases hidx : Blob.locateWindow blob line column with
  | none => rfl
  | some idx =>
    rw [ofOption, bind_ok, hstream, bind_ok]
    dsimp only
    rcases (seedWindow_simulates h hs hrest (hbelow idx hidx)).cases with
      ⟨hraw, hread⟩ | ⟨⟨raw, state⟩, ⟨reader, _⟩, hraw, hread, hreads, rfl⟩
    · rw [hraw, hread]
      rfl
    · obtain ⟨⟨raw', best⟩, hloop, hreads', rfl⟩ :=
        findLoop_eq line column reader.count state hreads (by
        rw [← hreads.count]
        exact (Nat.sub_le _ _).trans (Nat.le_succ _))
      rw [hraw, hread, bind_ok]
      dsimp only at hreads' ⊢
      rw [hloop, bind_ok]
      dsimp only
      rw [hreads'.count]
      split_ifs <;> rfl

/-- `for_each` passes the same mappings. -/
theorem forEach_eq : forEach blob = .ok (Blob.forEach blob) ∧
    (Blob.forEach blob).length ≤ syncInterval * Blob.syncCount blob := by
  obtain ⟨s, hstream, hs, hrest⟩ := stream_eq h
  obtain ⟨hwalk, hlength⟩ := walkWindows_eq h (fun acc state => acc ++ [state.toMapping]) hs hrest
    (Blob.syncCount blob) 0 [] (Nat.zero_add _)
  rw [foldl_append_eq_append, nil_append, ← flatMap_def, ← map_eq_flatMap] at hwalk
  constructor
  · rw [forEach, hstream, bind_ok, syncCount_eq h.header, bind_ok, hwalk]
    rfl
  · rw [Blob.forEach, length_map]
    exact hlength

/-- `append_vlq_to` appends the same text. -/
theorem appendVlqTo_eq (out : Bytes) : appendVlqTo blob out =
    .ok ((Blob.states blob).foldl emitVlq { out }).out := by
  obtain ⟨s, hstream, hs, hrest⟩ := stream_eq h
  obtain ⟨hwalk, -⟩ := walkWindows_eq h emitVlq hs hrest (Blob.syncCount blob) 0 { out }
    (Nat.zero_add _)
  rw [appendVlqTo, syncCount_eq h.header, bind_ok, mappingCount_eq h.header, bind_ok, hstream,
    bind_ok, hwalk]
  rfl

/-! ## Safety -/

omit h in
/-- On a valid blob the queries end without a fault, and `for_each` passes at most 64 mappings for a
window. -/
theorem valid_blob_safe (h : isValidBlob blob = .ok true) :
    (∀ line column, find blob line column ≠ .fault) ∧
      (∃ windows mappings, syncCount blob = .ok windows ∧ forEach blob = .ok mappings ∧
        mappings.length ≤ syncInterval * windows) ∧
      ∀ out, appendVlqTo blob out ≠ .fault := by
  have hvalid := (isValidBlob_iff blob).2.1 h
  obtain ⟨hforEach, hlength⟩ := forEach_eq hvalid
  refine ⟨fun line column => ?_, ⟨_, _, syncCount_eq hvalid.header, hforEach, hlength⟩,
    fun out => ?_⟩
  · rw [find_eq hvalid]
    exact ofOption_ne_fault _
  · rw [appendVlqTo_eq hvalid]
    rintro ⟨⟩

end Queries

/-- A blob with a window of one mapping. The mapping count of its header is 0. -/
def oneWindow : Bytes :=
  toLittleEndian 8 89 ++ toLittleEndian 8 0 ++ toLittleEndian 4 0 ++ toLittleEndian 4 0 ++
    toLittleEndian 4 1 ++ toLittleEndian 4 56 ++ replicate 24 0 ++ 1 :: replicate 32 0

theorem valid_blob_safe_one_window : find oneWindow 0 5 ≠ .fault ∧ find oneWindow 1 0 ≠ .fault ∧
    ∃ windows mappings, syncCount oneWindow = .ok windows ∧ forEach oneWindow = .ok mappings ∧
      mappings.length ≤ syncInterval * windows := by
  have h : isValidBlob oneWindow = .ok true := by decide +kernel
  obtain ⟨hfind, hforEach, _⟩ := valid_blob_safe h
  exact ⟨hfind 0 5, hfind 1 0, hforEach⟩

/-- The mapping count of the header is no bound. -/
theorem not_length_forEach_le : ¬ ∀ blob mappings count, isValidBlob blob = .ok true →
    forEach blob = .ok mappings → mappingCount blob = .ok count → mappings.length ≤ count := by
  intro h
  have hvalid : isValidBlob oneWindow = .ok true := by decide +kernel
  have hforEach : forEach oneWindow =
      .ok [{ generated := {}, original := {}, sourceIndex := 0, nameIndex := -1 }] := by
    decide +kernel
  have hcount : mappingCount oneWindow = .ok 0 := by decide +kernel
  exact absurd (h oneWindow _ 0 hvalid hforEach hcount) (by decide)

/-- What the builder finalizes is accepted, and no lookup in it faults. -/
theorem isValidBlob_finalize {builder : Builder} {blob : Bytes}
    (hblob : builder.finalize = some blob) (hlen : blob.length < 2 ^ 64) :
    isValidBlob blob = .ok true ∧ ∀ line column, find blob line column ≠ .fault := by
  have hvalid : Valid blob := by
    rw [Builder.finalize] at hblob
    generalize builder.flushWindow = b at hblob
    split at hblob
    next hcounts =>
      rw [Option.some.injEq] at hblob
      have hlength := congrArg length hblob
      simp only [length_append, length_toLittleEndian, length_singleton] at hlength
      simp only [List.append_assoc] at hblob
      obtain ⟨htotal, hsync, hstream⟩ := header_fields (by omega) hcounts.2.2 hcounts.1 _ hblob.symm
      rw [length_entries] at *
      constructor <;> omega
    · cases hblob
  refine ⟨(isValidBlob_iff blob).2.2 hvalid, fun line column => ?_⟩
  rw [find_eq hvalid]
  exact ofOption_ne_fault _

/-- A mapping more than a window holds. -/
theorem isValidBlob_finalize_two_windows : ∃ blob,
    (Builder.run (replicate 65 (.mapping {}))).finalize = some blob ∧ syncCount blob = .ok 2 ∧
      isValidBlob blob = .ok true ∧ ∀ line column, find blob line column ≠ .fault := by
  have hfacts : ((Builder.run (replicate 65 (.mapping {}))).finalize.all fun blob =>
      blob.length < 2 ^ 64 ∧ syncCount blob = .ok 2) = true := by decide +kernel
  obtain ⟨blob, hblob⟩ : ∃ blob, (Builder.run (replicate 65 (.mapping {}))).finalize = some blob :=
    Option.isSome_iff_exists.1 (by decide +kernel)
  rw [hblob, Option.all_some, decide_eq_true_eq] at hfacts
  exact ⟨blob, hblob, hfacts.2, isValidBlob_finalize hblob hfacts.1⟩

end Raw

end Soup.SourceMap
