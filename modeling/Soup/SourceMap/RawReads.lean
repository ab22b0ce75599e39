import Soup.SourceMap.RawReader

/-!
# Reading by addresses is reading what is left

A position of `WindowReader` is the bytes that are left from it on, and one of `Raw.WindowReader` an
index into a slice. Inside the blob the two do the same (`Reads`): a read that has no result for one
has none for the other, and none is a fault.
-/

namespace Soup.SourceMap

open Soup.Lib List

namespace Outcome

variable {α β γ δ : Type} {R : α → β → Prop} {S : γ → δ → Prop} {x : Outcome α} {o : Option β}

/-- `None` is `nothing`. -/
def ofOption : Option α → Outcome α
  | some value => ok value
  | none => nothing

/-- Both have a result, and `R` relates them, or both have none. -/
def Simulates (R : α → β → Prop) : Outcome α → Option β → Prop
  | ok a, some b => R a b
  | nothing, none => True
  | _, _ => False

theorem Simulates.cases (h : Simulates R x o) :
    (x = nothing ∧ o = none) ∨ ∃ a b, x = ok a ∧ o = some b ∧ R a b := by
  cases x <;> cases o <;> first | exact False.elim h | simp_all [Simulates]

theorem Simulates.bind {f : α → Outcome γ} {g : β → Option δ} (h : Simulates R x o)
    (hf : ∀ a b, R a b → Simulates S (f a) (g b)) : Simulates S (x >>= f) (o >>= g) := by
  rcases h.cases with ⟨rfl, rfl⟩ | ⟨a, b, rfl, rfl, hab⟩
  · trivial
  · exact hf a b hab

theorem ofOption_ne_fault (o : Option α) : ofOption o ≠ fault := by
  cases o <;> rintro ⟨⟩

end Outcome

open Outcome

namespace Raw

theorem readAt_eq {blob : Bytes} {address n : ℕ} (h : address + n ≤ blob.length) :
    readAt blob address n = .ok ((blob.drop address).take n) := if_pos h

/-! ## Slices -/

/-- The slice is part of its blob. -/
def Slice.Inside (s : Slice) : Prop := s.offset + s.len ≤ s.blob.length

/-- The bytes from a position on. -/
def Slice.rest (s : Slice) (pos : ℕ) : Bytes := (s.blob.drop (s.offset + pos)).take (s.len - pos)

/-- The same result, and the position where the bytes that are left begin. -/
def Slice.At {α : Type} (s : Slice) (a : α × ℕ) (b : α × Bytes) : Prop :=
  a.1 = b.1 ∧ s.rest a.2 = b.2

section Slices

variable {s : Slice}

theorem Slice.drop_rest (s : Slice) (pos n : ℕ) : (s.rest pos).drop n = s.rest (pos + n) := by
  rw [rest, rest, drop_take, drop_drop, Nat.sub_sub, Nat.add_assoc]

variable (h : s.Inside)
include h

theorem Slice.length_rest (pos : ℕ) : (s.rest pos).length = s.len - pos := by
  unfold Inside at h
  rw [rest, length_take, length_drop]
  omega

theorem Slice.get_cases (i : ℕ) : (s.rest i = [] ∧ s.get i = .nothing) ∨
    ∃ c, s.rest i = c :: s.rest (i + 1) ∧ s.get i = .ok c := by
  unfold Inside at h
  by_cases hi : i < s.len
  · have hlt : s.offset + i < s.blob.length := by omega
    refine .inr ⟨s.blob[s.offset + i], ?_, ?_⟩
    · rw [rest, drop_eq_getElem_cons hlt, show s.len - i = s.len - (i + 1) + 1 by omega,
        take_succ_cons]
      rfl
    · rw [get, if_pos hi, readAt_eq (by omega), drop_eq_getElem_cons hlt]
      rfl
  · exact .inl ⟨by rw [rest, Nat.sub_eq_zero_of_le (Nat.not_lt.1 hi), take_zero], if_neg hi⟩

theorem Slice.chunk_eq (pos : ℕ) {n : ℕ} (hn : 0 < n) : s.chunk pos n =
    if (s.rest pos).length < n then .nothing else .ok ((s.rest pos).take n) := by
  rw [length_rest h, chunk]
  unfold Inside at h
  by_cases hpos : pos + n ≤ s.len
  · rw [if_pos hpos, if_neg (by omega), readAt_eq (by omega), rest, take_take,
      Nat.min_eq_left (by omega)]
  · rw [if_neg hpos, if_pos (by omega)]

theorem readVarintLoop_simulates : ∀ (fuel shift result i : ℕ), shift + 7 * fuel = 35 →
    Simulates s.At (readVarintLoop s shift result i)
      (SourceMap.readVarintLoop fuel shift result (s.rest i))
  | 0, shift, result, i, hshift => by
    rw [readVarintLoop, if_pos (by omega)]
    exact ⟨rfl, rfl⟩
  | fuel + 1, shift, result, i, hshift => by
    rw [readVarintLoop, if_neg (by omega)]
    rcases Slice.get_cases h i with ⟨hrest, hget⟩ | ⟨c, hrest, hget⟩
    · rw [hrest, hget]
      trivial
    · rw [hrest, hget, bind_ok, SourceMap.readVarintLoop]
      dsimp only
      split_ifs
      · exact ⟨rfl, rfl⟩
      · exact readVarintLoop_simulates fuel _ _ _ (by omega)

theorem readVarint_simulates (pos : ℕ) :
    Simulates s.At (readVarint s pos) (SourceMap.readVarint (s.rest pos)) := by
  rw [readVarint]
  rcases Slice.get_cases h pos with ⟨hrest, hget⟩ | ⟨c, hrest, hget⟩
  · rw [hrest, hget]
    trivial
  · rw [hrest, hget, bind_ok, SourceMap.readVarint]
    split_ifs
    · exact ⟨rfl, rfl⟩
    · rw [Option.map_eq_bind]
      exact (readVarintLoop_simulates h 4 7 _ _ rfl).bind fun a b hab => ⟨by rw [hab.1], hab.2⟩

theorem readU64Le_simulates (pos : ℕ) :
    Simulates Eq (readU64Le s pos) (SourceMap.readU64 (s.rest pos)) := by
  rw [readU64Le, Slice.chunk_eq h pos (by omega), SourceMap.readU64]
  split_ifs
  · trivial
  · rfl

theorem skipPairs_simulates : ∀ left pos : ℕ, Simulates (fun next rest => s.rest next = rest)
    (WindowReader.skipPairs s left pos) (SourceMap.WindowReader.skipPairs left (s.rest pos)) := by
  intro left
  induction left with
  | zero =>
    intro pos
    rw [WindowReader.skipPairs]
    rcases Slice.get_cases h pos with ⟨hrest, hget⟩ | ⟨c, hrest, hget⟩
    · rw [hrest, hget]
      trivial
    · rw [hrest, hget, bind_ok, SourceMap.WindowReader.skipPairs]
      split_ifs
      · rfl
      · trivial
  | succ left ih =>
    intro pos
    rw [WindowReader.skipPairs]
    rcases Slice.get_cases h pos with ⟨hrest, hget⟩ | ⟨c, hrest, hget⟩
    · rw [hrest, hget]
      trivial
    · rw [hrest, hget, bind_ok, SourceMap.WindowReader.skipPairs]
      split_ifs
      · rfl
      · rcases (readVarint_simulates h (pos + 1)).cases with
          ⟨hraw, hread⟩ | ⟨⟨d, next⟩, ⟨d', rest⟩, hraw, hread, -, rfl⟩
        · rw [hraw, hread]
          trivial
        · rw [hraw, hread]
          exact ih next

end Slices

/-! ## Windows -/

theorem testBit_eq (mask : ℕ) {idx : ℕ} (h : idx < 64) :
    testBit mask idx = .ok (mask.testBit idx) :=
  if_pos h

/-- The readers are at the same places of a window, which has at most 64 mappings. -/
structure Begins (raw : WindowReader) (reader : SourceMap.WindowReader) : Prop where
  inside : raw.bytes.Inside
  le : raw.count ≤ 64
  genCol : raw.bytes.rest raw.genColPos = reader.genCol
  origLineExc : raw.bytes.rest raw.origLineExcPos = reader.origLineExc
  origColExc : raw.bytes.rest raw.origColExcPos = reader.origColExc
  genLineExc : raw.genLineExcNextIdx ≠ 0xFF → raw.bytes.rest raw.genLineExcPos = reader.genLineExc
  genLineMask : raw.genLineMask = reader.genLineMask
  origLineEqMask : raw.origLineEqMask = reader.origLineEqMask
  origColEqMask : raw.origColEqMask = reader.origColEqMask
  srcIdxEqMask : raw.srcIdxEqMask = reader.srcIdxEqMask
  count : raw.count = reader.count
  flags : raw.flags = reader.flags
  genLineExcNextIdx : raw.genLineExcNextIdx = reader.genLineExcNextIdx
  deltaIdx : raw.deltaIdx = reader.deltaIdx

/-- The flagged sections are known, too. -/
structure Reads (raw : WindowReader) (reader : SourceMap.WindowReader) : Prop
    extends Begins raw reader where
  srcIdxExc : raw.flags &&& flagHasSrcIdx ≠ 0 → raw.bytes.rest raw.srcIdxExcPos = reader.srcIdxExc

/-- With a result that is the same. -/
def Reads.With {α : Type} (a : WindowReader × α) (b : SourceMap.WindowReader × α) : Prop :=
  Reads a.1 b.1 ∧ a.2 = b.2

namespace Reads

variable {raw : WindowReader} {reader : SourceMap.WindowReader}

section Steps

variable (h : Reads raw reader) {deltaIdx : ℕ} (hidx : deltaIdx < 64)
include h

section

include hidx

theorem nextException (genLine origLine : ℤ) : Simulates With
    (raw.nextException deltaIdx genLine origLine)
    (reader.nextException deltaIdx genLine origLine) := by
  rw [WindowReader.nextException, SourceMap.WindowReader.nextException, ← h.genLineExcNextIdx]
  by_cases heq : raw.genLineExcNextIdx = deltaIdx
  · rw [if_pos heq, if_pos heq, ← h.genLineExc (by omega), Slice.drop_rest]
    rcases (readVarint_simulates h.inside (raw.genLineExcPos + 1)).cases with
      ⟨hraw, hread⟩ | ⟨⟨d, pos⟩, ⟨d', rest⟩, hraw, hread, rfl, rfl⟩
    · rw [hraw, hread]
      trivial
    · rw [hraw, hread, bind_ok]
      dsimp only
      rw [testBit_eq _ hidx, bind_ok]
      rcases Slice.get_cases h.inside pos with ⟨hrest, hget⟩ | ⟨c, hrest, hget⟩
      · rw [hrest, hget]
        trivial
      · rw [hrest, hget]
        refine ⟨{ h with genLineExc := fun _ => hrest, genLineExcNextIdx := rfl }, ?_⟩
        dsimp only
        rw [h.origLineEqMask]
  · rw [if_neg heq, if_neg heq]
    exact ⟨h, rfl⟩

theorem nextSrcIdx (sourceIndex : ℤ) : Simulates With (raw.nextSrcIdx deltaIdx sourceIndex)
    (reader.nextSrcIdx deltaIdx sourceIndex) := by
  rw [WindowReader.nextSrcIdx, SourceMap.WindowReader.nextSrcIdx, testBit_eq _ hidx, bind_ok]
  have hflags := h.flags
  have hmask := h.srcIdxEqMask
  by_cases hflag : raw.flags &&& flagHasSrcIdx ≠ 0
  · rw [if_pos hflag, ← h.srcIdxExc hflag]
    by_cases hequal : raw.srcIdxEqMask.testBit deltaIdx = true
    · rw [if_pos hequal, if_neg fun hc => hc.2 (hmask ▸ hequal)]
      exact ⟨h, rfl⟩
    · rw [if_neg hequal, if_pos ⟨hflags ▸ hflag, hmask ▸ hequal⟩]
      rcases (readVarint_simulates h.inside raw.srcIdxExcPos).cases with
        ⟨hraw, hread⟩ | ⟨⟨d, pos⟩, ⟨d', rest⟩, hraw, hread, rfl, rfl⟩
      · rw [hraw, hread]
        trivial
      · rw [hraw, hread]
        exact ⟨{ h with srcIdxExc := fun _ => rfl }, rfl⟩
  · rw [if_neg hflag, if_neg fun hc => hflag (hflags ▸ hc.1)]
    exact ⟨h, rfl⟩

theorem nextFlagged (genLine origLine sourceIndex : ℤ) : Simulates With
    (raw.nextFlagged deltaIdx genLine origLine sourceIndex)
    (reader.nextFlagged deltaIdx genLine origLine sourceIndex) := by
  rw [WindowReader.nextFlagged, SourceMap.WindowReader.nextFlagged, ← h.flags]
  split_ifs
  · refine (h.nextException hidx genLine origLine).bind ?_
    rintro ⟨raw', genLine', origLine'⟩ ⟨reader', _, _⟩ ⟨h', ⟨⟩⟩
    refine (nextSrcIdx h' hidx sourceIndex).bind ?_
    rintro ⟨raw'', sourceIndex'⟩ ⟨reader'', _⟩ ⟨h'', ⟨⟩⟩
    exact ⟨h'', rfl⟩
  · exact ⟨h, rfl⟩

omit h in
theorem readUnless {s : Slice} (hs : s.Inside) (mask : ℕ) (value : ℤ) (pos : ℕ) :
    Simulates s.At (WindowReader.readUnless s mask deltaIdx value pos)
      (SourceMap.WindowReader.readUnless (mask.testBit deltaIdx) value (s.rest pos)) := by
  rw [WindowReader.readUnless, SourceMap.WindowReader.readUnless, testBit_eq _ hidx, bind_ok]
  split_ifs
  · exact ⟨rfl, rfl⟩
  · exact readVarint_simulates hs pos

end

theorem applyNext (hidx : raw.deltaIdx < 64) (state : SourceMapState) :
    Simulates With (raw.applyNext state) (reader.applyNext state) := by
  rw [WindowReader.applyNext, SourceMap.WindowReader.applyNext]
  rw [testBit_eq _ hidx, bind_ok, ← h.genCol, ← h.origLineExc, ← h.origColExc, ← h.origLineEqMask,
    ← h.origColEqMask]
  dsimp only
  rw [← h.genLineMask, ← h.deltaIdx]
  refine (readVarint_simulates h.inside _).bind ?_
  rintro ⟨genCol, genColPos⟩ ⟨_, _⟩ ⟨rfl, rfl⟩
  refine (readUnless hidx h.inside _ _ _).bind ?_
  rintro ⟨origLine, origLineExcPos⟩ ⟨_, _⟩ ⟨rfl, rfl⟩
  refine (readUnless hidx h.inside _ _ _).bind ?_
  rintro ⟨origCol, origColExcPos⟩ ⟨_, _⟩ ⟨rfl, rfl⟩
  have hmoved : Reads
      { raw with deltaIdx := raw.deltaIdx + 1, genColPos, origLineExcPos, origColExcPos }
      { reader with
        deltaIdx := raw.deltaIdx + 1
        genCol := raw.bytes.rest genColPos
        origLineExc := raw.bytes.rest origLineExcPos
        origColExc := raw.bytes.rest origColExcPos
        genLineMask := raw.genLineMask
        origLineEqMask := raw.origLineEqMask
        origColEqMask := raw.origColEqMask } :=
    { h with
      genCol := rfl
      origLineExc := rfl
      origColExc := rfl
      genLineMask := rfl
      origLineEqMask := rfl
      origColEqMask := rfl
      deltaIdx := rfl }
  refine (nextFlagged hmoved hidx _ _ _).bind ?_
  rintro ⟨raw', genLine, origLine', sourceIndex⟩ ⟨reader', _, _, _⟩ ⟨h', ⟨⟩⟩
  exact ⟨h', rfl⟩

theorem done : raw.done = reader.done := by
  rw [WindowReader.done, SourceMap.WindowReader.done, h.count, h.deltaIdx]

/-- A step inside a window always has a result. -/
theorem next (hdone : ¬raw.done = true) (state : SourceMapState) :
    ∃ result, raw.next state = .ok result ∧ With result (reader.next state) := by
  have hlt : raw.deltaIdx + 1 < raw.count := by simpa [WindowReader.done] using hdone
  have hle := h.le
  rw [WindowReader.next, SourceMap.WindowReader.next]
  rcases (h.applyNext (by omega) state).cases with ⟨hraw, hread⟩ | ⟨a, b, hraw, hread, hab⟩
  · rw [hraw, hread]
    exact ⟨_, rfl, { h with le := Nat.zero_le _, count := rfl }, rfl⟩
  · rw [hraw, hread]
    exact ⟨a, rfl, hab⟩

end Steps

end Reads

/-! ### Headers -/

namespace Begins

variable {raw : WindowReader} {reader : SourceMap.WindowReader} (h : Begins raw reader)
include h

theorem parseExceptions (pos : ℕ) : Simulates (fun a b => Begins a.1 b.1 ∧ a.1.bytes.rest a.2 = b.2)
    (raw.parseExceptions pos) (reader.parseExceptions (raw.bytes.rest pos)) := by
  rw [WindowReader.parseExceptions, SourceMap.WindowReader.parseExceptions.eq_def]
  have hflags := h.flags
  by_cases hflag : raw.flags &&& flagHasGenLineExceptions ≠ 0
  · rw [if_pos hflag, if_pos (hflags ▸ hflag)]
    rcases Slice.get_cases h.inside pos with ⟨hrest, hget⟩ | ⟨c, hrest, hget⟩
    · rw [hrest, hget]
      trivial
    · have hskip := skipPairs_simulates h.inside (syncInterval - 1) pos
      rw [hrest] at hskip ⊢
      dsimp only
      rw [hget, bind_ok, Option.map_eq_bind]
      exact hskip.bind fun a b hab =>
        ⟨{ h with genLineExc := fun _ => hrest, genLineExcNextIdx := rfl }, hab⟩
  · rw [if_neg hflag, if_neg (hflags ▸ hflag)]
    exact ⟨h, rfl⟩

theorem parseFlaggedSections (pos : ℕ) : Simulates Reads (raw.parseFlaggedSections pos)
    (reader.parseFlaggedSections (raw.bytes.rest pos)) := by
  refine (h.parseExceptions pos).bind ?_
  rintro ⟨raw', pos'⟩ ⟨reader', _⟩ ⟨h', rfl⟩
  have hflags : raw'.flags = reader'.flags := h'.flags
  dsimp only
  by_cases hflag : raw'.flags &&& flagHasSrcIdx ≠ 0
  · rw [if_pos hflag, if_pos (hflags ▸ hflag), Option.map_eq_bind]
    refine (readU64Le_simulates h'.inside pos').bind ?_
    rintro mask _ rfl
    exact { h' with srcIdxExc := fun _ => (Slice.drop_rest ..).symm, srcIdxEqMask := rfl }
  · rw [if_neg hflag, if_neg (hflags ▸ hflag)]
    exact ⟨h', fun hc => absurd hc hflag⟩

end Begins

theorem Reads.parse {s : Slice} (hs : s.Inside) (start : ℕ) :
    Simulates Reads (WindowReader.parse { bytes := s } start)
      (SourceMap.WindowReader.parse (s.rest start)) := by
  rw [WindowReader.parse, SourceMap.WindowReader.parse, Slice.chunk_eq hs start (by omega)]
  split_ifs
  · trivial
  · rw [bind_ok]
    simp only [take_take, drop_take, Slice.drop_rest, Nat.reduceSub, show min 8 32 = 8 from rfl,
      show min 8 24 = 8 from rfl, show min 8 16 = 8 from rfl, Nat.min_self]
    generalize ofLittleEndian ((s.rest start).take 8) = fixed
    split_ifs with hflags
    · rw [Option.map_eq_bind]
      refine Simulates.bind (Begins.parseFlaggedSections ?_ _) fun a b hab => ?_
      · exact ⟨hs, Nat.zero_le _, rfl, rfl, rfl, fun h => absurd rfl h, rfl, rfl, rfl, rfl, rfl,
          rfl,
          rfl, rfl⟩
      · exact { hab with le := Nat.min_le_right _ _, count := rfl }
    · refine ⟨⟨hs, Nat.min_le_right _ _, rfl, rfl, rfl, fun h => absurd rfl h, rfl, rfl, rfl, rfl,
        rfl,
        rfl, rfl, rfl⟩, fun hc => absurd ?_ hc⟩
      rw [not_not.1 hflags]
      exact Nat.zero_and _

end Raw

end Soup.SourceMap
