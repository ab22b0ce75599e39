import Soup.SourceMap.Varint

/-!
# Reading a window

A reader at a delta has in front of it the lanes of the deltas that are left (`Reads`). Its next
step applies the first of them (`applyNext_reads`), so that the walk through a window passes the
mappings that it was written from (`walk_window`).
-/

namespace Soup.SourceMap

open Soup.Lib List Option Nat

/-! ## Coordinates -/

/-- A coordinate of a mapping. -/
def IsCoordinate (x : ℤ) : Prop := 0 ≤ x ∧ x ≤ i32Max

instance (x : ℤ) : Decidable (IsCoordinate x) := inferInstanceAs (Decidable (_ ∧ _))

theorem IsCoordinate.isI32 {x : ℤ} (h : IsCoordinate x) : IsI32 x := by
  obtain ⟨h₁, h₂⟩ := h
  unfold IsI32 i32Min i32Max at *
  omega

theorem IsCoordinate.sub {x y : ℤ} (hx : IsCoordinate x) (hy : IsCoordinate y) : IsI32 (x - y) := by
  obtain ⟨h₁, h₂⟩ := hx
  obtain ⟨h₃, h₄⟩ := hy
  unfold IsI32 i32Min i32Max at *
  omega

structure SourceMapState.Valid (s : SourceMapState) : Prop where
  generatedLine : IsCoordinate s.generatedLine
  generatedColumn : IsCoordinate s.generatedColumn
  sourceIndex : IsCoordinate s.sourceIndex
  originalLine : IsCoordinate s.originalLine
  originalColumn : IsCoordinate s.originalColumn

structure Delta.Fits (d : Delta) : Prop where
  genLine : IsI32 d.genLine
  genCol : IsI32 d.genCol
  origLine : IsI32 d.origLine
  origCol : IsI32 d.origCol
  srcIdx : IsI32 d.srcIdx

variable {prev current : SourceMapState}

theorem Delta.between_fits (hp : prev.Valid) (hc : current.Valid) :
    (Delta.between prev current).Fits where
  genLine := hc.generatedLine.sub hp.generatedLine
  genCol := by
    unfold Delta.between
    dsimp only
    split
    · exact hc.generatedColumn.isI32
    · exact hc.generatedColumn.sub hp.generatedColumn
  origLine := hc.originalLine.sub hp.originalLine
  origCol := hc.originalColumn.sub hp.originalColumn
  srcIdx := hc.sourceIndex.sub hp.sourceIndex

theorem length_deltas : ∀ (first : SourceMapState) (rest : List SourceMapState),
    (deltas first rest).length = rest.length
  | _, [] => rfl
  | _, current :: rest => by rw [deltas, length_cons, length_deltas, length_cons]

/-! ## The lanes of the deltas that are left -/

variable {d : Delta}

theorem exceptional_iff : d.exceptional = true ↔ 1 < d.genLine ∨ d.genLine < 0 := by
  simp [Delta.exceptional]

variable {k : ℕ} {ds : List Delta}

/-- The index of the next exception is not behind. -/
theorem le_head_genLine (h : k + ds.length < 64) {c : UInt8}
    (hc : ((lanes k ds).genLine ++ [0xFF]).head? = some c) : k ≤ c.toNat := by
  induction ds generalizing k with
  | nil =>
    cases hc
    exact le_of_lt (lt_trans (lt_of_le_of_lt (le_add_right k _) h) (by decide))
  | cons d ds ih =>
    rw [length_cons] at h
    rw [lanes] at hc
    dsimp only at hc
    split at hc
    · cases hc
      rw [toNat_ofNat (by omega)]
    · have := ih (by omega) hc
      omega

/-- The rare sections in front of a reader. -/
structure WindowReader.ReadsRare (r : WindowReader) (k : ℕ) (ds : List Delta) : Prop where
  nextIdx : ((lanes k ds).genLine ++ [0xFF]).head?.map UInt8.toNat = some r.genLineExcNextIdx
  genLine : (lanes k ds).genLine ≠ [] →
    r.flags ≠ 0 ∧ (lanes k ds).genLine ++ [0xFF] <+: r.genLineExc
  srcIdx : r.flags &&& flagHasSrcIdx ≠ 0 → (lanes k ds).srcIdx <+: r.srcIdxExc ∧
    ∀ i d, ds[i]? = some d → r.srcIdxEqMask.testBit (k + i) = decide (d.srcIdx = 0)
  noSrcIdx : r.flags &&& flagHasSrcIdx = 0 → ∀ d ∈ ds, d.srcIdx = 0

/-- The reader is at the delta `k`, and `ds` are the deltas that are left. -/
structure WindowReader.Reads (r : WindowReader) (k : ℕ) (ds : List Delta) : Prop where
  deltaIdx : r.deltaIdx = k
  count : r.count = k + ds.length + 1
  bound : k + ds.length < 64
  genCol : (lanes k ds).genCol <+: r.genCol
  origLine : (lanes k ds).origLine <+: r.origLineExc
  origCol : (lanes k ds).origCol <+: r.origColExc
  genLineMask : ∀ i d, ds[i]? = some d → r.genLineMask.testBit (k + i) = decide (d.genLine ≥ 1)
  origLineEqMask : ∀ i d, ds[i]? = some d →
    r.origLineEqMask.testBit (k + i) = decide (d.origLine = d.genLine)
  origColEqMask : ∀ i d, ds[i]? = some d →
    r.origColEqMask.testBit (k + i) = decide (d.origCol = d.genCol)
  rare : r.ReadsRare k ds

/-- What the bit of the mask says of the generated line. -/
def Delta.genLineBit (d : Delta) : ℤ := if d.genLine ≥ 1 then 1 else 0

theorem genLineBit_eq (h : d.exceptional = false) : d.genLineBit = d.genLine := by
  rw [← Bool.not_eq_true, exceptional_iff] at h
  unfold Delta.genLineBit
  split <;> omega

theorem mem_of_getElem?_succ {α : Type} {P : ℕ → α → Prop} {d : α} {ds : List α}
    (h : ∀ i e, (d :: ds)[i]? = some e → P (k + i) e) :
    ∀ i e, ds[i]? = some e → P (k + 1 + i) e := by
  intro i e he
  have := h (i + 1) e (by simpa using he)
  rwa [show k + 1 + i = k + (i + 1) by omega]

variable {r : WindowReader}

namespace WindowReader

theorem readUnless_lane {equal : Bool} {value v : ℤ} {lane pos : Bytes} (hv : IsI32 v)
    (h : (if equal then lane else writeVarint v ++ lane) <+: pos) :
    ∃ rest, readUnless equal value pos = some (if equal then value else v, rest) ∧
      lane <+: rest := by
  unfold readUnless
  cases equal with
  | true => exact ⟨pos, rfl, h⟩
  | false =>
    obtain ⟨tail, rfl⟩ := h
    refine ⟨lane ++ tail, ?_, lane.prefix_append tail⟩
    simp only [Bool.false_eq_true, if_false]
    rw [append_assoc, readVarint_writeVarint hv]

theorem lanes_cons_genLine (k : ℕ) (d : Delta) (ds : List Delta) :
    (lanes k (d :: ds)).genLine =
      if d.exceptional then UInt8.ofNat k :: (writeVarint d.genLine ++ (lanes (k + 1) ds).genLine)
      else (lanes (k + 1) ds).genLine := rfl

theorem lanes_cons_srcIdx (k : ℕ) (d : Delta) (ds : List Delta) :
    (lanes k (d :: ds)).srcIdx =
      if d.srcIdx = 0 then (lanes (k + 1) ds).srcIdx
      else writeVarint d.srcIdx ++ (lanes (k + 1) ds).srcIdx := rfl

section

variable (h : r.ReadsRare k (d :: ds))
include h

theorem nextException_reads (hk : k + (d :: ds).length < 64)
    (hd : IsI32 d.genLine) (hmask : r.origLineEqMask.testBit k = decide (d.origLine = d.genLine)) :
    ∃ genLineExc genLineExcNextIdx,
      r.nextException k d.genLineBit
          (if d.origLine = d.genLine then d.genLineBit else d.origLine) =
        some ({ r with genLineExc, genLineExcNextIdx }, d.genLine, d.origLine) ∧
      ((lanes (k + 1) ds).genLine ++ [0xFF]).head?.map UInt8.toNat = some genLineExcNextIdx ∧
      ((lanes (k + 1) ds).genLine ≠ [] → (lanes (k + 1) ds).genLine ++ [0xFF] <+: genLineExc) := by
  have hnext := h.nextIdx
  have hgen := h.genLine
  rw [length_cons] at hk
  rw [lanes_cons_genLine] at hnext hgen
  unfold nextException
  cases hexc : d.exceptional with
  | true =>
    rw [hexc, if_pos rfl] at hnext hgen
    obtain ⟨-, tail, htail⟩ := hgen (by simp)
    simp only [cons_append, head?_cons, map_some, some.injEq] at hnext
    rw [toNat_ofNat (by omega)] at hnext
    obtain ⟨c, cs, hcs⟩ : ∃ c cs, (lanes (k + 1) ds).genLine ++ [0xFF] = c :: cs :=
      exists_cons_of_ne_nil (by simp)
    have hread : readVarint (r.genLineExc.drop 1) = some (d.genLine, c :: (cs ++ tail)) := by
      rw [← htail]
      simp only [cons_append, append_assoc, drop_succ_cons, drop_zero]
      rw [readVarint_writeVarint hd]
      have happend := congrArg (· ++ tail) hcs
      simp only [append_assoc, cons_append] at happend
      rw [happend]
    rw [if_pos hnext.symm, hread]
    refine ⟨c :: (cs ++ tail), c.toNat, ?_, ?_, ?_⟩
    · simp only [hmask, decide_eq_true_eq]
      congr 3
      split
      next heq => exact heq.symm
      next => rfl
    · rw [hcs]
      rfl
    · intro _
      rw [hcs]
      exact ⟨tail, rfl⟩
  | false =>
    rw [hexc, if_neg (by simp)] at hnext hgen
    have hne : r.genLineExcNextIdx ≠ k := by
      rintro rfl
      obtain ⟨c, hc, hck⟩ := map_eq_some_iff.1 hnext
      have := le_head_genLine (by omega) hc
      omega
    rw [if_neg hne, genLineBit_eq hexc]
    refine ⟨r.genLineExc, r.genLineExcNextIdx, ?_, hnext, fun hne => (hgen hne).2⟩
    split
    next heq => rw [heq]
    next => rfl

theorem nextSrcIdx_reads (hd : IsI32 d.srcIdx) {sourceIndex : ℤ}
    (hs : IsI32 (sourceIndex + d.srcIdx)) (genLineExc : Bytes) (genLineExcNextIdx : ℕ) :
    ∃ srcIdxExc,
      ({ r with genLineExc, genLineExcNextIdx } : WindowReader).nextSrcIdx k sourceIndex =
        some ({ r with genLineExc, genLineExcNextIdx, srcIdxExc }, sourceIndex + d.srcIdx) ∧
      (r.flags &&& flagHasSrcIdx ≠ 0 → (lanes (k + 1) ds).srcIdx <+: srcIdxExc) := by
  unfold nextSrcIdx
  by_cases hflag : r.flags &&& flagHasSrcIdx = 0
  · refine ⟨r.srcIdxExc, ?_, fun hne => absurd hflag hne⟩
    rw [if_neg (by simp [hflag]), h.noSrcIdx hflag d mem_cons_self, Int.add_zero]
  · obtain ⟨hlane, hmask⟩ := h.srcIdx hflag
    have hbit := hmask 0 d rfl
    rw [add_zero] at hbit
    rw [lanes_cons_srcIdx] at hlane
    by_cases hzero : d.srcIdx = 0
    · rw [if_pos hzero] at hlane
      refine ⟨r.srcIdxExc, ?_, fun _ => hlane⟩
      rw [if_neg (by simp [hbit, hzero]), hzero, Int.add_zero]
    · rw [if_neg hzero] at hlane
      obtain ⟨tail, htail⟩ := hlane
      refine ⟨(lanes (k + 1) ds).srcIdx ++ tail, ?_, fun _ => prefix_append _ _⟩
      rw [if_pos ⟨hflag, by simp [hbit, hzero]⟩, ← htail, append_assoc,
        readVarint_writeVarint hd]
      simp only
      rw [wrappingAdd_of_isI32 hs]

/-- The rare part of a delta. -/
theorem nextFlagged_reads (hk : k + (d :: ds).length < 64)
    (hd : d.Fits) (hmask : r.origLineEqMask.testBit k = decide (d.origLine = d.genLine))
    {sourceIndex : ℤ} (hs : IsI32 (sourceIndex + d.srcIdx)) :
    ∃ genLineExc genLineExcNextIdx srcIdxExc,
      r.nextFlagged k d.genLineBit
          (if d.origLine = d.genLine then d.genLineBit else d.origLine) sourceIndex =
        some ({ r with genLineExc, genLineExcNextIdx, srcIdxExc }, d.genLine, d.origLine,
          sourceIndex + d.srcIdx) ∧
      ({ r with genLineExc, genLineExcNextIdx, srcIdxExc } : WindowReader).ReadsRare (k + 1)
        ds := by
  unfold nextFlagged
  have hnext := h.nextIdx
  have hgen := h.genLine
  rw [lanes_cons_genLine] at hnext hgen
  have hmasks : r.flags &&& flagHasSrcIdx ≠ 0 → ∀ i e, ds[i]? = some e →
      r.srcIdxEqMask.testBit (k + 1 + i) = decide (e.srcIdx = 0) := fun hflag =>
    mem_of_getElem?_succ
      (P := fun j (e : Delta) => r.srcIdxEqMask.testBit j = decide (e.srcIdx = 0))
      (h.srcIdx hflag).2
  have hnone : r.flags &&& flagHasSrcIdx = 0 → ∀ e ∈ ds, e.srcIdx = 0 := fun hflag e he =>
    h.noSrcIdx hflag e (mem_cons_of_mem _ he)
  by_cases hflags : r.flags = 0
  · have hexc : d.exceptional = false := by
      rw [← Bool.not_eq_true]
      intro hexc
      rw [if_pos hexc] at hgen
      exact (hgen (by simp)).1 hflags
    rw [hexc, if_neg (by simp)] at hnext hgen
    have hflag : r.flags &&& flagHasSrcIdx = 0 := by rw [hflags, zero_and]
    refine ⟨r.genLineExc, r.genLineExcNextIdx, r.srcIdxExc, ?_, hnext, hgen,
      fun hne => absurd hflag hne, hnone⟩
    rw [if_neg (by simp [hflags]), genLineBit_eq hexc, h.noSrcIdx hflag d mem_cons_self,
      Int.add_zero]
    congr 3
    split
    next heq => rw [heq]
    next => rfl
  · obtain ⟨genLineExc, idx, hexc, hidx, hlane⟩ := nextException_reads h hk hd.genLine hmask
    obtain ⟨srcIdxExc, hsrc, hsrcLane⟩ := nextSrcIdx_reads h hd.srcIdx hs genLineExc idx
    refine ⟨genLineExc, idx, srcIdxExc, ?_, hidx, fun hne => ⟨hflags, hlane hne⟩,
      fun hflag => ⟨hsrcLane hflag, hmasks hflag⟩, hnone⟩
    rw [if_pos hflags]
    unfold nextRare
    rw [hexc]
    simp only [bind_eq_bind, bind_some]
    rw [hsrc]
    rfl

end

/-- Applying the delta between two mappings to the first gives the second. -/
theorem between_apply (hc : current.Valid) :
    ({ generatedLine :=
        if (Delta.between prev current).genLine ≠ 0 then
          wrappingAdd prev.generatedLine (Delta.between prev current).genLine
        else prev.generatedLine
       generatedColumn :=
        if (Delta.between prev current).genLine ≠ 0 then (Delta.between prev current).genCol
        else wrappingAdd prev.generatedColumn (Delta.between prev current).genCol
       sourceIndex := prev.sourceIndex + (Delta.between prev current).srcIdx
       originalLine := wrappingAdd prev.originalLine (Delta.between prev current).origLine
       originalColumn := wrappingAdd prev.originalColumn (Delta.between prev current).origCol } :
      SourceMapState) = current := by
  have hadd : ∀ {x y : ℤ}, IsCoordinate y → wrappingAdd x (y - x) = y := by
    intro x y hy
    have hsum : x + (y - x) = y := by omega
    rw [wrappingAdd_of_isI32 (by rw [hsum]; exact hy.isI32), hsum]
  have hsrc : prev.sourceIndex + (current.sourceIndex - prev.sourceIndex) =
      current.sourceIndex := by
    omega
  unfold Delta.between
  rw [hadd hc.originalLine, hadd hc.originalColumn, hsrc]
  by_cases hline : current.generatedLine - prev.generatedLine = 0
  · simp only [hline, ne_eq, not_true, if_false]
    rw [hadd hc.generatedColumn, show prev.generatedLine = current.generatedLine by omega]
  · simp only [ne_eq, hline, not_false_eq_true, if_true]
    rw [hadd hc.generatedLine]

/-- A step of the reader. -/
theorem applyNext_reads
    (h : r.Reads k (Delta.between prev current :: ds)) (hp : prev.Valid) (hc : current.Valid) :
    ∃ r', r.applyNext prev = some (r', current) ∧ r'.Reads (k + 1) ds := by
  have hfits := Delta.between_fits hp hc
  have happly := @between_apply prev current hc
  have hsrc : IsI32 (prev.sourceIndex + (Delta.between prev current).srcIdx) := by
    unfold Delta.between
    rw [show prev.sourceIndex + (current.sourceIndex - prev.sourceIndex) = current.sourceIndex by
      omega]
    exact hc.sourceIndex.isI32
  generalize Delta.between prev current = d at *
  have hbit₁ := h.genLineMask 0 d rfl
  have hbit₂ := h.origLineEqMask 0 d rfl
  have hbit₃ := h.origColEqMask 0 d rfl
  have hgenCol := h.genCol
  have horigLine := h.origLine
  have horigCol := h.origCol
  have hbound := h.bound
  have hcount := h.count
  rw [add_zero] at hbit₁ hbit₂ hbit₃
  rw [length_cons] at hbound hcount
  unfold lanes at hgenCol horigLine horigCol
  obtain ⟨genCol, hreadCol⟩ : ∃ rest, r.genCol = writeVarint d.genCol ++ rest ∧
      (lanes (k + 1) ds).genCol <+: rest := by
    obtain ⟨tail, htail⟩ := hgenCol
    exact ⟨_, by rw [← htail, append_assoc], prefix_append _ _⟩
  obtain ⟨origLine, hreadLine, hline⟩ := @readUnless_lane (decide (d.origLine = d.genLine))
    d.genLineBit d.origLine _ _ hfits.origLine (by simpa using horigLine)
  obtain ⟨origCol, hreadOrigCol, hcol⟩ := @readUnless_lane (decide (d.origCol = d.genCol))
    d.genCol d.origCol _ _ hfits.origCol (by simpa using horigCol)
  have heq : (if decide (d.origCol = d.genCol) = true then d.genCol else d.origCol) =
      d.origCol := by
    split
    next heq => exact (of_decide_eq_true heq).symm
    next => rfl
  rw [heq] at hreadOrigCol
  have hrare : ({ r with
      deltaIdx := k + 1
      genCol
      origLineExc := origLine
      origColExc := origCol } : WindowReader).ReadsRare k (d :: ds) :=
    ⟨h.rare.nextIdx, h.rare.genLine, h.rare.srcIdx, h.rare.noSrcIdx⟩
  obtain ⟨genLineExc, idx, srcIdxExc, hread, hreads⟩ :=
    nextFlagged_reads hrare h.bound hfits hbit₂ hsrc
  refine ⟨{ r with
      deltaIdx := k + 1
      genCol
      origLineExc := origLine
      origColExc := origCol
      genLineExc
      genLineExcNextIdx := idx
      srcIdxExc }, ?_, ?_⟩
  · have hgenLine : (if r.genLineMask.testBit k = true then (1 : ℤ) else 0) = d.genLineBit := by
      unfold Delta.genLineBit
      simp only [hbit₁, decide_eq_true_eq]
    unfold applyNext
    simp only [h.deltaIdx, hbit₂, hbit₃, hreadCol.1, readVarint_writeVarint hfits.genCol,
      hgenLine, hreadLine, hreadOrigCol, bind_eq_bind, bind_some, decide_eq_true_eq]
    rw [hread]
    simp only [bind_some]
    rw [happly]
  · exact {
      deltaIdx := rfl
      count := by
        rw [hcount]
        omega
      bound := by omega
      genCol := hreadCol.2
      origLine := hline
      origCol := hcol
      genLineMask := mem_of_getElem?_succ
        (P := fun j (e : Delta) => r.genLineMask.testBit j = decide (e.genLine ≥ 1)) h.genLineMask
      origLineEqMask := mem_of_getElem?_succ
        (P := fun j (e : Delta) => r.origLineEqMask.testBit j = decide (e.origLine = e.genLine))
        h.origLineEqMask
      origColEqMask := mem_of_getElem?_succ
        (P := fun j (e : Delta) => r.origColEqMask.testBit j = decide (e.origCol = e.genCol))
        h.origColEqMask
      rare := ⟨hreads.nextIdx, hreads.genLine, hreads.srcIdx, hreads.noSrcIdx⟩ }

end WindowReader

/-! ## The start of a window -/

/-- The mask of the deltas with the property `p`. -/
def maskOf (p : Delta → Bool) : ℕ → List Delta → ℕ
  | _, [] => 0
  | k, d :: ds => setBit (p d) k (maskOf p (k + 1) ds)

theorem testBit_maskOf (p : Delta → Bool) : ∀ (k : ℕ) (ds : List Delta) (i : ℕ) (d : Delta),
    ds[i]? = some d → (maskOf p k ds).testBit (k + i) = p d := by
  have hlow : ∀ (ds : List Delta) (k j : ℕ), j < k → (maskOf p k ds).testBit j = false := by
    intro ds
    induction ds with
    | nil => intro k j _; exact zero_testBit j
    | cons d ds ih =>
      intro k j hj
      rw [maskOf, testBit_setBit, ih (k + 1) j (by omega), decide_eq_false (by omega)]
      simp
  intro k ds
  induction ds generalizing k with
  | nil => intro i d h; simp at h
  | cons e ds ih =>
    intro i d h
    rw [maskOf, testBit_setBit]
    rcases i with _ | i
    · cases h
      rw [hlow ds (k + 1) (k + 0) (by omega)]
      simp
    · rw [show k + (i + 1) = k + 1 + i by omega, ih (k + 1) i d (by simpa using h),
        decide_eq_false (by omega)]
      simp

theorem maskOf_lt (p : Delta → Bool) : ∀ {k : ℕ} {ds : List Delta}, k + ds.length < 65 →
    maskOf p k ds < 2 ^ 64
  | _, [], _ => Nat.two_pow_pos 64
  | k, d :: ds, h => by
    rw [length_cons] at h
    rw [maskOf]
    exact setBit_lt (by omega) (maskOf_lt p (by omega))

theorem lanes_masks (k : ℕ) (ds : List Delta) :
    (lanes k ds).genLineMask = maskOf (fun d => d.genLine ≥ 1) k ds ∧
      (lanes k ds).origLineEqMask = maskOf (fun d => d.origLine = d.genLine) k ds ∧
      (lanes k ds).origColEqMask = maskOf (fun d => d.origCol = d.genCol) k ds ∧
      (lanes k ds).srcIdxEqMask = maskOf (fun d => d.srcIdx = 0) k ds := by
  induction ds generalizing k with
  | nil => exact ⟨rfl, rfl, rfl, rfl⟩
  | cons d ds ih =>
    obtain ⟨h₁, h₂, h₃, h₄⟩ := ih (k + 1)
    unfold lanes
    dsimp only
    rw [h₁, h₂, h₃, h₄]
    exact ⟨rfl, rfl, rfl, rfl⟩

theorem lanes_lengths (k : ℕ) (ds : List Delta) :
    (lanes k ds).genCol.length ≤ 5 * ds.length ∧ (lanes k ds).origLine.length ≤ 5 * ds.length ∧
      (lanes k ds).origCol.length ≤ 5 * ds.length := by
  induction ds generalizing k with
  | nil => exact ⟨le_rfl, le_rfl, le_rfl⟩
  | cons d ds ih =>
    obtain ⟨h₁, h₂, h₃⟩ := ih (k + 1)
    have hlen := length_writeVarint
    unfold lanes
    simp only [length_cons]
    refine ⟨?_, ?_, ?_⟩
    · rw [length_append]
      have := hlen d.genCol
      omega
    · split
      · omega
      · rw [length_append]
        have := hlen d.origLine
        omega
    · split
      · omega
      · rw [length_append]
        have := hlen d.origCol
        omega

/-- What the flags of a window say. -/
theorem lanes_flags (k : ℕ) (ds : List Delta) :
    (lanes k ds).flags < 16 ∧
      ((lanes k ds).flags &&& flagHasGenLineExceptions = 0 ↔ (lanes k ds).genLine = []) ∧
      ((lanes k ds).flags &&& flagHasSrcIdx = 0 ↔ ∀ d ∈ ds, d.srcIdx = 0) := by
  induction ds generalizing k with
  | nil => simp [lanes]
  | cons d ds ih =>
    obtain ⟨hlt, hline, hsrc⟩ := ih (k + 1)
    have hbits : ∀ f < 16,
        (f ||| flagHasGenLineExceptions < 16 ∧ f ||| flagHasSrcIdx < 16 ∧
          (f ||| flagHasGenLineExceptions) &&& flagHasGenLineExceptions ≠ 0 ∧
          (f ||| flagHasSrcIdx) &&& flagHasSrcIdx ≠ 0 ∧
          (f ||| flagHasGenLineExceptions) &&& flagHasSrcIdx = f &&& flagHasSrcIdx ∧
          (f ||| flagHasSrcIdx) &&& flagHasGenLineExceptions = f &&& flagHasGenLineExceptions) := by
      decide
    unfold lanes
    dsimp only
    generalize (lanes (k + 1) ds).flags = f at *
    have hf := hbits f hlt
    have hf' := hbits (f ||| flagHasGenLineExceptions) hf.1
    cases d.exceptional with
    | true =>
      by_cases hzero : d.srcIdx = 0
      · simp only [hzero, if_true, or_zero, forall_mem_cons, true_and]
        exact ⟨hf.1, by simp [hf.2.2.1], by rw [hf.2.2.2.2.1, hsrc]⟩
      · simp only [hzero, if_true, if_false, forall_mem_cons, false_and, iff_false]
        exact ⟨hf'.2.1, by simp [hf'.2.2.2.2.2, hf.2.2.1], hf'.2.2.2.1⟩
    | false =>
      by_cases hzero : d.srcIdx = 0
      · simp only [hzero, if_true, or_zero, forall_mem_cons, true_and]
        exact ⟨hlt, hline, hsrc⟩
      · simp only [hzero, if_false, forall_mem_cons, false_and, iff_false]
        exact ⟨hf.2.1, by simp [hf.2.2.2.2.2, hline], hf.2.2.2.1⟩

variable {rest : List SourceMapState}

namespace WindowReader

theorem skipPairs_genLine {k : ℕ} {ds : List Delta} (hk : k + ds.length < 64)
    (hds : ∀ d ∈ ds, IsI32 d.genLine) {pairs : ℕ} (hpairs : ds.length ≤ pairs) (rest : Bytes) :
    skipPairs pairs ((lanes k ds).genLine ++ 0xFF :: rest) = some rest := by
  induction ds generalizing k pairs with
  | nil => cases pairs <;> rfl
  | cons d ds ih =>
    rw [length_cons] at hk hpairs
    obtain ⟨hd, hds⟩ := forall_mem_cons.1 hds
    obtain ⟨pairs, rfl⟩ : ∃ m, pairs = m + 1 := ⟨pairs - 1, by omega⟩
    rw [lanes_cons_genLine]
    split
    · have hne : UInt8.ofNat k ≠ 0xFF := by
        intro heq
        have htoNat := congrArg UInt8.toNat heq
        rw [toNat_ofNat (by omega)] at htoNat
        have h255 : UInt8.toNat 0xFF = 255 := rfl
        omega
      rw [cons_append, skipPairs, if_neg hne, append_assoc, readVarint_writeVarint hd]
      exact ih (by omega) hds (by omega)
    · exact ih (by omega) hds (by omega)

theorem drop_append_length {xs : Bytes} {n : ℕ} (h : xs.length = n) (k : ℕ) (ys : Bytes) :
    (xs ++ ys).drop (n + k) = ys.drop k := by
  subst h
  exact drop_length_add_append k

/-- The fixed header that was written is read. -/
theorem header_fields {n : ℕ} {l : Lanes} (hn : n ≤ 64) (hflags : l.flags < 16)
    (h₁ : l.genCol.length < 2 ^ 16) (h₂ : l.origLine.length < 2 ^ 16)
    (h₃ : l.origCol.length < 2 ^ 16) (hm₁ : l.genLineMask < 2 ^ 64)
    (hm₂ : l.origLineEqMask < 2 ^ 64) (hm₃ : l.origColEqMask < 2 ^ 64) (body : Bytes) :
    ofLittleEndian ((windowHeader n l ++ body).take 8) =
        n + 2 ^ 8 * l.flags + 2 ^ 16 * l.genCol.length + 2 ^ 32 * l.origLine.length +
          2 ^ 48 * l.origCol.length ∧
      ofLittleEndian (((windowHeader n l ++ body).drop 8).take 8) = l.genLineMask ∧
      ofLittleEndian (((windowHeader n l ++ body).drop 16).take 8) = l.origLineEqMask ∧
      ofLittleEndian (((windowHeader n l ++ body).drop 24).take 8) = l.origColEqMask ∧
      (windowHeader n l ++ body).drop 32 = body := by
  refine ⟨?_, ?_⟩
  · simp only [windowHeader, toLittleEndian, cons_append, nil_append,
      take_succ_cons, take_zero, ofLittleEndian, UInt8.toNat_ofNat']
    omega
  · unfold windowHeader
    generalize hfixed : [UInt8.ofNat n, UInt8.ofNat l.flags] ++ toLittleEndian 2 l.genCol.length ++
      toLittleEndian 2 l.origLine.length ++ toLittleEndian 2 l.origCol.length = fixed
    have hlen : fixed.length = 8 := by simp [← hfixed]
    have hmask := fun m : ℕ => length_toLittleEndian 8 m
    simp only [append_assoc]
    refine ⟨?_, ?_, ?_, ?_⟩
    · rw [drop_append_length hlen 0]
      exact ofLittleEndian_take hm₁ _
    · rw [drop_append_length hlen 8, drop_append_length (hmask _) 0]
      exact ofLittleEndian_take hm₂ _
    · rw [drop_append_length hlen 16, drop_append_length (hmask _) 8,
        drop_append_length (hmask _) 0]
      exact ofLittleEndian_take hm₃ _
    · rw [drop_append_length hlen 24, drop_append_length (hmask _) 16,
        drop_append_length (hmask _) 8, drop_append_length (hmask _) 0, drop_zero]

/-- The section of the exceptions, if there is one. -/
theorem parseExceptions_reads (hlen : ds.length < 64) (hfits : ∀ d ∈ ds, d.Fits)
    {self : WindowReader} (hself : self.flags = (lanes 0 ds).flags)
    (hidx : self.genLineExcNextIdx = 0xFF) (rest : Bytes) :
    ∃ genLineExc idx, self.parseExceptions (genLineSection (lanes 0 ds) ++ rest) =
        some ({ self with genLineExc, genLineExcNextIdx := idx }, rest) ∧
      ((lanes 0 ds).genLine ++ [0xFF]).head?.map UInt8.toNat = some idx ∧
      ((lanes 0 ds).genLine ≠ [] → (lanes 0 ds).genLine ++ [0xFF] <+: genLineExc) := by
  obtain ⟨-, hline, -⟩ := lanes_flags 0 ds
  have hskip := @skipPairs_genLine 0 ds (by omega) (fun d hd => (hfits d hd).genLine)
    (syncInterval - 1) (by unfold syncInterval; omega) rest
  unfold parseExceptions genLineSection
  rw [← hself] at hline ⊢
  by_cases hnil : (lanes 0 ds).genLine = []
  · have hflag := hline.2 hnil
    rw [if_neg (by simp [hflag]), if_neg (by simp [hflag]), hnil]
    exact ⟨self.genLineExc, 0xFF, by rw [← hidx]; rfl, rfl, fun hne => absurd rfl hne⟩
  · have hflag : self.flags &&& flagHasGenLineExceptions ≠ 0 := fun h => hnil (hline.1 h)
    obtain ⟨c, cs, hcs⟩ : ∃ c cs, (lanes 0 ds).genLine = c :: cs := exists_cons_of_ne_nil hnil
    rw [if_pos hflag, if_pos hflag, append_assoc, singleton_append]
    rw [hcs, cons_append] at hskip ⊢
    refine ⟨c :: (cs ++ 0xFF :: rest), c.toNat, ?_, rfl, fun _ => ⟨rest, by simp⟩⟩
    simp only
    rw [hskip]
    rfl

/-- A reader in front of the rare sections. -/
theorem parseSections_reads {ds : List Delta} (hlen : ds.length < 64)
    (hfits : ∀ d ∈ ds, d.Fits) {self : WindowReader} (hself : self.flags = (lanes 0 ds).flags)
    (hidx : self.genLineExcNextIdx = 0xFF) (tail : Bytes) :
    ∃ genLineExc idx mask srcIdxExc,
      (if self.flags ≠ 0 then self.parseFlaggedSections
          (genLineSection (lanes 0 ds) ++ (srcIdxSection (lanes 0 ds) ++ tail))
        else some self) =
        some { self with
          genLineExc, genLineExcNextIdx := idx, srcIdxEqMask := mask, srcIdxExc } ∧
      ({ self with
        genLineExc
        genLineExcNextIdx := idx
        srcIdxEqMask := mask
        srcIdxExc } : WindowReader).ReadsRare 0 ds := by
  obtain ⟨-, hline, hsrc⟩ := lanes_flags 0 ds
  obtain ⟨-, -, -, hmask⟩ := lanes_masks 0 ds
  by_cases hflags : self.flags = 0
  · have hnil : (lanes 0 ds).genLine = [] := hline.1 (by rw [← hself, hflags, zero_and])
    have hzero := hsrc.1 (by rw [← hself, hflags, zero_and])
    refine ⟨self.genLineExc, 0xFF, self.srcIdxEqMask, self.srcIdxExc, ?_, ?_,
      fun hne => absurd hnil hne, fun hne => absurd (by rw [hflags, zero_and]) hne,
      fun _ => hzero⟩
    · rw [if_neg (by simp [hflags]), ← hidx]
    · rw [hnil]
      rfl
  · obtain ⟨genLineExc, idx, hexc, hhead, hlane⟩ := parseExceptions_reads hlen hfits hself hidx
      (srcIdxSection (lanes 0 ds) ++ tail)
    rw [if_pos hflags]
    unfold parseFlaggedSections
    rw [hexc]
    simp only [bind_eq_bind, bind_some]
    by_cases hflag : self.flags &&& flagHasSrcIdx = 0
    · rw [if_neg (by simp [hflag])]
      exact ⟨genLineExc, idx, self.srcIdxEqMask, self.srcIdxExc, rfl, hhead,
        fun hne => ⟨hflags, hlane hne⟩, fun hne => absurd hflag hne,
        fun _ => hsrc.1 (by rw [← hself, hflag])⟩
    · have hsection : srcIdxSection (lanes 0 ds) ++ tail =
          toLittleEndian 8 (lanes 0 ds).srcIdxEqMask ++ ((lanes 0 ds).srcIdx ++ tail) := by
        unfold srcIdxSection
        rw [← hself, if_pos hflag, append_assoc]
      rw [if_pos hflag, hsection, readU64_toLittleEndian (by
        rw [hmask]
        exact maskOf_lt _ (by omega))]
      refine ⟨genLineExc, idx, (lanes 0 ds).srcIdxEqMask, (lanes 0 ds).srcIdx ++ tail, ?_, hhead,
        fun hne => ⟨hflags, hlane hne⟩, fun _ => ⟨prefix_append _ _, fun i d hd => ?_⟩,
        fun hzero => absurd hzero hflag⟩
      · have hdrop := drop_append_length (length_toLittleEndian 8 (lanes 0 ds).srcIdxEqMask) 0
          ((lanes 0 ds).srcIdx ++ tail)
        rw [add_zero, drop_zero] at hdrop
        rw [hdrop]
        rfl
      · dsimp only
        rw [hmask, testBit_maskOf _ 0 ds i d hd]

theorem fixed_parts {n flags a c d fixed : ℕ} (hn : n < 2 ^ 8) (hflags : flags < 2 ^ 8)
    (ha : a < 2 ^ 16) (hc : c < 2 ^ 16) (hd : d < 2 ^ 16)
    (hfixed : n + 2 ^ 8 * flags + 2 ^ 16 * a + 2 ^ 32 * c + 2 ^ 48 * d = fixed) :
    fixed &&& 0xFF = n ∧ (fixed >>> 8) &&& 0xFF = flags ∧ (fixed >>> (8 * 2)) &&& 0xFFFF = a ∧
      (fixed >>> (8 * 4)) &&& 0xFFFF = c ∧ (fixed >>> (8 * 6)) &&& 0xFFFF = d := by
  have hand₁₆ : ∀ m : ℕ, m &&& 0xFFFF = m % 2 ^ 16 := fun m => and_two_pow_sub_one_eq_mod m 16
  have hand₈ : ∀ m : ℕ, m &&& 0xFF = m % 2 ^ 8 := fun m => and_two_pow_sub_one_eq_mod m 8
  rw [hand₈, hand₈, hand₁₆, hand₁₆, hand₁₆, shiftRight_eq_div_pow, shiftRight_eq_div_pow,
    shiftRight_eq_div_pow, shiftRight_eq_div_pow]
  refine ⟨?_, ?_, ?_, ?_, ?_⟩ <;> omega

/-- A reader at the start of a window. -/
theorem parse_window {first : SourceMapState} (hlen : rest.length < 64)
    (hfits : ∀ d ∈ deltas first rest, d.Fits) (tail : Bytes) :
    ∃ r, parse (window first rest ++ tail) = some r ∧ r.Reads 0 (deltas first rest) := by
  have hds := length_deltas first rest
  unfold window
  generalize deltas first rest = ds at *
  obtain ⟨hlen₁, hlen₂, hlen₃⟩ := lanes_lengths 0 ds
  obtain ⟨hm₁, hm₂, hm₃, -⟩ := lanes_masks 0 ds
  obtain ⟨hflags, -, -⟩ := lanes_flags 0 ds
  have hmask := fun p => @maskOf_lt p 0 ds (by omega)
  generalize hbody : (lanes 0 ds).genCol ++ ((lanes 0 ds).origLine ++ ((lanes 0 ds).origCol ++
    (genLineSection (lanes 0 ds) ++ (srcIdxSection (lanes 0 ds) ++ tail)))) = body
  have hpos : windowHeader (rest.length + 1) (lanes 0 ds) ++ (lanes 0 ds).genCol ++
      (lanes 0 ds).origLine ++ (lanes 0 ds).origCol ++ genLineSection (lanes 0 ds) ++
      srcIdxSection (lanes 0 ds) ++ tail =
        windowHeader (rest.length + 1) (lanes 0 ds) ++ body := by
    rw [← hbody]
    simp only [append_assoc]
  have hheader : (windowHeader (rest.length + 1) (lanes 0 ds)).length = 32 := by
    simp [windowHeader]
  obtain ⟨hfixed, hb₁, hb₂, hb₃, hdrop⟩ := @header_fields (rest.length + 1) (lanes 0 ds) (by omega)
    hflags (by omega) (by omega) (by omega) (by rw [hm₁]; exact hmask _)
    (by rw [hm₂]; exact hmask _) (by rw [hm₃]; exact hmask _) body
  rw [hpos]
  unfold parse
  rw [if_neg (by rw [length_append]; omega)]
  simp only [hfixed, hb₁, hb₂, hb₃, hdrop]
  obtain ⟨hcountAt, hflagsAt, hlen₂At, hlen₄At, hlen₆At⟩ := @fixed_parts (rest.length + 1)
    (lanes 0 ds).flags (lanes 0 ds).genCol.length (lanes 0 ds).origLine.length
    (lanes 0 ds).origCol.length _ (by omega) (by omega) (by omega) (by omega) (by omega) rfl
  have hcount : min (rest.length + 1) syncInterval = rest.length + 1 := by
    unfold syncInterval
    omega
  rw [hcountAt, hflagsAt, hcount, hlen₂At, hlen₄At, hlen₆At, ← hbody]
  simp only [drop_left]
  obtain ⟨genLineExc, idx, mask, srcIdxExc, hsections, hrare⟩ := @parseSections_reads ds (by omega)
    hfits
    { genCol := (lanes 0 ds).genCol ++ ((lanes 0 ds).origLine ++ ((lanes 0 ds).origCol ++
        (genLineSection (lanes 0 ds) ++ (srcIdxSection (lanes 0 ds) ++ tail))))
      origLineExc := (lanes 0 ds).origLine ++ ((lanes 0 ds).origCol ++
        (genLineSection (lanes 0 ds) ++ (srcIdxSection (lanes 0 ds) ++ tail)))
      origColExc := (lanes 0 ds).origCol ++
        (genLineSection (lanes 0 ds) ++ (srcIdxSection (lanes 0 ds) ++ tail))
      genLineMask := (lanes 0 ds).genLineMask
      origLineEqMask := (lanes 0 ds).origLineEqMask
      origColEqMask := (lanes 0 ds).origColEqMask
      flags := (lanes 0 ds).flags
      genLineExcNextIdx := 0xFF } rfl rfl tail
  refine ⟨_, by rw [hsections, map_some], ?_⟩
  exact {
    deltaIdx := rfl
    count := by
      simp only
      omega
    bound := by omega
    genCol := prefix_append _ _
    origLine := prefix_append _ _
    origCol := prefix_append _ _
    genLineMask := fun i d hd => by
      rw [hm₁, testBit_maskOf _ 0 ds i d hd]
    origLineEqMask := fun i d hd => by
      rw [hm₂, testBit_maskOf _ 0 ds i d hd]
    origColEqMask := fun i d hd => by
      rw [hm₃, testBit_maskOf _ 0 ds i d hd]
    rare := ⟨hrare.nextIdx, hrare.genLine, hrare.srcIdx, hrare.noSrcIdx⟩ }

/-! ## The walk -/

theorem Reads.done (h : r.Reads k []) : r.done = true := by
  have hcount := h.count
  unfold WindowReader.done
  rw [h.deltaIdx]
  simp only [length_nil] at hcount
  simp
  omega

theorem Reads.not_done (h : r.Reads k (d :: ds)) : r.done = false := by
  have hcount := h.count
  unfold WindowReader.done
  rw [h.deltaIdx]
  simp only [length_cons] at hcount
  simp
  omega

theorem Reads.count_ne (h : r.Reads k ds) : r.count ≠ 0 := by
  rw [h.count]
  omega

/-- A step of the reader, as the loops take it. -/
theorem next_reads (h : r.Reads k (deltas prev (current :: rest)))
    (hp : prev.Valid) (hc : current.Valid) :
    ∃ r', r.next prev = (r', current) ∧ r'.Reads (k + 1) (deltas current rest) := by
  obtain ⟨r', happly, hreads⟩ := applyNext_reads h hp hc
  exact ⟨r', by rw [next, happly]; rfl, hreads⟩

end WindowReader

/-- The walk through a window passes what it was written from. -/
theorem walk_window {prev : SourceMapState} (h : r.Reads k (deltas prev rest)) (hp : prev.Valid)
    (hrest : ∀ s ∈ rest, s.Valid) {fuel : ℕ} (hfuel : rest.length ≤ fuel) :
    Blob.walk fuel r prev = (rest, true) := by
  induction rest generalizing r k prev fuel with
  | nil =>
    cases fuel with
    | zero => rfl
    | succ fuel => rw [Blob.walk, if_pos h.done]
  | cons current rest ih =>
    obtain ⟨hc, hrest⟩ := forall_mem_cons.1 hrest
    obtain ⟨fuel, rfl⟩ : ∃ m, fuel = m + 1 := ⟨fuel - 1, by simp at hfuel; omega⟩
    obtain ⟨r', hnext, hreads⟩ := WindowReader.next_reads h hp hc
    have hnot : r.done = false := h.not_done
    rw [Blob.walk, if_neg (by simp [hnot]), hnext]
    simp only
    rw [if_neg hreads.count_ne, ih hreads hc hrest (by simpa using hfuel)]

end Soup.SourceMap
