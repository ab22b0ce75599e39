import Soup.SourceMap.Blob
import Soup.SourceMap.Parse

/-!
# From the blob to the text

`append_vlq_to` writes a text whose mappings are those of the blob (`foldl_emitVlq`). With
`states_finalize` and `parse_render`, the mappings that `parse` has of it are those that were
appended to the builder, as are those that `for_each` passes (`finalize_fidelity`).
-/

namespace Soup.SourceMap

open List

/-- The position of the emitter. -/
def Emitter.position (e : Emitter) : SourceMapState :=
  { e.prev with generatedLine := e.generatedLine }

/-- The emitter has written the text `ts`, whose mappings are `states`. -/
structure Emitter.Holds (sourcesCount : ℤ) (e : Emitter) (ts : List Token)
    (states : List SourceMapState) : Prop where
  out : e.out = render ts
  isText : IsText ts
  position : endPosition {} ts = e.position
  bounded : Bounded e.prev
  states : positions {} ts = states
  readable : Readable sourcesCount {} ts

variable {s : SourceMapState}

theorem SourceMapState.Valid.bounded (h : s.Valid) : Bounded s :=
  ⟨h.generatedColumn, h.sourceIndex, h.originalLine, h.originalColumn⟩

namespace Emitter.Holds

variable {sourcesCount : ℤ} {e : Emitter} {ts : List Token} {states : List SourceMapState}

section

variable (h : e.Holds sourcesCount ts states)
include h

/-- The `;` up to the line of the next mapping. -/
theorem newlines {n : ℕ} (hn : 0 < n) :
    ({ out := e.out ++ replicate n (b ';')
       prev := { e.prev with generatedColumn := 0 }
       generatedLine := e.generatedLine + n } : Emitter).Holds sourcesCount
      (ts ++ replicate n Token.newline) states where
  out := by
    have hjoint : joint ts (replicate n .newline) = [] := by
      obtain ⟨m, rfl⟩ := Nat.exists_eq_add_one.2 hn
      unfold joint
      split <;> rfl
    rw [render_append, hjoint, render_newlines, nil_append, h.out]
  isText := h.isText.append (isText_newlines n)
  position := by
    rw [endPosition_append, h.position, endPosition_newlines, if_neg (by omega)]
    rfl
  bounded :=
    ⟨⟨le_rfl, show (0 : ℤ) ≤ i32Max by decide⟩, h.bounded.sourceIndex, h.bounded.originalLine,
      h.bounded.originalColumn⟩
  states := by rw [positions_append, positions_newlines, h.states, append_nil]
  readable := readable_append.2 ⟨h.readable, readable_newlines _ _ _⟩

/-- A mapping on the line of the emitter. -/
theorem mapping (hs : s.Valid)
    (hsource : s.sourceIndex < sourcesCount) (hline : e.generatedLine = s.generatedLine) :
    ({ e with
       out := appendMappingToBuffer e.out (lastByte e.out) e.prev s
       prev := s } : Emitter).Holds sourcesCount
      (ts ++ [Token.segment (fieldsBetween e.prev s)]) (states ++ [s]) := by
  have hbetween : fieldsBetween e.prev s = fieldsBetween e.position s ++ [] :=
    (append_nil _).symm
  have hbounded : Bounded e.position :=
    ⟨h.bounded.generatedColumn, h.bounded.sourceIndex, h.bounded.originalLine,
      h.bounded.originalColumn⟩
  have hadvance : advance (endPosition {} ts) (fieldsBetween e.prev s) = s := by
    rw [h.position, hbetween, advance_between hbounded hs.bounded, Emitter.position, hline]
  have hsegment : IsSegment (fieldsBetween e.prev s) := by
    rw [← append_nil (fieldsBetween e.prev s)]
    exact isSegment_between h.bounded hs.bounded (by simp) (Nat.zero_le 1)
  constructor
  · have hwrite := @appendMappingToBuffer_render _ _ [] (Or.inl rfl) _ h.isText h.bounded
      hs.bounded [] []
    rw [append_nil] at hwrite
    rw [h.out]
    exact (append_nil _).symm.trans hwrite
  · exact h.isText.append (isText_segment hsegment)
  · rw [endPosition_append]
    exact hadvance.trans (by rw [Emitter.position, hline])
  · exact hs.bounded
  · have hpositions : positions (endPosition {} ts) [.segment (fieldsBetween e.prev s)] =
        [advance (endPosition {} ts) (fieldsBetween e.prev s)] := rfl
    rw [positions_append, h.states, hpositions, hadvance]
  · refine readable_append.2 ⟨h.readable, ?_, trivial⟩
    rw [hadvance]
    exact ⟨hs.generatedColumn, fun _ => ⟨hs.sourceIndex, hsource⟩, fun _ => hs.originalLine,
      fun _ => hs.originalColumn⟩

theorem emitVlq (hs : s.Valid)
    (hsource : s.sourceIndex < sourcesCount) (hline : e.generatedLine ≤ s.generatedLine) :
    ∃ ts', (emitVlq e s).Holds sourcesCount ts' (states ++ [s]) ∧
      (SourceMap.emitVlq e s).generatedLine = s.generatedLine := by
  unfold SourceMap.emitVlq
  split
  next hlt =>
    have hgap : e.generatedLine + ((s.generatedLine - e.generatedLine).toNat : ℤ) =
        s.generatedLine := by omega
    have hnewlines := h.newlines (show 0 < (s.generatedLine - e.generatedLine).toNat by omega)
    rw [hgap] at hnewlines
    exact ⟨_, hnewlines.mapping hs hsource rfl, rfl⟩
  next hge =>
    have heq : e.generatedLine = s.generatedLine := le_antisymm hline (not_lt.1 hge)
    exact ⟨_, h.mapping hs hsource heq, heq⟩

theorem foldl_emitVlq {line : ℤ} {ops : List Op}
    (hops : Counted line ops) (hline : e.generatedLine ≤ line)
    (hsources : ∀ s ∈ mappings ops, s.sourceIndex < sourcesCount) :
    ∃ ts', ((mappings ops).foldl SourceMap.emitVlq e).Holds sourcesCount ts'
      (states ++ mappings ops) := by
  induction ops generalizing e line ts states with
  | nil => exact ⟨ts, by rwa [mappings, append_nil]⟩
  | cons op ops ih =>
    cases op with
    | lineSeparator => exact ih h hops (by omega) hsources
    | objectBrace last => exact ih h hops hline hsources
    | mapping s =>
      obtain ⟨hs, hvalid, hops⟩ := hops
      obtain ⟨hsource, hsources⟩ := forall_mem_cons.1 hsources
      obtain ⟨ts', hholds, hnext⟩ := h.emitVlq hvalid hsource (by omega)
      obtain ⟨ts'', hrun⟩ := ih hholds hops (hnext.trans hs).le hsources
      refine ⟨ts'', ?_⟩
      rw [List.append_assoc] at hrun
      exact hrun

end

end Emitter.Holds

/-- `append_vlq_to` writes a text with the mappings of the blob. -/
theorem appendVlqTo_eq_render {ops : List Op} (hops : Counted 0 ops) {sourcesCount : ℤ}
    (hsources : ∀ s ∈ mappings ops, s.sourceIndex < sourcesCount) {blob : Bytes}
    (hblob : Blob.states blob = mappings ops) :
    ∃ ts, appendVlqTo blob = render ts ∧ IsText ts ∧ Readable sourcesCount {} ts ∧
      positions {} ts = mappings ops := by
  have hinit : ({} : Emitter).Holds sourcesCount [] [] :=
    ⟨rfl, by simp [IsText], rfl, bounded_zero, rfl, trivial⟩
  obtain ⟨ts, hholds⟩ := hinit.foldl_emitVlq hops le_rfl hsources
  unfold appendVlqTo
  rw [hblob]
  exact ⟨ts, hholds.out, hholds.isText, hholds.readable, hholds.states⟩

/-- What is appended to the builder is what `for_each` passes, and what `parse` has of the text of
the blob. Less than a hundred million mappings and braces always have a blob. -/
theorem finalize_fidelity {ops : List Op} (hops : Counted 0 ops) {kernel : Kernel}
    (hkernel : kernel.Resumes) {sourcesCount : ℤ}
    (hsources : ∀ s ∈ mappings ops, s.sourceIndex < sourcesCount) (options : ParseOptions) :
    (41 * written ops + 32 ≤ u32Max →
      ∃ blob, (Builder.run ops).finalize = some blob ∧ (Builder.run ops).StreamFits) ∧
    ∀ blob, (Builder.run ops).finalize = some blob → (Builder.run ops).StreamFits →
      Blob.forEach blob = (mappings ops).map SourceMapState.toMapping ∧
      ∃ ms, parse kernel (appendVlqTo blob) sourcesCount options = .ok ms ∧
        ms.map Mapping.state = sorted options (mappings ops) := by
  refine ⟨finalize_isSome hops, fun blob hblob hfits => ?_⟩
  have hstates := states_finalize hops hblob hfits
  obtain ⟨ts, hrender, hts, hread, hpositions⟩ := appendVlqTo_eq_render hops hsources hstates
  refine ⟨by rw [Blob.forEach, hstates], ?_⟩
  rw [hrender, ← hpositions]
  exact parse_render hkernel options hts hread

/-- Two mappings, two lines apart. -/
theorem finalize_fidelity_two_lines :
    ∃ blob, (Builder.run [.mapping {}, .lineSeparator, .lineSeparator,
        .mapping { generatedLine := 2, generatedColumn := 4, sourceIndex := 1 }]).finalize =
          some blob ∧
      Blob.forEach blob = [SourceMapState.toMapping {}, SourceMapState.toMapping
        { generatedLine := 2, generatedColumn := 4, sourceIndex := 1 }] ∧
      ∃ ms, parse Kernel.idle (appendVlqTo blob) 2 { sort := true } = .ok ms ∧
        ms.map Mapping.state =
          [{}, { generatedLine := 2, generatedColumn := 4, sourceIndex := 1 }] := by
  obtain ⟨hsome, hall⟩ := @finalize_fidelity
    [.mapping {}, .lineSeparator, .lineSeparator,
      .mapping { generatedLine := 2, generatedColumn := 4, sourceIndex := 1 }]
    ⟨rfl, ⟨by decide, by decide, by decide, by decide, by decide⟩, rfl,
      ⟨by decide, by decide, by decide, by decide, by decide⟩, trivial⟩
    Kernel.idle Kernel.idle_resumes 2 (by decide) { sort := true }
  obtain ⟨blob, hblob, hfits⟩ := hsome (by decide)
  obtain ⟨hforEach, ms, hparse, hms⟩ := hall blob hblob hfits
  exact ⟨blob, hblob, hforEach, ms, hparse, hms.trans (sorted_of_pairwise _ (by decide))⟩

end Soup.SourceMap
