import Soup.Shell.Pieces

/-!
# Expansion without nesting

Where no group lies inside of another, the table has the variants of the groups in order, and each
open brace has where its variants are (`buildExpansionTable_tokens`). `expand_flat` then writes the
results: what follows a group is expanded behind each of its variants (`expandFlat_writes`).
-/

namespace Soup.Shell

open Soup.Lib List Nat Token

/-! ## The table -/

/-- The number of variants. -/
def Variants.count : Variants → ℕ
  | .last _ => 1
  | .cons _ rest => rest.count + 1

/-- The variants of a group that begin at a token. -/
def Variants.entries : ℕ → Variants → List ExpansionVariant
  | start, .last p => [{ start, stop := start + p.tokens.length }]
  | start, .cons p rest =>
    { start, stop := start + p.tokens.length } :: rest.entries (start + p.tokens.length + 1)

/-- The table for a row that begins at a token. -/
def Pieces.entries : ℕ → Pieces → List ExpansionVariant
  | _, .nil => []
  | start, .text _ rest => rest.entries (start + 1)
  | start, .group variants rest =>
    variants.entries (start + 1) ++ rest.entries (start + variants.tokens.length + 2)

/-- The tokens of a row when the table has `idx` entries before it. -/
def Pieces.indexed : ℕ → Pieces → List Token
  | _, .nil => []
  | idx, .text txt rest => .text txt :: rest.indexed idx
  | idx, .group variants rest =>
    .opening { idx, stop := idx + variants.count } ::
      variants.tokens ++ Token.closing :: rest.indexed (idx + variants.count)

theorem Variants.length_entries : ∀ (start : ℕ) (v : Variants), (v.entries start).length = v.count
  | _, .last _ => rfl
  | start, .cons p rest => by
    rw [entries, count, length_cons, length_entries]

/-- The last variant ends at the brace that closes the group. -/
theorem Variants.index_entries : ∀ (start : ℕ) (v : Variants), ∃ last,
    index (v.entries start) (v.count - 1) = .ok last ∧ last.stop = start + v.tokens.length
  | start, .last p => ⟨_, rfl, rfl⟩
  | start, .cons p rest => by
    obtain ⟨last, hlast, hstop⟩ := rest.index_entries (start + p.tokens.length + 1)
    refine ⟨last, ?_, ?_⟩
    · rw [entries, count, Nat.add_sub_cancel, ← hlast, index, index]
      cases rest <;> rfl
    · rw [hstop, tokens, length_append, length_cons]
      omega

theorem Pieces.length_indexed : ∀ (idx : ℕ) (p : Pieces),
    (p.indexed idx).length = p.tokens.length
  | _, .nil => rfl
  | idx, .text txt rest => congrArg (· + 1) (rest.length_indexed idx)
  | idx, .group variants rest => by
    simp [indexed, tokens, rest.length_indexed]

theorem Variants.count_le (v : Variants) : v.count ≤ v.tokens.length + 1 := by
  cases v with
  | last p =>
    rw [count]
    exact le_add_left 1 _
  | cons p rest =>
    have := rest.count_le
    rw [count, tokens, length_append, length_cons]
    omega

/-! ## Rows of texts -/

/-- A row without groups is its text. -/
def Pieces.plain : Pieces → Bytes
  | .nil => []
  | .text txt rest => txt ++ rest.plain
  | .group _ rest => rest.plain

theorem Pieces.expand_plain : ∀ p : Pieces, p.nested 1 = false → p.expand = [p.plain]
  | .nil, _ => rfl
  | .text txt rest, h => by
    rw [expand, expand_plain rest h, plain, singleton_cross_singleton]
  | .group variants rest, h => by
    simp [nested] at h

theorem Pieces.nested_group {depth : ℕ} {variants : Variants} {rest : Pieces}
    (h : (Pieces.group variants rest).nested depth = false) :
    depth = 0 ∧ variants.nested 1 = false ∧ rest.nested 0 = false := by
  rw [nested, Bool.or_eq_false_iff, Bool.or_eq_false_iff, decide_eq_false_iff_not] at h
  obtain ⟨⟨hdepth, hvariants⟩, hrest⟩ := h
  obtain rfl : depth = 0 := by omega
  exact ⟨rfl, hvariants, hrest⟩

/-! ## Building the table -/

section Table

variable (table : List ExpansionVariant) (stack : List BraceState)

theorem foldlM_range'_succ {start n : ℕ} {self : Table} :
    (range' start (n + 1)).foldlM Table.step self =
      self.step start >>= (range' (start + 1) n).foldlM Table.step := by
  rw [range'_succ, foldlM_cons]

theorem foldlM_range'_add {start m n : ℕ} {self : Table} :
    (range' start (m + n)).foldlM Table.step self =
      (range' start m).foldlM Table.step self >>=
        (range' (start + m) n).foldlM Table.step := by
  rw [← range'_append_1, foldlM_append]

/-- Texts do not change the table. -/
theorem Pieces.table_plain : ∀ (p : Pieces) (pre post : List Token) {i : ℕ}, i = pre.length →
    p.nested 1 = false →
    (range' i p.tokens.length).foldlM Table.step ⟨pre ++ (p.tokens ++ post), table, stack⟩ =
      .ok ⟨pre ++ (p.tokens ++ post), table, stack⟩
  | .nil, pre, post, _, _, _ => rfl
  | .text txt rest, pre, post, i, hi, h => by
    have hstep : Table.step ⟨pre ++ Token.text txt :: (rest.tokens ++ post), table, stack⟩ i =
        .ok ⟨pre ++ Token.text txt :: (rest.tokens ++ post), table, stack⟩ := by
      rw [Table.step, hi, index_append]
      rfl
    have hrest := rest.table_plain (pre ++ [Token.text txt]) post (i := i + 1) (by simp [hi]) h
    rw [List.append_assoc] at hrest
    rw [tokens, length_cons, foldlM_range'_succ, cons_append, hstep]
    exact hrest
  | .group variants rest, _, _, _, _, h => by
    obtain ⟨h, -⟩ := Pieces.nested_group h
    cases h

theorem Table.step_closing (pre between post : List Token) (opened : ExpansionVariants)
    (prevTokEnd : ℕ) {i : ℕ} (hi : i = pre.length + between.length + 1)
    (hlen : table.length + 1 < 2 ^ 16) :
    Table.step ⟨pre ++ Token.opening opened :: (between ++ Token.closing :: post), table,
        [⟨pre.length, prevTokEnd⟩]⟩ i =
      .ok ⟨pre ++ opening { opened with stop := table.length + 1 } ::
          (between ++ Token.closing :: post),
        table ++ [⟨prevTokEnd + 1, i⟩], []⟩ := by
  have hindex : index (pre ++ Token.opening opened :: (between ++ Token.closing :: post)) i =
      .ok .closing := by
    have h := index_append (pre ++ Token.opening opened :: between) post Token.closing
    rw [append_assoc, cons_append, length_append, length_cons, ← add_assoc, ← hi] at h
    exact h
  rw [Table.step, hindex]
  show (index (pre ++ Token.opening opened :: (between ++ Token.closing :: post)) pre.length >>=
    _) = _
  rw [index_append]
  rw [length_append, length_singleton, u16_eq hlen]
  show Except.ok (Table.mk ((pre ++ _ :: _).set pre.length _) _ _) = _
  rw [set_append]

theorem Table.step_comma (pre post : List Token) (top : BraceState) {i : ℕ} (hi : i = pre.length) :
    Table.step ⟨pre ++ comma :: post, table, [top]⟩ i =
      .ok ⟨pre ++ comma :: post, table ++ [⟨top.prevTokEnd + 1, i⟩],
        [{ top with prevTokEnd := i }]⟩ := by
  rw [Table.step, hi, index_append]
  rfl

theorem Table.step_opening (pre post : List Token) (opened : ExpansionVariants)
    (hlen : table.length < 2 ^ 16) :
    Table.step ⟨pre ++ opening opened :: post, table, []⟩ pre.length =
      .ok ⟨pre ++ opening { opened with idx := table.length } :: post, table,
        [⟨pre.length, pre.length⟩]⟩ := by
  rw [Table.step, index_append]
  rw [u16_eq hlen]
  show Except.ok (Table.mk ((pre ++ _ :: _).set pre.length _) _ _) = _
  rw [set_append]

end Table

/-- The variants of a group from one on, up to the brace that closes the group. -/
theorem Variants.table_spec : ∀ (v : Variants) (table : List ExpansionVariant)
    (pre between post : List Token) (opened : ExpansionVariants) (prevTokEnd : ℕ),
    prevTokEnd = pre.length + between.length → v.nested 1 = false →
    table.length + v.count < 2 ^ 16 →
    (range' (prevTokEnd + 1) (v.tokens.length + 1)).foldlM Table.step
        ⟨pre ++ Token.opening opened :: (between ++ (v.tokens ++ Token.closing :: post)), table,
          [⟨pre.length, prevTokEnd⟩]⟩ =
      .ok ⟨pre ++ opening { opened with stop := table.length + v.count } ::
          (between ++ (v.tokens ++ Token.closing :: post)),
        table ++ v.entries (prevTokEnd + 1), []⟩
  | .last p, table, pre, between, post, opened, prevTokEnd, hi, h, hlen => by
    have hplain := p.table_plain table [⟨pre.length, prevTokEnd⟩]
      (pre ++ opening opened :: between) (.closing :: post) (i := prevTokEnd + 1)
      (by simp only [length_append, length_cons]; omega) h
    have hclosing := Table.step_closing table pre (between ++ p.tokens) post opened prevTokEnd
      (i := prevTokEnd + 1 + p.tokens.length) (by rw [length_append]; omega) hlen
    rw [append_assoc, cons_append] at hplain
    rw [append_assoc] at hclosing
    rw [tokens, foldlM_range'_add, hplain]
    show (range' _ (0 + 1)).foldlM Table.step _ = _
    rw [foldlM_range'_succ, hclosing]
    rfl
  | .cons p v, table, pre, between, post, opened, prevTokEnd, hi, h, hlen => by
    rw [nested, Bool.or_eq_false_iff] at h
    have hplain := p.table_plain table [⟨pre.length, prevTokEnd⟩]
      (pre ++ Token.opening opened :: between) (.comma :: (v.tokens ++ Token.closing :: post))
      (i := prevTokEnd + 1) (by simp only [length_append, length_cons]; omega) h.1
    have hcomma := Table.step_comma table (pre ++ opening opened :: (between ++ p.tokens))
      (v.tokens ++ Token.closing :: post) ⟨pre.length, prevTokEnd⟩
        (i := prevTokEnd + 1 + p.tokens.length)
      (by simp only [length_append, length_cons]; omega)
    have hv := v.table_spec
      (table ++ [⟨prevTokEnd + 1, prevTokEnd + 1 + p.tokens.length⟩]) pre
      (between ++ (p.tokens ++ [comma])) post opened (prevTokEnd + 1 + p.tokens.length)
      (by simp only [length_append, length_singleton]; omega) h.2
      (by rw [length_append, length_singleton]; rw [count] at hlen; omega)
    rw [tokens, length_append, length_cons, add_assoc, foldlM_range'_add]
    simp only [append_assoc, cons_append, nil_append] at hplain hcomma hv ⊢
    rw [hplain]
    show (range' _ (v.tokens.length + 1 + 1)).foldlM Table.step _ = _
    rw [foldlM_range'_succ, hcomma]
    refine hv.trans ?_
    rw [length_append, length_singleton, count, entries, add_assoc, add_comm 1]

/-- The table of a row. -/
theorem Pieces.table_spec : ∀ (p : Pieces) (table : List ExpansionVariant) (pre post : List Token),
    p.nested 0 = false → table.length ≤ pre.length → (pre ++ p.tokens).length < 2 ^ 16 →
    (range' pre.length p.tokens.length).foldlM Table.step
        ⟨pre ++ (p.tokens ++ post), table, []⟩ =
      .ok ⟨pre ++ (p.indexed table.length ++ post), table ++ p.entries pre.length, []⟩
  | .nil, table, pre, post, _, _, _ => by
    rw [tokens, indexed, entries, append_nil]
    rfl
  | .text txt rest, table, pre, post, h, htable, hlen => by
    have hstep : Table.step ⟨pre ++ Token.text txt :: (rest.tokens ++ post), table, []⟩ pre.length =
        .ok ⟨pre ++ Token.text txt :: (rest.tokens ++ post), table, []⟩ := by
      rw [Table.step, index_append]
      rfl
    have hrest := rest.table_spec table (pre ++ [Token.text txt]) post h
      (by rw [length_append]; omega)
      (by rw [tokens] at hlen; simp only [length_append, length_cons,
        length_nil] at hlen ⊢; omega)
    rw [length_append, length_singleton, List.append_assoc, List.append_assoc] at hrest
    rw [tokens, length_cons, foldlM_range'_succ, cons_append, hstep]
    exact hrest
  | .group variants rest, table, pre, post, h, htable, hlen => by
    obtain ⟨-, hvariants, hrest⟩ := Pieces.nested_group h
    have hcount := variants.count_le
    simp only [tokens, length_append, length_cons, cons_append] at hlen
    have hopening := Table.step_opening table pre
      (variants.tokens ++ Token.closing :: (rest.tokens ++ post)) {} (by omega)
    have hv := variants.table_spec table pre [] (rest.tokens ++ post) { idx := table.length }
      pre.length (by simp) hvariants (by omega)
    have hr := rest.table_spec (table ++ variants.entries (pre.length + 1))
      (pre ++ opening { idx := table.length, stop := table.length + variants.count } ::
        (variants.tokens ++ [Token.closing])) post hrest
      (by simp only [length_append, length_cons, Variants.length_entries]; omega)
      (by simp only [length_append, length_cons, length_nil]; omega)
    have hlength : (Pieces.group variants rest).tokens.length =
        (variants.tokens.length + 1) + rest.tokens.length + 1 := by
      simp only [tokens, length_append, length_cons, cons_append]
      omega
    have hstart : (pre ++ opening { idx := table.length, stop := table.length +
        variants.count } :: (variants.tokens ++ [Token.closing])).length =
          pre.length + 1 + (variants.tokens.length + 1) := by
      simp only [length_append, length_cons, length_nil]
      omega
    rw [hlength, foldlM_range'_succ, tokens]
    simp only [hstart, List.append_assoc, cons_append, nil_append, length_append,
      Variants.length_entries] at hopening hv hr ⊢
    rw [hopening]
    show (range' _ (variants.tokens.length + 1 + rest.tokens.length)).foldlM _ _ = _
    rw [foldlM_range'_add, hv]
    refine hr.trans ?_
    rw [indexed, entries]
    simp only [List.append_assoc, cons_append]
    rw [show pre.length + 1 + (variants.tokens.length + 1) =
      pre.length + variants.tokens.length + 2 by omega]

variable {p : Pieces}

theorem buildExpansionTable_tokens (h : p.nested 0 = false)
    (hlen : (p.tokens ++ [eof]).length < 2 ^ 16) :
    buildExpansionTable (p.tokens ++ [eof]) = .ok (p.indexed 0 ++ [eof], p.entries 0) := by
  have hle : ¬(p.tokens ++ [eof]).length > 2 ^ 16 - 1 := by omega
  have hspec := p.table_spec [] [] [.eof] h le_rfl (by
    rw [length_append] at hlen
    rw [nil_append]
    omega)
  have heof : Table.step ⟨p.indexed 0 ++ [eof], p.entries 0, []⟩ p.tokens.length =
      .ok ⟨p.indexed 0 ++ [eof], p.entries 0, []⟩ := by
    rw [Table.step, ← p.length_indexed 0, index_append]
    rfl
  rw [buildExpansionTable, if_neg hle, range_eq_range', length_append,
    length_singleton, foldlM_range'_add]
  rw [nil_append, nil_append, length_nil] at hspec
  rw [hspec]
  show ((range' (0 + p.tokens.length) (0 + 1)).foldlM Table.step _ >>= _) = _
  rw [foldlM_range'_succ, zero_add, nil_append, length_nil, heof]
  rfl

/-! ## Writing the results -/

section Write

variable {recurse : Buffers → ℕ → ℕ → ℕ → ℕ → Except Stop Buffers}
  {expansionTable : List ExpansionVariant}

variable {pre : List Bytes}

theorem flatAtoms_text {outKey stop depth n : ℕ} {atoms : List Token} {w txt : Bytes}
    (h : outKey = pre.length) :
    flatAtoms expansionTable recurse outKey stop depth (.text txt :: atoms)
        (filled (pre ++ [w]) n) =
      flatAtoms expansionTable recurse outKey stop depth atoms (filled (pre ++ [w ++ txt]) n) := by
  rw [flatAtoms, h, extend_filled]
  rfl

/-- A row without groups. -/
theorem Pieces.flatAtoms_plain {stop depth n : ℕ} : ∀ (p : Pieces) (w : Bytes),
    p.nested 1 = false →
    flatAtoms expansionTable recurse pre.length stop depth p.tokens (filled (pre ++ [w]) n) =
      .ok (filled (pre ++ [w ++ p.plain]) n)
  | .nil, w, _ => by
    rw [tokens, plain, append_nil]
    rfl
  | .text txt rest, w, h => by
    rw [tokens, flatAtoms_text rfl, rest.flatAtoms_plain (w ++ txt) h, plain, List.append_assoc]
  | .group variants rest, _, h => by
    obtain ⟨h, -⟩ := Pieces.nested_group h
    cases h

/-- The recursion writes the variants of a group that begin at a token. -/
def WritesVariants (recurse : Buffers → ℕ → ℕ → ℕ → ℕ → Except Stop Buffers) (depth : ℕ) :
    ℕ → Variants → Prop
  | start, .last p =>
    Writes (fun out key => recurse out key depth start (start + p.tokens.length)) p.expand
  | start, .cons p rest =>
    Writes (fun out key => recurse out key depth start (start + p.tokens.length)) p.expand ∧
      WritesVariants recurse depth (start + p.tokens.length + 1) rest

variable {depth skipOverIdx stop : ℕ} {rest : List Bytes}

/-- A variant and what follows the group. -/
theorem writes_variant {start stop' : ℕ} {results : List Bytes} (hone : results.length = 1)
    (hvariant : Writes (fun out key => recurse out key depth start stop') results)
    (hrest : Writes (fun out key => recurse out key depth skipOverIdx stop) rest)
    (pre : List Bytes) (w : Bytes) (n : ℕ) :
    (recurse (filled (pre ++ [w]) (rest.length - 1 + n)) pre.length depth start stop' >>=
        fun out => recurse out pre.length depth skipOverIdx stop) =
      .ok (filled (pre ++ after w (cross results rest)) n) := by
  obtain ⟨s, rfl⟩ := length_eq_one_iff.1 hone
  have h : recurse (filled (pre ++ [w]) (1 - 1 + (rest.length - 1 + n))) pre.length depth start
      stop' = _ := hvariant pre w (rest.length - 1 + n)
  rw [Nat.sub_self, zero_add] at h
  rw [h, after_singleton, ← after_after]
  exact hrest pre (w ++ s) n

variable {entries : List ExpansionVariant}

/-- One variant of the loop that gets a new key. -/
theorem flatVariants_fork {start i n : ℕ} {rs : List Bytes}
    {w r : Bytes} (hne : rest ≠ []) (h : p.nested 1 = false)
    (hp : Writes (fun out key => recurse out key depth start (start + p.tokens.length)) p.expand)
    (hrest : Writes (fun out key => recurse out key depth skipOverIdx stop) rest) :
    flatVariants recurse pre.length depth skipOverIdx stop w.length (i + 1)
        ({ start, stop := start + p.tokens.length } :: entries)
        (filled (pre ++ (w ++ r) :: rs) ((cross p.expand rest).length + n)) =
      flatVariants recurse pre.length depth skipOverIdx stop w.length (i + 2) entries
        (filled (pre ++ (w ++ r) :: (rs ++ after w (cross p.expand rest))) n) := by
  have hpos := length_pos_of_ne_nil hne
  have hplain := p.expand_plain h
  have hlength : (cross p.expand rest).length + n = rest.length - 1 + n + 1 := by
    rw [length_cross, hplain, length_singleton, one_mul]
    omega
  have hwrites := writes_variant (by rw [hplain]; rfl) hp hrest (pre ++ (w ++ r) :: rs) w n
  rw [flatVariants, if_neg (succ_ne_zero i), hlength, fork_filled]
  show (recurse _ _ _ _ _ >>= fun out => recurse out _ _ _ _ >>= _) = _
  rw [← bind_assoc, hwrites, append_assoc, cons_append]
  rfl

theorem Variants.flatVariants_succ (hrest : Writes (fun out key => recurse out key depth skipOverIdx
      stop) rest) (hne : rest ≠ []) (pre : List Bytes) (w r : Bytes) :
      ∀ (v : Variants) (start i : ℕ)
    (rs : List Bytes) (n : ℕ), v.nested 1 = false → WritesVariants recurse depth start v →
    flatVariants recurse pre.length depth skipOverIdx stop w.length (i + 1) (v.entries start)
        (filled (pre ++ (w ++ r) :: rs) ((cross v.expand rest).length + n)) =
      .ok (filled (pre ++ (w ++ r) :: (rs ++ after w (cross v.expand rest))) n)
  | .last p, start, i, rs, n, h, hv => by
    rw [entries, expand, flatVariants_fork hne h hv hrest]
    rfl
  | .cons p v, start, i, rs, n, h, hv => by
    rw [nested, Bool.or_eq_false_iff] at h
    rw [entries, expand, append_cross, length_append, add_assoc (cross p.expand rest).length,
      flatVariants_fork hne h.1 hv.1 hrest,
      v.flatVariants_succ hrest hne pre w r _ (i + 1) _ n h.2 hv.2, after_append,
      append_assoc]

/-- The first variant of the loop, which keeps the key. -/
theorem flatVariants_keep {start n : ℕ} {w : Bytes}
    (h : p.nested 1 = false)
    (hp : Writes (fun out key => recurse out key depth start (start + p.tokens.length)) p.expand)
    (hrest : Writes (fun out key => recurse out key depth skipOverIdx stop) rest) :
    flatVariants recurse pre.length depth skipOverIdx stop w.length 0
        ({ start, stop := start + p.tokens.length } :: entries)
        (filled (pre ++ [w]) ((cross p.expand rest).length - 1 + n)) =
      flatVariants recurse pre.length depth skipOverIdx stop w.length 1 entries
        (filled (pre ++ after w (cross p.expand rest)) n) := by
  have hplain := p.expand_plain h
  have hwrites := writes_variant (by rw [hplain]; rfl) hp hrest pre w n
  rw [length_cross, hplain, length_singleton, one_mul, ← hplain, flatVariants, if_pos rfl]
  show (recurse _ _ _ _ _ >>= fun out => recurse out _ _ _ _ >>= _) = _
  rw [← bind_assoc, hwrites]
  rfl

theorem Variants.flatVariants_zero (hrest : Writes (fun out key => recurse out key depth skipOverIdx
      stop) rest) (hne : rest ≠ []) (pre : List Bytes) (w : Bytes) (v : Variants) (start n : ℕ)
    (h : v.nested 1 = false) (hv : WritesVariants recurse depth start v) :
    flatVariants recurse pre.length depth skipOverIdx stop w.length 0 (v.entries start)
        (filled (pre ++ [w]) ((cross v.expand rest).length - 1 + n)) =
      .ok (filled (pre ++ after w (cross v.expand rest)) n) := by
  cases v with
  | last p =>
    rw [entries, expand, flatVariants_keep h hv hrest]
    rfl
  | cons p v =>
    rw [nested, Bool.or_eq_false_iff] at h
    obtain ⟨r, rs, hr⟩ := exists_cons_of_ne_nil (cross_ne_nil p.expand_ne_nil hne)
    have hlength : (cross p.expand rest ++ cross v.expand rest).length - 1 + n =
        (cross p.expand rest).length - 1 + ((cross v.expand rest).length + n) := by
      rw [length_append, hr, length_cons]
      omega
    rw [entries, expand, append_cross, hlength, flatVariants_keep h.1 hv.1 hrest, hr]
    show flatVariants _ _ _ _ _ _ (0 + 1) _ (filled (pre ++ (w ++ r) :: after w rs) _) = _
    rw [v.flatVariants_succ hrest hne pre w r _ 0 _ n h.2 hv.2, after_append]
    rfl

end Write

/-! ## The recursion -/

section ExpandFlat

variable {tokens : List Token} {table : List ExpansionVariant}

theorem expandFlat_slice {fuel outKey depth start stop : ℕ} {out : Buffers}
    {pre atoms post : List Token}
    (htokens : tokens = pre ++ (atoms ++ post)) (hstart : start = pre.length)
    (hstop : stop = start + atoms.length) (hne : atoms ++ post ≠ []) :
    expandFlat tokens table (fuel + 1) out outKey depth start stop =
      flatAtoms table (expandFlat tokens table fuel) outKey stop depth atoms out := by
  have hpos := length_pos_of_ne_nil hne
  rw [expandFlat, if_neg (by
    rw [htokens]
    simp only [length_append] at hpos ⊢
    omega)]
  rw [hstop, hstart, htokens, ← append_assoc, slice_append]
  rfl

variable (tokens) (table) in
/-- The variants of a group are rows without groups. -/
theorem Variants.writesVariants (fuel : ℕ) : ∀ (v : Variants) (pre post : List Token),
    tokens = pre ++ (v.tokens ++ Token.closing :: post) → v.nested 1 = false →
    WritesVariants (expandFlat tokens table (fuel + 1)) 1 pre.length v
  | .last p, pre, post, htokens, h => by
    intro buffers w n
    rw [Variants.tokens] at htokens
    show expandFlat _ _ _ _ _ _ _ _ = _
    rw [expandFlat_slice htokens rfl rfl (by simp), p.expand_plain h, length_singleton,
      Nat.sub_self, Nat.zero_add, p.flatAtoms_plain w h]
    rfl
  | .cons p v, pre, post, htokens, h => by
    rw [nested, Bool.or_eq_false_iff] at h
    rw [Variants.tokens, List.append_assoc, cons_append] at htokens
    refine ⟨fun buffers w n => ?_, ?_⟩
    · show expandFlat _ _ _ _ _ _ _ _ = _
      rw [expandFlat_slice htokens rfl rfl (by simp), p.expand_plain h.1, length_singleton,
        Nat.sub_self, Nat.zero_add, p.flatAtoms_plain w h.1]
      rfl
    · have hv := v.writesVariants fuel (pre ++ (p.tokens ++ [Token.comma])) post
        (by rw [htokens]; simp) h.2
      rwa [length_append, length_append, length_singleton, ← Nat.add_assoc] at hv

/-- A row writes its results: what follows a group is expanded behind each of its variants. -/
theorem Pieces.flatAtoms_writes : ∀ (p : Pieces) (fuel : ℕ) (pre : List Token)
    (before : List ExpansionVariant), p.tokens.length < fuel →
    tokens = pre ++ (p.indexed before.length ++ [Token.eof]) →
      table = before ++ p.entries pre.length →
    p.nested 0 = false →
    Writes (fun out key => flatAtoms table (expandFlat tokens table fuel) key tokens.length 0
      (p.indexed before.length ++ [Token.eof]) out) p.expand
  | .nil, fuel, pre, before, _, _, _, _ => by
    intro buffers w n
    rw [expand, length_singleton, Nat.sub_self, Nat.zero_add, after_singleton, append_nil]
    rfl
  | .text txt rest, fuel, pre, before, hfuel, htokens, htable, h => by
    have hrest := rest.flatAtoms_writes fuel (pre ++ [Token.text txt]) before
      (by rw [Pieces.tokens, length_cons] at hfuel; omega)
      (by rw [htokens, indexed]; simp)
      (by rw [htable, entries, length_append, length_singleton]) h
    intro buffers w n
    have hr : flatAtoms _ _ _ _ _ _ _ = _ := hrest buffers (w ++ txt) n
    show flatAtoms _ _ _ _ _ _ _ = _
    rw [indexed, cons_append, flatAtoms_text rfl, expand, length_cross, length_singleton,
      Nat.one_mul, hr, after_after]
  | .group variants rest, 0, _, _, hfuel, _, _, _ => absurd hfuel (Nat.not_lt_zero _)
  | .group variants rest, 1, _, _, hfuel, _, _, _ => by
    rw [Pieces.tokens, cons_append, length_cons] at hfuel
    omega
  | .group variants rest, fuel + 2, pre, before, hfuel, htokens, htable, h => by
    obtain ⟨-, hvariants, hnested⟩ := Pieces.nested_group h
    have hlength := Pieces.length_tokens_group variants rest
    let opened : ExpansionVariants := ⟨before.length, before.length + variants.count⟩
    have hindexed : (Pieces.group variants rest).indexed before.length ++ [Token.eof] =
        .opening opened :: (variants.tokens ++
          Token.closing :: (rest.indexed (before.length + variants.count) ++ [Token.eof])) := by
      rw [indexed]
      simp [opened]
    have hcount := variants.length_entries (pre.length + 1)
    rw [hindexed] at htokens ⊢
    have hclose : tokens = pre ++ Token.opening opened :: variants.tokens ++
        (Token.closing :: (rest.indexed (before.length + variants.count) ++ [Token.eof]) ++
          []) := by
      rw [htokens]
      simp
    -- What follows the group begins at the brace that closes it.
    have hrest : Writes (fun out key => expandFlat tokens table (fuel + 1 + 1) out key 1
        (pre.length + 1 + variants.tokens.length) tokens.length) rest.expand := by
      have hr := rest.flatAtoms_writes (fuel + 1) (pre ++ Token.opening opened ::
        (variants.tokens ++ [Token.closing])) (before ++ variants.entries (pre.length + 1))
        (by omega) (by rw [htokens, length_append, hcount]; simp)
        (by
          rw [htable, entries, List.append_assoc]
          simp only [length_append, length_cons, length_nil]
          rw [show pre.length + (variants.tokens.length + (0 + 1) + 1) =
            pre.length + variants.tokens.length + 2 by omega]) hnested
      intro buffers w n
      have h := hr buffers w n
      rw [length_append, hcount] at h
      show expandFlat _ _ _ _ _ _ _ _ = _
      rw [expandFlat_slice hclose (by simp; omega) (by rw [htokens]; simp; omega) (by simp)]
      exact h
    have hwrites := Variants.writesVariants tokens table (fuel + 1) variants
      (pre ++ [Token.opening opened]) (rest.indexed (before.length + variants.count) ++ [Token.eof])
      (by rw [htokens]; simp) hvariants
    rw [length_append, length_singleton] at hwrites
    obtain ⟨last, hlast, hstop⟩ := variants.index_entries (pre.length + 1)
    have hslice : slice table before.length (before.length + variants.count) =
        .ok (variants.entries (pre.length + 1)) := by
      have h := slice_append before (variants.entries (pre.length + 1))
        (rest.entries (pre.length + variants.tokens.length + 2))
      rw [entries] at htable
      rwa [hcount, List.append_assoc, ← htable] at h
    intro buffers w n
    show flatAtoms _ _ _ _ _ _ _ = _
    rw [flatAtoms]
    rw [hslice]
    show (index (variants.entries (pre.length + 1))
      ((variants.entries (pre.length + 1)).length - 1) >>= _) = _
    rw [hcount, hlast]
    rw [length_filled]
    show flatVariants _ _ _ last.stop _ _ _ _ _ = _
    rw [hstop]
    exact variants.flatVariants_zero hrest rest.expand_ne_nil buffers w (pre.length + 1) n hvariants
      hwrites

end ExpandFlat

/-- `expand_flat` over all the tokens fills the buffers. -/
theorem expandFlat_indexed (h : p.nested 0 = false) {fuel : ℕ} (hfuel : p.tokens.length < fuel) :
    expandFlat (p.indexed 0 ++ [eof]) (p.entries 0) (fuel + 1)
        { out := replicate p.expand.length [] } 0 0 0 (p.indexed 0 ++ [eof]).length =
      .ok { out := p.expand, outKeyCounter := p.expand.length } := by
  have hwrites : Writes (fun out key => flatAtoms (p.entries 0)
      (expandFlat (p.indexed 0 ++ [eof]) (p.entries 0) fuel) key (p.indexed 0 ++ [eof]).length
      0 (p.indexed 0 ++ [eof]) out) p.expand := p.flatAtoms_writes fuel [] [] hfuel rfl rfl h
  have htokens : p.indexed 0 ++ [eof] = [] ++ (p.indexed 0 ++ [eof] ++ []) := by simp
  rw [expandFlat_slice htokens length_nil.symm (zero_add _).symm (by simp),
    filled_of_ne_nil p.expand_ne_nil]
  exact (hwrites [] [] 0).trans (congrArg Except.ok filled_zero)

end Soup.Shell
