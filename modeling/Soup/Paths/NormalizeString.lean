import Soup.Paths.Back
import Soup.Paths.Resolve

/-!
# Normalization in a buffer

`normalize_string_generic_tz` of `resolve_path.rs` where the separator is `/`. What is before
`buf_i` in the buffer is what the loop on lists writes (`normalizeInto_eq`), and nothing is written
behind the length of the path, or of the path and the byte `0`. So the buffer gets the normalized
path (`normalizeStringGenericTz_normalized`), which is normalized (`normalized_normalized`).
-/

namespace Soup.Paths

open List Option Nat

/-- `is_dotdot_with_type`. -/
def isDotdotWithType (slice : Bytes) : Bool :=
  decide (slice[0]? = some dot) && decide (slice[1]? = some dot)

/-- The bytes are written at `buf_i`, which goes behind them. -/
def pushBytes (bytes : Bytes) (out : Output) : Option Output :=
  (copyAt out.1 out.2 bytes).map fun buf => (buf, out.2 + bytes.length)

/-- The loop that takes `buf_i` back to a separator, but not behind `dotdot`. -/
def backUp (buf : Bytes) (dotdot : ℕ) : ℕ → Option ℕ
  | 0 => some 0
  | i + 1 =>
    if dotdot < i + 1 then
      buf[i + 1]?.bind fun c => if isSepPosix c then some (i + 1) else backUp buf dotdot i
    else some (i + 1)

/-- A `..` element. -/
def parentInto (allowAboveRoot : Bool) (out : Output) (dotdot : ℕ) : Option (Output × ℕ) :=
  if dotdot < out.2 then (backUp out.1 dotdot (out.2 - 1)).map fun i => ((out.1, i), dotdot)
  else if allowAboveRoot then
    (pushBytes (if 0 < out.2 then [sepPosix, dot, dot] else [dot, dot]) out).map fun out =>
      (out, out.2)
  else some (out, dotdot)

/-- A separator goes before a real path element. -/
def slashInto (out : Output) : Option Output :=
  if 0 < out.2 ∧ ¬out.1[out.2 - 1]?.any isSepPosix then pushBytes [sepPosix] out else some out

/-- The loop of `normalize_string_generic_tz`. -/
def normalizeInto (allowAboveRoot : Bool) (path : Bytes) (out : Output) (dotdot : ℕ) :
    Option Output :=
  match path with
  | [] => some out
  | c :: rest =>
    if isSepPosix c then normalizeInto allowAboveRoot rest out dotdot
    else if c = dot ∧ endsElement rest then normalizeInto allowAboveRoot rest out dotdot
    else if isDotdotWithType (c :: rest) ∧ endsElement (rest.drop 1) then
      (parentInto allowAboveRoot out dotdot).bind fun (out, dotdot) =>
        normalizeInto allowAboveRoot (rest.drop 1) out dotdot
    else
      (slashInto out).bind fun out =>
        (pushBytes (c :: rest.takeWhile fun c => !isSepPosix c) out).bind fun out =>
          normalizeInto allowAboveRoot (rest.dropWhile fun c => !isSepPosix c) out dotdot
termination_by path.length
decreasing_by
  · exact lt_succ_self _
  · exact lt_succ_self _
  · exact lt_succ_of_le (length_drop ▸ sub_le _ _)
  · exact lt_succ_of_le (length_dropWhile_le _ _)

/-- `normalize_string_generic_tz` where the separator is `/`; `none` is a write out of range. -/
def normalizeStringGenericTz (allowAboveRoot preserveTrailingSlash zeroTerminate : Bool)
    (path buf : Bytes) : Option Output :=
  (normalizeInto allowAboveRoot path (buf, 0) 0).bind fun out =>
    (if preserveTrailingSlash = true ∧ 0 < out.2 ∧ path.getLast? = some sepPosix ∧
        out.1[out.2 - 1]? ≠ some sepPosix then pushBytes [sepPosix] out
      else some out).bind fun out =>
        if zeroTerminate then (copyAt out.1 out.2 [0]).map fun buf => (buf, out.2) else some out

/-! ## The buffer -/

/-- The buffer starts with what was written, and is as it was from `cap` on. -/
structure Holds (whole : Bytes) (cap : ℕ) (out : Output) (s : Bytes) : Prop
    extends Written whole.length out s where
  drop : out.1.drop cap = whole.drop cap

section Buffer

variable {whole s bytes : Bytes} {cap dotdot : ℕ} {out : Output}

theorem Holds.getLast? (h : Holds whole cap out s) (hne : s ≠ []) :
    out.1[out.2 - 1]? = s.getLast? := by
  have hpos : 0 < out.2 := h.outLen ▸ length_pos_of_ne_nil hne
  have hlen : (out.1.take out.2).length = out.2 := by rw [h.take, h.outLen]
  rw [← h.take, getLast?_eq_getElem?, hlen, getElem?_take, if_pos (sub_lt hpos one_pos)]

theorem drop_of_copyAt {buf buf' : Bytes} {i : ℕ} (h : copyAt buf i bytes = some buf')
    (hle : i + bytes.length ≤ cap) : buf'.drop cap = buf.drop cap := by
  rw [copyAt] at h
  split at h
  next hfits =>
    have hlen : (buf.take i ++ bytes).length = i + bytes.length := by
      rw [length_append, length_take, min_eq_left (le_trans (le_add_right _ _) hfits)]
    rw [← some.inj h, drop_append, hlen, drop_drop, drop_of_length_le (hlen.trans_le hle),
      nil_append, Nat.add_sub_cancel' hle]
  next => cases h

variable (bytes) in
theorem Holds.push (h : Holds whole cap out s) (hcap : cap ≤ whole.length)
    (hle : s.length + bytes.length ≤ cap) :
    ∃ out', pushBytes bytes out = some out' ∧ Holds whole cap out' (s ++ bytes) := by
  obtain ⟨buf, hcopy, hwritten⟩ := h.toWritten.copyAt bytes (hle.trans hcap)
  refine ⟨(buf, out.2 + bytes.length), by rw [pushBytes, hcopy, map_some], hwritten, ?_⟩
  rw [← h.drop]
  exact drop_of_copyAt hcopy (h.outLen ▸ hle)

theorem backUp_barrier (buf : Bytes) (dotdot : ℕ) : backUp buf dotdot dotdot = some dotdot := by
  cases dotdot with
  | zero => rfl
  | succ dotdot => rw [backUp, if_neg (lt_irrefl _)]

/-- `buf_i` goes back to the separator before the last element. -/
theorem backUp_eq {buf before names : Bytes} (hbuf : before ++ names <+: buf) (j : ℕ)
    (hj : j < names.length) : backUp buf before.length (before.length + j) =
      some (before.length +
        ((names.take (j + 1)).rdropWhile fun c => !isSepPosix c).dropLast.length) := by
  induction j with
  | zero =>
    have hle : ((names.take 1).rdropWhile fun c => !isSepPosix c).length ≤ 1 :=
      le_trans (IsPrefix.length_le <| rdropWhile_prefix _ _) (length_take_le 1 names)
    rw [add_zero, backUp_barrier, length_dropLast, Nat.sub_eq_zero_of_le hle, add_zero]
  | succ j ih =>
    have hget : buf[before.length + (j + 1)]? = some names[j + 1] := by
      obtain ⟨rest, rfl⟩ := hbuf
      rw [append_assoc, getElem?_append_right (Nat.le_add_right _ _), Nat.add_sub_cancel_left,
        getElem?_append_left hj, getElem?_eq_getElem hj]
    have htake : names.take (j + 1 + 1) = names.take (j + 1) ++ [names[j + 1]] :=
      take_succ_eq_append_getElem hj
    rw [← add_assoc] at hget ⊢
    rw [backUp, if_pos (by omega), hget, bind_some, htake]
    rcases hsep : isSepPosix names[j + 1] with _ | _
    · rw [if_neg Bool.false_ne_true, ih (lt_of_succ_lt hj),
        rdropWhile_concat_pos _ _ _ (by rw [hsep]; rfl)]
    · rw [if_pos rfl, rdropWhile_concat_neg _ _ _ (by rw [hsep]; decide), dropLast_concat,
        length_take, min_eq_left (le_of_lt hj), add_assoc]

/-- What stays in the buffer. -/
theorem Holds.shorten {s' : Bytes} (h : Holds whole cap out s) (hpre : s' <+: s) :
    Holds whole cap (out.1, s'.length) s' where
  take := by
    have hbuf : s <+: out.1 := h.take ▸ take_prefix _ _
    exact (prefix_iff_eq_take.1 (hpre.trans hbuf)).symm
  outLen := rfl
  length := h.length
  drop := h.drop

theorem removeLastElement_isPrefix (s : Bytes) (dotdot : ℕ) : removeLastElement s dotdot <+: s := by
  have hlast := dropLast_prefix ((s.drop dotdot).rdropWhile fun c => !isSepPosix c)
  have hpre := hlast.trans <| rdropWhile_prefix (fun c => !isSepPosix c) (s.drop dotdot)
  have h := (prefix_append_right_inj (s.take dotdot)).2 hpre
  rwa [take_append_drop] at h

theorem Holds.parent (allowAboveRoot : Bool) (dotdot : ℕ) (h : Holds whole cap out s)
    (hcap : cap ≤ whole.length) (hle : (if s = [] then 2 else s.length + 3) ≤ cap) :
    ∃ out', parentInto allowAboveRoot out dotdot =
      some (out', (parentElement allowAboveRoot s dotdot).2) ∧
      Holds whole cap out' (parentElement allowAboveRoot s dotdot).1 := by
  have hlen := h.outLen
  rw [parentInto, parentElement, hlen]
  split
  next hlt =>
    have hbuf : s.take dotdot ++ s.drop dotdot <+: out.1 := by
      rw [take_append_drop, ← h.take]
      exact take_prefix _ _
    have hd : (s.take dotdot).length = dotdot := by rw [length_take, min_eq_left hlt.le]
    have hback := backUp_eq hbuf (s.length - 1 - dotdot) (by rw [length_drop]; omega)
    have hall : (s.drop dotdot).take (s.length - 1 - dotdot + 1) = s.drop dotdot :=
      take_of_length_le (by rw [length_drop]; omega)
    rw [hall, hd, Nat.add_sub_cancel' (Nat.le_sub_one_of_lt hlt)] at hback
    have hremove : (removeLastElement s dotdot).length =
        dotdot + ((s.drop dotdot).rdropWhile fun c => !isSepPosix c).dropLast.length := by
      rw [removeLastElement, length_append, hd]
    rw [hback, ← hremove]
    exact ⟨_, rfl, h.shorten (removeLastElement_isPrefix s dotdot)⟩
  next =>
    cases allowAboveRoot with
    | false => exact ⟨out, rfl, h⟩
    | true =>
      by_cases hs : s = []
      · rw [if_pos hs] at hle
        obtain ⟨out', hpush, hout⟩ := h.push [dot, dot] hcap (by rw [hs]; exact hle)
        have hempty : ¬0 < s.length := by rw [hs]; exact lt_irrefl 0
        rw [if_pos rfl, if_pos rfl, if_neg hempty, hpush, if_neg (not_not.2 hs)]
        rw [hs, nil_append] at hout
        exact ⟨out', congrArg (fun n => some (out', n)) hout.outLen, hout⟩
      · rw [if_neg hs] at hle
        obtain ⟨out', hpush, hout⟩ := h.push [sepPosix, dot, dot] hcap hle
        rw [if_pos rfl, if_pos rfl, if_pos (length_pos_of_ne_nil hs), hpush, if_pos hs]
        exact ⟨out', congrArg (fun n => some (out', n)) hout.outLen, hout⟩

theorem Holds.slash (h : Holds whole cap out s) (hcap : cap ≤ whole.length)
    (hle : s ≠ [] → s.length + 1 ≤ cap) :
    ∃ out', slashInto out = some out' ∧ Holds whole cap out' (addSlash s) := by
  rw [slashInto, addSlash, h.outLen]
  by_cases hs : s = []
  · rw [if_neg fun hpos => by rw [hs] at hpos; exact lt_irrefl 0 hpos.1, if_neg fun hne => hne.1 hs]
    exact ⟨out, rfl, h⟩
  · rw [← h.outLen, h.getLast? hs, h.outLen]
    by_cases hsep : s.getLast?.any isSepPosix = true
    · rw [if_neg fun hpos => hpos.2 hsep, if_neg fun hne => hne.2 hsep]
      exact ⟨out, rfl, h⟩
    · rw [if_pos ⟨length_pos_of_ne_nil hs, hsep⟩, if_pos ⟨hs, hsep⟩]
      exact h.push [sepPosix] hcap (hle hs)

end Buffer

/-! ## An element -/

section Element

variable {c : UInt8} {tail rest : Bytes}

theorem isDot_iff (hname : IsElement (c :: tail)) (hrest : endsElement rest = true) :
    c = dot ∧ endsElement (tail ++ rest) = true ↔ c :: tail = [dot] := by
  rcases eq_or_ne tail [] with rfl | hne
  · exact ⟨fun h => by rw [h.1], fun h => ⟨(cons.inj h).1, hrest⟩⟩
  · rw [endsElement_append hne fun hmem => hname.no_sep (mem_cons_of_mem _ hmem)]
    exact iff_of_false (fun h => Bool.false_ne_true h.2) fun h => hne (cons.inj h).2

theorem isDotdot_iff (hname : IsElement (c :: tail)) (hrest : endsElement rest = true) :
    isDotdotWithType (c :: (tail ++ rest)) = true ∧ endsElement ((tail ++ rest).drop 1) = true ↔
      c :: tail = [dot, dot] := by
  rw [isDotdotWithType, Bool.and_eq_true, decide_eq_true_iff, decide_eq_true_iff,
    getElem?_cons_zero, getElem?_cons_succ, some.injEq]
  cases tail with
  | nil =>
    refine iff_of_false (fun h => ?_) fun h => by cases (cons.inj h).2
    have hdot := endsElement_iff.1 hrest dot (by rw [head?_eq_getElem?]; exact h.1.2)
    exact absurd hdot (by decide)
  | cons d tail =>
    have hsep : sepPosix ∉ tail := fun hmem =>
      hname.no_sep (mem_cons_of_mem _ (mem_cons_of_mem _ hmem))
    rw [cons_append, getElem?_cons_zero, some.injEq, drop_succ_cons, drop_zero]
    rcases eq_or_ne tail [] with rfl | hne
    · refine ⟨fun h => by rw [h.1.1, h.1.2], fun h => ?_⟩
      obtain ⟨hc, htail⟩ := cons.inj h
      exact ⟨⟨hc, (cons.inj htail).1⟩, hrest⟩
    · rw [endsElement_append hne hsep]
      exact iff_of_false (fun h => Bool.false_ne_true h.2) fun h => hne (cons.inj (cons.inj h).2).2

theorem takeWhile_element (hname : sepPosix ∉ tail) (hrest : endsElement rest = true) :
    (tail ++ rest).takeWhile (fun c => !isSepPosix c) = tail ∧
      (tail ++ rest).dropWhile (fun c => !isSepPosix c) = rest := by
  have hall : ∀ c ∈ tail, (!isSepPosix c) = true := fun c hc => by
    rw [isSepPosix_eq_false fun heq => hname (heq ▸ hc)]
    rfl
  rw [takeWhile_append_of_pos hall, dropWhile_append_of_pos hall]
  cases rest with
  | nil => exact ⟨append_nil _, rfl⟩
  | cons d rest =>
    have hd : ¬(!isSepPosix d) = true := by
      rw [show isSepPosix d = true from hrest]
      exact Bool.false_ne_true
    rw [takeWhile_cons_of_neg (p := fun c => !isSepPosix c) hd,
      dropWhile_cons_of_neg (p := fun c => !isSepPosix c) hd, append_nil]
    exact ⟨rfl, rfl⟩

end Element

/-! ## The loop -/

/-- What is written of `before` leaves place for the separator of the next element. -/
structure Fits (before rest s : Bytes) : Prop where
  le : s.length ≤ before.length
  lt : before.getLast?.all isSepPosix = true → s = [] ∨ s.length < before.length
  boundary : endsElement rest = false → before.getLast?.all isSepPosix = true

section Loop

variable {allowAboveRoot : Bool} {whole s before rest name : Bytes} {cap dotdot : ℕ} {out : Output}

theorem Fits.sep (h : Fits before (sepPosix :: rest) s) : Fits (before ++ [sepPosix]) rest s where
  le := by
    rw [length_append]
    exact h.le.trans (le_add_right _ _)
  lt := fun _ => by
    rw [length_append]
    exact .inr (lt_succ_of_le h.le)
  boundary := fun _ => by
    rw [getLast?_concat]
    rfl

/-- An element does not end with a separator. -/
theorem getLast?_element (before : Bytes) (hname : IsElement name) :
    (before ++ name).getLast?.all isSepPosix = false := by
  obtain ⟨front, c, rfl⟩ := (eq_nil_or_concat' name).resolve_left hname.ne_nil
  rw [← append_assoc, getLast?_concat]
  exact isSepPosix_eq_false fun hc => hname.no_sep (hc ▸ mem_append_right _ mem_cons_self)

/-- An element that ends, with what it leaves. -/
theorem fits_element {s' : Bytes} (hname : IsElement name) (hrest : endsElement rest = true)
    (hle : s'.length ≤ (before ++ name).length) : Fits (before ++ name) rest s' where
  le := hle
  lt := fun h => absurd ((getLast?_element before hname).symm.trans h) Bool.false_ne_true
  boundary := fun h => absurd (h.symm.trans hrest) Bool.false_ne_true

theorem Fits.room (h : Fits before (name ++ rest) s) (hname : IsElement name) :
    s = [] ∨ s.length < before.length :=
  h.lt (h.boundary (endsElement_append hname.ne_nil hname.no_sep))

theorem length_parentElement : (parentElement allowAboveRoot s dotdot).1.length ≤
    if s = [] then 2 else s.length + 3 := by
  rw [parentElement]
  split
  next hlt =>
    have hs : s ≠ [] := ne_nil_of_length_pos (zero_lt_of_lt hlt)
    rw [if_neg hs]
    exact (removeLastElement_isPrefix s dotdot).length_le.trans (le_add_right _ _)
  next =>
    by_cases hs : s = []
    · rw [if_pos hs, hs]
      cases allowAboveRoot <;> simp
    · rw [if_neg hs]
      cases allowAboveRoot <;> simp [hs]

theorem length_addSlash : (addSlash s).length ≤ if s = [] then 0 else s.length + 1 := by
  rw [addSlash]
  split
  next h => rw [if_neg h.1, length_append, length_singleton]
  next =>
    split
    next hs => rw [hs, length_nil]
    next => exact le_succ _

/-- An element, in the buffer and on lists. -/
theorem normalizeInto_element (allowAboveRoot : Bool) (dotdot : ℕ) (h : Holds whole cap out s)
    (hfits : Fits before (name ++ rest) s)
    (hname : IsElement name) (hrest : endsElement rest = true) (hcap : cap ≤ whole.length)
    (hle : before.length + name.length ≤ cap) : ∃ out' s' dotdot', Holds whole cap out' s' ∧
      Fits (before ++ name) rest s' ∧
      normalizeInto allowAboveRoot (name ++ rest) out dotdot =
        normalizeInto allowAboveRoot rest out' dotdot' ∧
      normalizeLoop allowAboveRoot (name ++ rest) false s dotdot =
        normalizeLoop allowAboveRoot rest false s' dotdot' := by
  have hroom := hfits.room hname
  obtain ⟨c, tail, rfl⟩ := exists_cons_of_ne_nil hname.ne_nil
  have hc : isSepPosix c = false := isSepPosix_eq_false fun hc => hname.no_sep (hc ▸ mem_cons_self)
  have htail : sepPosix ∉ tail := fun hmem => hname.no_sep (mem_cons_of_mem _ hmem)
  rw [cons_append, normalizeInto, hc, if_neg Bool.false_ne_true]
  by_cases hdot : c :: tail = [dot]
  · refine ⟨out, s, dotdot, h, fits_element hname hrest ?_, ?_, ?_⟩
    · rw [length_append]
      exact hfits.le.trans (le_add_right _ _)
    · rw [if_pos ((isDot_iff hname hrest).2 hdot), (cons.inj hdot).2, nil_append]
    · rw [← cons_append, hdot, normalizeLoop_dot hrest]
  rw [if_neg fun hcond => hdot ((isDot_iff hname hrest).1 hcond)]
  by_cases hdots : c :: tail = [dot, dot]
  · have hbound : (if s = [] then 2 else s.length + 3) ≤ before.length + (c :: tail).length := by
      rw [hdots]
      split
      next => exact le_add_left _ _
      next hs => exact Nat.add_le_add_right (hroom.resolve_left hs) 2
    obtain ⟨out', hparent, hout⟩ := h.parent allowAboveRoot dotdot hcap (hbound.trans hle)
    refine ⟨out', _, (parentElement allowAboveRoot s dotdot).2, hout, fits_element hname hrest ?_,
      ?_, ?_⟩
    · rw [length_append]
      exact length_parentElement.trans hbound
    · rw [if_pos ((isDotdot_iff hname hrest).2 hdots), hparent, bind_some, (cons.inj hdots).2]
      rfl
    · rw [← cons_append, hdots, normalizeLoop_dots hrest]
  · have hbound :
        (addSlash s).length + (c :: tail).length ≤ before.length + (c :: tail).length := by
      refine Nat.add_le_add_right (length_addSlash.trans ?_) _
      split
      next => exact zero_le _
      next hs => exact hroom.resolve_left hs
    obtain ⟨out₁, hslash, hout₁⟩ := h.slash hcap fun hs =>
      (succ_le_of_lt (hroom.resolve_left hs)).trans ((le_add_right _ _).trans hle)
    obtain ⟨out₂, hpush, hout₂⟩ := hout₁.push (c :: tail) hcap (hbound.trans hle)
    refine ⟨out₂, addSlash s ++ c :: tail, dotdot, hout₂, fits_element hname hrest ?_, ?_, ?_⟩
    · rw [length_append, length_append]
      exact hbound
    · obtain ⟨htake, hdrop⟩ := takeWhile_element htail hrest
      rw [if_neg fun hcond => hdots ((isDotdot_iff hname hrest).1 hcond), hslash, bind_some, htake,
        hdrop, hpush, bind_some]
    · rw [← cons_append, normalizeLoop_name ⟨hname.ne_nil, hname.no_sep, hdot, hdots⟩ hrest]

variable (allowAboveRoot) in
/-- The loop writes to the buffer what the loop on lists writes, and no more than the path has. -/
theorem normalizeInto_eq (n : ℕ) (hlen : rest.length = n) (h : Holds whole cap out s)
    (hfits : Fits before rest s)
    (hcap : cap ≤ whole.length) (hle : before.length + rest.length ≤ cap) :
    ∃ out', normalizeInto allowAboveRoot rest out dotdot = some out' ∧
      Holds whole cap out' (normalizeLoop allowAboveRoot rest false s dotdot) ∧
      Fits (before ++ rest) [] (normalizeLoop allowAboveRoot rest false s dotdot) := by
  induction n using Nat.strong_induction_on generalizing rest before out s dotdot with
  | _ n ih =>
    rcases path_cases rest with rfl | ⟨rest, rfl⟩ | ⟨name, rest, rfl, hne, hsep, hrest⟩
    · rw [normalizeInto, append_nil]
      exact ⟨out, rfl, h, hfits⟩
    · rw [normalizeInto, if_pos (by decide), normalizeLoop_sep, append_cons]
      refine ih rest.length (hlen ▸ lt_succ_self _) rfl h hfits.sep ?_
      rw [length_append, add_assoc, add_comm _ rest.length]
      exact hle
    · have hname : IsElement name := ⟨hne, hsep⟩
      rw [length_append] at hle hlen
      obtain ⟨out', s', dotdot', hout, hfits', hinto, hloop⟩ :=
        normalizeInto_element allowAboveRoot dotdot h hfits hname hrest hcap
          (by omega)
      have hpos := length_pos_of_ne_nil hne
      rw [hinto, hloop, ← append_assoc]
      refine ih rest.length (by omega) rfl hout hfits' ?_
      rw [length_append]
      omega

end Loop

/-! ## The function -/

section Normalize

variable (allowAboveRoot preserveTrailingSlash zeroTerminate : Bool) (path buf : Bytes)

/-- The loop from the start of a buffer. -/
theorem normalizeInto_start (h : path.length ≤ buf.length) :
    ∃ out, normalizeInto allowAboveRoot path (buf, 0) 0 = some out ∧
      Holds buf path.length out ([sepPosix].intercalate (resolved allowAboveRoot path)) ∧
      Fits path [] ([sepPosix].intercalate (resolved allowAboveRoot path)) := by
  have hstart : Holds buf path.length (buf, 0) [] := ⟨⟨rfl, rfl, rfl⟩, rfl⟩
  have hfits : Fits [] path [] := ⟨le_refl 0, fun _ => .inl rfl, fun _ => rfl⟩
  obtain ⟨out, hinto, hout, hfits⟩ :=
    normalizeInto_eq allowAboveRoot path.length rfl hstart hfits h (zero_add _).le
  rw [normalizeLoop_resolved] at hout hfits
  exact ⟨out, hinto, hout, hfits⟩

/-- The trailing slash. -/
theorem Holds.trail {out : Output} (h : path.length ≤ buf.length)
    (hout : Holds buf path.length out ([sepPosix].intercalate (resolved allowAboveRoot path)))
    (hfits : Fits path [] ([sepPosix].intercalate (resolved allowAboveRoot path))) :
    ∃ out', (if preserveTrailingSlash = true ∧ 0 < out.2 ∧ path.getLast? = some sepPosix ∧
        out.1[out.2 - 1]? ≠ some sepPosix then pushBytes [sepPosix] out else some out) = some out' ∧
      Holds buf path.length out' (normalized allowAboveRoot preserveTrailingSlash path) ∧
      (normalized allowAboveRoot preserveTrailingSlash path).length ≤ path.length := by
  rw [normalized]
  split
  next hcond =>
    have hne : [sepPosix].intercalate (resolved allowAboveRoot path) ≠ [] :=
      ne_nil_of_length_pos (hout.outLen ▸ hcond.2.1)
    have hlt := (hfits.lt (by rw [hcond.2.2.1]; rfl)).resolve_left hne
    obtain ⟨out', hpush, hout'⟩ := hout.push [sepPosix] h hlt
    rw [if_pos ⟨hcond.1, hcond.2.2.1, hne⟩, length_append]
    exact ⟨out', hpush, hout', hlt⟩
  next hcond =>
    rw [if_neg]
    · exact ⟨out, rfl, hout, hfits.le⟩
    · rintro ⟨hpreserve, hpath, hne⟩
      refine hcond ⟨hpreserve, hout.outLen ▸ length_pos_of_ne_nil hne, hpath, ?_⟩
      rw [hout.getLast? hne]
      exact getLast?_joined_ne hne

section

variable (h : path.length + zeroTerminate.toNat ≤ buf.length)
include h

/-- The buffer gets the normalized path, and the byte `0` behind it. -/
theorem normalizeStringGenericTz_writes :
    ∃ out, normalizeStringGenericTz allowAboveRoot preserveTrailingSlash zeroTerminate path buf =
      some out ∧ out.1.take out.2 = normalized allowAboveRoot preserveTrailingSlash path ∧
      out.2 ≤ path.length ∧ (zeroTerminate = true → out.1[out.2]? = some 0) ∧
        out.1.length = buf.length ∧
      out.1.drop (path.length + zeroTerminate.toNat) =
        buf.drop (path.length + zeroTerminate.toNat) := by
  have hle : path.length ≤ buf.length := (le_add_right _ _).trans h
  obtain ⟨out₁, hinto, hout₁, hfits⟩ := normalizeInto_start allowAboveRoot path buf hle
  obtain ⟨out, htrail, hout, hlen⟩ :=
    hout₁.trail allowAboveRoot preserveTrailingSlash path buf hle hfits
  rw [normalizeStringGenericTz, hinto, bind_some, htrail, bind_some]
  cases zeroTerminate with
  | false => exact ⟨out, rfl, hout.take, hout.outLen ▸ hlen, (fun h => by cases h), hout.length,
    hout.drop⟩
  | true =>
    have hzero : out.2 + 1 ≤ buf.length := by
      rw [hout.outLen]
      exact (succ_le_succ hlen).trans h
    obtain ⟨buf', hcopy, hwritten⟩ := hout.toWritten.copyAt [0] (hout.outLen ▸ hzero)
    have htake : buf'.take (out.2 + 1) = normalized allowAboveRoot preserveTrailingSlash path ++
      [0] := hwritten.take
    have hdrop : out.1.drop (path.length + 1) = buf.drop (path.length + 1) := by
      rw [← drop_drop, hout.drop, drop_drop]
    rw [if_pos rfl, hcopy]
    refine ⟨(buf', out.2), rfl, ?_, hout.outLen ▸ hlen, fun _ => ?_, hwritten.length, ?_⟩
    · rw [← min_eq_left (le_succ out.2), ← take_take, htake, hout.outLen, take_left]
    · rw [← getElem?_take_of_lt (lt_succ_self out.2), htake, hout.outLen, getElem?_concat_length]
    · exact (drop_of_copyAt hcopy (succ_le_succ (hout.outLen ▸ hlen))).trans hdrop

/-- Normalization: what it writes to the buffer is the normalized path, and twice it is the same. -/
theorem normalizeStringGenericTz_normalized :
    ∃ out, normalizeStringGenericTz allowAboveRoot preserveTrailingSlash zeroTerminate path buf =
      some out ∧ out.1.take out.2 = normalized allowAboveRoot preserveTrailingSlash path ∧
      out.2 ≤ path.length ∧ (zeroTerminate = true → out.1[out.2]? = some 0) ∧
        out.1.length = buf.length ∧
      out.1.drop (path.length + zeroTerminate.toNat) =
        buf.drop (path.length + zeroTerminate.toNat) ∧
      ∀ buf' : Bytes, out.2 + zeroTerminate.toNat ≤ buf'.length →
        ∃ out', normalizeStringGenericTz allowAboveRoot preserveTrailingSlash
          zeroTerminate (out.1.take out.2) buf' =
          some out' ∧ out'.1.take out'.2 = out.1.take out.2 := by
  obtain ⟨out, hout, htake, hle, hzero, hlen, hdrop⟩ :=
    normalizeStringGenericTz_writes allowAboveRoot preserveTrailingSlash zeroTerminate path buf h
  refine ⟨out, hout, htake, hle, hzero, hlen, hdrop, fun buf' hbuf => ?_⟩
  have hlen' : (out.1.take out.2).length + zeroTerminate.toNat ≤ buf'.length :=
    (Nat.add_le_add_right (length_take_le _ _) _).trans hbuf
  obtain ⟨out', hout', htake', -⟩ :=
    normalizeStringGenericTz_writes allowAboveRoot preserveTrailingSlash
    zeroTerminate (out.1.take out.2) buf' hlen'
  exact ⟨out', hout', by rw [htake', htake, normalized_normalized]⟩

end

end Normalize

/-- `../a//./b/../..c/`, where one `..` stays. -/
theorem normalizeStringGenericTz_normalized_above :
    ∃ out, normalizeStringGenericTz true true true (text "../a//./b/../..c/")
      (replicate 18 1) = some out ∧
      out.1.take out.2 = text "../a/..c/" ∧ out.1[out.2]? = some 0 := by
  obtain ⟨out, hout, htake, -, hzero, -⟩ := normalizeStringGenericTz_normalized true true true
    (text "../a//./b/../..c/") (replicate 18 1) (by decide)
  exact ⟨out, hout, htake.trans (by decide), hzero rfl⟩

end Soup.Paths
