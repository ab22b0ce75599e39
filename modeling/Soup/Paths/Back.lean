import Soup.Paths.LongestFew

/-!
# Relative paths lead back

The loop over `from` writes `..` once for every name behind the common path (`parentLoop`), and the
rest of `to` comes after it. Every write is within the buffer, and the result leads from `from` to
`to` (`follow_relativeNormalizedBuf`).
-/

namespace Soup.Paths

open List Option

/-! ## The buffer -/

/-- A buffer of `cap` bytes that starts with what was written. -/
structure Written (cap : ℕ) (out : Output) (s : Bytes) : Prop where
  take : out.1.take out.2 = s
  outLen : out.2 = s.length
  length : out.1.length = cap

variable {cap : ℕ} {out : Output} {s bytes : Bytes}

variable (bytes) in
theorem Written.copyAt (h : Written cap out s) (hle : s.length + bytes.length ≤ cap) :
    ∃ buf, copyAt out.1 out.2 bytes = some buf ∧
      Written cap (buf, out.2 + bytes.length) (s ++ bytes) := by
  have hcond : out.2 + bytes.length ≤ out.1.length := by
    rw [h.outLen, h.length]
    exact hle
  refine ⟨_, if_pos hcond, ?_, ?_, ?_⟩
  · rw [h.take, take_append_of_le_length (by rw [length_append, h.outLen])]
    rw [take_of_length_le (by rw [length_append, h.outLen])]
  · rw [length_append, h.outLen]
  · rw [h.take]
    simp only [length_append, length_drop]
    rw [h.outLen, h.length]
    omega

theorem Written.pushParent {k : ℕ} (h : Written cap out (parents k)) (hle : 3 * k + 2 ≤ cap) :
    ∃ out', pushParent out = some out' ∧ Written cap out' (parents (k + 1)) := by
  obtain ⟨buf, outLen⟩ := out
  cases k with
  | zero =>
    obtain rfl : outLen = 0 := h.outLen
    obtain ⟨buf', hcopy, hwritten⟩ := h.copyAt [dot, dot] hle
    refine ⟨(buf', 2), ?_, hwritten⟩
    rw [Paths.pushParent]
    simp only [if_true, hcopy]
    rfl
  | succ k =>
    have hlen := length_parents k
    have hpos : outLen ≠ 0 := by
      have := h.outLen
      simp only at this
      omega
    obtain ⟨buf₁, hcopy₁, h₁⟩ := h.copyAt [sepPosix] (by rw [hlen]; simp; omega)
    obtain ⟨buf₂, hcopy₂, h₂⟩ := h₁.copyAt [dot, dot] (by
      rw [length_append, hlen]
      simp
      omega)
    refine ⟨(buf₂, outLen + 3), ?_, ?_⟩
    · rw [Paths.pushParent]
      rw [if_neg hpos, hcopy₁]
      simp only [bind_eq_bind, bind_some]
      rw [show outLen + 1 = outLen + [sepPosix].length from rfl, hcopy₂]
      rfl
    · rw [append_assoc] at h₂
      exact h₂

/-! ## The loop -/

/-- How often the loop writes `..` for the rest of a path. -/
def nameEnds : Bytes → ℕ
  | [] => 1
  | c :: rest => (if c = sepPosix ∧ rest ≠ [] then 1 else 0) + nameEnds rest

theorem nameEnds_pos : ∀ rest : Bytes, 0 < nameEnds rest
  | [] => Nat.zero_lt_one
  | _ :: rest => Nat.add_pos_right _ (nameEnds_pos rest)

theorem nameEnds_append (name rest : Bytes) (h : sepPosix ∉ name) :
    nameEnds (name ++ rest) = nameEnds rest := by
  induction name with
  | nil => rfl
  | cons c name ih =>
    have hc : c ≠ sepPosix := fun hc => h (hc ▸ mem_cons_self)
    rw [cons_append, nameEnds, if_neg (fun hcond => hc hcond.1), zero_add,
      ih fun hmem => h (mem_cons_of_mem _ hmem)]

theorem nameEnds_slashed (trailing : Bool) : ∀ names : List Bytes,
    (∀ name ∈ names, IsName name) →
    nameEnds (slashed names ++ trail trailing) = names.length + 1
  | [], _ => by cases trailing <;> simp [slashed, trail, nameEnds]
  | name :: names, h => by
    have hname := h name mem_cons_self
    have hne : name ++ (slashed names ++ trail trailing) ≠ [] := by simp [hname.ne_nil]
    rw [slashed_cons, nameEnds, if_pos ⟨rfl, hne⟩, nameEnds_append _ _ hname.no_sep,
      nameEnds_slashed trailing names fun n hn => h n (mem_cons_of_mem _ hn),
      length_cons, add_comm]

theorem parentLoop {source : Bytes} : ∀ (rest : Bytes) (i k : ℕ) (out : Output),
    source.drop i = rest → i ≤ source.length → Written cap out (parents k) →
    3 * (k + nameEnds rest) ≤ cap + 1 → ∃ out',
      (range' i (source.length + 1 - i)).foldlM (parentStep source) out = some out' ∧
        Written cap out' (parents (k + nameEnds rest))
  | [], i, k, out, hrest, hi, h, hcap => by
    have heq : i = source.length := le_antisymm hi (drop_eq_nil_iff.1 hrest)
    obtain ⟨out', hpush, hwritten⟩ := h.pushParent (by rw [nameEnds] at hcap; omega)
    refine ⟨out', ?_, hwritten⟩
    rw [heq, Nat.add_sub_cancel_left, range'_one, foldlM_cons, parentStep, if_pos (.inl rfl), hpush]
    rfl
  | c :: rest, i, k, out, hrest, hi, h, hcap => by
    have hlt : i < source.length := by
      by_contra hge
      rw [drop_of_length_le (not_lt.1 hge)] at hrest
      cases hrest
    have hget : source[i]? = some c := by
      rw [← head?_drop, hrest]
      rfl
    have hdrop : source.drop (i + 1) = rest := by
      rw [← tail_drop, hrest]
      rfl
    have hmore : i + 1 < source.length ↔ rest ≠ [] := by
      rw [← hdrop, Ne, drop_eq_nil_iff]
      omega
    have hcond : (i = source.length ∨ (source[i]? = some sepPosix ∧ i + 1 < source.length)) ↔
        (c = sepPosix ∧ rest ≠ []) := by
      rw [hget, some.injEq, hmore]
      exact ⟨fun h => h.resolve_left (ne_of_lt hlt), .inr⟩
    rw [show source.length + 1 - i = (source.length + 1 - (i + 1)) + 1 by omega,
      range'_succ, foldlM_cons, parentStep, nameEnds]
    rw [nameEnds] at hcap
    by_cases hends : c = sepPosix ∧ rest ≠ []
    · rw [if_pos hends] at hcap ⊢
      rw [if_pos (hcond.2 hends)]
      have hpos := nameEnds_pos rest
      obtain ⟨out₁, hpush, h₁⟩ := h.pushParent (by omega)
      obtain ⟨out₂, hloop, h₂⟩ := parentLoop rest (i + 1) (k + 1) out₁ hdrop hlt h₁ (by omega)
      refine ⟨out₂, ?_, ?_⟩
      · rw [hpush]
        exact hloop
      · rw [← add_assoc]
        exact h₂
    · rw [if_neg hends] at hcap ⊢
      rw [if_neg (fun h => hends (hcond.1 h))]
      rw [zero_add] at hcap ⊢
      exact parentLoop rest (i + 1) k out hdrop hlt h hcap

/-! ## Behind the common path -/

/-- The names behind a separator. -/
def after (names : List Bytes) (trailing : Bool) : Bytes :=
  match names with
  | [] => []
  | name :: names => name ++ (slashed names ++ trail trailing)

theorem getElem?_length_append (p as : Bytes) : (p ++ as)[p.length]? = as.head? := by
  rw [getElem?_append_right le_rfl, Nat.sub_self, head?_eq_getElem?]

/-- A name does not start with a separator. -/
theorem IsName.sep_notMem_head? {name : Bytes} (h : IsName name) (rest : Bytes) :
    sepPosix ∉ (name ++ rest).head? := by
  cases name with
  | nil => exact absurd rfl h.ne_nil
  | cons c name =>
    intro hc
    exact h.no_sep (some.inj hc ▸ mem_cons_self)

section After

variable {common names : List Bytes} {trailing : Bool}

theorem behind_eq (common names : List Bytes) (trailing : Bool) :
    behind common names trailing = sepPosix :: after names trailing ∨
      behind common names trailing = [] ∧ names = [] ∧ common ≠ [] := by
  cases names with
  | nil =>
    rcases behind_nil common trailing with h | ⟨h, hc⟩
    · exact .inl h
    · exact .inr ⟨h, rfl, hc⟩
  | cons name names =>
    refine .inl ?_
    rw [behind, if_neg (by simp), slashed_cons]
    rfl

section

variable (h : ∀ name ∈ names, IsName name)
include h

theorem components_after : components (after names trailing) = names := by
  cases names with
  | nil => rfl
  | cons name names =>
    have hname := h name mem_cons_self
    rw [after, components_name hname.ne_nil hname.no_sep (head?_slashed _ _),
      components_slashed fun n hn => h n (mem_cons_of_mem _ hn)]

variable (trailing) in
theorem head?_after (hne : names ≠ []) :
    ∃ c rest, after names trailing = c :: rest ∧ c ≠ sepPosix := by
  cases names with
  | nil => exact absurd rfl hne
  | cons name names =>
    have hname := h name mem_cons_self
    have hsep := hname.sep_notMem_head? (slashed names ++ trail trailing)
    rw [after]
    cases hafter : name ++ (slashed names ++ trail trailing) with
    | nil => exact absurd (append_eq_nil_iff.1 hafter).1 hname.ne_nil
    | cons c rest =>
      rw [hafter] at hsep
      exact ⟨c, rest, rfl, fun hc => hsep (hc ▸ rfl)⟩

variable (trailing) in
/-- The loop starts behind the first byte of the first name. -/
theorem nameEnds_after (hne : names ≠ []) :
    nameEnds ((after names trailing).drop 1) = names.length := by
  cases names with
  | nil => exact absurd rfl hne
  | cons name names =>
    have hname := h name mem_cons_self
    rw [after]
    cases name with
    | nil => exact absurd rfl hname.ne_nil
    | cons c name =>
      rw [cons_append, drop_succ_cons, drop_zero,
        nameEnds_append _ _ fun hmem => hname.no_sep (mem_cons_of_mem _ hmem),
        nameEnds_slashed trailing names fun n hn => h n (mem_cons_of_mem _ hn),
        length_cons]

/-- The last byte of a name is no separator. -/
theorem getLast?_slashed : sepPosix ∉ (slashed names).getLast? := by
  cases names using reverseRecOn with
  | nil => simp [slashed]
  | append_singleton names name =>
    have hname := h name (mem_append_right _ mem_cons_self)
    obtain ⟨start, c, rfl⟩ := (eq_nil_or_concat' name).resolve_left hname.ne_nil
    have hlast : (slashed (names ++ [start ++ [c]])).getLast? = some c := by
      rw [slashed, flatMap_append, flatMap_singleton, ← cons_append,
        ← append_assoc, getLast?_concat]
    rw [hlast]
    intro hc
    refine hname.no_sep ?_
    rw [← some.inj hc]
    simp

end

end After

/-! ## The result -/

/-- A separator at the end is dropped, and the names stay. -/
theorem Written.components_take (h : Written cap out s) :
    components (out.1.take (if out.2 > 3 ∧ out.1[out.2 - 1]? = some sepPosix then out.2 - 1
      else out.2)) = components s := by
  split
  next hcond =>
    obtain ⟨start, c, rfl⟩ := (eq_nil_or_concat' s).resolve_left (by
      rintro rfl
      have := h.outLen
      simp at this
      omega)
    have hlen := h.outLen
    rw [length_append, length_singleton] at hlen
    have hstart : out.1.take (out.2 - 1) = start := by
      have htake := congrArg (List.take (out.2 - 1)) h.take
      rw [take_take, Nat.min_eq_left (Nat.sub_le _ _)] at htake
      rw [htake, hlen, Nat.add_sub_cancel, take_left]
    have hc : c = sepPosix := by
      have hget : (out.1.take out.2)[out.2 - 1]? = some sepPosix := by
        rw [getElem?_take, if_pos (by omega)]
        exact hcond.2
      rw [h.take, hlen, Nat.add_sub_cancel, getElem?_append_right le_rfl,
        Nat.sub_self] at hget
      exact some.inj hget
    rw [hstart, hc, components_append_sep, components_nil, append_nil]
  · rw [h.take]

theorem lastIndexOfChar_concat (p : Bytes) :
    lastIndexOfChar (p ++ [sepPosix]) sepPosix = some p.length := by
  rw [lastIndexOfChar, reverse_append]
  simp [findIdx?_cons]

section Relative

variable {common source' target' : List Bytes} {st tt : Bool} {buf : Bytes}

variable (buf) in
/-- The loop writes `..` for every name of `from` behind the common path. -/
theorem parents_written (hs : ∀ name ∈ source', IsName name) (p rf : Bytes)
    (hrf : rf = sepPosix :: after source' st ∨ rf = [] ∧ source' = [])
    (hcap : 3 * source'.length ≤ buf.length + 1) : ∃ out,
    (range' (p.length + 2) ((p ++ rf).length + 1 - (p.length + 2))).foldlM
      (parentStep (p ++ rf)) (buf, 0) = some out ∧
      Written buf.length out (parents source'.length) := by
  have hinit : Written buf.length (buf, 0) (parents 0) := ⟨rfl, rfl, rfl⟩
  by_cases hnil : source' = []
  · have hlen : (p ++ rf).length + 1 - (p.length + 2) = 0 := by
      subst hnil
      rcases hrf with rfl | ⟨rfl, -⟩
      · simp [after]
      · simp
    rw [hlen, hnil]
    exact ⟨_, rfl, hinit⟩
  · obtain rfl := hrf.resolve_right fun h => hnil h.2
    have hends := nameEnds_after st hs hnil
    obtain ⟨c, rest, hafter, -⟩ := head?_after st hs hnil
    have hdrop : (p ++ sepPosix :: after source' st).drop (p.length + 2) =
        (after source' st).drop 1 := by
      rw [drop_append, drop_of_length_le (by omega), Nat.add_sub_cancel_left]
      rfl
    have hlen : p.length + 2 ≤ (p ++ sepPosix :: after source' st).length := by
      rw [hafter]
      simp
    obtain ⟨out, hloop, hwritten⟩ := parentLoop _ _ 0 _ hdrop hlen hinit (by rw [hends]; omega)
    rw [zero_add, hends] at hwritten
    exact ⟨out, hloop, hwritten⟩

/-- The rest of `to` comes after the `..`s, and without a separator where there are none. -/
theorem appendTail_written {out : Output} (hs : ∀ name ∈ source', IsName name)
    (ht : ∀ name ∈ target', IsName name) (hne : target' ≠ []) (p rf : Bytes)
    (hrf : rf = sepPosix :: after source' st ∨ rf = [] ∧ source' = []) (hsource : p ++ rf ≠ [])
    (h : Written cap out (parents source'.length))
    (hcap : 3 * source'.length + (after target' tt).length ≤ cap) : ∃ out' s,
    appendTail (p ++ rf) (p ++ sepPosix :: after target' tt) p.length out = some out' ∧
      Written cap out' s ∧
      components s = replicate source'.length [dot, dot] ++ target' := by
  obtain ⟨buf, outLen⟩ := out
  have htail : (p ++ sepPosix :: after target' tt).drop p.length =
      sepPosix :: after target' tt := drop_left
  obtain ⟨c, rest, hafter, -⟩ := head?_after tt ht hne
  by_cases hnil : source' = []
  · have hcond : p ++ rf ≠ [] ∧
        (p.length = (p ++ rf).length ∨ p.length = (p ++ rf).length - 1) := by
      refine ⟨hsource, ?_⟩
      subst hnil
      rcases hrf with rfl | ⟨rfl, -⟩
      · exact .inr (by simp [after])
      · exact .inl (by simp)
    subst hnil
    obtain rfl : outLen = 0 := h.outLen
    obtain ⟨buf', hcopy, hwritten⟩ := h.copyAt (after target' tt) (by
      rw [length_nil] at hcap
      exact hcap)
    refine ⟨_, _, ?_, hwritten, components_after ht⟩
    rw [appendTail]
    rw [htail, if_pos hcond]
    rw [hafter] at hcopy ⊢
    simp [isSepPosix, hcopy]
  · obtain rfl := hrf.resolve_right fun h => hnil h.2
    obtain ⟨d, rest', hafter', -⟩ := head?_after st hs hnil
    have hcond : ¬(p ++ sepPosix :: after source' st ≠ [] ∧
        (p.length = (p ++ sepPosix :: after source' st).length ∨
          p.length = (p ++ sepPosix :: after source' st).length - 1)) := by
      rw [hafter']
      simp
    obtain ⟨k, hk⟩ := Nat.exists_eq_succ_of_ne_zero fun h => hnil (length_eq_zero_iff.1 h)
    obtain ⟨buf', hcopy, hwritten⟩ := h.copyAt (sepPosix :: after target' tt) (by
      rw [hk, length_parents, length_cons]
      omega)
    refine ⟨_, _, ?_, hwritten, ?_⟩
    · rw [appendTail]
      rw [htail, if_neg hcond]
      simp [isSepPosix, hcopy]
    · rw [components_append_sep, components_parents, components_after ht]

/-- What the loop wrote, and the rest of `to` if there is any. -/
theorem tail_written {out : Output} (hs : ∀ name ∈ source', IsName name)
    (ht : ∀ name ∈ target', IsName name) (p rf rt : Bytes)
    (hrf : rf = sepPosix :: after source' st ∨ rf = [] ∧ source' = [])
    (hrt : rt = sepPosix :: after target' tt ∨ rt = [] ∧ target' = []) (hsource : p ++ rf ≠ [])
    (h : Written cap out (parents source'.length)) (hcap : 3 * source'.length + rt.length ≤ cap) :
    ∃ out' s, (if (p ++ rt).length > p.length + 1 then
        appendTail (p ++ rf) (p ++ rt) p.length out else some out) = some out' ∧
      Written cap out' s ∧ components s = replicate source'.length [dot, dot] ++ target' := by
  by_cases hnil : target' = []
  · refine ⟨out, _, if_neg ?_, h, ?_⟩
    · subst hnil
      rcases hrt with rfl | ⟨rfl, -⟩ <;> simp [after]
    · rw [components_parents, hnil, append_nil]
  · obtain rfl := hrt.resolve_right fun h => hnil h.2
    obtain ⟨c, rest, hafter, -⟩ := head?_after tt ht hnil
    rw [if_pos (by rw [hafter]; simp)]
    rw [length_cons] at hcap
    exact appendTail_written hs ht hnil p rf hrf hsource h (by omega)

variable (st tt buf) in
/-- Behind a common path of whole names the shortcuts are not taken, or there are no more names. -/
theorem relativeToCommonPath_behind (alwaysCopy : Bool) (hc : ∀ name ∈ common, IsName name)
    (hs : ∀ name ∈ source', IsName name) (ht : ∀ name ∈ target', IsName name)
    (hcap : 3 * source'.length + (slashed common ++ behind common target' tt).length ≤
      buf.length) : ∃ relative,
    relativeToCommonPath alwaysCopy (slashed common ++ [sepPosix])
      (slashed common ++ behind common source' st) (slashed common ++ behind common target' tt)
      buf = some relative ∧
    components relative = replicate source'.length [dot, dot] ++ target' := by
  have hcommon : ∃ rest, (if isAbsolutePosix (slashed common ++ [sepPosix]) then
      (slashed common ++ [sepPosix]).drop 1 else slashed common ++ [sepPosix]) = rest ∧
      rest.length = (slashed common).length := by
    refine ⟨_, rfl, ?_⟩
    rw [if_pos]
    · simp
    · cases common <;> simp [isAbsolutePosix, isSepPosix, slashed]
  obtain ⟨rest, hrest, hlen⟩ := hcommon
  have hsource := behind_eq common source' st
  have htarget := behind_eq common target' tt
  generalize hp : slashed common = p at *
  generalize behind common source' st = rf at *
  generalize behind common target' tt = rt at *
  have hroot : p = [] → rf ≠ [] ∧ rt ≠ [] := by
    intro hnil
    have hc' : common = [] := by
      by_contra hcne
      exact slashed_ne_nil hcne (hp.trans hnil)
    refine ⟨?_, ?_⟩
    · rintro rfl
      exact (hsource.resolve_left (by simp)).2.2 hc'
    · rintro rfl
      exact (htarget.resolve_left (by simp)).2.2 hc'
  have hwhole : ¬(min (p ++ rf).length (p ++ rt).length = rest.length ∧
      (p ++ rt).length ≥ (p ++ rf).length ∧ rest = []) := by
    rintro ⟨hmin, hge, rfl⟩
    obtain rfl : p = [] := length_eq_zero_iff.1 hlen.symm
    have hpos := length_pos_iff.2 (hroot rfl).1
    rw [Nat.min_eq_left hge] at hmin
    rw [nil_append, length_nil] at hmin
    omega
  have hfolder : min (p ++ rf).length (p ++ rt).length = rest.length ∧
      (p ++ rt).length ≥ (p ++ rf).length →
        ((p ++ rt)[rest.length - 1]?).map isSepPosix = some false := by
    intro hcond
    rw [Nat.min_eq_left hcond.2, length_append, hlen] at hcond
    have hnil : rf = [] := length_eq_zero_iff.1 (by omega)
    have hpne : p ≠ [] := fun h => (hroot h).1 hnil
    have hlast := getLast?_slashed hc
    rw [hp] at hlast
    obtain ⟨start, c, rfl⟩ := (eq_nil_or_concat' p).resolve_left hpne
    have hne' : c ≠ sepPosix := fun hc' => hlast (by rw [hc', getLast?_concat]; rfl)
    rw [hlen, length_append, length_singleton, Nat.add_sub_cancel, append_assoc,
      getElem?_length_append]
    simp [isSepPosix, hne']
  obtain ⟨out, hloop, hwritten⟩ := parents_written buf hs p rf
    (hsource.imp_right fun h => ⟨h.1, h.2.1⟩) (by omega)
  have hstarts : ∃ more, p ++ rf = sepPosix :: more := by
    cases common with
    | nil =>
      obtain rfl : p = [] := hp.symm
      exact ⟨_, hsource.resolve_right fun h => h.2.2 rfl⟩
    | cons name names => exact ⟨_, by rw [← hp, slashed, flatMap_cons]; rfl⟩
  have hstart : ((p ++ rf)[0]?.any isSepPosix).toNat + 1 + p.length = p.length + 2 := by
    obtain ⟨more, hmore⟩ := hstarts
    rw [hmore]
    simp [isSepPosix]
    omega
  have hsne : p ++ rf ≠ [] := by
    obtain ⟨more, hmore⟩ := hstarts
    rw [hmore]
    exact cons_ne_nil _ _
  obtain ⟨out', s, happend, hwritten', hcomponents⟩ := tail_written hs ht p rf rt
    (hsource.imp_right fun h => ⟨h.1, h.2.1⟩) (htarget.imp_right fun h => ⟨h.1, h.2.1⟩) hsne
    hwritten (by rw [length_append] at hcap; omega)
  refine ⟨_, ?_, hwritten'.components_take.trans hcomponents⟩
  rw [relativeToCommonPath, hrest]
  dsimp only
  rw [if_neg hwhole, lastIndexOfChar_concat, getD_some, if_pos hsne, hstart, hloop]
  simp only [bind_eq_bind, bind_some, Bool.false_eq_true, if_false]
  have hrun : (if (p ++ rt).length > p.length + 1 then
      (appendTail (p ++ rf) (p ++ rt) p.length out).bind fun out => some (out.1.take
        (if out.2 > 3 ∧ out.1[out.2 - 1]? = some sepPosix then out.2 - 1 else out.2))
      else some (out.1.take
        (if out.2 > 3 ∧ out.1[out.2 - 1]? = some sepPosix then out.2 - 1 else out.2))) =
      some (out'.1.take
        (if out'.2 > 3 ∧ out'.1[out'.2 - 1]? = some sepPosix then out'.2 - 1 else out'.2)) := by
    split at happend
    next hlong =>
      rw [if_pos hlong, happend]
      rfl
    next hshort =>
      rw [if_neg hshort, some.inj happend]
  rw [hrun]
  split
  next hcond =>
    rw [hfolder hcond]
    rfl
  · rfl

end Relative

/-- A separator for every name. -/
theorem length_le_countSeparators (names : List Bytes) (trailing : Bool) :
    names.length ≤ countSeparators (absolute names trailing) := by
  have hslashed : ∀ names : List Bytes, names.length ≤ (slashed names).count sepPosix := by
    intro names
    induction names with
    | nil => exact Nat.zero_le _
    | cons name names ih =>
      rw [slashed, flatMap_cons, cons_append, count_cons_self, count_append, length_cons, ← slashed]
      omega
  rw [absolute]
  split
  next hnil =>
    rw [hnil]
    exact Nat.zero_le _
  · have := hslashed names
    rw [countSeparators, count_append]
    omega

variable {source target : List Bytes}

/-- The common path has the first names of both paths. -/
theorem exists_common (hs : ∀ name ∈ source, IsName name)
    (ht : ∀ name ∈ target, IsName name) (st tt : Bool) :
    ∃ common source' target', source = common ++ source' ∧ target = common ++ target' ∧
      longestCommonPathGeneric isSepPosix [absolute source st, absolute target tt] =
        slashed common ++ [sepPosix] := by
  have hnamed : ∀ p ∈ [absolute source st, absolute target tt], ∃ names trailing,
      (∀ name ∈ names, IsName name) ∧ p = absolute names trailing := by
    rw [forall_mem_cons, forall_mem_singleton]
    exact ⟨⟨source, st, hs, rfl⟩, target, tt, ht, rfl⟩
  have hrooted : ∀ p ∈ [absolute source st, absolute target tt], Rooted isSepPosix p := by
    intro p hp
    obtain ⟨names, trailing, hnames, rfl⟩ := hnamed p hp
    exact rooted_absolute (fun name hname => (hnames name hname).isElement) fun c _ => beq_iff_eq
  obtain ⟨n, hlast, p, hp, hsep, heq⟩ := longestCommonPathGeneric_few hrooted (by decide)
  rw [heq]
  have hcommon := hlast.1.isCommonDir hp hsep
  obtain ⟨common, hnames, hdir⟩ := hcommon.exists_names hnamed
  have hinside := hcommon.inside
  rw [hdir, forall_mem_cons, forall_mem_singleton, components_absolute hs, components_absolute ht,
    show components (slashed common ++ [sepPosix]) = common from components_slashed hnames true]
    at hinside
  obtain ⟨⟨source', hsource⟩, target', htarget⟩ := hinside
  exact ⟨common, source', target', hsource.symm, htarget.symm, hdir⟩

/-- The result leads from `from` to `to`, no write is outside the buffer, and only with the same
names is the result empty. -/
theorem follow_relativeNormalizedBuf (alwaysCopy st tt : Bool)
    {buf : Bytes} (hs : ∀ name ∈ source, IsName name) (ht : ∀ name ∈ target, IsName name)
    (hcap : relativeResultCapacity (countSeparators (absolute source st))
      (absolute target tt).length ≤ buf.length) :
    ∃ relative, relativeNormalizedBuf alwaysCopy buf (absolute source st) (absolute target tt) =
        some relative ∧
      follow source relative = some target ∧ (relative = [] → source = target) := by
  by_cases heq : absolute source st = absolute target tt
  · have hnames : source = target := by
      rw [← components_absolute hs st, heq, components_absolute ht tt]
    exact ⟨[], if_pos heq, congrArg some hnames, fun _ => hnames⟩
  · have hseps := length_le_countSeparators source st
    obtain ⟨common, source', target', rfl, rfl, hcommon⟩ := exists_common hs ht st tt
    have hlen : source'.length ≤ (common ++ source').length := by simp
    rw [relativeResultCapacity] at hcap
    rw [absolute_append, absolute_append] at hcap
    rw [absolute_append] at hseps heq
    obtain ⟨relative, hrun, hcomponents⟩ := relativeToCommonPath_behind st tt buf alwaysCopy
      (fun name h => hs name (mem_append_left _ h))
      (fun name h => hs name (mem_append_right _ h))
      (fun name h => ht name (mem_append_right _ h)) (by omega)
    have htarget : ∀ name ∈ target', IsName name := fun name h =>
      ht name (mem_append_right _ h)
    have hfollow : follow (common ++ source') relative = some (common ++ target') :=
      follow_eq htarget hcomponents
    refine ⟨relative, ?_, hfollow, ?_⟩
    · rw [relativeNormalizedBuf, hcommon, absolute_append, if_neg heq, absolute_append]
      exact hrun
    · rintro rfl
      exact some.inj hfollow

/-- From `/a/b/` to `/a/ca` the result is `../ca`. -/
theorem follow_relativeNormalizedBuf_sibling :
    follow [[97], [98]] [46, 46, 47, 99, 97] = some [[97], [99, 97]] := by
  have hname : ∀ names : List Bytes, names ⊆ [[97], [98], [99, 97]] →
      ∀ name ∈ names, IsName name := by
    intro names hsub name hmem
    have hone := hsub hmem
    simp only [mem_cons, not_mem_nil, or_false] at hone
    rcases hone with rfl | rfl | rfl <;> exact ⟨by decide, by decide, by decide, by decide⟩
  obtain ⟨relative, hrun, hfollow, -⟩ : ∃ relative, relativeNormalizedBuf true
      (replicate 17 0) (absolute [[97], [98]] true) (absolute [[97], [99, 97]] false) =
        some relative ∧ follow [[97], [98]] relative = some [[97], [99, 97]] ∧
      (relative = [] → [[97], [98]] = [[97], [99, 97]]) :=
    follow_relativeNormalizedBuf true true false (hname _ (by decide)) (hname _ (by decide))
      (by decide)
  have hresult : relativeNormalizedBuf true (replicate 17 0) (absolute [[97], [98]] true)
      (absolute [[97], [99, 97]] false) = some [46, 46, 47, 99, 97] := by decide
  rwa [some.inj (hresult.symm.trans hrun)]

end Soup.Paths
