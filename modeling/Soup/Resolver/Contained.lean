import Mathlib.Data.List.Forall2
import Soup.Resolver.Exports

/-!
# Paths inside a package

What `resolve` and `resolve_imports` give is a path in the package (`resolve_contained`). The
targets, the text of the specifier and the path are looked at before they are decoded; what has no
invalid segment there has no forbidden one when it is decoded (`finalize_contained`).
-/

namespace Soup.Resolver

open Paths List Option

/-- The segments that lead out of a directory, or into other packages. -/
def IsForbidden (segment : Bytes) : Prop :=
  segment.map toAsciiLowercase ∈ [text ".", text "..", text "node_modules"]

/-- A path in the package. -/
structure Contained (path : Bytes) : Prop where
  absolute : path.head? = some slash
  segments : ∀ segment ∈ segments path, ¬IsForbidden segment

/-- The same for a path that is still encoded. -/
structure Checked (path : Bytes) : Prop where
  absolute : path.head? = some slash
  segments : ∀ segment ∈ segments path, isInvalidSegment segment = false

/-! ## Segments -/

section Segments

variable {path front rest segment : Bytes} {c : UInt8}

theorem segments_nil : segments [] = [[]] := rfl

theorem segments_append_sep (hc : isSepAny c = true) :
    segments (front ++ c :: rest) = segments front ++ segments rest :=
  splitOnP_append_cons front rest hc

theorem segments_sep (hc : isSepAny c = true) : segments (c :: rest) = [] :: segments rest :=
  splitOnP_append_cons [] rest hc

theorem segments_cons (hc : isSepAny c = false) :
    segments (c :: rest) = (segments rest).modifyHead (c :: ·) := by
  rw [segments, splitOnP_cons_eq_if_modifyHead, hc, if_neg Bool.false_ne_true]
  rfl

theorem isInvalidSegment_nil : isInvalidSegment [] = false := by decide

theorem findInvalidSubpathSegment_none (h : ¬(findInvalidSubpathSegment path).isSome = true) :
    ∀ segment ∈ segments path, isInvalidSegment segment = false := by
  rw [Bool.not_eq_true, isSome_eq_false_iff, isNone_iff_eq_none,
    findInvalidSubpathSegment, find?_eq_none] at h
  exact fun segment hsegment => Bool.eq_false_iff.2 (h segment hsegment)

/-- The first segment is not looked at. -/
theorem findInvalidSegment_append_sep (hfront : ∀ c ∈ front, isSepAny c = false)
    (hc : isSepAny c = true) :
    findInvalidSegment (front ++ c :: rest) = findInvalidSubpathSegment rest := by
  have hany : (front ++ c :: rest).any isSepAny = true :=
    any_eq_true.2 ⟨c, mem_append_right _ mem_cons_self, hc⟩
  have hdrop : (front ++ c :: rest).dropWhile (fun c => !isSepAny c) = c :: rest := by
    rw [dropWhile_append_of_pos fun d hd => by rw [hfront d hd]; rfl,
      dropWhile_cons_of_neg]
    rw [hc]
    exact Bool.false_ne_true
  rw [findInvalidSegment, if_pos hany, hdrop, drop_one, tail_cons]

/-- An absolute path that `find_invalid_segment` passes. -/
theorem checked_of_findInvalidSegment (hhead : path.head? = some slash)
    (h : ¬(findInvalidSegment path).isSome = true) : Checked path := by
  obtain ⟨rest, rfl⟩ : ∃ rest, path = slash :: rest := by
    cases path with
    | nil => cases hhead
    | cons c rest => exact ⟨rest, congrArg (· :: rest) (some.inj hhead)⟩
  rw [show slash :: rest = [] ++ slash :: rest from rfl,
    findInvalidSegment_append_sep (forall_mem_nil _) (by decide)] at h
  refine ⟨rfl, fun segment hsegment => ?_⟩
  rw [segments_sep (by decide), mem_cons] at hsegment
  rcases hsegment with rfl | hsegment
  · exact isInvalidSegment_nil
  · exact findInvalidSubpathSegment_none h segment hsegment

end Segments

/-! ## Decoding -/

section Decoding

variable {path segment decoded : Bytes}

theorem percentDecode_percent (hi lo : UInt8) (rest : Bytes) :
    percentDecode (percent :: hi :: lo :: rest) = (hexPairValue hi lo).bind fun byte =>
      (percentDecode rest).map (byte :: ·) := by
  rw [percentDecode, if_pos rfl]
  cases hexPairValue hi lo with
  | none => rfl
  | some byte => cases percentDecode rest <;> rfl

theorem percentDecode_cons {c : UInt8} (hc : c ≠ percent) (rest : Bytes) :
    percentDecode (c :: rest) = (percentDecode rest).map (c :: ·) := by
  have hstep : percentDecode (c :: rest) = (percentDecode rest).bind fun decoded =>
      some (c :: decoded) := by
    rcases rest with _ | ⟨hi, _ | ⟨lo, rest⟩⟩
    · exact if_neg hc
    · exact if_neg hc
    · exact if_neg hc
  rw [hstep]
  cases percentDecode rest <;> rfl

/-- A segment without escapes is not changed. -/
theorem percentDecode_of_not_mem : ∀ {segment : Bytes}, percent ∉ segment →
    percentDecode segment = some segment
  | [], _ => rfl
  | c :: segment, h => by
    rw [percentDecode_cons fun hc => h (hc ▸ mem_cons_self),
      percentDecode_of_not_mem fun hmem => h (mem_cons_of_mem _ hmem)]
    rfl

theorem decodedSegment_cons {c : UInt8} (hc : c ≠ percent) (rest : Bytes) :
    decodedSegment (c :: rest) = toAsciiLowercase c :: decodedSegment rest := by
  rcases rest with _ | ⟨hi, _ | ⟨lo, rest⟩⟩
  · rfl
  · rfl
  · rw [decodedSegment, if_neg hc]

/-- Text that decodes is an escape and text, or a byte and text. -/
theorem percentDecode_cases (h : percentDecode path = some decoded) :
    (path = [] ∧ decoded = []) ∨
    (∃ hi lo rest byte tail, path = percent :: hi :: lo :: rest ∧ decoded = byte :: tail ∧
      hexPairValue hi lo = some byte ∧ percentDecode rest = some tail) ∨
    ∃ c rest tail, c ≠ percent ∧ path = c :: rest ∧ decoded = c :: tail ∧
      percentDecode rest = some tail := by
  rcases path with _ | ⟨c, rest⟩
  · exact .inl ⟨rfl, (some.inj h).symm⟩
  rcases eq_or_ne c percent with rfl | hc
  · rcases rest with _ | ⟨hi, _ | ⟨lo, rest⟩⟩
    · cases h
    · cases h
    · rw [percentDecode_percent] at h
      obtain ⟨byte, hbyte, h⟩ := bind_eq_some_iff.1 h
      obtain ⟨tail, htail, rfl⟩ := map_eq_some_iff.1 h
      exact .inr (.inl ⟨hi, lo, rest, byte, tail, rfl, rfl, hbyte, htail⟩)
  · rw [percentDecode_cons hc] at h
    obtain ⟨tail, htail, rfl⟩ := map_eq_some_iff.1 h
    exact .inr (.inr ⟨c, rest, tail, hc, rfl, rfl, htail⟩)

/-- The segment that is looked at is the decoded one, in lower case. -/
theorem decodedSegment_eq : ∀ (n : ℕ) {segment decoded : Bytes}, segment.length = n →
    percentDecode segment = some decoded →
      decodedSegment segment = decoded.map toAsciiLowercase := by
  intro n
  induction n using Nat.strong_induction_on with
  | _ n ih =>
    intro segment decoded hlen h
    rcases percentDecode_cases h with ⟨rfl, rfl⟩
      | ⟨hi, lo, rest, byte, tail, rfl, rfl, hbyte, htail⟩ | ⟨c, rest, tail, hc, rfl, rfl, htail⟩
    · rfl
    · rw [decodedSegment, if_pos rfl, hbyte, map_cons]
      refine congrArg _ (ih rest.length ?_ rfl htail)
      rw [← hlen, length_cons, length_cons, length_cons]
      omega
    · rw [decodedSegment_cons hc, map_cons]
      exact congrArg _ (ih rest.length (hlen ▸ Nat.lt_succ_self _) rfl htail)

theorem not_isForbidden (hvalid : isInvalidSegment segment = false)
    (h : percentDecode segment = some decoded) : ¬IsForbidden decoded := by
  intro hforbidden
  rw [isInvalidSegment, decodedSegment_eq _ rfl h] at hvalid
  have hmem : decoded.map toAsciiLowercase = text "." ∨ decoded.map toAsciiLowercase = text ".." ∨
      decoded.map toAsciiLowercase = text "node_modules" := by
    rw [IsForbidden, mem_cons, mem_cons, mem_singleton] at hforbidden
    exact hforbidden
  rcases hmem with hmem | hmem | hmem <;> rw [hmem] at hvalid <;> revert hvalid <;> decide

/-! ## Escaped separators -/

/-- The digits. -/
def hexDigits : Bytes := text "0123456789abcdefABCDEF"

theorem mem_hexDigits {c v : UInt8} (h : hexDigitValue c = some v) : c ∈ hexDigits := by
  have hall : ∀ n < 256, (hexDigitValue (UInt8.ofNat n)).isSome → UInt8.ofNat n ∈ hexDigits := by
    decide +kernel
  have hc := hall c.toNat c.toNat_lt
  rw [UInt8.ofNat_toNat] at hc
  exact hc (h ▸ rfl)

/-- Of the escapes only those of `INVALID_PERCENT_CHARS` are separators. -/
theorem isSepAny_of_hexPairValue {hi lo byte : UInt8} (h : hexPairValue hi lo = some byte)
    (hvalid : [percent, hi, lo] ∉ invalidPercentChars) : isSepAny byte = false := by
  have hall : (hexDigits.all fun hi => hexDigits.all fun lo =>
      decide ([percent, hi, lo] ∈ invalidPercentChars) ||
        (hexPairValue hi lo).all fun byte => !isSepAny byte) = true := by
    decide +kernel
  obtain ⟨v, hv, h'⟩ := bind_eq_some_iff.1 h
  obtain ⟨w, hw, -⟩ := bind_eq_some_iff.1 h'
  have hpair := all_eq_true.1 (all_eq_true.1 hall hi (mem_hexDigits hv)) lo (mem_hexDigits hw)
  rw [decide_eq_false hvalid, Bool.false_or, h, all_some, Bool.not_eq_true'] at hpair
  exact hpair

theorem isSepAny_hex {c v : UInt8} (h : hexDigitValue c = some v) : isSepAny c = false := by
  have hall : (hexDigits.all fun c => !isSepAny c) = true := by decide +kernel
  have hc := all_eq_true.1 hall c (mem_hexDigits h)
  rw [Bool.not_eq_true'] at hc
  exact hc

theorem forall₂_modifyHead {α β : Type*} {R : α → β → Prop} {f : α → α} {g : β → β}
    (h : ∀ a b, R a b → R (f a) (g b)) : ∀ {as : List α} {bs : List β}, List.Forall₂ R as bs →
      List.Forall₂ R (as.modifyHead f) (bs.modifyHead g)
  | [], [], _ => .nil
  | _ :: _, _ :: _, .cons hab hrest => .cons (h _ _ hab) hrest

/-- The segments are decoded one by one. -/
theorem segments_percentDecode : ∀ (n : ℕ) {path decoded : Bytes}, path.length = n →
    percentDecode path = some decoded → (∀ p ∈ invalidPercentChars, ¬p <:+: path) →
    List.Forall₂ (fun segment decoded => percentDecode segment = some decoded) (segments path)
      (segments decoded) := by
  intro n
  induction n using Nat.strong_induction_on with
  | _ n ih =>
    intro path decoded hlen h hvalid
    rcases percentDecode_cases h with ⟨rfl, rfl⟩
      | ⟨hi, lo, rest, byte, tail, rfl, rfl, hbyte, htail⟩ | ⟨c, rest, tail, hc, rfl, rfl, htail⟩
    · exact .cons rfl .nil
    · have hrest :=
        ih rest.length (by rw [← hlen]; exact Nat.lt_add_of_pos_right (Nat.succ_pos 2)) rfl htail
        fun p hp hpart => hvalid p hp (infix_cons (infix_cons (infix_cons hpart)))
      have hsep : isSepAny byte = false := isSepAny_of_hexPairValue hbyte fun hmem =>
        hvalid _ hmem ⟨[], rest, rfl⟩
      obtain ⟨v, hv, h'⟩ := bind_eq_some_iff.1 hbyte
      obtain ⟨w, hw, -⟩ := bind_eq_some_iff.1 h'
      rw [segments_cons (by decide), segments_cons (isSepAny_hex hv),
        segments_cons (isSepAny_hex hw),
        segments_cons hsep, modifyHead_modifyHead, modifyHead_modifyHead]
      refine forall₂_modifyHead (fun segment decoded hsegment => ?_) hrest
      show percentDecode (percent :: hi :: lo :: segment) = _
      rw [percentDecode_percent, hbyte, hsegment]
      rfl
    · have hrest := ih rest.length (hlen ▸ Nat.lt_succ_self _) rfl htail
        fun p hp hpart => hvalid p hp (infix_cons hpart)
      cases hsep : isSepAny c with
      | true =>
        rw [segments_sep hsep, segments_sep hsep]
        exact .cons rfl hrest
      | false =>
        rw [segments_cons hsep, segments_cons hsep]
        refine forall₂_modifyHead (fun segment decoded hsegment => ?_) hrest
        rw [percentDecode_cons hc, hsegment]
        rfl

end Decoding

theorem Checked.decode {path decoded : Bytes} (h : Checked path)
    (hvalid : ∀ p ∈ invalidPercentChars, ¬p <:+: path)
    (hdecode : percentDecode path = some decoded) :
    Contained decoded := by
  constructor
  · rcases percentDecode_cases hdecode with ⟨rfl, -⟩ | ⟨hi, lo, rest, byte, tail, rfl, -, -, -⟩ |
        ⟨c, rest, tail, -, rfl, rfl, -⟩
    · cases h.absolute
    · exact absurd (some.inj h.absolute) (by decide)
    · exact h.absolute
  · have hsegments := segments_percentDecode _ rfl hdecode hvalid
    intro segment hsegment
    obtain ⟨i, hi, rfl⟩ := getElem_of_mem hsegment
    have hi' : i < (Resolver.segments path).length := hsegments.length_eq ▸ hi
    exact not_isForbidden (h.segments _ (getElem_mem hi')) (hsegments.get hi' hi)

/-- What `finalize` leaves resolved. -/
theorem finalize_contained {result : Resolution}
    (h : result.status.isResolved = true → Checked result.path) :
    (finalize result).status.isResolved = true → Contained (finalize result).path := by
  rw [finalize]
  split
  next hstatus =>
    intro hresolved
    rw [hresolved] at hstatus
    exact (Bool.false_ne_true hstatus).elim
  rename_i hstatus
  have hchecked := h (Bool.not_eq_false _ ▸ fun hfalse => hstatus (hfalse ▸ rfl))
  split
  next hplain =>
    split
    · exact fun hresolved => by cases hresolved
    · have hpercent : percent ∉ result.path := fun hmem => by
        rw [contains_iff_mem.2 hmem] at hplain
        exact Bool.false_ne_true hplain
      refine fun _ => hchecked.decode (fun p hp hpart => hpercent (hpart.subset ?_))
        (percentDecode_of_not_mem hpercent)
      have hall : ∀ p ∈ invalidPercentChars, percent ∈ p := by decide
      exact hall p hp
  split
  · exact fun hresolved => by cases hresolved
  rename_i hvalid
  split
  · exact fun hresolved => by cases hresolved
  next resolvedPath hdecode =>
    split
    · exact fun hresolved => by cases hresolved
    · obtain ⟨decoded, hdecoded, hfits⟩ := bind_eq_some_iff.1 hdecode
      split at hfits
      · rw [← some.inj hfits]
        exact fun _ => hchecked.decode (fun p hp hpart => hvalid ⟨p, hp, hpart⟩) hdecoded
      · cases hfits

/-! ## Joined paths -/

section Joined

variable {path name : Bytes} {names : List Bytes}

theorem isSepAny_sepPosix : isSepAny sepPosix = true := by decide

/-- The segments of a name are segments of the path. -/
theorem segments_of_componentsFrom : ∀ (path name : Bytes), ∀ n ∈ componentsFrom name path,
    ∀ segment ∈ segments n, segment ∈ segments (name ++ path)
  | [], name, n, hn, segment, hsegment => by
    rw [componentsFrom] at hn
    split at hn
    · cases hn
    · rw [append_nil]
      exact mem_singleton.1 hn ▸ hsegment
  | c :: path, name, n, hn, segment, hsegment => by
    rw [componentsFrom] at hn
    split at hn
    next hc =>
      rw [hc, segments_append_sep isSepAny_sepPosix, mem_append]
      split at hn
      · exact .inr (segments_of_componentsFrom path [] n hn segment hsegment)
      · rcases mem_cons.1 hn with rfl | hn
        · exact .inl hsegment
        · exact .inr (segments_of_componentsFrom path [] n hn segment hsegment)
    · rw [append_cons]
      exact segments_of_componentsFrom path (name ++ [c]) n hn segment hsegment

/-- The names that are left of a path are names of it. -/
theorem mem_foldl_enter :
    ∀ {path names : List Bytes} {name : Bytes}, name ∈ path.foldl enter names →
    name ∈ names ∨ name ∈ path ∧ name ≠ [dot]
  | [], _, _, h => .inl h
  | n :: path, names, name, h => by
    rcases mem_foldl_enter (foldl_cons .. ▸ h) with h | ⟨h, hne⟩
    · rw [enter] at h
      split at h
      · exact .inl h
      · split at h
        · exact .inl (dropLast_subset _ h)
        next hdot _ =>
          rcases mem_append.1 h with h | h
          · exact .inl h
          · rw [mem_singleton.1 h]
            exact .inr ⟨mem_cons_self, hdot⟩
    · exact .inr ⟨mem_cons_of_mem _ h, hne⟩

theorem mem_segments_slashed (names : List Bytes) : ∀ segment ∈ segments (slashed names),
    segment = [] ∨ ∃ name ∈ names, segment ∈ segments name := by
  induction names using reverseRecOn with
  | nil => exact fun segment h => .inl (mem_singleton.1 h)
  | append_singleton front last ih =>
    intro segment h
    rw [slashed_concat, segments_append_sep isSepAny_sepPosix, mem_append] at h
    rcases h with h | h
    · refine (ih segment h).imp_right ?_
      rintro ⟨name, hname, hsegment⟩
      exact ⟨name, mem_append_left _ hname, hsegment⟩
    · exact .inr ⟨last, mem_append_right _ mem_cons_self, h⟩

theorem mem_segments_absolute {trailing : Bool} {segment : Bytes}
    (h : segment ∈ segments (absolute names trailing)) :
    segment = [] ∨ ∃ name ∈ names, segment ∈ segments name := by
  rw [absolute] at h
  split at h
  · rw [segments_sep isSepAny_sepPosix, segments_nil] at h
    rcases mem_cons.1 h with h | h
    · exact .inl h
    · exact .inl (mem_singleton.1 h)
  · cases trailing with
    | false =>
      rw [trail, if_neg Bool.false_ne_true, append_nil] at h
      exact mem_segments_slashed names segment h
    | true =>
      rw [trail, if_pos rfl, segments_append_sep isSepAny_sepPosix, mem_append] at h
      rcases h with h | h
      · exact mem_segments_slashed names segment h
      · exact .inl (mem_singleton.1 h)

theorem absolute_head (names : List Bytes) (trailing : Bool) :
    (absolute names trailing).head? = some slash := by
  cases names <;> rfl

/-- A path whose names have no invalid segments. -/
theorem checked_normalize (habs : isAbsolutePosix path = true)
    (h : ∀ name ∈ components path, name = [dot] ∨
      ∀ segment ∈ segments name, isInvalidSegment segment = false) :
    Checked (normalizeStringNode path) := by
  rw [(normalizeStringNode_absolute habs).1]
  refine ⟨absolute_head _ _, fun segment hsegment => ?_⟩
  rcases mem_segments_absolute hsegment with rfl | ⟨name, hname, hsegment⟩
  · exact isInvalidSegment_nil
  · obtain ⟨hname, hdot⟩ := (mem_foldl_enter hname).resolve_left not_mem_nil
    exact (h name hname).resolve_left hdot segment hsegment

end Joined

/-! ## Targets -/

section Targets

variable {str subpath : Bytes}

/-- The names of a target: after `.` they have no invalid segments. -/
theorem valid_components_target (hleads : ¬!(text "./").isPrefixOf str)
    (h : ¬(findInvalidSegment str).isSome = true) :
    ∀ name ∈ components str, name = [dot] ∨
      ∀ segment ∈ segments name, isInvalidSegment segment = false := by
  obtain ⟨rest, rfl⟩ : text "./" <+: str := by
    rw [Bool.not_eq_true', Bool.not_eq_false] at hleads
    exact isPrefixOf_iff_prefix.1 hleads
  intro name hname
  have hsep : ∀ c ∈ (sepPosix :: rest).head?, c = sepPosix := fun c hc => (some.inj hc).symm
  have hcomponents : components ([dot] ++ sepPosix :: rest) = [dot] :: components rest :=
    (components_name (by decide) (by decide) hsep).trans (congrArg _ components_sep)
  rw [show text "./" ++ rest = [dot] ++ sepPosix :: rest from rfl] at hname h
  rw [hcomponents, mem_cons] at hname
  rw [findInvalidSegment_append_sep (forall_mem_singleton.2 rfl) isSepAny_sepPosix] at h
  exact hname.imp_right fun hname segment hsegment => findInvalidSubpathSegment_none h segment
    (segments_of_componentsFrom rest [] name hname segment hsegment)

theorem valid_components_subpath
    (h : ¬(subpath ≠ [] && (findInvalidSubpathSegment subpath).isSome)) :
    ∀ name ∈ components subpath, ∀ segment ∈ segments name, isInvalidSegment segment = false := by
  intro name hname segment hsegment
  have hmem := segments_of_componentsFrom subpath [] name hname segment hsegment
  rw [nil_append] at hmem
  rcases eq_or_ne subpath [] with rfl | hne
  · cases hname
  · rw [decide_eq_true hne, Bool.true_and] at h
    exact findInvalidSubpathSegment_none h segment hmem

theorem intercalate_root (str : Bytes) :
    [sepPosix].intercalate [text "/", str] = sepPosix :: sepPosix :: str := by
  show [text "/", [sepPosix], str].flatten = _
  rw [flatten_cons, flatten_cons, flatten_singleton]
  rfl

theorem intercalate_root_subpath (str subpath : Bytes) :
    [sepPosix].intercalate [text "/", str, subpath] =
      sepPosix :: sepPosix :: (str ++ sepPosix :: subpath) := by
  show [text "/", [sepPosix], str, [sepPosix], subpath].flatten = _
  rw [flatten_cons, flatten_cons, flatten_cons, flatten_cons, flatten_singleton]
  rfl

theorem joinStringBuf_root (hstr : str ≠ []) :
    joinStringBuf [text "/", str] = normalizeStringNode (sepPosix :: sepPosix :: str) := by
  rw [joinStringBuf, filter_cons_of_pos (by decide),
    filter_cons_of_pos (p := fun part => decide (part ≠ [])) (decide_eq_true hstr), filter_nil,
    intercalate_root]
  exact if_neg (cons_ne_nil _ _)

theorem joinStringBuf_root_subpath (hstr : str ≠ []) (subpath : Bytes) :
    joinStringBuf [text "/", str, subpath] = normalizeStringNode (sepPosix :: sepPosix ::
      if subpath = [] then str else str ++ sepPosix :: subpath) := by
  rw [joinStringBuf, filter_cons_of_pos (by decide),
    filter_cons_of_pos (p := fun part => decide (part ≠ [])) (decide_eq_true hstr)]
  by_cases h : subpath = []
  · rw [h, filter_cons_of_neg (by decide), filter_nil, intercalate_root]
    exact if_neg (cons_ne_nil _ _)
  · rw [filter_cons_of_pos (p := fun part => decide (part ≠ [])) (decide_eq_true h), filter_nil,
      intercalate_root_subpath, if_neg h]
    exact if_neg (cons_ne_nil _ _)

/-- A target joined with what is left over of the specifier. -/
theorem checked_join (hleads : ¬!(text "./").isPrefixOf str)
    (hstr : ¬(findInvalidSegment str).isSome = true)
    (hsubpath : ¬(subpath ≠ [] && (findInvalidSubpathSegment subpath).isSome)) :
    Checked (joinStringBuf [text "/", str, subpath]) := by
  have hne : str ≠ [] := by
    rintro rfl
    exact hleads rfl
  rw [joinStringBuf_root_subpath hne]
  refine checked_normalize rfl fun name hname => ?_
  rw [components_sep, components_sep] at hname
  split at hname
  · exact valid_components_target hleads hstr name hname
  · rw [components_append_sep, mem_append] at hname
    rcases hname with hname | hname
    · exact valid_components_target hleads hstr name hname
    · exact .inr (valid_components_subpath hsubpath name hname)

theorem replaceStar_head {input : Bytes} (h : input.head? = some slash) (replacement : Bytes) :
    (replaceStar input replacement).head? = some slash := by
  cases input with
  | nil => cases h
  | cons c rest =>
    obtain rfl : c = slash := some.inj h
    rfl

/-- A resolved path that is checked. -/
def Resolution.IsChecked (r : Resolution) : Prop := r.status.isResolved = true → Checked r.path

theorem isChecked_ite {p : Prop} [Decidable p] {r r' : Resolution} (h : p → r.IsChecked)
    (h' : ¬p → r'.IsChecked) : (if p then r else r').IsChecked := by
  split
  next hp => exact h hp
  next hp => exact h' hp

theorem resolveString_checked (pattern : Bool) (str subpath : Bytes) (internal : Bool) :
    (resolveString pattern (text "/") str subpath internal).IsChecked := by
  have hfail : ∀ {status path}, status.isResolved = false →
      Resolution.IsChecked ⟨status, path⟩ := by
    intro status path hstatus hresolved
    rw [hstatus] at hresolved
    cases hresolved
  rw [resolveString]
  refine isChecked_ite (fun _ => hfail rfl) fun _ => isChecked_ite (fun _ => hfail rfl) fun _ =>
    isChecked_ite (fun _ => hfail rfl) fun hsubpath => isChecked_ite (fun _ => ?_) fun hleads =>
    isChecked_ite (fun _ => hfail rfl) fun hstr => isChecked_ite (fun _ => hfail rfl) fun _ =>
    isChecked_ite (fun _ => isChecked_ite (fun _ => hfail rfl) fun _ =>
      isChecked_ite (fun _ => hfail rfl) fun hresult => ?_)
    fun _ _ => checked_join hleads hstr hsubpath
  · exact isChecked_ite (fun _ => isChecked_ite
      (fun _ => isChecked_ite (fun _ => hfail rfl) fun _ => hfail rfl) fun _ => hfail rfl) fun _ =>
      hfail rfl
  · have hne : str ≠ [] := by
      rintro rfl
      exact hleads rfl
    refine fun _ => checked_of_findInvalidSegment (replaceStar_head ?_ _) hresult
    rw [joinStringBuf_root hne, (normalizeStringNode_absolute rfl).1]
    exact absolute_head _ _

/-- What holds of all resolved paths of targets holds of those of conditions. -/
theorem resolveConditions_checked {resolveTarget : Entry → Resolution} {conditions : List Bytes}
    (h : ∀ target, (resolveTarget target).IsChecked) :
    ∀ list : List (Bytes × Entry), (resolveConditions resolveTarget conditions list).IsChecked
  | [] => fun hresolved => by cases hresolved
  | (key, value) :: list => by
    rw [resolveConditions]
    split
    · dsimp only
      split
      · exact resolveConditions_checked h list
      · exact h value
    · exact resolveConditions_checked h list

theorem resolveArray_checked {resolveTarget : Entry → Resolution}
    (h : ∀ target, (resolveTarget target).IsChecked) :
    ∀ (array : List Entry) (lastException : Status), lastException.isResolved = false →
      (resolveArray resolveTarget lastException array).IsChecked
  | [], lastException, hlast => fun hresolved =>
    (Bool.false_ne_true (hlast.symm.trans hresolved)).elim
  | targetValue :: array, lastException, hlast => by
    rw [resolveArray]
    split
    · refine resolveArray_checked h array _ ?_
      split
      next hstatus =>
        rcases hstatus with hstatus | hstatus <;> rw [hstatus] <;> rfl
      · exact hlast
    · exact h targetValue

theorem resolveTarget_checked (conditions : List Bytes) (pattern : Bool) (subpath : Bytes)
    (internal : Bool) : ∀ (room : ℕ) (target : Entry),
    (resolveTarget conditions pattern (text "/") subpath internal room target).IsChecked := by
  intro room
  induction room with
  | zero => exact fun target h => by cases h
  | succ room ih =>
    intro target
    cases target with
    | invalid => exact fun h => by cases h
    | null => exact fun h => by cases h
    | string str => exact resolveString_checked pattern str subpath internal
    | array array =>
      rw [resolveTarget]
      split
      · exact fun h => by cases h
      · exact resolveArray_checked ih array .undefined rfl
    | map list expansionKeys => exact resolveConditions_checked ih list

end Targets

/-! ## Exports and imports -/

section Match

variable (conditions : List Bytes) (room : ℕ)

theorem resolveExpansions_checked (matchKey : Bytes) (isImports : Bool) :
    ∀ expansionKeys : List (Bytes × Entry),
      (resolveExpansions conditions room matchKey isImports (text "/") expansionKeys).IsChecked
  | [] => fun h => by cases h
  | (key, target) :: expansionKeys => by
    rw [resolveExpansions]
    split
    · exact resolveTarget_checked conditions true _ isImports room target
    next subpath _ =>
      have htarget := resolveTarget_checked conditions false subpath isImports room target
      dsimp only
      split
      next hstatus =>
        refine fun _ => htarget ?_
        rcases hstatus with hstatus | hstatus <;> rw [hstatus] <;> rfl
      · exact htarget
    · exact resolveExpansions_checked matchKey isImports expansionKeys

theorem resolveImportsExports_checked (matchKey : Bytes) (isImports : Bool) (matchObj : Entry) :
    (resolveImportsExports conditions room matchKey isImports (text "/") matchObj).IsChecked := by
  unfold resolveImportsExports
  dsimp only
  split
  · exact resolveTarget_checked conditions false [] isImports room _
  · split
    · exact resolveExpansions_checked conditions room matchKey isImports _
    · exact fun h => by cases h

theorem resolveExports_checked (subpath : Bytes) (exports : Entry) :
    (resolveExports conditions room (text "/") subpath exports).IsChecked := by
  by_cases hinvalid : exports = .invalid
  · rw [hinvalid]
    exact fun h => by cases h
  rw [resolveExports]
  · split
    · split
      · exact fun h => by cases h
      · exact fun h => by cases h
      · dsimp only
        split
        · exact resolveTarget_checked conditions false [] false room _
        · exact fun h => by cases h
    split
    · dsimp only
      split
      · exact resolveImportsExports_checked conditions room subpath false exports
      · split <;> exact fun h => by cases h
    · exact fun h => by cases h
  · exact hinvalid

/-- No target, no specifier and no nesting leads out of the package. -/
theorem resolve_contained (packageConditions : List Bytes) (room : ℕ) (specifier : Bytes)
    (entry : Entry) :
    ((resolve packageConditions room (text "/") specifier entry).status.isResolved = true →
      Contained (resolve packageConditions room (text "/") specifier entry).path) ∧
    ((resolveImports packageConditions room specifier entry).status.isResolved = true →
      Contained (resolveImports packageConditions room specifier entry).path) := by
  constructor
  · exact finalize_contained (resolveExports_checked packageConditions room specifier entry)
  · rw [resolveImports.eq_def]
    split
    · dsimp only
      split
      · exact fun h => by cases h
      · exact finalize_contained
          (resolveImportsExports_checked packageConditions room specifier true _)
    · exact fun h => by cases h

theorem resolve_contained_lib : Contained (text "/lib/bar.js") ∧ Contained (text "/lib/b.js") := by
  have hexports := resolve_contained [] 8 (text "./foo/bar")
    (.map [(text "./foo/*", .string (text "./lib/*.js"))]
      [(text "./foo/*", .string (text "./lib/*.js"))])
  have himports := resolve_contained [] 8 (text "#a")
    (.map [(text "#a", .array [.string (text "./lib/%62.js"), .null])] [])
  have hbar : (resolve [] 8 (text "/") (text "./foo/bar")
      (.map [(text "./foo/*", .string (text "./lib/*.js"))]
        [(text "./foo/*", .string (text "./lib/*.js"))])).path = text "/lib/bar.js" := by
    decide +kernel
  have hb : (resolveImports [] 8 (text "#a")
      (.map [(text "#a", .array [.string (text "./lib/%62.js"), .null])] [])).path =
        text "/lib/b.js" := by
    decide +kernel
  exact ⟨hbar ▸ hexports.1 (by decide +kernel), hb ▸ himports.2 (by decide +kernel)⟩

end Match

end Soup.Resolver
