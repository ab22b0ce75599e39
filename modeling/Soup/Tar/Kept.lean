import Soup.Lib.Run
import Soup.Tar.Step

/-!
# What the records of headers leave alone

The values of pax records, sparse maps and the numbers of headers change fields of the reader that
say nothing about where it stands in the archive. `Kept` lists those that do say it.
-/

namespace Soup.Tar

open Lib

variable {composes : Bytes → Bool} {r r' r'' : Reader} {error : Error}

/-- No block of the sparse map holds less than nothing. -/
def SparseFits (sparse : List SparseBlock) : Prop := ∀ block ∈ sparse, 0 ≤ block.remaining

/-- `r'` stands where `r` does. -/
structure Kept (r r' : Reader) : Prop where
  state : r'.state = r.state
  block : r'.block = r.block
  bytesRemaining : r'.bytesRemaining = r.bytesRemaining
  padding : r'.padding = r.padding
  paxLeft : r'.paxLeft = r.paxLeft
  paxPadding : r'.paxPadding = r.paxPadding
  paxLinePos : r'.paxLinePos = r.paxLinePos
  path : r'.entry.path = r.entry.path
  sparse : SparseFits r.sparse → SparseFits r'.sparse

namespace Kept

theorem refl (r : Reader) : Kept r r := ⟨rfl, rfl, rfl, rfl, rfl, rfl, rfl, rfl, id⟩

theorem trans (h : Kept r r') (h' : Kept r' r'') : Kept r r'' where
  state := h'.state.trans h.state
  block := h'.block.trans h.block
  bytesRemaining := h'.bytesRemaining.trans h.bytesRemaining
  padding := h'.padding.trans h.padding
  paxLeft := h'.paxLeft.trans h.paxLeft
  paxPadding := h'.paxPadding.trans h.paxPadding
  paxLinePos := h'.paxLinePos.trans h.paxLinePos
  path := h'.path.trans h.path
  sparse := fun hr => h'.sparse (h.sparse hr)

end Kept

/-! ## Sparse maps -/

namespace Reader

theorem kept_addSparseBlock (r : Reader) (offset remaining : ℤ) (hole : Bool) :
    Kept r (r.addSparseBlock offset remaining hole) := by
  refine ⟨rfl, rfl, rfl, rfl, rfl, rfl, rfl, rfl, fun hr block hblock => ?_⟩
  rcases List.mem_append.1 hblock with hblock | hblock
  · exact hr block hblock
  · obtain rfl := List.mem_singleton.1 hblock
    split
    next hfits =>
      simp only [sparseBlockFits, Bool.and_eq_true, decide_eq_true_eq] at hfits
      exact hfits.1.1
    next => exact le_rfl

theorem kept_addPendingSparseBlock (h : r.addPendingSparseBlock = .ok r') : Kept r r' := by
  rw [addPendingSparseBlock] at h
  split at h
  · cases h
    obtain ⟨hstate, hblock, hbytes, hpadding, hleft, hpaxPadding, hpos, hpath, hsparse⟩ :=
      kept_addSparseBlock r r.sparseOffset r.sparseNumBytes false
    exact ⟨hstate, hblock, hbytes, hpadding, hleft, hpaxPadding, hpos, hpath, hsparse⟩
  · cases h

theorem kept_sparseMapFields (r : Reader) (offset : Option ℤ) (fields : List Bytes) :
    Kept r (r.sparseMapFields offset fields).1 := by
  induction fields generalizing r offset with
  | nil => exact .refl r
  | cons field fields ih =>
    rw [sparseMapFields.eq_def]
    dsimp only
    split
    · exact .refl r
    · cases offset with
      | none => exact ih r _
      | some offset =>
        dsimp only
        split
        · exact (kept_addSparseBlock r _ _ _).trans (ih _ _)
        · exact kept_addSparseBlock r _ _ _

theorem kept_holesFields {stop : ℤ} {hole parses : Bool} {fields : List Bytes}
    (h : r.holesFields stop hole fields = .ok (r', parses)) : Kept r r' := by
  induction fields generalizing r stop hole with
  | nil =>
    cases h
    exact .refl _
  | cons field fields ih =>
    rw [holesFields] at h
    split at h
    · cases h
      exact .refl _
    · dsimp only at h
      split at h
      · split at h
        · exact (kept_addSparseBlock r _ _ _).trans (ih h)
        · cases h
      · exact ih h

theorem kept_parseHolesData {value : Bytes} {parses : Bool}
    (h : r.parseHolesData value = .ok (r', parses)) : Kept r r' := by
  cases value with
  | nil =>
    cases h
    exact .refl _
  | cons first rest =>
    rw [parseHolesData] at h
    split at h
    · exact kept_holesFields h
    · cases h
      exact .refl _

theorem kept_oldSparseEntries {entries : List Bytes} (h : r.oldSparseEntries entries = .ok r') :
    Kept r r' := by
  induction entries generalizing r with
  | nil =>
    cases h
    exact .refl _
  | cons entry entries ih =>
    rw [oldSparseEntries] at h
    split at h
    · cases h
      exact .refl _
    · split at h
      · exact (kept_addSparseBlock r _ _ _).trans (ih h)
      · cases h

/-! ## Records -/

/-- What a record of the sparse map is read into. -/
def SparseRead (length : ℤ) (value : Value) : Prop :=
  (∃ which, numberValue length which = .ok value) ∨ (∃ status, value = .skip status) ∨
    value = .collect .sparseMap ∨ value = .collect (.paxText .pathOverride)

theorem sparseValue_cases {sparse : Bytes} {whole : Bool} {length : ℤ} :
    ∀ p, r.sparseValue sparse whole length = .ok p → Kept r p.1 ∧ SparseRead length p.2 := by
  have hnumber : ∀ {s} which, Kept r s → ∀ p, (numberValue length which).map (s, ·) = .ok p →
      Kept r p.1 ∧ SparseRead length p.2 := by
    intro s which hs p hp
    obtain ⟨value, hvalue, rfl⟩ := map_eq_ok hp
    exact ⟨hs, .inl ⟨which, hvalue⟩⟩
  have hok : ∀ {s value}, Kept r s → SparseRead length value → ∀ p,
      (Except.ok (s, value) : Except Error _) = .ok p → Kept r p.1 ∧ SparseRead length p.2 := by
    rintro s value hs hvalue _ ⟨⟩
    exact ⟨hs, hvalue⟩
  have hskip : ∀ status, SparseRead length (.skip status) := fun status => .inr (.inl ⟨status, rfl⟩)
  rw [sparseValue]
  have hs : Kept r (if sparse = [] ∨ (1 < sparse.length ∧ sparse.head? = some (b '.')) then
      { r with sparseAttributesSeen := true } else r) :=
    iteInduction (fun _ => ⟨rfl, rfl, rfl, rfl, rfl, rfl, rfl, rfl, id⟩) fun _ => .refl r
  generalize (if sparse = [] ∨ (1 < sparse.length ∧ sparse.head? = some (b '.')) then
    { r with sparseAttributesSeen := true } else r) = s at hs
  refine ok_ite (hok hs (hskip _)) <| ok_ite
    (hok (hs.trans ⟨rfl, rfl, rfl, rfl, rfl, rfl, rfl, rfl, id⟩) (hskip _)) <| ok_ite (hnumber _ hs)
      <|
    ok_ite (hnumber _ hs) <| ok_ite (hnumber _ hs) <| ok_ite
    (hok (hs.trans ⟨rfl, rfl, rfl, rfl, rfl, rfl, rfl, rfl, id⟩) ?_) <| ok_ite (hnumber _ hs) <|
    ok_ite (hnumber _ hs) <| ok_ite (hok hs ?_) <| ok_ite (hnumber _ hs) (hok hs (hskip _))
  · exact iteInduction (fun _ => hskip _) fun _ => .inr (.inr (.inl rfl))
  · exact iteInduction (fun _ => hskip _) fun _ => .inr (.inr (.inr rfl))

theorem kept_paxValue {length : ℤ} {value : Value} (h : r.paxValue length = .ok (r', value)) :
    Kept r r' := by
  rw [paxValue] at h
  split at h
  · cases h
    exact .refl r
  · split at h
    · exact (sparseValue_cases _ h).1
    · obtain ⟨value', -, hvalue⟩ := map_eq_ok h
      cases hvalue
      exact .refl r

theorem kept_onPaxNumber {which : Number} {value : ℤ} (h : r.onPaxNumber which value = .ok r') :
    Kept r r' := by
  have hsame : ∀ s : Reader, Kept r { r with
      sparseOffset := s.sparseOffset, sparseNumBytes := s.sparseNumBytes } :=
    fun _ => ⟨rfl, rfl, rfl, rfl, rfl, rfl, rfl, rfl, id⟩
  cases which with
  | sparseOffset =>
    simp only [onPaxNumber] at h
    have hset : Kept r { r with sparseOffset := value } := hsame { r with sparseOffset := value }
    split at h
    · exact hset.trans (kept_addPendingSparseBlock h)
    · cases h
      exact hset
  | sparseNumBytes =>
    simp only [onPaxNumber] at h
    have hset : Kept r { r with sparseNumBytes := value } :=
      hsame { r with sparseNumBytes := value }
    split at h
    · exact hset.trans (kept_addPendingSparseBlock h)
    · cases h
      exact hset
  | sparseMajor | sparseMinor =>
    simp only [onPaxNumber, Except.ok.injEq] at h
    subst h
    split
    · exact ⟨rfl, rfl, rfl, rfl, rfl, rfl, rfl, rfl, id⟩
    · exact .refl r
  | sparseSize | sparseRealSize | schilyRealSize | size | unused =>
    cases h
    exact ⟨rfl, rfl, rfl, rfl, rfl, rfl, rfl, rfl, id⟩

theorem kept_usePaxValue {what : Collect} {value : Bytes} {status : Status}
    (h : r.usePaxValue composes what value = .ok (r', status)) : Kept r r' := by
  cases what with
  | longName | longLink | symlinkType =>
    cases h
    exact .refl r
  | number which =>
    simp only [usePaxValue] at h
    split at h
    · obtain ⟨s, hs, hr'⟩ := map_eq_ok h
      cases hr'
      exact kept_onPaxNumber hs
    · split at h
      · cases h
      · cases h
        exact .refl r
  | time isMtime =>
    simp only [usePaxValue, Except.ok.injEq, Prod.mk.injEq] at h
    obtain ⟨rfl, -⟩ := h
    split
    · exact ⟨rfl, rfl, rfl, rfl, rfl, rfl, rfl, rfl, id⟩
    · exact .refl r
  | paxText which =>
    cases which <;>
    · cases h
      exact ⟨rfl, rfl, rfl, rfl, rfl, rfl, rfl, rfl, id⟩
  | headerCharset =>
    cases h
    exact ⟨rfl, rfl, rfl, rfl, rfl, rfl, rfl, rfl, id⟩
  | sparseMap =>
    cases h
    exact kept_sparseMapFields r none _
  | holesData =>
    obtain ⟨⟨s, parses⟩, hs, hr'⟩ := map_eq_ok h
    cases hr'
    exact kept_parseHolesData hs

/-- The value of a record of a pax header. -/
theorem useCollected_eq {what : Collect} (hwhat : ¬ (what = .longName ∨ what = .longLink))
    (value : Bytes) : r.useCollected composes what value =
      (r.usePaxValue composes what value).map fun (r, status) =>
        { r with state := .paxNewline status } := by
  cases what <;> first | rfl | exact absurd (by simp) hwhat

/-! ## Headers with a body of their own -/

/-- What becomes of the body of a header that says something about the entry behind it. -/
inductive SpecialBody (s : Reader) (size : ℤ) : Reader → Prop
  | skip (status : Status) : 0 ≤ size → SpecialBody s size (s.skipBody size status)
  | collect (what : Collect) : 0 ≤ size → what = .longName ∨ what = .longLink →
      SpecialBody s size { s with collected := [], state := .collect size.toNat what }
  | pax : 0 ≤ size → SpecialBody s size
      (beginPaxLine { s with paxStatus := .ok, paxLeft := size, paxPadding := paddingFor size })

variable {size : ℤ}

theorem beginBody_cases {what : Option Collect}
    (hwhat : ∀ w ∈ what, w = .longName ∨ w = .longLink) (h : r.beginBody size what = .ok r') :
    SpecialBody r size r' := by
  rw [beginBody.eq_def] at h
  split at h
  · cases h
  next hrange =>
    rw [not_not] at hrange
    split at h
    · cases h
      exact .skip _ hrange.1
    · cases what with
      | none =>
        cases h
        exact .skip _ hrange.1
      | some what =>
        cases h
        exact .collect _ hrange.1 (hwhat what rfl)

theorem beginPax_cases (h : r.beginPax size = .ok r') : SpecialBody r size r' := by
  rw [beginPax] at h
  split at h
  · cases h
  next hrange =>
    rw [not_not] at hrange
    split at h
    · cases h
    · split at h
      · cases h
        exact .skip _ hrange.1
      · cases h
        exact .pax hrange.1

theorem onSpecialHeader_cases {flag : UInt8} : ∀ r', r.onSpecialHeader flag size = .ok r' →
    ∃ seen status format, SpecialBody { r with seen, status, format } size r' := by
  have hfail : ∀ {P : Reader → Prop} {error : Error} r',
      (Except.error error : Except Error Reader) = .ok r' → P r' := by
    rintro _ _ _ ⟨⟩
  refine ok_ite (ok_ite hfail ?_) <| ok_ite (ok_ite hfail ?_) <| ok_ite ?_ <| ok_ite ?_ <| ok_ite ?_
    <| ok_ite hfail ?_
  · exact fun r' h => ⟨_, _, _, beginBody_cases (by rintro _ ⟨⟩) h⟩
  · intro r' h
    split at h
    · cases h
    next hrange =>
      rw [not_not] at hrange
      split at h
      · cases h
      · cases h
        exact ⟨_, _, _, .skip _ hrange.1⟩
  · exact fun r' h => ⟨_, _, _, beginBody_cases (by rintro _ ⟨⟩; exact .inr rfl) h⟩
  · exact fun r' h => ⟨_, _, _, beginBody_cases (by rintro _ ⟨⟩; exact .inl rfl) h⟩
  · intro r' h
    dsimp only at h
    split at h
    · cases h
    next hrange =>
      rw [not_not] at hrange
      cases h
      exact ⟨_, _, _, .skip _ hrange.1⟩
  · exact fun r' h => ⟨_, _, _, beginPax_cases h⟩

end Reader

end Soup.Tar
