import Mathlib.Algebra.Order.BigOperators.Group.List
import Soup.Lib.Run
import Soup.Lib.Swar
import Soup.Semver.SmallString

/-!
# The texts of small strings

A string gives back the text that it was made of, as long as the text is shorter than `2 ^ 31` bytes
and starts in the first `2 ^ 32` bytes of the buffer (`Stores.slice`). The builder keeps that for
everything that was appended, whatever the hashes are (`Builder.appendAll_stored`).
-/

namespace Soup.Semver

open Lib List Function Option Nat

namespace SemverString

variable {text : Bytes} {off : ℕ} {string : SemverString}

/-! ## Texts that are in the string -/

theorem inlineLen_eq (string : SemverString) :
    string.inlineLen = (string.bytes.takeWhile fun c => c ≠ 0).length := by
  have h : ∀ n (cs : List UInt8), cs.length = n →
      (zeroBytes n (BitVec.ofNat _ (ofLittleEndian cs))).ctz.toNat / 8 =
        (cs.takeWhile fun c => c ≠ 0).length := by
    rintro n cs rfl
    exact ctz_zeroBytes cs
  exact h 8 string.bytes string.length_bytes

theorem and_0x80 (c : UInt8) : c &&& 0x80 = 0 ↔ c.toNat.testBit 7 = false := by
  have h : ∀ n < 256, (UInt8.ofNat n &&& 0x80 = 0 ↔ (UInt8.ofNat n).toNat.testBit 7 = false) := by
    decide +kernel
  have hc := h c.toNat c.toNat_lt
  rwa [UInt8.ofNat_toNat] at hc

theorem and_0x80_of_ge {c : UInt8} : 128 ≤ c ↔ ¬c &&& 0x80 = 0 := by
  have h : ∀ n < 256, (128 ≤ UInt8.ofNat n ↔ ¬UInt8.ofNat n &&& 0x80 = 0) := by
    decide +kernel
  have hc := h c.toNat c.toNat_lt
  rwa [UInt8.ofNat_toNat] at hc

theorem canInline_iff : canInline text = true ↔
    text.length < 8 ∨ text.length = 8 ∧ text.getD 7 0 &&& 0x80 = 0 := by
  rw [canInline, maxInlineLen]
  split
  · exact iff_of_true rfl (.inl (by omega))
  · split
    next hlen =>
      rw [decide_eq_true_eq]
      exact ⟨fun h => .inr ⟨hlen, h⟩, fun h => (h.resolve_left (by omega)).2⟩
    · exact iff_of_false Bool.false_ne_true (by omega)

theorem length_of_canInline (h : canInline text = true) : text.length ≤ 8 := by
  rcases canInline_iff.1 h with h | h <;> omega

theorem init_of_canInline (h : canInline text = true) : init off text = inline text := by
  rw [init, maxInlineLen]
  rcases canInline_iff.1 h with h | ⟨hlen, hbit⟩
  · rw [if_pos h]
  · rw [if_neg (by omega), if_pos hlen, if_neg]
    exact fun hge => and_0x80_of_ge.1 hge hbit

theorem init_of_not_canInline (h : ¬canInline text = true) :
    init off text = ofPointer (Pointer.init off text) := by
  rw [canInline_iff, not_or, not_and] at h
  rw [init, maxInlineLen, if_neg h.1]
  split
  next hlen =>
    rw [if_pos (and_0x80_of_ge.2 (h.2 hlen))]
  · rfl

theorem inline_bytes (hlen : text.length ≤ 8) :
    (inline text).bytes = text ++ replicate (8 - text.length) 0 := by
  change (text ++ replicate 8 0).take 8 = _
  rw [take_append, take_of_length_le hlen, take_replicate, min_eq_left (sub_le _ _)]

/-- The high bit of the last byte is for pointers. -/
theorem inline_last (h : canInline text = true) :
    (inline text).bytes.getD (maxInlineLen - 1) 0 &&& 0x80 = 0 := by
  rw [inline_bytes (length_of_canInline h), maxInlineLen]
  rcases canInline_iff.1 h with hlt | ⟨hlen, hbit⟩
  · rw [getD_append_right _ _ _ _ (by omega), getD_eq_getElem?_getD,
      getElem?_replicate_of_lt (by omega)]
    rfl
  · rw [hlen, replicate_zero, append_nil]
    exact hbit

theorem slice_inline (h : canInline text = true) (hnul : 0 ∉ text) (buf : Bytes) :
    (inline text).slice buf = text := by
  have hlen := length_of_canInline h
  have hne : ∀ c ∈ text, decide (c ≠ 0) = true := fun c hc =>
    decide_eq_true fun hzero => hnul (hzero ▸ hc)
  rw [slice, if_pos (inline_last h), inlineLen_eq, inline_bytes hlen, takeWhile_append_of_pos hne]
  have hzeros : (replicate (8 - text.length) (0 : UInt8)).takeWhile (fun c => c ≠ 0) = [] := by
    cases 8 - text.length <;> rfl
  rw [hzeros, append_nil, take_left']
  rfl

/-! ## Texts in a buffer -/

theorem two_pow_or {b i : ℕ} (hb : b < 2 ^ i) : b ||| 2 ^ i = b + 2 ^ i := by
  have hor := two_pow_add_eq_or_of_lt hb 1
  simp only [mul_one] at hor
  rw [lor_comm, ← hor, add_comm]

theorem packed_eq (off len : ℕ) (hoff : off < 2 ^ 32) :
    (off + 2 ^ 32 * len &&& (2 ^ 63 - 1)) ||| 2 ^ 63 =
      off + 2 ^ 32 * (len % 2 ^ 31) + 2 ^ 63 := by
  have hmod : (off + 2 ^ 32 * len) % 2 ^ 63 = off + 2 ^ 32 * (len % 2 ^ 31) := by omega
  rw [and_two_pow_sub_one_eq_mod, hmod, two_pow_or (by omega)]

variable (pointer : Pointer)

section

variable (hoff : pointer.off < 2 ^ 32)
include hoff

theorem bits_ofPointer :
    (ofPointer pointer).bits = pointer.off + 2 ^ 32 * (pointer.len % 2 ^ 31) + 2 ^ 63 := by
  have hpacked := packed_eq pointer.off pointer.len hoff
  refine (ofLittleEndian_toLittleEndian ?_).trans hpacked
  refine hpacked.trans_lt ?_
  omega

/-- The length loses its highest bit. -/
theorem ptr_ofPointer : (ofPointer pointer).ptr = ⟨pointer.off, pointer.len % 2 ^ 31⟩ := by
  have hmod : (ofPointer pointer).bits % 2 ^ 63 = pointer.off + 2 ^ 32 *
      (pointer.len % 2 ^ 31) := by
    rw [bits_ofPointer pointer hoff]
    omega
  have hoff' : (pointer.off + 2 ^ 32 * (pointer.len % 2 ^ 31)) % 2 ^ 32 = pointer.off := by omega
  have hlen : (pointer.off + 2 ^ 32 * (pointer.len % 2 ^ 31)) / 2 ^ 32 =
    pointer.len % 2 ^ 31 := by omega
  have hmask : (ofPointer pointer).bits &&& maxAddressableSpaceMask =
      pointer.off + 2 ^ 32 * (pointer.len % 2 ^ 31) :=
    (and_two_pow_sub_one_eq_mod _ 63).trans hmod
  rw [ptr, hmask, Pointer.fromBits, hoff', hlen]

theorem ofPointer_last : ¬(ofPointer pointer).bytes.getD (maxInlineLen - 1) 0 &&& 0x80 = 0 := by
  have hbit := testBit_ofLittleEndian (ofPointer pointer).bytes (maxInlineLen - 1) 7 (by decide)
  have hbits : ofLittleEndian (ofPointer pointer).bytes =
      pointer.off + 2 ^ 32 * (pointer.len % 2 ^ 31) + 2 ^ 63 := bits_ofPointer pointer hoff
  have htest : (pointer.off + 2 ^ 32 * (pointer.len % 2 ^ 31) + 2 ^ 63).testBit 63 = true := by
    rw [testBit_eq_decide_div_mod_eq, decide_eq_true_eq]
    omega
  rw [hbits] at hbit
  rw [and_0x80, ← hbit]
  exact fun hfalse => Bool.false_ne_true (hfalse.symm.trans htest)

theorem slice_ofPointer (buf : Bytes) :
    (ofPointer pointer).slice buf = (getRange buf ⟨pointer.off, pointer.len % 2 ^ 31⟩).getD [] := by
  rw [slice, if_neg (ofPointer_last pointer hoff), ptr_ofPointer pointer hoff]

end

/-- The string is one of the text: it holds the text, or points to it before `len`. -/
def Stores (allocated : Bytes) (len : ℕ) (string : SemverString) (text : Bytes) : Prop :=
  if canInline text then string = inline text
  else ∃ off, off + text.length ≤ len ∧ len ≤ allocated.length ∧
    (allocated.drop off).take text.length = text ∧ string = ofPointer (Pointer.init off text)

/-- The lengths that a pointer has room for. -/
structure Fits (text : Bytes) : Prop where
  nul : 0 ∉ text
  length_lt : text.length < 2 ^ 31

variable {allocated : Bytes} {len : ℕ}

theorem length_pos_of_not_canInline (h : ¬canInline text = true) : 8 ≤ text.length := by
  rw [canInline_iff, not_or] at h
  exact not_lt.1 h.1

theorem getRange_pointer {text : Bytes} (h : ¬canInline text = true) (hlt : text.length < 2 ^ 31)
    (hoff : off + text.length ≤ len) (hlen : len ≤ allocated.length) (hbound : len ≤ 2 ^ 32)
    (htext : (allocated.drop off).take text.length = text) :
    off < 2 ^ 32 ∧ getRange allocated ⟨(Pointer.init off text).off,
      (Pointer.init off text).len % 2 ^ 31⟩ = some text := by
  have hpos := length_pos_of_not_canInline h
  have hoffLt : off < 2 ^ 32 := by omega
  have hlenMod : text.length % 2 ^ 32 % 2 ^ 31 = text.length := by omega
  refine ⟨hoffLt, ?_⟩
  rw [Pointer.init, getRange]
  rw [hlenMod, mod_eq_of_lt hoffLt, if_pos (hoff.trans hlen), htext]

/-- A string gives back its text. -/
theorem Stores.slice (h : Stores allocated len string text) (hfits : Fits text)
    (hbound : len ≤ 2 ^ 32) : string.slice allocated = text := by
  rw [Stores] at h
  split at h
  next hinline =>
    rw [h]
    exact slice_inline hinline hfits.nul allocated
  next hinline =>
    obtain ⟨off, hoff, hlen, htext, rfl⟩ := h
    obtain ⟨-, hrange⟩ := getRange_pointer hinline hfits.length_lt hoff hlen hbound htext
    rw [slice_ofPointer _ (mod_lt _ (by decide)), hrange, getD_some]

theorem Stores.isInline (h : Stores allocated len string text) :
    string.isInline = canInline text := by
  rw [Stores] at h
  split at h
  next hinline =>
    rw [h, hinline]
    exact decide_eq_true (inline_last hinline)
  next hinline =>
    obtain ⟨off, -, -, -, rfl⟩ := h
    rw [Bool.eq_false_iff.2 hinline]
    exact decide_eq_false (ofPointer_last _ (mod_lt _ (by decide)))

theorem bits_injective {a b : SemverString} (h : a.bits = b.bits) : a = b := by
  obtain ⟨as, ha⟩ := a
  obtain ⟨bs, hb⟩ := b
  have hbytes : as = bs := by
    rw [← toLittleEndian_ofLittleEndian as, ← toLittleEndian_ofLittleEndian bs, ha, hb]
    exact congrArg (toLittleEndian 8) h
  subst hbytes
  rfl

/-- Two strings of one buffer are equal when their texts are. -/
theorem Stores.eql {a b : SemverString} {s t : Bytes} (ha : Stores allocated len a s)
    (hb : Stores allocated len b t) (hs : Fits s) (ht : Fits t) (hbound : len ≤ 2 ^ 32) :
    a.eql b allocated allocated = true ↔ s = t := by
  rw [SemverString.eql, ha.isInline, hb.isInline]
  cases hsInline : canInline s <;> cases htInline : canInline t
  · rw [if_neg (by decide), if_neg (by decide)]
    rw [Stores, if_neg (Bool.not_eq_true _ ▸ hsInline)] at ha
    rw [Stores, if_neg (Bool.not_eq_true _ ▸ htInline)] at hb
    obtain ⟨off, hoff, hlen, htext, rfl⟩ := ha
    obtain ⟨off', hoff', -, htext', rfl⟩ := hb
    obtain ⟨-, hrange⟩ := getRange_pointer (Bool.not_eq_true _ ▸ hsInline) hs.length_lt hoff hlen
      hbound htext
    obtain ⟨-, hrange'⟩ := getRange_pointer (Bool.not_eq_true _ ▸ htInline) ht.length_lt hoff' hlen
      hbound htext'
    rw [ptr_ofPointer _ (mod_lt _ (by decide)), ptr_ofPointer _ (mod_lt _ (by decide)), hrange,
      hrange']
    exact decide_eq_true_iff
  · rw [if_neg (by decide), if_pos (by decide)]
    refine iff_of_false Bool.false_ne_true ?_
    rintro rfl
    exact Bool.false_ne_true (hsInline.symm.trans htInline)
  · rw [if_neg (by decide), if_pos (by decide)]
    refine iff_of_false Bool.false_ne_true ?_
    rintro rfl
    exact Bool.false_ne_true (htInline.symm.trans hsInline)
  · rw [if_pos (by decide), decide_eq_true_iff]
    constructor
    · intro h
      rw [← ha.slice hs hbound, ← hb.slice ht hbound, bits_injective h]
    · rintro rfl
      rw [Stores, if_pos hsInline] at ha hb
      rw [ha, hb]

/-- What is written behind `len` is in no text. -/
theorem Stores.write {new : Bytes} (h : Stores allocated len string text)
    (hnew : len + new.length ≤ allocated.length) :
    Stores (overwrite allocated len new) (len + new.length) string text := by
  rw [Stores] at h ⊢
  split at h
  next hinline =>
    rw [if_pos hinline]
    exact h
  next hinline =>
    obtain ⟨off, hoff, -, htext, rfl⟩ := h
    rw [if_neg hinline]
    refine ⟨off, hoff.trans (le_add_right _ _), (length_overwrite hnew).symm ▸ hnew, ?_, rfl⟩
    rw [take_drop_overwrite_of_disjoint hnew (.inl hoff), htext]

/-- The text that is written. -/
theorem stores_overwrite (htext : ¬canInline text = true)
    (hnew : len + text.length ≤ allocated.length) :
    Stores (overwrite allocated len text) (len + text.length) (init len text) text := by
  rw [Stores, if_neg htext]
  exact ⟨len, le_rfl, (length_overwrite hnew).symm ▸ hnew, take_drop_overwrite hnew,
    init_of_not_canInline htext⟩

theorem stores_inline (htext : canInline text = true) :
    Stores allocated len (init off text) text := by
  rw [Stores, if_pos htext]
  exact init_of_canInline htext

end SemverString

/-! ## The builder -/

namespace Builder

open SemverString

variable {builder : Builder} {allocated text : Bytes}

/-- The bytes that a text needs in the buffer. -/
def cost (text : Bytes) : ℕ := if canInline text then 0 else text.length

/-- The buffer is allocated. -/
structure Room (builder : Builder) (allocated : Bytes) : Prop where
  ptr : builder.ptr = some allocated
  length : allocated.length = builder.cap
  len_le : builder.len ≤ builder.cap

/-- The strings of the pool are in the buffer. -/
structure Ready (builder : Builder) (allocated : Bytes) : Prop extends Room builder allocated where
  pool : ∀ key value, builder.stringPool key = some value → ∃ text, Fits text ∧
    Stores allocated builder.len value text

theorem Room.write (h : Room builder allocated) (text : Bytes) :
    builder.write text = if builder.len + text.length ≤ builder.cap then
      .ok { builder with
        ptr := some (overwrite allocated builder.len text)
        len := builder.len + text.length }
    else .error .outOfRange := by
  have hlen := h.len_le
  have hroom : ((allocated.take builder.cap).drop builder.len).length =
      builder.cap - builder.len := by
    rw [length_drop, length_take, h.length, min_self]
  rw [Builder.write, h.ptr]
  dsimp only
  rw [if_pos ⟨le_of_eq h.length.symm, hlen⟩, copyFromSlice, hroom]
  by_cases hfits : builder.len + text.length ≤ builder.cap
  · rw [if_pos hfits, if_pos (by omega), ok_bind, ← h.length, take_length, drop_length,
      append_nil, overwrite, overwrite, take_zero, nil_append, drop_drop, zero_add,
      add_comm]
  · rw [if_neg hfits, if_neg (by omega)]
    rfl

theorem Ready.allocated_eq (h : Ready builder allocated) : builder.allocated = .ok allocated := by
  rw [Builder.allocated, h.ptr]
  dsimp only
  rw [if_pos (le_of_eq h.length.symm), ← h.length, take_length]

theorem Ready.allocatedSlice (h : Ready builder allocated) :
    ∃ bytes, builder.allocatedSlice = .ok bytes := by
  rw [Builder.allocatedSlice]
  split
  · exact ⟨allocated, h.allocated_eq⟩
  · exact ⟨[], rfl⟩

/-- A text is appended: the string is one of it, and those of before stay so. -/
structure Appended (builder : Builder) (allocated text : Bytes) (string : SemverString)
    (builder' : Builder) (allocated' : Bytes) : Prop where
  ready : Ready builder' allocated'
  cap : builder'.cap = builder.cap
  stores : Stores allocated' builder'.len string text
  mono : ∀ value other, Stores allocated builder.len value other →
    Stores allocated' builder'.len value other
  len_le : builder'.len ≤ builder.len + cost text

/-- The text is inlined, or in the pool. -/
theorem Ready.appended_self (h : Ready builder allocated) {string : SemverString}
    (hstores : Stores allocated builder.len string text) :
    Appended builder allocated text string builder allocated :=
  ⟨h, rfl, hstores, fun _ _ => id, le_add_right _ _⟩

/-- The text is written, and may go to the pool. -/
theorem Ready.appended_write (h : Ready builder allocated) (htext : ¬canInline text = true)
    (hfits : builder.len + text.length ≤ builder.cap) {pool : UInt64 → Option SemverString}
    (hpool : ∀ key value, pool key = some value → builder.stringPool key = some value ∨
      value = init builder.len text ∧ Fits text) :
    Appended builder allocated text (init builder.len text) { builder with
      ptr := some (overwrite allocated builder.len text)
      len := builder.len + text.length
      stringPool := pool } (overwrite allocated builder.len text) := by
  have hroom : builder.len + text.length ≤ allocated.length := h.length ▸ hfits
  refine ⟨⟨⟨rfl, (length_overwrite hroom).trans h.length, hfits⟩, fun key value hvalue => ?_⟩, rfl,
    stores_overwrite htext hroom, fun value other hother => hother.write hroom, ?_⟩
  · rcases hpool key value hvalue with hold | ⟨rfl, hnew⟩
    · obtain ⟨other, hother, hstores⟩ := h.pool key value hold
      exact ⟨other, hother, hstores.write hroom⟩
    · exact ⟨text, hnew, stores_overwrite htext hroom⟩
  · rw [cost, if_neg htext]

variable {hash : Bytes → UInt64}

/-- No text of that hash is in the pool: the text is written. -/
theorem Room.append_new (h : Room builder allocated) (htext : ¬canInline text = true)
    (hpool : builder.stringPool (hash text) = none) :
    builder.append hash text = if builder.len + text.length ≤ builder.cap then
      .ok (init builder.len text, { builder with
        ptr := some (overwrite allocated builder.len text)
        len := builder.len + text.length
        stringPool := update builder.stringPool (hash text) (some (init builder.len text)) })
    else .error .outOfRange := by
  rw [Builder.append, if_neg htext, hpool]
  dsimp only
  rw [h.write]
  split <;> rfl

theorem Ready.append (hash : Bytes → UInt64) (h : Ready builder allocated)
    (hcap : builder.cap ≤ 2 ^ 32) (hfits : Fits text) :
    (builder.len + cost text ≤ builder.cap → ∃ result, builder.append hash text = .ok result) ∧
    ∀ string builder', builder.append hash text = .ok (string, builder') →
      ∃ allocated', Appended builder allocated text string builder' allocated' := by
  have hbound : builder.len ≤ 2 ^ 32 := h.len_le.trans hcap
  rw [cost]
  by_cases htext : canInline text = true
  · obtain ⟨bytes, hbytes⟩ := h.allocatedSlice
    rw [Builder.append, if_pos htext, if_pos htext, hbytes, ok_bind]
    refine ⟨fun _ => ⟨_, rfl⟩, ?_⟩
    rintro string builder' hrun
    obtain ⟨rfl, rfl⟩ := Prod.mk.inj (Except.ok.inj hrun)
    exact ⟨allocated, h.appended_self (stores_inline htext)⟩
  · rw [if_neg htext]
    cases hpool : builder.stringPool (hash text) with
    | none =>
      rw [h.toRoom.append_new htext hpool]
      by_cases hroom : builder.len + text.length ≤ builder.cap
      · rw [if_pos hroom]
        refine ⟨fun _ => ⟨_, rfl⟩, ?_⟩
        rintro string builder' hrun
        obtain ⟨rfl, rfl⟩ := Prod.mk.inj (Except.ok.inj hrun)
        refine ⟨_, h.appended_write htext hroom fun key value hvalue => ?_⟩
        rcases eq_or_ne key (hash text) with rfl | hne
        · rw [update_self] at hvalue
          exact .inr ⟨(some.inj hvalue).symm, hfits⟩
        · rw [update_of_ne hne] at hvalue
          exact .inl hvalue
      · rw [if_neg hroom]
        exact ⟨fun hle => absurd hle hroom, fun _ _ hrun => nomatch hrun⟩
    | some value =>
      obtain ⟨other, hother, hstores⟩ := h.pool _ _ hpool
      rw [Builder.append, if_neg htext, hpool]
      dsimp only
      rw [h.allocated_eq, ok_bind, hstores.slice hother hbound]
      by_cases heq : other = text
      · rw [if_pos heq]
        refine ⟨fun _ => ⟨_, rfl⟩, ?_⟩
        rintro string builder' hrun
        obtain ⟨rfl, rfl⟩ := Prod.mk.inj (Except.ok.inj hrun)
        exact ⟨allocated, h.appended_self (heq ▸ hstores)⟩
      · rw [if_neg heq, appendWithoutPool, if_neg htext, h.toRoom.write]
        by_cases hroom : builder.len + text.length ≤ builder.cap
        · rw [if_pos hroom, ok_bind]
          refine ⟨fun _ => ⟨_, rfl⟩, ?_⟩
          rintro string builder' hrun
          obtain ⟨rfl, rfl⟩ := Prod.mk.inj (Except.ok.inj hrun)
          exact ⟨_, h.appended_write htext hroom fun _ _ hvalue => .inl hvalue⟩
        · rw [if_neg hroom]
          exact ⟨fun hle => absurd hle hroom, fun _ _ hrun => nomatch hrun⟩

/-! ## A run -/

/-- What the strings of a run are. -/
structure Stored (cap : ℕ) (texts : List Bytes) (strings : List SemverString) (allocated : Bytes) :
    Prop where
  length : allocated.length = cap
  slice : List.Forall₂ (fun string text => string.slice allocated = text) strings texts
  eql : ∀ a s b t, (a, s) ∈ strings.zip texts → (b, t) ∈ strings.zip texts →
    (a.eql b allocated allocated = true ↔ s = t)

theorem Ready.appendAll (hash : Bytes → UInt64) :
    ∀ {texts : List Bytes} {builder : Builder} {allocated : Bytes},
    Ready builder allocated → builder.cap ≤ 2 ^ 32 → (∀ text ∈ texts, Fits text) →
    (builder.len + (texts.map cost).sum ≤ builder.cap →
      ∃ result, appendAll hash builder texts = .ok result) ∧
    ∀ strings builder', appendAll hash builder texts = .ok (strings, builder') →
      ∃ allocated', Ready builder' allocated' ∧ builder'.cap = builder.cap ∧
        List.Forall₂ (fun string text => Stores allocated' builder'.len string text) strings texts ∧
        ∀ value other, Stores allocated builder.len value other →
          Stores allocated' builder'.len value other
  | [], builder, allocated, h, _, _ => by
    refine ⟨fun _ => ⟨_, rfl⟩, fun strings builder' hrun => ?_⟩
    obtain ⟨rfl, rfl⟩ := Prod.mk.inj (Except.ok.inj hrun)
    exact ⟨allocated, h, rfl, .nil, fun _ _ => id⟩
  | text :: texts, builder, allocated, h, hcap, hfits => by
    obtain ⟨hok, hrun₁⟩ := h.append hash hcap (hfits text mem_cons_self)
    rw [Builder.appendAll]
    cases hrun : builder.append hash text with
    | error panic =>
      refine ⟨fun hle => ?_, fun _ _ hrun => nomatch hrun⟩
      rw [map_cons, sum_cons] at hle
      obtain ⟨result, hresult⟩ := hok (by omega)
      exact nomatch hrun.symm.trans hresult
    | ok result =>
      obtain ⟨string, builder₁⟩ := result
      obtain ⟨allocated₁, happended⟩ := hrun₁ string builder₁ hrun
      obtain ⟨hok₁, hrest⟩ := happended.ready.appendAll hash (happended.cap ▸ hcap)
        fun other hother => hfits other (mem_cons_of_mem _ hother)
      have hlen := happended.len_le
      have hcapEq := happended.cap
      rw [ok_bind]
      dsimp only
      cases hrun₂ : Builder.appendAll hash builder₁ texts with
      | error panic =>
        refine ⟨fun hle => ?_, fun _ _ hrun => nomatch hrun⟩
        rw [map_cons, sum_cons] at hle
        obtain ⟨result, hresult⟩ := hok₁ (by omega)
        exact nomatch hrun₂.symm.trans hresult
      | ok result =>
        obtain ⟨strings, builder₂⟩ := result
        refine ⟨fun _ => ⟨_, rfl⟩, ?_⟩
        rintro strings' builder' hrun'
        obtain ⟨rfl, rfl⟩ := Prod.mk.inj (Except.ok.inj hrun')
        obtain ⟨allocated', hready, hcap', hstores, hmono⟩ := hrest strings builder₂ hrun₂
        exact ⟨allocated', hready, hcap'.trans hcapEq, .cons (hmono _ _ happended.stores) hstores,
          fun value other hother => hmono value other (happended.mono value other hother)⟩

/-- The room that is counted: every text that is not inlined. -/
theorem count_foldl (hash : Bytes → UInt64) (texts : List Bytes) : ∀ builder : Builder,
    (∀ key, builder.stringPool key = none) → texts.foldl (count hash) builder =
      { builder with cap := builder.cap + (texts.map cost).sum } := by
  induction texts with
  | nil => exact fun _ _ => rfl
  | cons text texts ih =>
    intro builder hpool
    rw [foldl_cons, map_cons, sum_cons, cost, count]
    split
    · rw [ih builder hpool, zero_add]
    · rw [hpool, if_neg (by decide)]
      refine (ih { builder with cap := builder.cap + text.length } hpool).trans ?_
      rw [add_assoc]

theorem ready_counted (hash : Bytes → UInt64) (texts : List Bytes) :
    Ready (counted hash texts) (replicate (texts.map cost).sum 0) ∧
      (counted hash texts).cap = (texts.map cost).sum ∧ (counted hash texts).len = 0 := by
  rw [counted, count_foldl hash texts _ fun _ => rfl]
  have hcap : Builder.empty.cap + (texts.map cost).sum = (texts.map cost).sum := zero_add _
  rw [hcap]
  refine ⟨⟨⟨rfl, length_replicate, zero_le _⟩, fun key value hvalue => ?_⟩, rfl, rfl⟩
  exact nomatch hvalue

/-- The texts are counted and then appended, each as often as it was counted or less often: there is
room for all of them. Whatever is appended, its strings give back the texts, unless the builder
stops. -/
theorem appendAll_stored (hash : Bytes → UInt64) (texts appended : List Bytes)
    (hfits : ∀ text ∈ appended, Fits text) (hcap : (texts.map cost).sum ≤ 2 ^ 32) :
    (appended.Subperm texts → ∃ result, appendAll hash (counted hash texts) appended = .ok result) ∧
    ∀ strings builder, appendAll hash (counted hash texts) appended = .ok (strings, builder) →
      ∃ allocated, builder.ptr = some allocated ∧
        Stored (texts.map cost).sum appended strings allocated := by
  obtain ⟨hready, hcapEq, hlenEq⟩ := ready_counted hash texts
  obtain ⟨hok, hrun⟩ := hready.appendAll hash (hcapEq ▸ hcap) hfits
  constructor
  · intro hsub
    refine hok ?_
    rw [hlenEq, hcapEq, zero_add]
    obtain ⟨sub, hperm, hsublist⟩ := hsub
    rw [← (hperm.map cost).sum_eq]
    exact (hsublist.map cost).sum_le_sum fun _ _ => zero_le _
  · intro strings builder hresult
    obtain ⟨allocated, hready', hcap', hstores, -⟩ := hrun strings builder hresult
    rw [hcapEq] at hcap'
    have hbound : builder.len ≤ 2 ^ 32 := hready'.len_le.trans (hcap' ▸ hcap)
    have hmem : ∀ string text, (string, text) ∈ strings.zip appended →
        Fits text ∧ Stores allocated builder.len string text := fun string text hzip =>
      ⟨hfits text (of_mem_zip hzip).2, (forall₂_iff_zip.1 hstores).2 hzip⟩
    refine ⟨allocated, hready'.ptr, hready'.length.trans hcap', ?_, ?_⟩
    · exact forall₂_iff_zip.2 ⟨hstores.length_eq, fun {string text} hzip =>
        (hmem string text hzip).2.slice (hmem string text hzip).1 hbound⟩
    · intro a s b t ha hb
      exact (hmem a s ha).2.eql (hmem b t hb).2 (hmem a s ha).1 (hmem b t hb).1 hbound

theorem appendAll_stored_two :
    (∃ result, appendAll (fun _ => 0)
        (counted (fun _ => 0) [[98, 98], [97, 97, 97, 97, 97, 97, 97, 97, 97]])
        [[97, 97, 97, 97, 97, 97, 97, 97, 97], [98, 98]] = .ok result) ∧
    ∀ strings builder, appendAll (fun _ => 0)
        (counted (fun _ => 0) [[98, 98], [97, 97, 97, 97, 97, 97, 97, 97, 97]])
        [[97, 97, 97, 97, 97, 97, 97, 97, 97], [98, 98]] = .ok (strings, builder) →
      ∃ allocated, builder.ptr = some allocated ∧
        Stored 9 [[97, 97, 97, 97, 97, 97, 97, 97, 97], [98, 98]] strings allocated := by
  have h := appendAll_stored (fun _ => 0) [[98, 98], [97, 97, 97, 97, 97, 97, 97, 97, 97]]
    [[97, 97, 97, 97, 97, 97, 97, 97, 97], [98, 98]]
    (fun text htext => by
      simp only [mem_cons, not_mem_nil, or_false] at htext
      rcases htext with rfl | rfl <;> exact ⟨by decide, by decide⟩)
    (by decide)
  exact ⟨h.1 (List.Perm.swap _ _ _).subperm, h.2⟩

/-! ## Texts that are written one behind the other -/

/-- Texts that are not inlined, with hashes of their own, are written one behind the other. -/
theorem appendAll_distinct (hash : Bytes → UInt64) : ∀ (texts : List Bytes) (builder : Builder)
    (written : Bytes), builder.ptr = some (written ++ replicate (texts.map length).sum 0) →
    builder.len = written.length → builder.cap = written.length + (texts.map length).sum →
    (∀ text ∈ texts, ¬canInline text = true ∧ builder.stringPool (hash text) = none) →
    (texts.map hash).Nodup → ∃ strings builder',
      appendAll hash builder texts = .ok (strings, builder') ∧
      builder'.ptr = some (written ++ texts.flatten) ∧
      ∀ i text, texts[i]? = some text →
        strings[i]? = some (init (written.length + ((texts.take i).map length).sum) text)
  | [], builder, written, hptr, _, _, _, _ => by
    refine ⟨[], builder, rfl, hptr, fun i text htext => ?_⟩
    exact nomatch htext
  | text :: texts, builder, written, hptr, hlen, hcap, hnew, hnodup => by
    rw [map_cons, nodup_cons] at hnodup
    rw [map_cons, sum_cons] at hptr hcap
    obtain ⟨htext, hpool⟩ := hnew text mem_cons_self
    have hroom : Room builder (written ++ replicate (text.length + (texts.map length).sum) 0) :=
      ⟨hptr, by rw [length_append, length_replicate, hcap], by omega⟩
    have happend := hroom.append_new htext hpool
    rw [if_pos (by omega), hlen, overwrite_append, drop_replicate,
      Nat.add_sub_cancel_left] at happend
    obtain ⟨strings, builder', hrun, hptr', hstrings⟩ := appendAll_distinct hash texts
      { builder with
        ptr := some ((written ++ text) ++ replicate (texts.map length).sum 0)
        len := written.length + text.length
        stringPool := update builder.stringPool (hash text) (some (init written.length text)) }
      (written ++ text) rfl (length_append).symm
      (by rw [length_append]; exact hcap.trans (add_assoc _ _ _).symm)
      (fun other hother => by
        obtain ⟨hinline, hnone⟩ := hnew other (mem_cons_of_mem _ hother)
        refine ⟨hinline, ?_⟩
        dsimp only
        rwa [update_of_ne]
        exact fun heq => hnodup.1 (heq ▸ mem_map_of_mem hother))
      hnodup.2
    refine ⟨init written.length text :: strings, builder', ?_, ?_, ?_⟩
    · rw [appendAll, happend, ok_bind]
      dsimp only
      rw [hrun]
      rfl
    · rw [hptr', flatten_cons, append_assoc]
    · intro i other hother
      cases i with
      | zero =>
        cases hother
        rfl
      | succ i =>
        have hstring := hstrings i other hother
        rw [length_append, add_assoc] at hstring
        exact hstring

theorem appendAll_counted_distinct (hash : Bytes → UInt64) (texts : List Bytes)
    (hnew : ∀ text ∈ texts, ¬canInline text = true) (hnodup : (texts.map hash).Nodup) :
    ∃ strings builder, appendAll hash (counted hash texts) texts = .ok (strings, builder) ∧
      builder.ptr = some texts.flatten ∧ ∀ i text, texts[i]? = some text →
        strings[i]? = some (init ((texts.take i).map length).sum text) := by
  have hcost : texts.map cost = texts.map length :=
    map_congr_left fun text htext => if_neg (hnew text htext)
  obtain ⟨hready, hcap, hlen⟩ := ready_counted hash texts
  rw [hcost] at hready hcap
  have hpool : ∀ key, (counted hash texts).stringPool key = none := fun key => by
    rw [counted, count_foldl hash texts _ fun _ => rfl]
    rfl
  obtain ⟨strings, builder, hrun, hptr, hstrings⟩ := appendAll_distinct hash texts _ []
    hready.ptr hlen (hcap.trans (zero_add _).symm)
    (fun text htext => ⟨hnew text htext, hpool _⟩) hnodup
  refine ⟨strings, builder, hrun, hptr, fun i text htext => ?_⟩
  rw [hstrings i text htext, length_nil, zero_add]

/-- A text of `2 ^ 31` bytes comes back empty. -/
theorem slice_init_of_length (hlen : text.length = 2 ^ 31) (buf : Bytes) :
    (init 0 text).slice buf = [] := by
  have hinline : ¬canInline text = true := fun h => by
    have := length_of_canInline h
    omega
  have hmod : text.length % 2 ^ 32 % 2 ^ 31 = 0 := by omega
  rw [init_of_not_canInline hinline, slice_ofPointer _ (mod_lt _ (by decide)), Pointer.init]
  rw [hmod, getRange]
  split <;> rfl

/-- A text that starts at `2 ^ 32` is looked for at the start of the buffer. -/
theorem slice_init_two_pow (hinline : ¬canInline text = true) (hlen : text.length < 2 ^ 31)
    {buf : Bytes} (hbuf : text.length ≤ buf.length) :
    (init (2 ^ 32) text).slice buf = buf.take text.length := by
  have hmod : text.length % 2 ^ 32 % 2 ^ 31 = text.length := by omega
  rw [init_of_not_canInline hinline, slice_ofPointer _ (mod_lt _ (by decide)), Pointer.init]
  rw [hmod, mod_self, getRange]
  rw [zero_add, if_pos hbuf, getD_some, drop_zero]

theorem not_canInline_replicate {n : ℕ} (hn : 8 < n) (c : UInt8) :
    ¬canInline (replicate n c) = true := fun h => by
  have := length_of_canInline h
  rw [length_replicate] at this
  omega

/-- The fourth text starts at `2 ^ 32`. -/
theorem appendAll_four {n : ℕ} (hn : n + 1 = 2 ^ 31 - 8)
    (hhash : hash = fun text => (text.headD 0).toUInt64) {texts : List Bytes}
    (htexts : texts = [replicate (n + 1) 97, replicate (n + 1) 98, replicate 16 99,
      replicate 9 100]) :
    ∃ strings builder allocated, appendAll hash (counted hash texts) texts =
      .ok (strings, builder) ∧ builder.ptr = some allocated ∧
      ∃ string : SemverString, strings[3]? = some string ∧
        string.slice allocated ≠ replicate 9 100 := by
  have hnew : ∀ text ∈ texts, ¬canInline text = true := by
    rw [htexts]
    intro text htext
    simp only [mem_cons, not_mem_nil, or_false] at htext
    rcases htext with rfl | rfl | rfl | rfl <;> exact not_canInline_replicate (by omega) _
  have hnodup : (texts.map hash).Nodup := by
    rw [htexts, hhash]
    change [(97 : UInt64), 98, 99, 100].Nodup
    decide
  obtain ⟨strings, builder, hrun, hptr, hstrings⟩ := appendAll_counted_distinct hash texts hnew
    hnodup
  have hstart : ((texts.take 3).map length).sum = 2 ^ 32 := by
    rw [htexts]
    change (replicate (n + 1) _).length + ((replicate (n + 1) _).length + (16 + 0)) = _
    rw [length_replicate, length_replicate]
    omega
  have hstring := hstrings 3 (replicate 9 100) (by rw [htexts]; rfl)
  have hfront : texts.flatten.take 9 = replicate 9 97 := by
    rw [htexts, flatten_cons, take_append_of_le_length, take_replicate, Nat.min_eq_left (by omega)]
    rw [length_replicate]
    omega
  have hlen : 9 ≤ texts.flatten.length := by
    have hnine := congrArg length hfront
    rw [length_take, length_replicate] at hnine
    omega
  rw [hstart] at hstring
  refine ⟨strings, builder, _, hrun, hptr, _, hstring, ?_⟩
  have hlast : (replicate 9 (100 : UInt8)).length = 9 := length_replicate
  rw [slice_init_two_pow (not_canInline_replicate (by decide) _) (by rw [hlast]; decide)
    (by rwa [hlast]), hlast, hfront]
  decide

/-- A text of `2 ^ 31` bytes does not come back, and of shorter texts one that starts at `2 ^ 32`
does not. -/
theorem appendAll_too_long :
    (∃ strings builder allocated, appendAll (fun _ => 0)
        (counted (fun _ => 0) [replicate (2 ^ 31) 97]) [replicate (2 ^ 31) 97] =
          .ok (strings, builder) ∧ builder.ptr = some allocated ∧
        ∃ string : SemverString, strings[0]? = some string ∧
          string.slice allocated ≠ replicate (2 ^ 31) 97) ∧
    ∃ strings builder allocated, appendAll (fun text => (text.headD 0).toUInt64)
        (counted (fun text => (text.headD 0).toUInt64)
          [replicate (2 ^ 31 - 8) 97, replicate (2 ^ 31 - 8) 98, replicate 16 99,
            replicate 9 100])
        [replicate (2 ^ 31 - 8) 97, replicate (2 ^ 31 - 8) 98, replicate 16 99,
            replicate 9 100] = .ok (strings, builder) ∧ builder.ptr = some allocated ∧
      ∃ string : SemverString, strings[3]? = some string ∧
        string.slice allocated ≠ replicate 9 100 := by
  constructor
  · obtain ⟨strings, builder, hrun, hptr, hstrings⟩ := appendAll_counted_distinct (fun _ => 0)
      [replicate (2 ^ 31) 97]
      (fun text htext => mem_singleton.1 htext ▸ not_canInline_replicate (by decide) _)
      (pairwise_singleton _ _)
    refine ⟨strings, builder, _, hrun, hptr, _, hstrings 0 _ rfl, ?_⟩
    rw [take_zero, map_nil, sum_nil, slice_init_of_length length_replicate]
    intro hnil
    have := congrArg length hnil
    rw [length_replicate, length_nil] at this
    omega
  · obtain ⟨n, hn⟩ : ∃ n, n + 1 = 2 ^ 31 - 8 := ⟨2 ^ 31 - 9, by decide⟩
    rw [← hn]
    exact appendAll_four hn rfl rfl

end Builder

end Soup.Semver
