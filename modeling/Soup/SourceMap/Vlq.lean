import Soup.Bytes
import Soup.Lib.Numeral

/-!
# VLQ

The variable-length quantities of a mappings text. `encode` writes the magnitude and the sign of an
`i32` in base64 digits of five bits, with the sixth bit set on every digit but the last; `decode`
reads at most eight of them and keeps what fits into a `u32`.

A field of a mappings text is any text that `decode` can find the end of (`IsField`). It is read
alike in front of anything (`decode_field`), and what `encode` writes is read back
(`decode_encode`).
-/

namespace Soup.SourceMap

open Soup.Lib List Nat

/-- `STANDARD_ALPHABET_CHARS`. -/
def BASE64 : Bytes := text "ABCDEFGHIJKLMNOPQRSTUVWXYZabcdefghijklmnopqrstuvwxyz0123456789+/"

/-- `BASE64[digit]`. -/
def base64 (digit : ℕ) : UInt8 := BASE64.getD digit 0

/-- `BASE64_LUT[byte & 0x7f]`, which is `U7_MAX` for a byte that is not in the alphabet. -/
def base64Lut (byte : UInt8) : ℕ :=
  match BASE64.findIdx? (· == byte &&& 0x7F) with
  | some i => i
  | none => 127

/-- `i32::MAX`. -/
def i32Max : ℤ := 2 ^ 31 - 1

/-- `i32::MIN`. -/
def i32Min : ℤ := -2 ^ 31

/-- The sign-magnitude `u32` of an `i32`; `i32::MIN` wraps to "-0". -/
def vlqOf (value : ℤ) : ℕ :=
  if 0 ≤ value then value.toNat <<< 1 else (value.natAbs <<< 1) % 2 ^ 32 ||| 1

/-- `VLQ::encode`. -/
def encode (value : ℤ) : Bytes := ((digits 32 7 (vlqOf value)).getD []).map base64

structure VLQResult where
  value : ℤ
  start : ℕ
deriving DecidableEq, Repr

/-- The loop of `decode_impl` over what is left of the eight bytes, as the `i` of the last byte and
the `vlq`. -/
def decodeLoop : ℕ → ℕ → ℕ → ℕ → Bytes → Option (ℕ × ℕ)
  | 0, _, _, _, _ => none
  | _ + 1, _, _, _, [] => none
  | fuel + 1, i, shift, vlq, byte :: rest =>
    let index := base64Lut byte
    let vlq := vlq ||| (((index &&& 31) <<< (shift &&& 31)) % 2 ^ 32)
    if index &&& 32 = 0 then some (i, vlq)
    else decodeLoop fuel (i + 1) (shift + 5) vlq rest

/-- The `i32` of a sign-magnitude `u32`. -/
def vlqValue (vlq : ℕ) : ℤ := if vlq &&& 1 = 0 then (vlq >>> 1 : ℕ) else -(vlq >>> 1 : ℕ)

/-- `vlq::decode`. No progress is a failure. -/
def decode (encoded : Bytes) (start : ℕ) : VLQResult :=
  match decodeLoop 8 0 0 0 (encoded.drop start) with
  | some (i, vlq) => { value := vlqValue vlq, start := start + i + 1 }
  | none => { value := 0, start }

/-! ## The alphabet -/

theorem base64Lut_base64 : ∀ d < 64, base64Lut (base64 d) = d := by decide +kernel

theorem and_thirtyTwo : ∀ d < 64, d &&& 32 = 0 ↔ d < 32 := by decide

theorem and_thirtyOne (d : ℕ) : d &&& 31 = d % 32 := and_two_pow_sub_one_eq_mod d 5

/-- The bytes that stand between the fields are not in the alphabet. -/
theorem base64_ne : ∀ d < 64, base64 d ≠ b ',' ∧ base64 d ≠ b ';' ∧ base64 d ≠ b '"' ∧
    base64 d ≠ 0 := by
  decide +kernel

/-! ## Fields -/

/-- Digits of five bits that end within the eight bytes that are looked at. -/
def IsField (field : Bytes) : Prop :=
  ∃ ds n, Numeral 32 ds n ∧ ds.length ≤ 8 ∧ field = ds.map base64

/-- The value that is read from a field. -/
def fieldValue (field : Bytes) : ℤ := (decode field 0).value

variable {ds : List ℕ}

theorem decodeLoop_field {n : ℕ} (h : Numeral 32 ds n) {fuel : ℕ}
    (hfuel : ds.length ≤ fuel) (i shift vlq : ℕ) : ∃ m, ∀ rest,
    decodeLoop fuel i shift vlq (ds.map base64 ++ rest) = some (i + ds.length - 1, m) := by
  induction h generalizing fuel i shift vlq with
  | @last d hd =>
    obtain ⟨fuel, rfl⟩ : ∃ k, fuel = k + 1 := ⟨fuel - 1, by simp at hfuel; omega⟩
    refine ⟨vlq ||| (((d &&& 31) <<< (shift &&& 31)) % 2 ^ 32), fun rest => ?_⟩
    simp only [map_cons, map_nil, cons_append, decodeLoop]
    rw [base64Lut_base64 d (by omega), if_pos ((and_thirtyTwo d (by omega)).2 hd)]
    simp
  | @more d ds n hd hds ih =>
    obtain ⟨fuel, rfl⟩ : ∃ k, fuel = k + 1 := ⟨fuel - 1, by simp at hfuel; omega⟩
    obtain ⟨m, hm⟩ := @ih fuel (by simpa using hfuel) (i + 1) (shift + 5)
      (vlq ||| ((((d + 32) &&& 31) <<< (shift &&& 31)) % 2 ^ 32))
    refine ⟨m, fun rest => ?_⟩
    have hlen := hds.length_pos
    simp only [map_cons, cons_append, decodeLoop]
    rw [base64Lut_base64 _ (by omega), if_neg (by rw [and_thirtyTwo _ (by omega)]; omega), hm,
      length_cons]
    congr 2
    omega

variable {field : Bytes}

/-- A field is read alike in front of anything. -/
theorem decode_field (h : IsField field) (rest : Bytes) :
    decode (field ++ rest) 0 = { value := fieldValue field, start := field.length } := by
  obtain ⟨ds, n, hds, hlen, rfl⟩ := h
  obtain ⟨m, hm⟩ := decodeLoop_field hds hlen 0 0 0
  have hpos := hds.length_pos
  have hread : ∀ rest, decode (ds.map base64 ++ rest) 0 =
      { value := vlqValue m, start := ds.length } := by
    intro rest
    unfold decode
    rw [drop_zero, hm]
    simp only
    congr 1
    omega
  have hvalue : fieldValue (ds.map base64) = vlqValue m := by
    rw [fieldValue, ← append_nil (ds.map base64), hread]
  rw [hread, hvalue, length_map]

theorem IsField.ne_nil (h : IsField field) : field ≠ [] := by
  obtain ⟨ds, n, hds, -, rfl⟩ := h
  have hpos := hds.length_pos
  intro hnil
  rw [map_eq_nil_iff] at hnil
  rw [hnil] at hpos
  cases hpos

/-- A field in the middle of a text. -/
theorem decode_of_drop {bytes field tail : Bytes} {i : ℕ} (h : IsField field)
    (hdrop : bytes.drop i = field ++ tail) :
    decode bytes i = { value := fieldValue field, start := i + field.length } := by
  have hdecode := decode_field h tail
  unfold decode at hdecode ⊢
  rw [drop_zero] at hdecode
  rw [hdrop]
  split at hdecode
  next j vlq hloop =>
    obtain ⟨hvalue, hstart⟩ := VLQResult.mk.inj hdecode
    rw [hvalue, ← hstart, zero_add, add_assoc]
  next hloop =>
    have hlength := length_pos_iff.2 h.ne_nil
    obtain ⟨-, hstart⟩ := VLQResult.mk.inj hdecode
    omega

theorem IsField.mem_ne (h : IsField field) {c : UInt8} (hc : c ∈ field) :
    c ≠ b ',' ∧ c ≠ b ';' ∧ c ≠ b '"' ∧ c ≠ 0 := by
  obtain ⟨ds, n, hds, -, rfl⟩ := h
  obtain ⟨d, hd, rfl⟩ := mem_map.1 hc
  exact base64_ne d (hds.lt d hd)

/-! ## What is written is read back -/

theorem decodeLoop_digits {n : ℕ} (h : Numeral 32 ds n) {fuel i shift vlq : ℕ}
    (hfuel : ds.length ≤ fuel) (hshift : shift + 5 * ds.length ≤ 35) (hvlq : vlq < 2 ^ shift)
    (hfits : vlq + n * 2 ^ shift < 2 ^ 32) (rest : Bytes) :
    decodeLoop fuel i shift vlq (ds.map base64 ++ rest) =
      some (i + ds.length - 1, vlq + n * 2 ^ shift) := by
  induction h generalizing fuel i shift vlq with
  | @last d hd =>
    obtain ⟨fuel, rfl⟩ : ∃ k, fuel = k + 1 := ⟨fuel - 1, by simp at hfuel; omega⟩
    simp only [length_cons, length_nil] at hshift
    have hand : shift &&& 31 = shift := by
      rw [and_thirtyOne]
      omega
    have hdigit : d &&& 31 = d := by
      rw [and_thirtyOne]
      omega
    simp only [map_cons, map_nil, cons_append, decodeLoop]
    rw [base64Lut_base64 d (by omega), if_pos ((and_thirtyTwo d (by omega)).2 hd), hand, hdigit,
      or_shiftLeft_mod hvlq (by omega)]
    simp
  | @more d ds n hd hds ih =>
    obtain ⟨fuel, rfl⟩ : ∃ k, fuel = k + 1 := ⟨fuel - 1, by simp at hfuel; omega⟩
    have hlen := hds.length_pos
    simp only [length_cons] at hshift hfuel
    have hand : shift &&& 31 = shift := by
      rw [and_thirtyOne]
      omega
    have hdigit : (d + 32) &&& 31 = d := by
      rw [and_thirtyOne]
      omega
    have hpow : 2 ^ (shift + 5) = 2 ^ shift * 32 := pow_add 2 shift 5
    have hsum : vlq + (d + 32 * n) * 2 ^ shift = vlq + d * 2 ^ shift + n * 2 ^ (shift + 5) := by
      rw [hpow]
      ring
    have hle : (d + 1) * 2 ^ shift ≤ 2 ^ (shift + 5) := by
      rw [hpow, mul_comm (2 ^ shift)]
      exact mul_le_mul_right _ (by omega)
    rw [hsum] at hfits ⊢
    simp only [map_cons, cons_append, decodeLoop]
    rw [base64Lut_base64 _ (by omega), if_neg (by rw [and_thirtyTwo _ (by omega)]; omega), hand,
      hdigit, or_shiftLeft_mod hvlq (by omega),
      ih (by omega) (by omega) (by rw [add_mul] at hle; omega) hfits, length_cons]
    congr 2
    omega

variable {value : ℤ}

theorem vlqOf_lt (h : i32Min ≤ value) (h' : value ≤ i32Max) : vlqOf value < 2 ^ 32 := by
  unfold vlqOf i32Min i32Max at *
  split
  · rw [shiftLeft_eq]
    omega
  · exact or_lt_two_pow (mod_lt _ (by decide)) (by decide)

theorem vlqValue_vlqOf (h : i32Min < value) (h' : value ≤ i32Max) :
    vlqValue (vlqOf value) = value := by
  unfold i32Min i32Max at *
  have hor : ∀ n : ℕ, (n <<< 1) ||| 1 = 2 * n + 1 := by
    intro n
    rw [Nat.or_comm, Nat.or_comm, ← Nat.shiftLeft_add_eq_or_of_lt (by decide), Nat.shiftLeft_eq]
    omega
  unfold vlqValue vlqOf
  split
  next hpos =>
    rw [and_one_is_mod, shiftLeft_eq, if_pos (by omega), shiftRight_eq_div_pow]
    omega
  next hneg =>
    rw [mod_eq_of_lt (by rw [shiftLeft_eq]; omega), hor, and_one_is_mod,
      if_neg (by omega), shiftRight_eq_div_pow]
    omega

theorem encode_digits (h : i32Min ≤ value) (h' : value ≤ i32Max) :
    ∃ ds, Numeral 32 ds (vlqOf value) ∧ ds.length ≤ 7 ∧ encode value = ds.map base64 := by
  have hlt : vlqOf value < 32 ^ (6 + 1) := lt_trans (vlqOf_lt h h') (by decide)
  obtain ⟨ds, hds⟩ := exists_digits hlt
  obtain ⟨hnum, hlen⟩ := digits_numeral (by decide) hds
  exact ⟨ds, hnum, hlen, by rw [encode, hds]; rfl⟩

theorem isField_encode (h : i32Min ≤ value) (h' : value ≤ i32Max) : IsField (encode value) := by
  obtain ⟨ds, hds, hlen, heq⟩ := encode_digits h h'
  exact ⟨ds, _, hds, by omega, heq⟩

/-- What `encode` writes is read back, for all but `i32::MIN`. -/
theorem decode_encode (h : i32Min < value) (h' : value ≤ i32Max) (rest : Bytes) :
    decode (encode value ++ rest) 0 = { value, start := (encode value).length } := by
  obtain ⟨ds, hds, hlen, heq⟩ := encode_digits h.le h'
  have hpos := hds.length_pos
  have hlt := vlqOf_lt h.le h'
  unfold decode
  rw [heq, drop_zero, decodeLoop_digits hds (by omega) (by omega) (by decide) (by omega)]
  simp only [zero_add, pow_zero, mul_one, length_map]
  rw [vlqValue_vlqOf h h']
  congr 1
  omega

theorem fieldValue_encode (h : i32Min < value) (h' : value ≤ i32Max) :
    fieldValue (encode value) = value := by
  rw [fieldValue, ← append_nil (encode value), decode_encode h h']

/-- Digits that are all marked are read to their end in vain. -/
theorem decodeLoop_marked (h : ∀ d ∈ ds, 32 ≤ d ∧ d < 64) (fuel i shift vlq : ℕ) :
    decodeLoop fuel i shift vlq (ds.map base64) = none := by
  induction ds generalizing fuel i shift vlq with
  | nil => cases fuel <;> rfl
  | cons d ds ih =>
    rw [forall_mem_cons] at h
    cases fuel with
    | zero => rfl
    | succ fuel =>
      rw [map_cons, decodeLoop, base64Lut_base64 d h.1.2,
        if_neg (by rw [and_thirtyTwo d h.1.2]; omega)]
      exact ih h.2 ..

/-- An encoded number is read back behind and in front of anything, unless it is `i32::MIN`, and
nothing is read from a part of it that it starts with. -/
theorem encode_readsBack (value : ℤ) (hmin : i32Min ≤ value) (hmax : value ≤ i32Max)
    (before : Bytes) :
    (value ≠ i32Min → ∀ rest, decode (before ++ (encode value ++ rest)) before.length =
      { value, start := before.length + (encode value).length }) ∧
    ∀ part, part <+: encode value → part ≠ encode value →
      decode (before ++ part) before.length = { value := 0, start := before.length } := by
  constructor
  · intro hne rest
    have hlt : i32Min < value := lt_of_le_of_ne hmin hne.symm
    rw [decode_of_drop (isField_encode hmin hmax) drop_left, fieldValue_encode hlt hmax]
  · intro part hpart hne
    obtain ⟨ds, hds, -, heq⟩ := encode_digits hmin hmax
    rw [heq] at hpart hne
    obtain ⟨es, hes, rfl⟩ := prefix_map_iff.1 hpart
    have hmarked := hds.marked hes fun h => hne (by rw [h])
    unfold decode
    rw [drop_left, decodeLoop_marked fun d hd => ⟨hmarked d hd, hds.lt d (hes.mem hd)⟩]

theorem encode_readsBack_minusOne : (-1 : ℤ) ≠ i32Min ∧ encode (-1) = text "D" ∧
    decode (text ";" ++ (encode (-1) ++ text "A")) 1 = { value := -1, start := 2 } :=
  ⟨by decide, by decide +kernel,
    (encode_readsBack (-1) (by decide) (by decide) (text ";")).1 (by decide) (text "A")⟩

end Soup.SourceMap
