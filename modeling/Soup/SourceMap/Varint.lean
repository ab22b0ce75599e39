import Soup.SourceMap.Internal
import Mathlib.Data.Int.Bitwise

/-!
# Fields of the internal source map

What the builder writes into the lanes and the fixed fields is read back, in front of anything.
-/

namespace Soup.SourceMap

open Soup.Lib List Nat

/-- The values of an `i32`. -/
def IsI32 (value : ℤ) : Prop := i32Min ≤ value ∧ value ≤ i32Max

instance (value : ℤ) : Decidable (IsI32 value) := inferInstanceAs (Decidable (_ ∧ _))

variable {value : ℤ}

theorem IsI32.toInt_ofInt (h : IsI32 value) : (BitVec.ofInt 32 value).toInt = value := by
  obtain ⟨h₁, h₂⟩ := h
  unfold i32Min i32Max at *
  rw [BitVec.toInt_ofInt]
  exact Int.bmod_eq_of_le (by omega) (by omega)

theorem IsI32.bmod (h : IsI32 value) : value.bmod (2 ^ 32) = value := by
  obtain ⟨h₁, h₂⟩ := h
  unfold i32Min i32Max at *
  exact Int.bmod_eq_of_le (by omega) (by omega)

/-- A sum that is an `i32` does not wrap around. -/
theorem wrappingAdd_of_isI32 {x y : ℤ} (h : IsI32 (x + y)) : wrappingAdd x y = x + y := h.bmod

/-! ## Zigzag -/

theorem sshiftRight_sign (x : BitVec 32) :
    x.sshiftRight 31 = if x.msb then BitVec.allOnes 32 else 0#32 := by
  refine BitVec.eq_of_getLsbD_eq fun i hi => ?_
  have hbit : (x.sshiftRight 31).getLsbD i = x.msb := by
    rw [BitVec.getLsbD_sshiftRight, BitVec.msb_eq_getLsbD_last]
    rcases Nat.eq_zero_or_pos i with rfl | hpos
    · simp
    · rw [if_neg (by omega)]
      simp [hi]
  rw [hbit]
  split
  next hmsb => rw [hmsb, BitVec.getLsbD_allOnes, decide_eq_true hi]
  next hmsb => simpa using hmsb

/-- Undoing the zigzag on 32 bits. -/
theorem zigzag_bits (x : BitVec 32) :
    (((x <<< 1) ^^^ x.sshiftRight 31) >>> 1) ^^^ -(((x <<< 1) ^^^ x.sshiftRight 31) &&& 1#32) =
      x := by
  rw [sshiftRight_sign]
  have hlast : x.getLsbD 31 = x.msb := (BitVec.msb_eq_getLsbD_last x).symm
  split
  next hmsb =>
    have hlow : ((x <<< 1) ^^^ BitVec.allOnes 32) &&& 1#32 = 1#32 := by
      refine BitVec.eq_of_getLsbD_eq fun i hi => ?_
      rcases i with _ | i <;> simp
    have hneg : -1#32 = BitVec.allOnes 32 := by decide
    rw [hlow, hneg]
    refine BitVec.eq_of_getLsbD_eq fun i hi => ?_
    rw [BitVec.getLsbD_xor, BitVec.getLsbD_ushiftRight, BitVec.getLsbD_xor,
      BitVec.getLsbD_shiftLeft, BitVec.getLsbD_allOnes, BitVec.getLsbD_allOnes]
    rcases lt_or_eq_of_le (le_of_lt_succ hi) with hlt | rfl
    · simp [hi, show 1 + i < 32 by omega]
    · simp [hlast, hmsb]
  next hmsb =>
    have hlow : ((x <<< 1) ^^^ 0#32) &&& 1#32 = 0#32 := by
      refine BitVec.eq_of_getLsbD_eq fun i hi => ?_
      rcases i with _ | i <;> simp
    have hneg : -0#32 = 0#32 := by decide
    rw [hlow, hneg, BitVec.xor_zero, BitVec.xor_zero]
    refine BitVec.eq_of_getLsbD_eq fun i hi => ?_
    rw [BitVec.getLsbD_ushiftRight, BitVec.getLsbD_shiftLeft]
    rcases lt_or_eq_of_le (le_of_lt_succ hi) with hlt | rfl
    · simp [show 1 + i < 32 by omega]
    · rw [hlast, Bool.eq_false_iff.2 hmsb]
      simp

/-- Decoding undoes the encoding. -/
theorem zigzagDecode_encode (h : IsI32 value) : zigzagDecode (zigzagEncode value) = value := by
  unfold zigzagDecode zigzagEncode
  simp only [BitVec.ofNat_toNat, BitVec.setWidth_eq]
  rw [zigzag_bits, h.toInt_ofInt]

theorem zigzagEncode_lt (value : ℤ) : zigzagEncode value < 2 ^ 32 := BitVec.isLt _

/-! ## Varints -/

theorem toNat_ofNat {d : ℕ} (h : d < 2 * 128) : (UInt8.ofNat d).toNat = d := by
  rw [UInt8.toNat_ofNat']
  omega

theorem and_low (d : ℕ) : d &&& 0x7F = d % 128 := and_two_pow_sub_one_eq_mod d 7

theorem and_high : ∀ d < 256, d &&& 0x80 = 0 ↔ d < 128 := by decide +kernel

/-- The loop reads the digits of a number. -/
theorem readVarintLoop_digits {ds : List ℕ} {n : ℕ} (h : Numeral 128 ds n)
    {fuel shift result : ℕ} (hfuel : ds.length ≤ fuel) (hresult : result < 2 ^ shift)
    (hfits : result + n * 2 ^ shift < 2 ^ 32) (rest : Bytes) :
    readVarintLoop fuel shift result (ds.map UInt8.ofNat ++ rest) =
      some (result + n * 2 ^ shift, rest) := by
  induction h generalizing fuel shift result with
  | @last d hd =>
    obtain ⟨fuel, rfl⟩ : ∃ k, fuel = k + 1 := ⟨fuel - 1, by simp at hfuel; omega⟩
    simp only [map_cons, map_nil, cons_append, readVarintLoop]
    rw [toNat_ofNat (by omega), if_pos ((and_high d (by omega)).2 hd), and_low,
      mod_eq_of_lt hd, or_shiftLeft_mod hresult (by omega)]
    simp
  | @more d ds n hd hds ih =>
    obtain ⟨fuel, rfl⟩ : ∃ k, fuel = k + 1 := ⟨fuel - 1, by simp at hfuel; omega⟩
    simp only [length_cons] at hfuel
    have hpow : 2 ^ (shift + 7) = 2 ^ shift * 128 := pow_add 2 shift 7
    have hsum : result + (d + 128 * n) * 2 ^ shift =
        result + d * 2 ^ shift + n * 2 ^ (shift + 7) := by
      rw [hpow]
      ring
    have hle : (d + 1) * 2 ^ shift ≤ 2 ^ (shift + 7) := by
      rw [hpow, mul_comm (2 ^ shift)]
      exact mul_le_mul_right _ (by omega)
    rw [hsum] at hfits ⊢
    have hlow : (d + 128) % 128 = d := by omega
    simp only [map_cons, cons_append, readVarintLoop]
    rw [toNat_ofNat (by omega), if_neg (by rw [and_high _ (by omega)]; omega), and_low, hlow,
      or_shiftLeft_mod hresult (by omega), ih (by omega) (by rw [add_mul] at hle; omega) hfits]

/-- The bytes are the digits of the encoded number. -/
theorem writeVarint_digits (value : ℤ) : ∃ ds, Numeral 128 ds (zigzagEncode value) ∧
    ds.length ≤ 5 ∧ writeVarint value = ds.map UInt8.ofNat := by
  have hlt : zigzagEncode value < 128 ^ (4 + 1) := lt_trans (zigzagEncode_lt value) (by decide)
  obtain ⟨ds, hds⟩ := exists_digits hlt
  obtain ⟨hnum, hlen⟩ := digits_numeral (by decide) hds
  exact ⟨ds, hnum, hlen, by rw [writeVarint, hds]; rfl⟩

/-- A varint that was written is read, whatever comes after it. -/
theorem readVarint_writeVarint (h : IsI32 value) (rest : Bytes) :
    readVarint (writeVarint value ++ rest) = some (value, rest) := by
  obtain ⟨ds, hds, hlen, heq⟩ := writeVarint_digits value
  have hvalue := zigzagDecode_encode h
  have hlt := zigzagEncode_lt value
  rw [heq]
  generalize zigzagEncode value = n at *
  cases hds with
  | @last d hd =>
    simp only [map_cons, map_nil, cons_append, readVarint]
    rw [toNat_ofNat (by omega), if_pos hd, hvalue]
    rfl
  | @more d ds n hd hds =>
    have hlow : (d + 128) % 128 = d := by omega
    simp only [length_cons] at hlen
    simp only [map_cons, cons_append, readVarint]
    rw [toNat_ofNat (by omega), if_neg (by omega), and_low, hlow,
      readVarintLoop_digits hds (by omega) (by omega) (by omega)]
    have hsum : d + n * 2 ^ 7 = d + 128 * n := by ring
    rw [hsum, Option.map_some, hvalue]

/-- `MAX_VARINT_LEN`. -/
theorem length_writeVarint (value : ℤ) : (writeVarint value).length ≤ 5 := by
  obtain ⟨ds, -, hlen, heq⟩ := writeVarint_digits value
  rwa [heq, length_map]

/-! ## Fixed fields -/

theorem readU32_toLittleEndian {n : ℕ} (h : n ≤ u32Max) (rest : Bytes) :
    readU32 (toLittleEndian 4 n ++ rest) = n :=
  ofLittleEndian_take (by unfold u32Max at h; omega) rest

theorem readU64_toLittleEndian {n : ℕ} (h : n < 2 ^ 64) (rest : Bytes) :
    readU64 (toLittleEndian 8 n ++ rest) = some n := by
  unfold readU64
  rw [if_neg (by simp), ofLittleEndian_take (by omega)]

/-- A field that was written is read. -/
theorem readI32_i32Bytes (h : IsI32 value) (rest : Bytes) :
    readI32 (i32Bytes value ++ rest) = value := by
  have hmod : (value % 2 ^ 32).bmod (2 ^ 32) = value.bmod (2 ^ 32) := Int.emod_bmod value (2 ^ 32)
  unfold readI32 i32Bytes
  rw [readU32_toLittleEndian (by unfold u32Max; omega), Int.toNat_of_nonneg (by omega), hmod,
    h.bmod]

@[simp] theorem length_i32Bytes (value : ℤ) : (i32Bytes value).length = 4 :=
  length_toLittleEndian 4 _

/-! ## Masks -/

/-- One bit is set, and the others stay. -/
theorem testBit_setBit (condition : Bool) (k mask j : ℕ) :
    (setBit condition k mask).testBit j = (mask.testBit j || (condition && decide (k = j))) := by
  unfold setBit
  cases condition with
  | false => simp
  | true =>
    rw [if_pos rfl, testBit_or, one_shiftLeft, testBit_two_pow, Bool.true_and]

theorem setBit_lt {condition : Bool} {k mask : ℕ} (hk : k < 64) (hmask : mask < 2 ^ 64) :
    setBit condition k mask < 2 ^ 64 := by
  unfold setBit
  split
  · refine or_lt_two_pow hmask ?_
    rw [one_shiftLeft]
    exact Nat.pow_lt_pow_right (by decide) hk
  · exact hmask

end Soup.SourceMap
