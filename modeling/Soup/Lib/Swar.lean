import Mathlib.Data.List.TakeWhile
import Soup.Lib.LittleEndian

/-!
# The first zero byte of a word

`(x - 0x01…01) & !x & 0x80…80` has its first bit in the first zero byte of `x` (`ctz_zeroBytes`):
the subtraction borrows nothing from the bytes in front of it.
-/

namespace Soup.Lib

open List Nat

theorem ofLittleEndian_lt : ∀ cs : List UInt8, ofLittleEndian cs < 256 ^ cs.length
  | [] => one_pos
  | c :: cs => by
    have hc := c.toNat_lt
    have ih := ofLittleEndian_lt cs
    rw [ofLittleEndian, length_cons, pow_succ]
    omega

theorem testBit_ofLittleEndian : ∀ (cs : List UInt8) (j r : ℕ), r < 8 →
    (ofLittleEndian cs).testBit (8 * j + r) = (cs.getD j 0).toNat.testBit r
  | [], j, r, _ => by
    rw [ofLittleEndian, zero_testBit, getD_nil]
    exact (zero_testBit r).symm
  | c :: cs, 0, r, hr => by
    rw [ofLittleEndian, mul_zero, zero_add, getD_cons_zero]
    have hmod : (c.toNat + 2 ^ 8 * ofLittleEndian cs) % 2 ^ 8 = c.toNat := by
      rw [add_mul_mod_self_left, mod_eq_of_lt c.toNat_lt]
    have htest := testBit_mod_two_pow (c.toNat + 2 ^ 8 * ofLittleEndian cs) 8 r
    rw [hmod, decide_eq_true hr, Bool.true_and] at htest
    exact htest.symm
  | c :: cs, j + 1, r, hr => by
    have hdiv : (c.toNat + 2 ^ 8 * ofLittleEndian cs) / 2 ^ 8 = ofLittleEndian cs := by
      have := c.toNat_lt
      omega
    rw [getD_cons_succ, ← testBit_ofLittleEndian cs j r hr, ofLittleEndian,
      (by omega : 8 * (j + 1) + r = (8 * j + r) + 8), ← testBit_div_two_pow]
    exact congrArg (testBit · _) hdiv

/-- The digits of a difference with `0x01…01`, up to the first zero. -/
theorem exists_sub_ones : ∀ cs : List UInt8, ∃ ds : List UInt8, ds.length = cs.length ∧
    ofLittleEndian ds = (256 ^ cs.length - ofLittleEndian (replicate cs.length 1) +
      ofLittleEndian cs) % 256 ^ cs.length ∧
    ∀ j < cs.length, (∀ i < j, cs.getD i 0 ≠ 0) → ds.getD j 0 = cs.getD j 0 - 1
  | [] => ⟨[], rfl, rfl, fun j hj => absurd hj (not_lt_zero j)⟩
  | c :: cs => by
    obtain ⟨ds, hlength, hvalue, hdigit⟩ := exists_sub_ones cs
    have hones := ofLittleEndian_lt (replicate cs.length 1)
    rw [length_replicate] at hones
    have hsplit : ∀ a b N : ℕ, a < 256 → (a + 256 * b) % (256 * N) = a + 256 * (b % N) := by
      intro a b N ha
      rw [mod_mul, add_mul_mod_self_left, mod_eq_of_lt ha,
        (by omega : (a + 256 * b) / 256 = b)]
    have hc := c.toNat_lt
    have honesEq : ofLittleEndian (replicate (c :: cs).length 1) =
        1 + 256 * ofLittleEndian (replicate cs.length 1) := rfl
    have hpow : 256 ^ (c :: cs).length = 256 * 256 ^ cs.length := by
      rw [length_cons, pow_succ, mul_comm]
    rw [honesEq, hpow, ofLittleEndian]
    rcases eq_or_ne c 0 with rfl | hne
    · refine ⟨255 :: toLittleEndian cs.length ((256 ^ cs.length -
        ofLittleEndian (replicate cs.length 1) - 1 + ofLittleEndian cs) % 256 ^ cs.length),
        ?_, ?_, fun j hj hnot => ?_⟩
      · rw [length_cons, length_cons, length_toLittleEndian]
      · rw [ofLittleEndian, ofLittleEndian_toLittleEndian (Nat.mod_lt _ (Nat.pow_pos (by decide)))]
        rw [← hsplit _ _ _ (by decide)]
        congr 1
        have hzero : (0 : UInt8).toNat = 0 := rfl
        have h255 : (255 : UInt8).toNat = 255 := rfl
        rw [hzero, h255]
        omega
      · cases j with
        | zero => rfl
        | succ j => exact absurd rfl (hnot 0 (succ_pos j))
    · have hpos : 1 ≤ c.toNat := one_le_iff_ne_zero.2 fun h => hne (UInt8.toNat.inj h)
      have hsub : (c - 1).toNat = c.toNat - 1 :=
        UInt8.toNat_sub_of_le c 1 (UInt8.le_iff_toNat_le.2 hpos)
      refine ⟨(c - 1) :: ds, ?_, ?_, fun j hj hnot => ?_⟩
      · rw [length_cons, length_cons, hlength]
      · rw [ofLittleEndian, hvalue, hsub, ← hsplit _ _ _ (by omega)]
        congr 1
        omega
      · cases j with
        | zero => rfl
        | succ j =>
          rw [getD_cons_succ, getD_cons_succ]
          exact hdigit j (lt_of_succ_lt_succ hj) fun i hi => hnot (i + 1) (succ_lt_succ hi)

variable {cs : List UInt8} {j r : ℕ}

/-- The bytes `0x80` of a word in place of its zero bytes, up to the first one. -/
def zeroBytes (n : ℕ) (x : BitVec (8 * n)) : BitVec (8 * n) :=
  (x - BitVec.ofNat _ (ofLittleEndian (replicate n 1))) &&& ~~~x &&&
    BitVec.ofNat _ (ofLittleEndian (replicate n 0x80))

theorem testBit_seven_sub_one (c : UInt8) :
    ((c - 1).toNat.testBit 7 && !c.toNat.testBit 7) = decide (c = 0) := by
  have h : ∀ n < 256, ((UInt8.ofNat n - 1).toNat.testBit 7 && !(UInt8.ofNat n).toNat.testBit 7) =
      decide (UInt8.ofNat n = 0) := by decide +kernel
  have hc := h c.toNat c.toNat_lt
  rwa [UInt8.ofNat_toNat] at hc

theorem testBit_0x80 (hr : r < 8) : (0x80 : UInt8).toNat.testBit r = decide (r = 7) := by
  have h : ∀ r < 8, (0x80 : UInt8).toNat.testBit r = decide (r = 7) := by decide
  exact h r hr

theorem getLsbD_zeroBytes (hj : j < cs.length) (hr : r < 8) (hnot : ∀ i < j, cs.getD i 0 ≠ 0) :
    (zeroBytes cs.length (BitVec.ofNat _ (ofLittleEndian cs))).getLsbD (8 * j + r) =
      (decide (r = 7) && decide (cs.getD j 0 = 0)) := by
  have hpow : (2 : ℕ) ^ (8 * cs.length) = 256 ^ cs.length := by rw [Nat.pow_mul]
  have hlt : ofLittleEndian cs < 2 ^ (8 * cs.length) := hpow ▸ ofLittleEndian_lt cs
  have hreplicate : ∀ c : UInt8, ofLittleEndian (replicate cs.length c) < 2 ^ (8 * cs.length) := by
    intro c
    have h := ofLittleEndian_lt (replicate cs.length c)
    rwa [length_replicate, ← hpow] at h
  have hbit : ∀ {ds : List UInt8}, ofLittleEndian ds < 2 ^ (8 * cs.length) →
      (BitVec.ofNat (8 * cs.length) (ofLittleEndian ds)).getLsbD (8 * j + r) =
        (ds.getD j 0).toNat.testBit r := by
    intro ds hds
    rw [BitVec.getLsbD_ofNat, decide_eq_true (by omega), Bool.true_and,
      testBit_ofLittleEndian ds j r hr]
  obtain ⟨ds, hlength, hvalue, hdigit⟩ := exists_sub_ones cs
  have hdsLt : ofLittleEndian ds < 2 ^ (8 * cs.length) := by
    rw [hpow, ← hlength]
    exact ofLittleEndian_lt ds
  have hsub : BitVec.ofNat (8 * cs.length) (ofLittleEndian cs) -
      BitVec.ofNat _ (ofLittleEndian (replicate cs.length 1)) =
      BitVec.ofNat _ (ofLittleEndian ds) := by
    refine BitVec.eq_of_toNat_eq ?_
    rw [BitVec.toNat_sub, BitVec.toNat_ofNat, BitVec.toNat_ofNat, BitVec.toNat_ofNat,
      mod_eq_of_lt hlt, mod_eq_of_lt (hreplicate 1), mod_eq_of_lt hdsLt, hvalue, hpow]
  have hmask : (replicate cs.length (0x80 : UInt8)).getD j 0 = 0x80 := by
    rw [getD_eq_getElem?_getD, getElem?_replicate_of_lt hj, Option.getD_some]
  rw [zeroBytes, BitVec.getLsbD_and, BitVec.getLsbD_and, BitVec.getLsbD_not, hsub, hbit hdsLt,
    hbit hlt,
    hbit (hreplicate 0x80), hdigit j hj hnot, decide_eq_true (by omega : 8 * j + r < 8 * cs.length),
    Bool.true_and, hmask, testBit_0x80 hr]
  rcases eq_or_ne r 7 with rfl | hne
  · rw [testBit_seven_sub_one, decide_eq_true rfl, Bool.and_true, Bool.true_and]
  · rw [decide_eq_false hne, Bool.and_false, Bool.false_and]

theorem ctz_of_first {w : ℕ} {x : BitVec w} {t : ℕ} (ht : x.getLsbD t = true)
    (hlt : ∀ i < t, x.getLsbD i = false) : x.ctz.toNat = t := by
  have hne : x ≠ 0#w := by
    rintro rfl
    exact Bool.false_ne_true ((BitVec.getLsbD_zero).symm.trans ht)
  have hctz := BitVec.getLsbD_true_ctz_of_ne_zero hne
  rcases lt_trichotomy x.ctz.toNat t with h | h | h
  · exact absurd ((hlt _ h).symm.trans hctz) Bool.false_ne_true
  · exact h
  · exact absurd ((BitVec.getLsbD_false_of_lt_ctz h).symm.trans ht) Bool.false_ne_true

theorem ctz_zero (w : ℕ) : (0#w).ctz.toNat = w := by
  have hclz : (0#w).clz = w := by
    rw [BitVec.clz_eq_iff_eq_zero]
  have hreverse : (0#w).reverse = 0#w := BitVec.reverse_eq_zero_iff.2 rfl
  rw [BitVec.ctz_eq_reverse_clz, hreverse, hclz, BitVec.natCast_eq_ofNat, BitVec.toNat_ofNat,
    Nat.mod_eq_of_lt Nat.lt_two_pow_self]

theorem getD_length_takeWhile : ∀ cs : List UInt8,
    cs.getD (cs.takeWhile fun c => c ≠ 0).length 0 = 0
  | [] => rfl
  | c :: cs => by
    rcases eq_or_ne c 0 with rfl | hne
    · rfl
    · rw [takeWhile_cons, if_pos (decide_eq_true hne), length_cons, getD_cons_succ]
      exact getD_length_takeWhile cs

/-- The first zero byte is where the first bit is. -/
theorem ctz_zeroBytes (cs : List UInt8) :
    (zeroBytes cs.length (BitVec.ofNat _ (ofLittleEndian cs))).ctz.toNat / 8 =
      (cs.takeWhile fun c => c ≠ 0).length := by
  have hleads := takeWhile_prefix (l := cs) fun c => c ≠ 0
  have hle := hleads.length_le
  have hbefore : ∀ i < (cs.takeWhile fun c => c ≠ 0).length, cs.getD i 0 ≠ 0 := by
    intro i hi
    have hmem := mem_takeWhile_imp (getElem_mem hi)
    rw [decide_eq_true_eq, hleads.getElem hi] at hmem
    rwa [getD_eq_getElem _ _ (hi.trans_le hle)]
  have hlow : ∀ i < 8 * (cs.takeWhile fun c => c ≠ 0).length,
      (zeroBytes cs.length (BitVec.ofNat _ (ofLittleEndian cs))).getLsbD i = false := by
    intro i hi
    have hj : i / 8 < (cs.takeWhile fun c => c ≠ 0).length := by omega
    rw [← div_add_mod i 8, getLsbD_zeroBytes (hj.trans_le hle) (mod_lt _ (by decide))
      fun k hk => hbefore k (hk.trans hj), decide_eq_false (hbefore _ hj), Bool.and_false]
  rcases eq_or_lt_of_le hle with heq | hlt
  · have hzero : zeroBytes cs.length (BitVec.ofNat _ (ofLittleEndian cs)) = 0#(8 * cs.length) := by
      refine BitVec.eq_of_getLsbD_eq fun i hi => ?_
      rw [hlow i (by omega), BitVec.getLsbD_zero]
    rw [hzero, ctz_zero, heq]
    exact Nat.mul_div_cancel_left _ (by decide)
  · have hfirst : (zeroBytes cs.length (BitVec.ofNat _ (ofLittleEndian cs))).getLsbD
        (8 * (cs.takeWhile fun c => c ≠ 0).length + 7) = true := by
      rw [getLsbD_zeroBytes hlt (by decide) hbefore, decide_eq_true (getD_length_takeWhile cs)]
      rfl
    rw [ctz_of_first hfirst fun i hi => ?_]
    · omega
    · rcases lt_or_ge i (8 * (cs.takeWhile fun c => c ≠ 0).length) with hi' | hi'
      · exact hlow i hi'
      · obtain ⟨r, rfl⟩ := Nat.exists_eq_add_of_le hi'
        rw [getLsbD_zeroBytes hlt (by omega) hbefore, decide_eq_false (by omega), Bool.false_and]

end Soup.Lib
