import Mathlib.Algebra.Order.Ring.Int
import Mathlib.Algebra.Order.Ring.Nat
import Mathlib.Data.Nat.Bitwise

/-!
# Little-endian fields

A number below `256 ^ k` as the `k` bytes of it, the least one first.
-/

namespace Soup.Lib

/-- The `k` lowest bytes of `n`. -/
def toLittleEndian : ℕ → ℕ → List UInt8
  | 0, _ => []
  | k + 1, n => UInt8.ofNat n :: toLittleEndian k (n / 256)

/-- The number whose bytes these are. -/
def ofLittleEndian : List UInt8 → ℕ
  | [] => 0
  | c :: cs => c.toNat + 256 * ofLittleEndian cs

@[simp] theorem length_toLittleEndian : ∀ k n : ℕ, (toLittleEndian k n).length = k
  | 0, _ => rfl
  | k + 1, n => by rw [toLittleEndian, List.length_cons, length_toLittleEndian]

theorem ofLittleEndian_toLittleEndian : ∀ {k n : ℕ}, n < 256 ^ k →
    ofLittleEndian (toLittleEndian k n) = n
  | 0, n, h => by
    rw [Nat.pow_zero, Nat.lt_one_iff] at h
    rw [h]
    rfl
  | k + 1, n, h => by
    have hlt : n / 256 < 256 ^ k := by
      rw [Nat.pow_succ] at h
      exact Nat.div_lt_of_lt_mul (by rwa [mul_comm])
    rw [toLittleEndian, ofLittleEndian, ofLittleEndian_toLittleEndian hlt, UInt8.toNat_ofNat']
    exact Nat.mod_add_div n 256

theorem toLittleEndian_ofLittleEndian : ∀ cs : List UInt8,
    toLittleEndian cs.length (ofLittleEndian cs) = cs
  | [] => rfl
  | c :: cs => by
    have hc := c.toNat_lt
    have hdiv : (c.toNat + 256 * ofLittleEndian cs) / 256 = ofLittleEndian cs := by omega
    have hmod : (c.toNat + 256 * ofLittleEndian cs) % 256 = c.toNat := by omega
    rw [List.length_cons, ofLittleEndian, toLittleEndian, hdiv, toLittleEndian_ofLittleEndian cs]
    refine congrArg (· :: cs) (UInt8.toNat.inj ?_)
    rw [UInt8.toNat_ofNat']
    exact hmod

/-- A field at the start of what is left. -/
theorem ofLittleEndian_take {k n : ℕ} (h : n < 256 ^ k) (rest : List UInt8) :
    ofLittleEndian ((toLittleEndian k n ++ rest).take k) = n := by
  rw [List.take_left' (length_toLittleEndian k n), ofLittleEndian_toLittleEndian h]

end Soup.Lib
