import Mathlib.Algebra.Order.Ring.Int
import Mathlib.Data.Nat.Bitwise
import Mathlib.Tactic.Ring

/-!
# Numbers in marked digits

A number of variable length is written as its digits in a base, the least one first, and every
digit but the last is marked by adding the base to it. Where a number ends is seen from its own
digits, so that it can be read in front of anything.
-/

namespace Soup.Lib

open List Nat

/-- `ds` are the marked digits of `n`. Digits past the leading one may be zero. -/
inductive Numeral (base : ℕ) : List ℕ → ℕ → Prop
  | last {d : ℕ} : d < base → Numeral base [d] d
  | more {d : ℕ} {ds : List ℕ} {n : ℕ} :
    d < base → Numeral base ds n → Numeral base ((d + base) :: ds) (d + base * n)

/-- The marked digits of `n`, unless they are more than `fuel`. -/
def digits (base : ℕ) : ℕ → ℕ → Option (List ℕ)
  | 0, _ => none
  | fuel + 1, n =>
    if n / base = 0 then some [n % base]
    else (digits base fuel (n / base)).map ((n % base + base) :: ·)

variable {base : ℕ} {ds : List ℕ}

theorem Numeral.lt {n : ℕ} (h : Numeral base ds n) : ∀ d ∈ ds, d < 2 * base := by
  induction h with
  | last hd =>
    intro d h
    rw [mem_singleton] at h
    omega
  | more hd _ ih =>
    intro e he
    rcases mem_cons.1 he with rfl | he
    · omega
    · exact ih e he

theorem Numeral.length_pos {n : ℕ} (h : Numeral base ds n) : 0 < ds.length := by
  cases h <;> simp

/-- Every digit in front of the last one is marked. -/
theorem Numeral.marked {ds pre : List ℕ} {n : ℕ} (h : Numeral base ds n)
    (hpre : pre <+: ds) (hne : pre ≠ ds) : ∀ d ∈ pre, base ≤ d := by
  induction h generalizing pre with
  | last hd =>
    rcases pre with _ | ⟨e, pre⟩
    · simp
    · obtain ⟨rfl, hnil⟩ := cons_prefix_cons.1 hpre
      exact absurd (by rw [prefix_nil.1 hnil]) hne
  | more hd hds ih =>
    rcases pre with _ | ⟨e, pre⟩
    · simp
    · obtain ⟨rfl, hrest⟩ := cons_prefix_cons.1 hpre
      intro d hmem
      rcases mem_cons.1 hmem with rfl | hmem
      · exact le_add_left _ _
      · exact ih hrest (fun heq => hne (by rw [heq])) d hmem

theorem digits_numeral (hbase : 0 < base) {fuel n : ℕ}
    (h : digits base fuel n = some ds) : Numeral base ds n ∧ ds.length ≤ fuel := by
  induction fuel generalizing n ds with
  | zero => cases h
  | succ fuel ih =>
    have hn : n % base + base * (n / base) = n := mod_add_div n base
    have hlt : n % base < base := mod_lt n hbase
    rw [digits] at h
    split at h
    next hzero =>
      cases h
      rw [hzero, mul_zero, add_zero] at hn
      rw [hn] at hlt ⊢
      exact ⟨.last hlt, by simp⟩
    next hpos =>
      rcases hrest : digits base fuel (n / base) with _ | es
      · rw [hrest] at h
        cases h
      · rw [hrest] at h
        cases h
        obtain ⟨hes, hlen⟩ := ih hrest
        have hmore := Numeral.more hlt hes
        rw [hn] at hmore
        exact ⟨hmore, succ_le_succ hlen⟩

theorem exists_digits {fuel n : ℕ} (h : n < base ^ (fuel + 1)) :
    ∃ ds, digits base (fuel + 1) n = some ds := by
  induction fuel generalizing n with
  | zero =>
    have hzero : n / base = 0 := div_eq_of_lt (by simpa using h)
    exact ⟨_, by rw [digits, if_pos hzero]⟩
  | succ fuel ih =>
    rw [digits]
    split
    · exact ⟨_, rfl⟩
    · have hlt : n / base < base ^ (fuel + 1) := by
        rw [pow_succ] at h
        exact Nat.div_lt_of_lt_mul (by rwa [mul_comm])
      obtain ⟨ds, hds⟩ := ih hlt
      exact ⟨_, by rw [hds]; rfl⟩

/-- Putting a digit above the bits that are there already adds it, if it fits. -/
theorem or_shiftLeft_mod {v s w d : ℕ} (hv : v < 2 ^ s) (hd : d * 2 ^ s < 2 ^ w) :
    v ||| (d <<< s) % 2 ^ w = v + d * 2 ^ s := by
  rw [Nat.mod_eq_of_lt (by rwa [Nat.shiftLeft_eq]), Nat.or_comm,
    ← shiftLeft_add_eq_or_of_lt hv, shiftLeft_eq, add_comm]

end Soup.Lib
