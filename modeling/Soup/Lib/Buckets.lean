import Mathlib.Algebra.Order.Ring.Int
import Mathlib.Data.List.Basic

/-!
# Buckets in one list

The values of pairs in one list, those of one key next to each other and in the order of the pairs,
made in three passes: the pairs of a key are counted two places behind the key (`countBuckets`), the
counts are summed up (`sumBuckets`), and every value goes to the place that its key's cursor, one
place behind the key, says (`fillBuckets`). In the end the bucket of a key starts at its place and
ends at the next (`slice_buckets`).
-/

namespace Soup.Lib

open List Option Nat

variable {α : Type*} {n k : ℕ} {edges : List (ℕ × α)}

/-- One more pair of the key. -/
def countBucket (starts : List ℕ) (key : ℕ) : List ℕ := starts.modify (key + 2) (· + 1)

/-- Every count from the third on gets the one before. -/
def sumBuckets (starts : List ℕ) : List ℕ :=
  (range' 2 (starts.length - 2)).foldl (fun starts i => starts.modify i (· + starts.getD (i - 1) 0))
    starts

/-- The value goes to the key's cursor, which goes on. -/
def fillBucket (key : ℕ) (value : α) (starts : List ℕ) (values : List α) : List ℕ × List α :=
  (starts.modify (key + 1) (· + 1), values.set (starts.getD (key + 1) 0) value)

/-- The bucket of a key. -/
def bucket (starts : List ℕ) (values : List α) (key : ℕ) : List α :=
  (values.drop (starts.getD key 0)).take (starts.getD (key + 1) 0 - starts.getD key 0)

/-- The pairs of smaller keys. -/
def below (edges : List (ℕ × α)) (key : ℕ) : ℕ := edges.countP fun e => e.1 < key

/-! ## Counting and summing -/

theorem getElem?_countBuckets (edges : List (ℕ × α)) (starts : List ℕ) (i : ℕ) :
    (edges.foldl (fun starts e => countBucket starts e.1) starts)[i]? =
      starts[i]?.map (· + edges.countP fun e => e.1 + 2 = i) := by
  induction edges generalizing starts with
  | nil => simp
  | cons e edges ih =>
    rw [foldl_cons, ih, countBucket, countP_cons]
    by_cases h : e.1 + 2 = i
    · rw [if_pos (decide_eq_true h), h, getElem?_modify_eq]
      cases starts[i]? with
      | none => rfl
      | some count => exact congrArg some (by simp only; omega)
    · rw [if_neg (by simpa using h), getElem?_modify_ne _ _ h]
      rfl

theorem below_succ (edges : List (ℕ × α)) (k : ℕ) :
    below edges (k + 1) = below edges k + edges.countP fun e => e.1 = k := by
  unfold below
  induction edges with
  | nil => rfl
  | cons e edges ih =>
    simp only [countP_cons, ih, decide_eq_true_eq]
    rcases lt_trichotomy e.1 k with h | h | h
    · rw [if_pos (by omega), if_pos h, if_neg (by omega)]
      omega
    · rw [if_pos (by omega), if_neg (by omega), if_pos h]
      omega
    · rw [if_neg (by omega), if_neg (by omega), if_neg (by omega)]
      omega

theorem below_zero (edges : List (ℕ × α)) : below edges 0 = 0 :=
  countP_eq_zero.2 fun e _ => by simp

theorem below_mono {k m : ℕ} (h : k ≤ m) : below edges k ≤ below edges m :=
  countP_mono_left fun e _ he => by
    rw [decide_eq_true_eq] at he ⊢
    omega

variable {starts : List ℕ}

/-- After some sums, the summed counts are those of all smaller keys. -/
theorem getElem?_sums
    (hcount : ∀ i < n + 2, starts[i]? = some (edges.countP fun e => e.1 + 2 = i)) {m : ℕ}
    (hm : m ≤ n) :
    ∀ i < n + 2, ((range' 2 m).foldl (fun starts i => starts.modify i (· + starts.getD (i - 1) 0))
      starts)[i]? =
      some (if i < m + 2 then below edges (i - 1) else edges.countP fun e => e.1 + 2 = i) := by
  induction m with
  | zero =>
    intro i hi
    rw [range'_zero, foldl_nil, hcount i hi]
    split
    next h =>
      rw [show i - 1 = 0 by omega, below_zero]
      exact congrArg some (countP_eq_zero.2 fun e _ => by simp; omega)
    next => rfl
  | succ m ih =>
    intro i hi
    have ih := ih (by omega)
    rw [range'_concat, foldl_append, foldl_cons, foldl_nil]
    by_cases h : 2 + 1 * m = i
    · rw [h, getElem?_modify_eq, ih i hi, if_neg (by omega), if_pos (by omega),
        getD_eq_getElem?_getD,
        ih _ (by omega), if_pos (by omega), show i - 1 = m + 1 by omega, below_succ edges m,
        show m + 1 - 1 = m by omega]
      have hcount : (edges.countP fun e => e.1 + 2 = i) = edges.countP fun e => e.1 = m :=
        countP_congr fun e _ => by
          simp only [decide_eq_true_eq]
          omega
      refine congrArg some ?_
      rw [getD_some, add_comm, hcount]
    · rw [getElem?_modify_ne _ _ h, ih i hi]
      split
      next hlt => rw [if_pos (by omega)]
      next hge => rw [if_neg (by omega)]

/-- The cursors before the values are filled in. -/
theorem getElem?_sumBuckets (hi : k < n + 2) :
    (sumBuckets (edges.foldl (fun starts e => countBucket starts e.1) (replicate (n + 2) 0)))[k]? =
      some (below edges (k - 1)) := by
  have hcount : ∀ i < n + 2,
      (edges.foldl (fun starts e => countBucket starts e.1) (replicate (n + 2) 0))[i]? =
        some (edges.countP fun e => e.1 + 2 = i) := fun i hi => by
    rw [getElem?_countBuckets, getElem?_replicate, if_pos hi]
    exact congrArg some (zero_add _)
  have hlen : (edges.foldl (fun starts e => countBucket starts e.1) (replicate (n + 2) 0)).length =
      n + 2 := by
    have hlen : ∀ starts : List ℕ,
        (edges.foldl (fun starts e => countBucket starts e.1) starts).length = starts.length := by
      induction edges with
      | nil => exact fun starts => rfl
      | cons e edges ih =>
        intro starts
        rw [foldl_cons, ih, countBucket, length_modify]
        intro i hi
        rw [getElem?_countBuckets, getElem?_replicate, if_pos hi]
        exact congrArg some (zero_add _)
    rw [hlen, length_replicate]
  rw [sumBuckets, hlen, Nat.add_sub_cancel, getElem?_sums hcount le_rfl k hi, if_pos hi]

/-! ## Filling in -/

/-- Where the values of the first pairs are. -/
structure Filling (n : ℕ) (edges done : List (ℕ × α)) (starts : List ℕ) (values : List α) :
    Prop where
  zero : starts[0]? = some 0
  cursor : ∀ k ≤ n, starts[k + 1]? = some (below edges k + done.countP fun e => e.1 = k)
  length : values.length = edges.length
  value : ∀ k j e, (done.filter fun e => e.1 = k)[j]? = some e →
    values[below edges k + j]? = some e.2

variable {done rest : List (ℕ × α)}

/-- One more value is filled in. -/
theorem Filling.step {values : List α} {e : ℕ × α}
    (h : Filling n (done ++ e :: rest) done starts values) (he : e.1 ≤ n) :
    Filling n (done ++ e :: rest) (done ++ [e]) (fillBucket e.1 e.2 starts values).1
      (fillBucket e.1 e.2 starts values).2 where
  zero := by
    rw [fillBucket, getElem?_modify_ne _ _ (succ_ne_zero _)]
    exact h.zero
  cursor k hk := by
    rw [fillBucket, countP_append, countP_singleton]
    by_cases heq : e.1 = k
    · rw [if_pos (decide_eq_true heq), heq, getElem?_modify_eq, h.cursor k hk]
      rfl
    · rw [if_neg (by simpa using heq), getElem?_modify_ne _ _ (fun h => heq (succ.inj h)),
        h.cursor k hk]
      rfl
  length := by
    rw [fillBucket, length_set]
    exact h.length
  value k j e' hj := by
    have hcursor : starts.getD (e.1 + 1) 0 =
        below (done ++ e :: rest) e.1 + done.countP fun e' => e'.1 = e.1 := by
      rw [getD_eq_getElem?_getD, h.cursor _ he, getD_some]
    rw [fillBucket, hcursor]
    rw [filter_append] at hj
    by_cases heq : e.1 = k
    · subst heq
      rw [filter_cons_of_pos (by simp), filter_nil] at hj
      rw [countP_eq_length_filter]
      rcases lt_or_ge j (done.filter fun e' => e'.1 = e.1).length with hlt | hge
      · rw [getElem?_append_left hlt] at hj
        rw [getElem?_set_ne (by omega)]
        exact h.value _ j e' hj
      · rw [getElem?_append_right hge] at hj
        have hlast : j - (done.filter fun e' => e'.1 = e.1).length = 0 := by
          by_contra hne
          rw [getElem?_eq_none (by rw [length_singleton]; omega)] at hj
          cases hj
        rw [hlast] at hj
        cases hj
        have hplace : below (done ++ e :: rest) e.1 + (done.filter fun e' => e'.1 = e.1).length <
            values.length := by
          have hbelow := below_succ (done ++ e :: rest) e.1
          have hall : below (done ++ e :: rest) (e.1 + 1) ≤ (done ++ e :: rest).length :=
            countP_le_length
          rw [countP_append, countP_cons, if_pos (decide_eq_true rfl),
            countP_eq_length_filter] at hbelow
          rw [h.length]
          omega
        rw [show j = (done.filter fun e' => e'.1 = e.1).length by omega, getElem?_set_self hplace]
    · rw [filter_cons_of_neg (by simpa using heq), filter_nil, append_nil] at hj
      have hlt := (List.getElem?_eq_some_iff.1 hj).1
      rw [← countP_eq_length_filter] at hlt
      have hk := below_succ (done ++ e :: rest) k
      have hk' := below_succ (done ++ e :: rest) e.1
      rw [countP_append] at hk
      rw [countP_append, countP_cons, if_pos (decide_eq_true rfl)] at hk'
      rw [getElem?_set_ne ?_]
      · exact h.value k j e' hj
      · rcases lt_or_gt_of_ne heq with hlt' | hgt
        · have hle : below (done ++ e :: rest) (e.1 + 1) ≤ below (done ++ e :: rest) k :=
            below_mono hlt'
          omega
        · have hle : below (done ++ e :: rest) (k + 1) ≤ below (done ++ e :: rest) e.1 :=
            below_mono hgt
          omega

theorem Filling.run {values : List α}
    (h : Filling n (done ++ rest) done starts values) (hrest : ∀ e ∈ rest, e.1 ≤ n) :
    Filling n (done ++ rest) (done ++ rest)
      (rest.foldl (fun s e => fillBucket e.1 e.2 s.1 s.2) (starts, values)).1
      (rest.foldl (fun s e => fillBucket e.1 e.2 s.1 s.2) (starts, values)).2 := by
  induction rest generalizing done starts values with
  | nil =>
    rw [append_nil] at h ⊢
    exact h
  | cons e rest ih =>
    have hstep := h.step (hrest e mem_cons_self)
    rw [append_cons] at hstep ⊢
    exact ih hstep fun e' he' => hrest e' (mem_cons_of_mem _ he')

/-- The buckets hold the values of their keys. -/
theorem bucket_eq (hkeys : ∀ e ∈ edges, e.1 < n) (init : List α)
    (hinit : init.length = edges.length) (hk : k < n) :
    let filled := edges.foldl (fun s e => fillBucket e.1 e.2 s.1 s.2)
      (sumBuckets (edges.foldl (fun starts e => countBucket starts e.1) (replicate (n + 2) 0)),
        init)
    bucket filled.1 filled.2 k = (edges.filter fun e => e.1 = k).map Prod.snd := by
  intro filled
  have hfirst : Filling n ([] ++ edges) []
      (sumBuckets (edges.foldl (fun starts e => countBucket starts e.1) (replicate (n + 2) 0)))
        init :=
    { zero := (getElem?_sumBuckets (by omega)).trans (congrArg some (below_zero edges))
      cursor := fun k hk => getElem?_sumBuckets (by omega)
      length := hinit
      value := fun k j e h => by cases h }
  have h := hfirst.run fun e he => (hkeys e he).le
  have hend : filled.1.getD (k + 1) 0 = below edges k + (edges.filter fun e => e.1 = k).length := by
    rw [getD_eq_getElem?_getD, h.cursor k hk.le, getD_some, ← countP_eq_length_filter]
    rfl
  have hstart : filled.1.getD k 0 = below edges k := by
    rw [getD_eq_getElem?_getD]
    cases k with
    | zero => rw [h.zero, below_zero, getD_some]
    | succ k =>
      rw [h.cursor k (by omega), below_succ, getD_some]
      rfl
  rw [bucket, hend, hstart, Nat.add_sub_cancel_left]
  refine ext_getElem? fun j => ?_
  rw [getElem?_take, getElem?_drop, getElem?_map]
  split
  next hj =>
    rw [getElem?_eq_getElem hj]
    exact h.value k j _ (getElem?_eq_getElem hj)
  next hj =>
    rw [getElem?_eq_none (Nat.le_of_not_lt hj)]
    rfl

end Soup.Lib
