import Mathlib.Algebra.Order.Ring.Int

/-!
# Regular expressions that are matched by backtracking

The first match of an expression is the one that its choices come to first: the left branch of an
alternative, and one repetition more before one less. `Regex.runs` lists the matches at a place in
this order, and `Regex.leftmost` is the first match at the first place that has one.

What follows in an expression decides between the matches of what comes before, so the rules are
about `Regex.first`, the first match that a continuation takes. `first_rep_char` is the rule for a
class that is repeated: where the continuation does not take a text that begins with the class,
only the whole run is left.
-/

namespace Soup.Lib

open List Function

inductive Regex (α : Type*)
  /-- `^` -/
  | start
  /-- `$` -/
  | stop
  | char (p : α → Bool)
  | seq (r t : Regex α)
  | alt (r t : Regex α)
  /-- `r?` -/
  | opt (r : Regex α)
  /-- `r{least,most}` -/
  | rep (least most : ℕ) (r : Regex α)
  /-- `(r)`, the group of this number -/
  | group (n : ℕ) (r : Regex α)

namespace Regex

variable {α : Type*}

/-- A place in a text with the groups that are captured so far. -/
structure Place (α : Type*) where
  position : ℕ
  rest : List α
  captures : ℕ → Option (List α)

namespace Place

/-- The place behind the next `n`. -/
def advance (s : Place α) (n : ℕ) : Place α :=
  { s with position := s.position + n, rest := s.rest.drop n }

/-- The group of this number is what stands between two places. -/
def capture (s : Place α) (n : ℕ) (t : Place α) : Place α :=
  { t with captures := update t.captures n (some (s.rest.take (s.rest.length - t.rest.length))) }

section

variable (s : Place α)

@[simp] theorem advance_rest (n : ℕ) : (s.advance n).rest = s.rest.drop n := rfl

@[simp] theorem advance_position (n : ℕ) : (s.advance n).position = s.position + n := rfl

@[simp] theorem advance_captures (n : ℕ) : (s.advance n).captures = s.captures := rfl

@[simp] theorem advance_zero : s.advance 0 = s := rfl

theorem advance_advance (m n : ℕ) : (s.advance m).advance n = s.advance (m + n) := by
  simp [advance, add_assoc]

theorem capture_advance (n : ℕ) {k : ℕ} (hk : k ≤ s.rest.length) : s.capture n (s.advance k) =
      { s.advance k with captures := update s.captures n (some (s.rest.take k)) } := by
  have hlength : s.rest.length - (s.rest.length - k) = k := by omega
  simp [capture, hlength]

end

end Place

/-- The matches of a repetition, from those of what is repeated. -/
def repRuns (runs : Place α → List (Place α)) (least : ℕ) : ℕ → Place α → List (Place α)
  | 0, s => if least = 0 then [s] else []
  | most + 1, s => (runs s).flatMap (repRuns runs (least - 1) most) ++ if least = 0 then [s] else []

/-- The places behind the matches at a place, in the order in which they are tried. -/
def runs : Regex α → Place α → List (Place α)
  | start, s => if s.position = 0 then [s] else []
  | stop, s => if s.rest.isEmpty then [s] else []
  | char p, s => if s.rest.head?.any p then [s.advance 1] else []
  | seq r t, s => (runs r s).flatMap (runs t)
  | alt r t, s => runs r s ++ runs t s
  | opt r, s => runs r s ++ [s]
  | rep least most r, s => repRuns (runs r) least most s
  | group n r, s => (runs r s).map (s.capture n)

/-- The first match at a place or behind it. -/
def leftmostFrom (r : Regex α) (position : ℕ) : List α → Option (Place α)
  | [] => (runs r { position, rest := [], captures := fun _ => none }).head?
  | c :: rest =>
    ((runs r { position, rest := c :: rest, captures := fun _ => none }).head?).or
      (leftmostFrom r (position + 1) rest)

/-- The first match in a text. -/
def leftmost (r : Regex α) (text : List α) : Option (Place α) := leftmostFrom r 0 text

/-! ## The first match that a continuation takes -/

/-- The result of the continuation behind the first match for which it has one. -/
def first {β : Type*} (r : Regex α) (s : Place α) (k : Place α → Option β) : Option β :=
  (runs r s).findSome? k

section Rules

variable {β : Type*} (s : Place α) (k : Place α → Option β)

attribute [local simp] runs

theorem first_start : first start s k = if s.position = 0 then k s else none := by
  rw [first, runs]
  split <;> simp

theorem first_stop : first stop s k = if s.rest.isEmpty then k s else none := by
  rw [first, runs]
  split <;> simp

theorem first_char (p : α → Bool) :
    first (char p) s k = if s.rest.head?.any p then k (s.advance 1) else none := by
  rw [first, runs]
  split <;> simp

theorem findSome?_flatMap {γ δ : Type*} (f : γ → List δ) (g : δ → Option β) (xs : List γ) :
    (xs.flatMap f).findSome? g = xs.findSome? fun x => (f x).findSome? g := by
  induction xs with
  | nil => rfl
  | cons x xs ih =>
    rw [flatMap_cons, findSome?_append, findSome?_cons, ih]
    cases (f x).findSome? g <;> rfl

theorem first_seq (r t : Regex α) : first (seq r t) s k = first r s fun s => first t s k := by
  simp [first, findSome?_flatMap]

theorem first_alt (r t : Regex α) : first (alt r t) s k = (first r s k).or (first t s k) := by
  simp [first]

theorem first_opt (r : Regex α) : first (opt r) s k = (first r s k).or (k s) := by
  simp [first]

theorem first_group (n : ℕ) (r : Regex α) :
    first (group n r) s k = first r s fun t => k (s.capture n t) := by
  rw [first, runs, findSome?_map]
  rfl

/-- A repeated class before what does not take the class. -/
theorem first_rep_char {p : α → Bool} (hk : ∀ s, s.rest.head?.any p = true → k s = none)
    (most : ℕ) : ∀ (least : ℕ) (s : Place α), first (rep least most (char p)) s k =
      let run := (s.rest.takeWhile p).length
      if least ≤ run ∧ run ≤ most then k (s.advance run) else none := by
  induction most with
  | zero =>
    intro least s
    rw [first, runs, repRuns]
    cases hrest : s.rest with
    | nil => by_cases hleast : least = 0 <;> simp [hleast]
    | cons c rest =>
      by_cases hc : p c = true
      · have hnone : k s = none := hk s (by simp [hrest, hc])
        by_cases hleast : least = 0 <;> simp [hleast, hc, hnone]
      · by_cases hleast : least = 0 <;> simp [hleast, hc]
  | succ most ih =>
    intro least s
    rw [first, runs, repRuns, runs]
    by_cases hhead : s.rest.head?.any p = true
    · obtain ⟨c, rest, hrest, hc⟩ : ∃ c rest, s.rest = c :: rest ∧ p c = true := by
        cases hrest : s.rest with
        | nil => simp [hrest] at hhead
        | cons c rest => exact ⟨c, rest, rfl, by simpa [hrest] using hhead⟩
      -- One more is taken, since nothing takes the text from here on.
      have hmore := ih (least - 1) (s.advance 1)
      rw [first, runs] at hmore
      have hnone : (if least = 0 then [s] else []).findSome? k = none := by
        split <;> simp [hk s hhead]
      rw [if_pos hhead, flatMap_singleton, findSome?_append, hmore, hnone, Option.or_none]
      simp only [Place.advance_rest, hrest, drop_one, tail_cons, takeWhile_cons, hc, if_true,
        length_cons, Place.advance_advance, add_comm 1]
      have hiff : least - 1 ≤ (rest.takeWhile p).length ∧ (rest.takeWhile p).length ≤ most ↔
          least ≤ (rest.takeWhile p).length + 1 ∧
            (rest.takeWhile p).length + 1 ≤ most + 1 := by omega
      exact if_congr hiff rfl rfl
    · have htake : s.rest.takeWhile p = [] := by
        cases hrest : s.rest with
        | nil => rfl
        | cons c rest =>
          have hc : p c = false := by simpa [hrest] using hhead
          simp [hc]
      rw [if_neg hhead, htake]
      by_cases hleast : least = 0 <;> simp [hleast]

end Rules

end Regex

end Soup.Lib
