import Soup.Lib.Cross
import Soup.Shell.Braces

/-!
# What a brace expansion is

`expansion` is the cartesian expansion of a text: a group is an open brace with a brace that closes
it (`closing`) and at least one comma at its own level, and stands for the expansions of its
variants (`variants`) one after the other; everything else is literal. `expansion_append` says that
what a closing brace ends is expanded on its own.
-/

namespace Soup.Shell

open Soup.Lib List Nat

def InputChar.isOpen (c : InputChar) : Bool := !c.escaped && c.char == b '{'

def InputChar.isClose (c : InputChar) : Bool := !c.escaped && c.char == b '}'

def InputChar.isComma (c : InputChar) : Bool := !c.escaped && c.char == b ','

/-- The number of open levels behind a character. -/
def nesting (depth : ℕ) (c : InputChar) : ℕ :=
  if c.isOpen then depth + 1 else if c.isClose then depth - 1 else depth

/-- The text before the brace that closes the level and the text after it, where `depth` levels are
open inside of it. -/
def closing : ℕ → List InputChar → Option (List InputChar × List InputChar)
  | _, [] => none
  | depth, c :: cs =>
    if c.isClose && depth == 0 then some ([], cs)
    else (closing (nesting depth c) cs).map fun (inner, rest) => (c :: inner, rest)

/-- The text between the commas of the level. -/
def variants : ℕ → List InputChar → List (List InputChar)
  | _, [] => [[]]
  | depth, c :: cs =>
    if c.isComma && depth == 0 then [] :: variants 0 cs
    else (variants (nesting depth c) cs).modifyHead (c :: ·)

theorem length_of_closing {cs inner rest : List InputChar} : ∀ {depth},
    closing depth cs = some (inner, rest) → inner.length + 1 + rest.length = cs.length := by
  induction cs generalizing inner with
  | nil => exact fun h => by cases h
  | cons c cs ih =>
    intro depth h
    rw [closing] at h
    split at h
    · cases h
      simp [add_comm]
    · obtain ⟨⟨inner', rest'⟩, h', heq⟩ := Option.map_eq_some_iff.1 h
      cases heq
      have := ih h'
      simp only [length_cons]
      omega

theorem variants_ne_nil (depth : ℕ) (cs : List InputChar) : variants depth cs ≠ [] := by
  induction cs generalizing depth with
  | nil => simp [variants]
  | cons c cs ih =>
    rw [variants]
    split
    · simp
    · rw [Ne, modifyHead_eq_nil_iff]
      exact ih _

theorem length_of_mem_variants {cs v : List InputChar} : ∀ {depth}, v ∈ variants depth cs →
    v.length ≤ cs.length := by
  induction cs generalizing v with
  | nil =>
    intro depth hv
    rw [variants, mem_singleton] at hv
    exact (congrArg List.length hv).le
  | cons c cs ih =>
    intro depth hv
    have hle : cs.length ≤ (c :: cs).length := by simp
    rw [variants] at hv
    split at hv
    · rcases mem_cons.1 hv with rfl | hv
      · exact zero_le _
      · exact le_trans (ih hv) hle
    · obtain ⟨w, ws, hvs⟩ := exists_cons_of_ne_nil (variants_ne_nil (nesting depth c) cs)
      rw [hvs, modifyHead_cons] at hv
      rcases mem_cons.1 hv with rfl | hv
      · have hw : w ∈ variants (nesting depth c) cs := by
          rw [hvs]
          exact mem_cons_self ..
        simpa using ih hw
      · have hw : v ∈ variants (nesting depth c) cs := by
          rw [hvs]
          exact mem_cons_of_mem _ hv
        exact le_trans (ih hw) hle

/-- The brace expansion of a text. -/
def expansion (cs : List InputChar) : List Bytes :=
  match cs with
  | [] => [[]]
  | c :: cs =>
    match _h : closing 0 cs with
    | some (inner, rest) =>
      if c.isOpen ∧ 2 ≤ (variants 0 inner).length then
        cross ((variants 0 inner).attach.flatMap fun v => expansion v.1) (expansion rest)
      else cross [[c.char]] (expansion cs)
    | none => cross [[c.char]] (expansion cs)
termination_by cs.length
decreasing_by
  · have hlength := length_of_closing _h
    have hle := length_of_mem_variants v.2
    simp only [length_cons]
    omega
  · have hlength := length_of_closing _h
    simp only [length_cons]
    omega
  all_goals simp

variable {c : InputChar} {cs inner rest : List InputChar}

theorem expansion_nil : expansion [] = [[]] := by rw [expansion]

theorem expansion_group (hc : c.isOpen = true) (h : closing 0 cs = some (inner, rest))
    (hv : 2 ≤ (variants 0 inner).length) :
    expansion (c :: cs) = cross ((variants 0 inner).flatMap expansion) (expansion rest) := by
  rw [expansion]
  split
  next inner' rest' h' =>
    obtain ⟨rfl, rfl⟩ := Prod.mk.inj (Option.some.inj (h.symm.trans h'))
    rw [if_pos ⟨hc, hv⟩, flatMap_subtype, unattach_attach]
    exact fun _ _ => rfl
  next h' =>
    rw [h] at h'
    cases h'

theorem expansion_literal (h : c.isOpen = true → ∀ inner rest, closing 0 cs = some (inner, rest) →
    (variants 0 inner).length = 1) : expansion (c :: cs) = cross [[c.char]] (expansion cs) := by
  rw [expansion]
  split
  next inner rest h' =>
    refine if_neg fun ⟨hc, hv⟩ => ?_
    rw [h hc inner rest h'] at hv
    omega
  · rfl

/-! ## Levels -/

/-- The closing brace. -/
def closeBrace : InputChar := { char := b '}', escaped := false }

theorem eq_closeBrace (h : c.isClose = true) : c = closeBrace := by
  obtain ⟨char, escaped⟩ := c
  rw [InputChar.isClose, Bool.and_eq_true, Bool.not_eq_true', beq_iff_eq] at h
  obtain ⟨hescaped, hchar⟩ := h
  cases hescaped
  cases hchar
  rfl

theorem isOpen_of_isClose (h : c.isClose = true) : c.isOpen = false := by
  rw [eq_closeBrace h]
  decide

theorem closing_cons {depth : ℕ} (h : (c.isClose && depth == 0) = false) :
    closing depth (c :: cs) =
      (closing (nesting depth c) cs).map fun (inner, rest) => (c :: inner, rest) := by
  rw [closing, h]
  rfl

theorem variants_cons {depth : ℕ} (h : (c.isComma && depth == 0) = false) :
    variants depth (c :: cs) = (variants (nesting depth c) cs).modifyHead (c :: ·) := by
  rw [variants, h]
  rfl

/-- What follows the level does not matter. -/
theorem closing_replace (rest' : List InputChar) : ∀ {cs inner : List InputChar} {depth},
    closing depth cs = some (inner, rest) →
      closing depth (inner ++ closeBrace :: rest') = some (inner, rest')
  | [], _, _, h => by cases h
  | c :: cs, inner, depth, h => by
    rw [closing] at h
    split at h
    next hc =>
      cases h
      rw [eq_closeBrace (Bool.and_eq_true_iff.1 hc).1] at hc
      rw [nil_append, closing, if_pos hc]
    next hc =>
      obtain ⟨⟨inner', rest''⟩, h', heq⟩ := Option.map_eq_some_iff.1 h
      cases heq
      rw [cons_append, closing_cons (Bool.eq_false_iff.2 hc), closing_replace rest' h']
      rfl

theorem nesting_add {depth k : ℕ} (h : (c.isClose && k == 0) = false) :
    nesting (depth + k + 1) c = depth + nesting k c + 1 := by
  rw [nesting, nesting]
  split
  · omega
  · split
    next hc =>
      rw [hc, Bool.true_and, beq_eq_false_iff_ne] at h
      omega
    · rfl

/-- A level is closed after the levels inside of it. -/
theorem closing_add (depth : ℕ) : ∀ {cs : List InputChar} {k}, closing (depth + k + 1) cs =
    (closing k cs).bind fun (inner, rest) =>
      (closing depth rest).map fun (inner', rest') => (inner ++ closeBrace :: inner', rest')
  | [], _ => rfl
  | c :: cs, k => by
    have hdepth : (c.isClose && depth + k + 1 == 0) = false := by simp
    rw [closing_cons hdepth]
    cases hc : c.isClose && k == 0 with
    | true =>
      obtain ⟨hclose, hk⟩ := Bool.and_eq_true_iff.1 hc
      obtain rfl := eq_of_beq hk
      rw [closing, if_pos hc, eq_closeBrace hclose]
      rfl
    | false =>
      rw [closing_cons hc, nesting_add hc, closing_add depth]
      cases closing (nesting k c) cs with
      | none => rfl
      | some split =>
        simp only [Option.bind_some, Option.map_some]
        cases closing depth split.2 <;> rfl

theorem closing_one (cs : List InputChar) : closing 1 cs =
    (closing 0 cs).bind fun (inner, rest) =>
      (closing 0 rest).map fun (inner', rest') => (inner ++ closeBrace :: inner', rest') :=
  closing_add 0 (k := 0)

/-- A comma of a level inside of a level does not split it. -/
theorem variants_append (depth : ℕ) (w : List InputChar) : ∀ {inner : List InputChar} {k},
    closing k (inner ++ closeBrace :: w) = some (inner, w) →
      variants (depth + k + 1) (inner ++ closeBrace :: w) =
        (variants depth w).modifyHead (inner ++ closeBrace :: ·)
  | [], k, h => by
    have hk : k = 0 := by
      by_contra hk
      rw [nil_append, closing_cons (by simp [hk])] at h
      obtain ⟨_, -, heq⟩ := Option.map_eq_some_iff.1 h
      cases heq
    subst hk
    rw [nil_append, variants_cons (by simp)]
    rfl
  | c :: inner, k, h => by
    rw [cons_append] at h ⊢
    cases hc : c.isClose && k == 0 with
    | true =>
      rw [closing, if_pos hc] at h
      cases h
    | false =>
      rw [closing_cons hc] at h
      obtain ⟨⟨inner', w'⟩, h', heq⟩ := Option.map_eq_some_iff.1 h
      obtain ⟨rfl, rfl⟩ : inner' = inner ∧ w' = w := by
        cases heq
        exact ⟨rfl, rfl⟩
      rw [variants_cons (by simp), nesting_add hc, variants_append depth w' h',
        modifyHead_modifyHead]
      rfl

theorem length_variants_pos (depth : ℕ) (cs : List InputChar) : 0 < (variants depth cs).length :=
  length_pos_of_ne_nil (variants_ne_nil depth cs)

/-- What a closing brace ends is expanded on its own. -/
theorem expansion_append (n : ℕ) : ∀ {cs inner : List InputChar}, cs.length ≤ n →
    closing 0 cs = some (inner, rest) →
      expansion cs = cross (expansion inner) (cross [[b '}']] (expansion rest)) := by
  induction n generalizing rest with
  | zero =>
    intro cs inner hn h
    rw [eq_nil_of_length_eq_zero (le_zero.1 hn)] at h
    cases h
  | succ n ih =>
    rintro (_ | ⟨c, cs⟩) inner hn h
    · cases h
    have hn' : cs.length ≤ n := le_of_succ_le_succ hn
    cases hclose : c.isClose with
    | true =>
      rw [closing, hclose] at h
      cases h
      have hliteral : expansion (c :: rest) = cross [[c.char]] (expansion rest) :=
        expansion_literal fun ho => by rw [isOpen_of_isClose hclose] at ho; cases ho
      rw [hliteral, expansion_nil, one_cross, eq_closeBrace hclose]
      rfl
    | false =>
      rw [closing_cons (by rw [hclose]; rfl)] at h
      obtain ⟨⟨inner', rest'⟩, h', heq⟩ := Option.map_eq_some_iff.1 h
      cases heq
      cases hopen : c.isOpen with
      | false =>
        rw [nesting, hopen, hclose] at h'
        have hliteral : ∀ cs', expansion (c :: cs') = cross [[c.char]] (expansion cs') := fun cs' =>
          expansion_literal fun ho => by rw [hopen] at ho; cases ho
        rw [hliteral, hliteral, ih hn' h', cross_assoc]
      | true =>
        rw [nesting, hopen, if_pos rfl, zero_add, closing_one] at h'
        obtain ⟨⟨i₁, r₁⟩, h₁, h'⟩ := Option.bind_eq_some_iff.1 h'
        obtain ⟨⟨i₂, r₂⟩, h₂, heq⟩ := Option.map_eq_some_iff.1 h'
        cases heq
        have hlength := length_of_closing h₁
        have hlength' := length_of_closing h₂
        have h₃ : closing 0 (i₁ ++ closeBrace :: i₂) = some (i₁, i₂) := closing_replace i₂ h₁
        have hrest := ih (by omega) h₂
        by_cases hv : 2 ≤ (variants 0 i₁).length
        · rw [expansion_group hopen h₁ hv, expansion_group hopen h₃ hv, hrest, cross_assoc]
        · have hone : (variants 0 i₁).length = 1 := by
            have := length_variants_pos 0 i₁
            omega
          rw [expansion_literal fun _ i r hi => ?_, expansion_literal fun _ i r hi => ?_, ih hn' h₁,
            ih (by simp only [length_append, length_cons]; omega) h₃, hrest]
          · simp only [cross_assoc]
          · cases h₃.symm.trans hi
            exact hone
          · cases h₁.symm.trans hi
            exact hone

end Soup.Shell
