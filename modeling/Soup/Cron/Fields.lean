import Soup.Cron.Found

/-!
# The values of a field

`parse_field` sets some value of its field, and none outside of it. A list of numbers sets just
these, and `*` all values. `Valid` says it of the five fields of an expression that is accepted
(`valid_of_parse`).
-/

namespace Soup.Cron

open Lib List Nat

variable {w lo hi step min max i v : ℕ} {bits result : BitVec w} {kind : NameKind}

/-! ## Sets of bits -/

theorem getLsbD_or_one : (result ||| 1#w <<< v).getLsbD i = true ↔
    result.getLsbD i = true ∨ i < w ∧ i = v := by
  rw [BitVec.getLsbD_or, Bool.or_eq_true, ← BitVec.twoPow_eq, BitVec.getLsbD_twoPow,
    Bool.and_eq_true, decide_eq_true_eq, decide_eq_true_eq]
  exact or_congr Iff.rfl ⟨fun h => ⟨h.2 ▸ h.1, h.2.symm⟩, fun h => ⟨h.2 ▸ h.1, h.2.symm⟩⟩

theorem getLsbD_foldl (values : List ℕ) :
    (values.foldl (fun result i => result ||| 1#w <<< i) result).getLsbD i = true ↔
      result.getLsbD i = true ∨ i < w ∧ i ∈ values := by
  induction values generalizing result with
  | nil => exact ⟨.inl, fun h => h.resolve_right fun h => not_mem_nil h.2⟩
  | cons v values ih =>
    rw [foldl_cons, ih, getLsbD_or_one, mem_cons, or_assoc, ← and_or_left]

theorem getLsbD_setBits (hle : lo ≤ hi) : (setBits result lo hi step).getLsbD i = true ↔
    result.getLsbD i = true ∨ i < w ∧ ∃ k ≤ (hi - lo) / step, i = lo + step * k := by
  rw [setBits, if_pos hle, getLsbD_foldl, mem_range']
  simp only [Nat.lt_succ_iff]

/-- The values of a field are from `min` to `max`, and there is one. -/
structure IsField (bits : BitVec w) (min max : ℕ) : Prop where
  within : ∀ i, bits.getLsbD i = true → min ≤ i ∧ i ≤ max
  exists_value : ∃ i, bits.getLsbD i = true

/-! ## Parts -/

/-- The names of a field are values of it. -/
def NameKind.Fits (kind : NameKind) (min max : ℕ) : Prop :=
  ∀ s v, kind.lookup s = some v → min ≤ v ∧ v ≤ max

theorem fits_none : NameKind.none.Fits min max := fun s v h => by cases h

theorem inMap_bounds {s : Bytes} {map : List (String × ℕ)} (h : inMap s map = some v)
    (hall : ∀ entry ∈ map, min ≤ entry.2 ∧ entry.2 ≤ max) : min ≤ v ∧ v ≤ max := by
  rw [inMap, Option.map_eq_some_iff] at h
  obtain ⟨entry, hfind, rfl⟩ := h
  exact hall entry (mem_of_find?_eq_some hfind)

theorem fits_month : NameKind.month.Fits 1 12 := fun _ _ h => inMap_bounds h (by decide)

theorem fits_weekday : NameKind.weekday.Fits 0 7 := fun _ _ h => inMap_bounds h (by decide)

theorem parseValue_bounds (hfits : kind.Fits min max) {s : Bytes}
    (h : parseValue s min max kind = .ok v) : min ≤ v ∧ v ≤ max := by
  rw [parseValue] at h
  split at h
  next hlookup =>
    cases h
    exact hfits s _ hlookup
  next =>
    split at h
    next =>
      split at h
      · cases h
      · cases h
        omega
    next => cases h

section

variable (hle : min ≤ max)
include hle

theorem parseRange_bounds (hfits : kind.Fits min max) {base : Bytes} {hasStep : Bool}
    (h : parseRange base hasStep min max kind = .ok (lo, hi)) : min ≤ lo ∧ lo ≤ hi ∧ hi ≤ max := by
  rw [parseRange] at h
  split at h
  · cases h
    exact ⟨le_rfl, hle, le_rfl⟩
  · split at h
    · obtain ⟨first, hfirst, h⟩ := bind_eq_ok h
      obtain ⟨last, hlast, h⟩ := bind_eq_ok h
      have hfirst := parseValue_bounds hfits hfirst
      have hlast := parseValue_bounds hfits hlast
      split at h
      · cases h
      · cases h
        omega
    · obtain ⟨first, hfirst, h⟩ := bind_eq_ok h
      have hfirst := parseValue_bounds hfits hfirst
      cases h
      split <;> omega

/-- A part sets a value, and none outside of the field. -/
theorem parsePart_field (hmax : max < w) (hfits : kind.Fits min max) {part : Bytes}
    (h : parsePart min max kind bits part = .ok result)
    (hbits : ∀ i, bits.getLsbD i = true → min ≤ i ∧ i ≤ max) : IsField result min max := by
  rw [parsePart] at h
  split at h
  · cases h
  · split at h
    · split at h
      · cases h
      · obtain ⟨step, -, h⟩ := bind_eq_ok h
        obtain ⟨⟨first, last⟩, hrange, h⟩ := bind_eq_ok h
        obtain ⟨hlo, hlohi, hhi⟩ := parseRange_bounds hle hfits hrange
        cases h
        refine ⟨fun i hi => ?_, first, ?_⟩
        · rcases (getLsbD_setBits hlohi).1 hi with hi | ⟨-, k, hk, rfl⟩
          · exact hbits i hi
          · have hmul := (mul_le_mul_left step hk).trans (mul_div_le (last - first) step)
            omega
        · exact (getLsbD_setBits hlohi).2 (.inr ⟨by omega, 0, zero_le _, by omega⟩)
    · cases h

/-! ## Fields -/

theorem parts_field (hmax : max < w) (hfits : kind.Fits min max) {parts : List Bytes}
    (hne : parts ≠ []) (h : parts.foldlM (parsePart min max kind) 0#w = .ok result) :
    IsField result min max := by
  cases parts with
  | nil => exact absurd rfl hne
  | cons part parts =>
    rw [foldlM_cons] at h
    obtain ⟨first, hfirst, h⟩ := bind_eq_ok h
    have hfirst := parsePart_field hle hmax hfits hfirst fun i hi => by
      rw [BitVec.getLsbD_zero] at hi
      cases hi
    exact foldlM_invariant (fun _ bits => IsField bits min max)
      (fun part rest s s' hpart hs => parsePart_field hle hmax hfits hpart hs.within) h hfirst

theorem parseField_field (hmax : max < w) (hfits : kind.Fits min max)
    (hkind : kind ≠ .weekday) {field : Bytes} (h : parseField w field min max kind = .ok result) :
    IsField result min max := by
  rw [parseField] at h
  split at h
  · cases h
  · obtain ⟨bits, hbits, h⟩ := bind_eq_ok h
    cases h
    exact parts_field hle hmax hfits (splitOn_ne_nil _ _) hbits

end

/-- The seventh bit is folded into the first. -/
theorem fold_weekday : ∀ bits : BitVec 8, ∀ i < 8,
    ((bits ||| bits >>> 7) &&& 0x7F).getLsbD i =
      (i < 7 && (bits.getLsbD i || (i = 0 && bits.getLsbD 7))) := by
  intro bits i hi
  have hshift : i ≠ 0 → bits.getLsbD (7 + i) = false := fun hne =>
    BitVec.getLsbD_of_ge bits (7 + i) (by omega)
  rw [BitVec.getLsbD_and, BitVec.getLsbD_or, BitVec.getLsbD_ushiftRight]
  have hmask : (0x7F : BitVec 8).getLsbD i = decide (i < 7) := by
    have hall : ∀ i < 8, (0x7F : BitVec 8).getLsbD i = decide (i < 7) := by decide
    exact hall i hi
  rw [hmask]
  by_cases hzero : i = 0
  · subst hzero
    simp
  · rw [hshift hzero]
    simp [hzero, Bool.and_comm]

theorem parseField_weekday {field : Bytes} {bits : BitVec 8}
    (h : parseField 8 field 0 7 .weekday = .ok bits) : IsField bits 0 6 := by
  rw [parseField] at h
  split at h
  · cases h
  · obtain ⟨result, hresult, h⟩ := bind_eq_ok h
    rw [if_pos rfl] at h
    cases h
    obtain ⟨hwithin, v, hv⟩ := parts_field (by decide) (by decide) fits_weekday
      (splitOn_ne_nil _ _) hresult
    refine ⟨fun i hi => ?_, ?_⟩
    · rcases lt_or_ge i 8 with hlt | hge
      · rw [fold_weekday result i hlt, Bool.and_eq_true, decide_eq_true_eq] at hi
        omega
      · rw [BitVec.getLsbD_of_ge _ _ hge] at hi
        cases hi
    · rcases lt_or_ge v 7 with hlt | hge
      · refine ⟨v, ?_⟩
        rw [fold_weekday result v (by omega), hv, decide_eq_true hlt]
        rfl
      · have hseven : v = 7 := le_antisymm (hwithin v hv).2 hge
        rw [hseven] at hv
        refine ⟨0, ?_⟩
        rw [fold_weekday result 0 (by decide), hv, Bool.or_comm]
        rfl

/-! ## Expressions -/

/-- What holds of every expression that is accepted. -/
structure Valid (e : CronExpression) : Prop extends Wildcards e where
  minutes : IsField e.minutes 0 59
  hours : IsField e.hours 0 23
  monthdays : IsField e.days 1 31
  months : IsField e.months 1 12
  daysOfWeek : IsField e.weekdays 0 6

/-- Which values a set of bits has, by its first bits. -/
theorem isField_of_all (h : ∀ i < w, bits.getLsbD i = true → min ≤ i ∧ i ≤ max)
    (hvalue : bits.getLsbD v = true) : IsField bits min max where
  within i hi := (lt_or_ge i w).elim (fun hlt => h i hlt hi) fun hge => by
    rw [BitVec.getLsbD_of_ge _ _ hge] at hi
    cases hi
  exists_value := ⟨v, hvalue⟩

theorem valid_of_parseNickname {e : CronExpression} {expr : Bytes}
    (h : parseNickname expr = some e) : Valid e := by
  have hwild := wildcards_of_parseNickname h
  have hfirst : IsField (1 : BitVec 64) 0 59 := isField_of_all (v := 0) (by decide) (by decide)
  have hmidnight : IsField (1 : BitVec 32) 0 23 := isField_of_all (v := 0) (by decide) (by decide)
  have hallDays : IsField allDays 1 31 := isField_of_all (v := 1) (by decide) (by decide)
  have hallMonths : IsField allMonths 1 12 := isField_of_all (v := 1) (by decide) (by decide)
  have hallWeekdays : IsField allWeekdays 0 6 := isField_of_all (v := 0) (by decide) (by decide)
  have hfirstDay : IsField (1 <<< 1 : BitVec 32) 1 31 :=
    isField_of_all (v := 1) (by decide) (by decide)
  rw [parseNickname] at h
  split at h
  · obtain rfl := Option.some.inj h
    exact ⟨hwild, hfirst, hmidnight, hfirstDay, isField_of_all (v := 1) (by decide) (by decide),
      hallWeekdays⟩
  split at h
  · obtain rfl := Option.some.inj h
    exact ⟨hwild, hfirst, hmidnight, hfirstDay, hallMonths, hallWeekdays⟩
  split at h
  · obtain rfl := Option.some.inj h
    exact ⟨hwild, hfirst, hmidnight, hallDays, hallMonths,
      isField_of_all (v := 0) (by decide) (by decide)⟩
  split at h
  · obtain rfl := Option.some.inj h
    exact ⟨hwild, hfirst, hmidnight, hallDays, hallMonths, hallWeekdays⟩
  split at h
  · obtain rfl := Option.some.inj h
    exact ⟨hwild, hfirst, isField_of_all (v := 0) (by decide) (by decide), hallDays, hallMonths,
      hallWeekdays⟩
  · cases h

theorem valid_of_parse {e : CronExpression} {input : Bytes} (h : parse input = .ok e) :
    Valid e := by
  have hwild := wildcards_of_parse h
  rw [parse] at h
  split at h
  · split at h
    next hnickname =>
      cases h
      exact valid_of_parseNickname hnickname
    next => cases h
  · split at h
    · obtain ⟨minutes, hminutes, h⟩ := bind_eq_ok h
      obtain ⟨hours, hhours, h⟩ := bind_eq_ok h
      obtain ⟨days, hdays, h⟩ := bind_eq_ok h
      obtain ⟨months, hmonths, h⟩ := bind_eq_ok h
      obtain ⟨weekdays, hweekdays, h⟩ := bind_eq_ok h
      cases h
      exact ⟨hwild, parseField_field (by decide) (by decide) fits_none (by decide) hminutes,
        parseField_field (by decide) (by decide) fits_none (by decide) hhours,
        parseField_field (by decide) (by decide) fits_none (by decide) hdays,
        parseField_field (by decide) (by decide) fits_month (by decide) hmonths,
        parseField_weekday hweekdays⟩
    · cases h

end Soup.Cron
