import Soup.Cron.Fields

/-!
# The normalized text of an expression

`CronExpression::format_numeric` of `cron_parser.rs`. A field is written from its bits alone: `*`
when it has all its values, and else as the list of them. The text is read again as the same bits
(`parse_formatNumeric`), but a field counts as `*` when it has all its values, however it was
written.
-/

namespace Soup.Cron

open Lib List Option CronExpression

variable {w min max i v : ℕ} {bits : BitVec w} {kind : NameKind}

/-- `count_ones`. -/
def countOnes (bits : BitVec w) : ℕ := (range w).countP fun i => bits.getLsbD i

/-- The values of `min..=max` that are set. -/
def values (bits : BitVec w) (min max : ℕ) : List ℕ :=
  (range' min (max + 1 - min)).filter fun i => bits.getLsbD i

/-- `write!(w, "{}", i)`. -/
def decimal (i : ℕ) : Bytes := text (toString i)

def formatBitfield (bits : BitVec w) (min max : ℕ) : Bytes :=
  if countOnes bits = max - min + 1 then [b '*']
    else [b ','].intercalate ((values bits min max).map decimal)

/-- What `format_numeric` writes. -/
def numericText (e : CronExpression) : Bytes :=
  formatBitfield e.minutes 0 59 ++ b ' ' :: (formatBitfield e.hours 0 23 ++ b ' ' ::
    (formatBitfield e.days 1 31 ++ b ' ' :: (formatBitfield e.months 1 12 ++ b ' ' ::
      formatBitfield e.weekdays 0 6)))

/-- `format_numeric`, which is unreachable past its buffer of 512 bytes. -/
def formatNumeric (e : CronExpression) : Option Bytes :=
  if (numericText e).length ≤ 512 then some (numericText e) else none

/-- The five checks of a time. -/
def CronExpression.matchesFields (e : CronExpression) (minute hour day month weekday : ℤ) : Bool :=
  bitSet e.minutes minute && bitSet e.hours hour && bitSet e.months month &&
    e.matchesDay day weekday

/-! ## Values -/

theorem mem_values : v ∈ values bits min max ↔ (min ≤ v ∧ v ≤ max) ∧ bits.getLsbD v = true := by
  rw [values, mem_filter, mem_range'_1]
  refine and_congr_left' ⟨fun h => ?_, fun h => ?_⟩ <;> omega

theorem countOnes_eq (h : IsField bits min max) :
    countOnes bits = (values bits min max).length := by
  rw [countOnes, countP_eq_length_filter]
  refine List.Perm.length_eq ((perm_ext_iff_of_nodup ?_ ?_).2 fun v => ?_)
  · exact nodup_range.filter _
  · exact (nodup_range' 1).filter _
  · rw [mem_values, mem_filter, mem_range]
    refine ⟨fun hv => ⟨h.within v hv.2, hv.2⟩, fun hv => ⟨?_, hv.2⟩⟩
    exact not_le.1 fun hge => by
      rw [BitVec.getLsbD_of_ge _ _ hge] at hv
      cases hv.2

/-- A field is written as `*` when it has all its values. -/
theorem countOnes_eq_iff (hle : min ≤ max) (h : IsField bits min max) :
    countOnes bits = max - min + 1 ↔ ∀ v, min ≤ v → v ≤ max → bits.getLsbD v = true := by
  have hlength : max - min + 1 = (range' min (max + 1 - min)).length := by
    rw [length_range']
    omega
  rw [countOnes_eq h, hlength, values, length_filter_eq_length_iff]
  simp only [mem_range'_1]
  constructor
  · intro hall v hmin hmax
    exact hall v ⟨hmin, by omega⟩
  · intro hall v hv
    exact hall v hv.1 (by omega)

theorem length_intercalate_le {pieces : List Bytes} (h : ∀ piece ∈ pieces, piece.length ≤ 2) :
    ([b ','].intercalate pieces).length ≤ 3 * pieces.length := by
  induction pieces with
  | nil => exact le_rfl
  | cons piece pieces ih =>
    have hpiece := h piece mem_cons_self
    cases pieces with
    | nil =>
      rw [intercalate_singleton, length_singleton]
      omega
    | cons next pieces =>
      have hrest := ih fun piece hp => h piece (mem_cons_of_mem _ hp)
      rw [intercalate_cons_cons, length_append, length_append, length_singleton, length_cons]
      omega

/-! ## Numbers -/

/-- What the numbers of the fields are read as. -/
theorem decimal_spec : ∀ v < 60, (decimal v).all isAsciiDigit = true ∧ decimal v ≠ [] ∧
    (decimal v).length ≤ 2 ∧ parseDecimal (decimal v) = some v ∧
    NameKind.month.lookup (decimal v) = none ∧ NameKind.weekday.lookup (decimal v) = none := by
  decide +kernel

variable {c : UInt8}

section

variable (hv : v < 60)
include hv

theorem isAsciiDigit_of_mem (hc : c ∈ decimal v) : isAsciiDigit c = true :=
  all_eq_true.1 (decimal_spec v hv).1 c hc

theorem notMem_decimal (hc : isAsciiDigit c = false) : c ∉ decimal v := fun h => by
  rw [isAsciiDigit_of_mem hv h] at hc
  cases hc

theorem lookup_decimal : kind.lookup (decimal v) = none := by
  obtain ⟨-, -, -, -, hmonth, hweekday⟩ := decimal_spec v hv
  cases kind with
  | none => rfl
  | month => exact hmonth
  | weekday => exact hweekday

theorem parseValue_decimal (hmin : min ≤ v) (hmax : v ≤ max) :
    parseValue (decimal v) min max kind = .ok v := by
  rw [parseValue, lookup_decimal hv, (decimal_spec v hv).2.2.2.1]
  exact if_neg fun h => by omega

theorem parsePart_decimal (hmin : min ≤ v) (hmax : v ≤ max) :
    parsePart min max kind bits (decimal v) = .ok (bits ||| 1#w <<< v) := by
  have hne := (decimal_spec v hv).2.1
  have hslash : (decimal v).splitOn (b '/') = [decimal v] :=
    splitOn_eq_singleton (notMem_decimal hv (by decide))
  have hdash : splitRange (decimal v) = none := by
    rw [splitRange, splitOn_eq_singleton (notMem_decimal hv (by decide))]
  have hstar : decimal v ≠ [b '*'] := fun h =>
    notMem_decimal hv (by decide) (h ▸ mem_singleton_self (b '*'))
  rw [parsePart, if_neg hne, hslash]
  have hrange : parseRange (decimal v) false min max kind = .ok (v, v) := by
    rw [parseRange, if_neg hstar, hdash, parseValue_decimal hv hmin hmax]
    rfl
  change parseStep none >>= _ = _
  rw [parseStep, ok_bind]
  change parseRange (decimal v) false min max kind >>= _ = _
  rw [hrange, ok_bind]
  dsimp only
  rw [setBits, if_pos le_rfl, Nat.sub_self, Nat.zero_div]
  rfl

end

theorem foldlM_decimal {vs : List ℕ} (h : ∀ v ∈ vs, v < 60 ∧ min ≤ v ∧ v ≤ max) :
    (vs.map decimal).foldlM (parsePart min max kind) bits =
      .ok (vs.foldl (fun bits v => bits ||| 1#w <<< v) bits) := by
  induction vs generalizing bits with
  | nil => rfl
  | cons v vs ih =>
    obtain ⟨hv, hmin, hmax⟩ := h v mem_cons_self
    rw [map_cons, foldlM_cons, parsePart_decimal hv hmin hmax, ok_bind,
      ih fun v hv => h v (mem_cons_of_mem _ hv)]
    rfl

/-! ## Fields -/

/-- `all` is the field with all its values, and what `*` is read as. -/
structure IsStar (all : BitVec w) (min max last : ℕ) (kind : NameKind) : Prop where
  bits : ∀ i < w, all.getLsbD i = decide (min ≤ i ∧ i ≤ max)
  parse : parseField w [b '*'] min last kind = .ok all

theorem isStar_minutes : IsStar allMinutes 0 59 59 .none := ⟨by decide +kernel, by decide +kernel⟩

theorem isStar_hours : IsStar allHours 0 23 23 .none := ⟨by decide +kernel, by decide +kernel⟩

theorem isStar_days : IsStar allDays 1 31 31 .none := ⟨by decide +kernel, parseField_days⟩

theorem isStar_months : IsStar allMonths 1 12 12 .month := ⟨by decide +kernel, by decide +kernel⟩

theorem isStar_weekdays : IsStar allWeekdays 0 6 7 .weekday :=
  ⟨by decide +kernel, parseField_weekdays⟩

section Field

variable {all : BitVec w} {last : ℕ}

theorem IsStar.eq_iff (hall : IsStar all min max last kind) (hmax : max < w)
    (h : IsField bits min max) : bits = all ↔ ∀ v, min ≤ v → v ≤ max → bits.getLsbD v = true := by
  constructor
  · rintro rfl v hmin hv
    rw [hall.bits v (hv.trans_lt hmax), decide_eq_true_eq]
    exact ⟨hmin, hv⟩
  · intro hv
    refine BitVec.eq_of_getLsbD_eq fun i hi => ?_
    rw [hall.bits i hi, Bool.eq_iff_iff, decide_eq_true_eq]
    exact ⟨fun hbit => h.within i hbit, fun hi => hv i hi.1 hi.2⟩

/-- There is no seventh bit to fold. -/
theorem fold_eq (h : IsField bits min max) (hmax : max < 7) :
    (bits ||| bits >>> 7) &&& 0x7F = bits := by
  refine BitVec.eq_of_getLsbD_eq fun i hi => ?_
  have hseven : bits.getLsbD (7 + i) = false := Bool.eq_false_iff.2 fun hbit => by
    have := (h.within _ hbit).2
    omega
  rw [BitVec.getLsbD_and, BitVec.getLsbD_or, BitVec.getLsbD_ushiftRight, hseven, Bool.or_false]
  cases hbit : bits.getLsbD i with
  | false => rfl
  | true =>
    have hlt : i < 7 := (h.within i hbit).2.trans_lt hmax
    have hmask : (127).testBit i = true := by
      rw [Nat.testBit_two_pow_sub_one 7 i, decide_eq_true hlt]
    rw [Bool.true_and]
    change (BitVec.ofNat w 127).getLsbD i = true
    rw [BitVec.getLsbD_ofNat, hmask, decide_eq_true hi]
    rfl

/-- A list of numbers is read as the values in it. -/
theorem parseField_values (hlast : max ≤ last) (hsmall : max < 60)
    (h : IsField bits min max) (hkind : kind = .weekday → max < 7) :
    parseField w ([b ','].intercalate ((values bits min max).map decimal)) min last kind =
      .ok bits := by
  have hvalues : ∀ v ∈ values bits min max, v < 60 ∧ min ≤ v ∧ v ≤ last := fun v hv => by
    have hv := (mem_values.1 hv).1
    omega
  obtain ⟨v, hv⟩ := h.exists_value
  have hmem : v ∈ values bits min max := mem_values.2 ⟨h.within v hv, hv⟩
  have hpieces : (values bits min max).map decimal ≠ [] := ne_nil_of_mem (mem_map_of_mem hmem)
  have hsplit : ([b ','].intercalate ((values bits min max).map decimal)).splitOn (b ',') =
      (values bits min max).map decimal := by
    refine splitOn_intercalate _ (fun piece hpiece => ?_) hpieces
    obtain ⟨u, hu, rfl⟩ := mem_map.1 hpiece
    exact notMem_decimal (hvalues u hu).1 (by decide)
  have hne : [b ','].intercalate ((values bits min max).map decimal) ≠ [] := fun hnil => by
    rw [hnil, splitOn_nil] at hsplit
    have hempty : [] ∈ (values bits min max).map decimal := hsplit ▸ mem_singleton_self []
    obtain ⟨u, hu, hdecimal⟩ := mem_map.1 hempty
    exact (decimal_spec u (hvalues u hu).1).2.1 hdecimal
  have hbits : (values bits min max).foldl (fun bits v => bits ||| 1#w <<< v) 0#w = bits := by
    refine BitVec.eq_of_getLsbD_eq fun i hi => ?_
    rw [Bool.eq_iff_iff, getLsbD_foldl, mem_values, BitVec.getLsbD_zero]
    constructor
    · rintro (hfalse | ⟨-, -, hbit⟩)
      · cases hfalse
      · exact hbit
    · exact fun hbit => .inr ⟨hi, h.within i hbit, hbit⟩
  rw [parseField, if_neg hne, hsplit, foldlM_decimal hvalues, hbits, ok_bind]
  split
  next hweekday => rw [fold_eq h (hkind hweekday)]
  next => rfl

theorem parseField_format (hall : IsStar all min max last kind) (hle : min ≤ max)
    (hlast : max ≤ last)
    (hsmall : max < 60) (hmax : max < w) (h : IsField bits min max)
    (hkind : kind = .weekday → max < 7) :
    parseField w (formatBitfield bits min max) min last kind = .ok bits := by
  rw [formatBitfield]
  split
  next hcount => rw [hall.parse, (hall.eq_iff hmax h).2 ((countOnes_eq_iff hle h).1 hcount)]
  next => exact parseField_values hlast hsmall h hkind

end Field

/-- A text that is a field of an expression. -/
structure Plain (field : Bytes) : Prop where
  ne_nil : field ≠ []
  notBlank : ∀ c ∈ field, isBlank c = false
  notAt : ∀ c ∈ field, c ≠ b '@'

theorem mem_formatBitfield (hsmall : max < 60) (h : c ∈ formatBitfield bits min max) :
    c = b '*' ∨ c = b ',' ∨ isAsciiDigit c = true := by
  rw [formatBitfield] at h
  split at h
  · exact .inl (mem_singleton.1 h)
  · rcases mem_intercalate h with hc | ⟨piece, hpiece, hc⟩
    · exact .inr (.inl hc)
    · obtain ⟨v, hv, rfl⟩ := mem_map.1 hpiece
      exact .inr (.inr (isAsciiDigit_of_mem ((mem_values.1 hv).1.2.trans_lt hsmall) hc))

theorem notBlank_of_digit (h : isAsciiDigit c = true) : isBlank c = false ∧ c ≠ b '@' := by
  have hall : ((range 256).all fun n => !isAsciiDigit (UInt8.ofNat n) ||
      (!isBlank (UInt8.ofNat n) && UInt8.ofNat n != b '@')) = true := by decide +kernel
  have hc := all_eq_true.1 hall c.toNat (mem_range.2 c.toNat_lt)
  rw [UInt8.ofNat_toNat, h, Bool.not_true, Bool.false_or, Bool.and_eq_true, Bool.not_eq_true',
    bne_iff_ne] at hc
  exact hc

theorem plain_formatBitfield (hsmall : max < 60) (h : IsField bits min max) :
    Plain (formatBitfield bits min max) := by
  have hchars (c : UInt8) (hc : c ∈ formatBitfield bits min max) :
      isBlank c = false ∧ c ≠ b '@' := by
    rcases mem_formatBitfield hsmall hc with rfl | rfl | hdigit
    · decide
    · decide
    · exact notBlank_of_digit hdigit
  refine ⟨fun hnil => ?_, fun c hc => (hchars c hc).1, fun c hc => (hchars c hc).2⟩
  rw [formatBitfield] at hnil
  split at hnil
  · cases hnil
  · obtain ⟨v, hv⟩ := h.exists_value
    have hmem : v ∈ values bits min max := mem_values.2 ⟨h.within v hv, hv⟩
    cases hvalues : values bits min max with
    | nil => rw [hvalues] at hmem; cases hmem
    | cons u vs =>
      have hu : u < 60 := (mem_values.1 (hvalues ▸ mem_cons_self)).1.2.trans_lt hsmall
      refine (decimal_spec u hu).2.1 (eq_nil_iff_forall_not_mem.2 fun c hc => ?_)
      rw [hvalues, map_cons] at hnil
      cases vs with
      | nil =>
        rw [map_nil, intercalate_singleton] at hnil
        exact not_mem_nil (hnil ▸ hc)
      | cons u' vs =>
        rw [map_cons, intercalate_cons_cons, append_assoc] at hnil
        exact not_mem_nil (hnil ▸ mem_append_left _ hc)

theorem length_formatBitfield (hle : min ≤ max) (hsmall : max < 60) :
    (formatBitfield bits min max).length ≤ 3 * (max + 1 - min) := by
  rw [formatBitfield]
  split
  · rw [length_singleton]
    omega
  · have hpieces : ([b ','].intercalate ((values bits min max).map decimal)).length ≤ _ :=
      length_intercalate_le fun piece hpiece => by
        obtain ⟨v, hv, rfl⟩ := mem_map.1 hpiece
        exact (decimal_spec v ((mem_values.1 hv).1.2.trans_lt hsmall)).2.2.1
    have hvalues : (values bits min max).length ≤ max + 1 - min := by
      have hfilter := length_filter_le (fun i => bits.getLsbD i) (range' min (max + 1 - min))
      rwa [length_range'] at hfilter
    rw [length_map] at hpieces
    omega

/-- Only a field with all its values is written as `*`. -/
theorem formatBitfield_eq_star (hle : min ≤ max) (hsmall : max < 60) (h : IsField bits min max) :
    formatBitfield bits min max = [b '*'] ↔ ∀ v, min ≤ v → v ≤ max → bits.getLsbD v = true := by
  rw [← countOnes_eq_iff hle h]
  constructor
  · intro hstar
    rw [formatBitfield] at hstar
    split at hstar
    next hcount => exact hcount
    next =>
      have hmem : b '*' ∈ [b ','].intercalate ((values bits min max).map decimal) :=
        hstar ▸ mem_singleton_self _
      rcases mem_intercalate hmem with hc | ⟨piece, hpiece, hc⟩
      · exact absurd hc (by decide)
      · obtain ⟨v, hv, rfl⟩ := mem_map.1 hpiece
        exact absurd hc (notMem_decimal ((mem_values.1 hv).1.2.trans_lt hsmall) (by decide))
  · exact fun hcount => if_pos hcount

/-! ## The text -/

theorem trim_eq {s : Bytes} (hhead : ∀ c ∈ s.head?, isBlank c = false)
    (hlast : ∀ c ∈ s.getLast?, isBlank c = false) : trim s = s := by
  have hdrop {s : Bytes} (h : ∀ c ∈ s.head?, isBlank c = false) : s.dropWhile isBlank = s := by
    cases s with
    | nil => rfl
    | cons c s => rw [dropWhile_cons, h c rfl, if_neg Bool.false_ne_true]
  rw [trim, hdrop hhead, @hdrop s.reverse fun c hc => hlast c (head?_reverse ▸ hc),
    reverse_reverse]

/-- Five fields with a space between them. -/
theorem parse_fields {minute hour day month weekday : Bytes} (hminute : Plain minute)
    (hhour : Plain hour) (hday : Plain day) (hmonth : Plain month) (hweekday : Plain weekday) :
    parse (minute ++ b ' ' :: (hour ++ b ' ' :: (day ++ b ' ' :: (month ++ b ' ' :: weekday)))) =
      (do
      let minutes ← parseField 64 minute 0 59 .none
      let hours ← parseField 32 hour 0 23 .none
      let days ← parseField 32 day 1 31 .none
      let months ← parseField 16 month 1 12 .month
      let weekdays ← parseField 8 weekday 0 7 .weekday
      .ok ⟨minutes, hours, days, months, weekdays, day = [b '*'], weekday = [b '*']⟩) := by
  have hblank : isBlank (b ' ') = true := by decide
  have hfields : ((minute ++ b ' ' :: (hour ++ b ' ' :: (day ++ b ' ' :: (month ++ b ' ' ::
      weekday)))).splitOnP isBlank).filter (fun field => decide (field ≠ [])) =
      [minute, hour, day, month, weekday] := by
    rw [splitOnP_append_cons_of_forall_mem hminute.notBlank _ hblank,
      splitOnP_append_cons_of_forall_mem hhour.notBlank _ hblank,
      splitOnP_append_cons_of_forall_mem hday.notBlank _ hblank,
      splitOnP_append_cons_of_forall_mem hmonth.notBlank _ hblank,
      splitOnP_eq_singleton hweekday.notBlank]
    refine filter_eq_self.2 fun field hfield => decide_eq_true ?_
    simp only [mem_cons, not_mem_nil, or_false] at hfield
    rcases hfield with rfl | rfl | rfl | rfl | rfl
    exacts [hminute.ne_nil, hhour.ne_nil, hday.ne_nil, hmonth.ne_nil, hweekday.ne_nil]
  have hfront : ∀ c ∈ (minute ++ b ' ' :: (hour ++ b ' ' :: (day ++ b ' ' :: (month ++ b ' ' ::
      weekday)))).head?, c ∈ minute := fun c hc => by
    obtain ⟨first, rest, rfl⟩ := exists_cons_of_ne_nil hminute.ne_nil
    cases hc
    exact mem_cons_self
  have hback : ∀ c ∈ (minute ++ b ' ' :: (hour ++ b ' ' :: (day ++ b ' ' :: (month ++ b ' ' ::
      weekday)))).getLast?, c ∈ weekday := fun c hc => by
    have happend : minute ++ b ' ' ::
      (hour ++ b ' ' :: (day ++ b ' ' :: (month ++ b ' ' :: weekday))) =
        (minute ++ b ' ' :: (hour ++ b ' ' :: (day ++ b ' ' :: (month ++ [b ' '])))) ++
          weekday := by
      simp only [append_assoc, cons_append, nil_append]
    rw [happend, getLast?_append_of_ne_nil _ hweekday.ne_nil] at hc
    exact mem_of_getLast? hc
  have hat : (minute ++ b ' ' :: (hour ++ b ' ' :: (day ++ b ' ' :: (month ++ b ' ' ::
      weekday)))).head? ≠ some (b '@') := fun h => hminute.notAt _ (hfront _ h) rfl
  rw [parse, trim_eq (fun c hc => hminute.notBlank c (hfront c hc)) fun c hc =>
    hweekday.notBlank c (hback c hc)]
  rw [if_neg hat, hfields]

/-! ## Round trip -/

/-- The expression that the normalized text stands for. -/
def normalized (e : CronExpression) : CronExpression :=
  { e with daysIsWildcard := e.days = allDays, weekdaysIsWildcard := e.weekdays = allWeekdays }

/-- The text is read again with the same bits. -/
theorem parse_formatNumeric {e : CronExpression} (h : Valid e) :
    ∃ text, formatNumeric e = some text ∧ parse text = .ok (normalized e) := by
  have hlength : (numericText e).length ≤ 512 := by
    have hminutes : (formatBitfield e.minutes 0 59).length ≤ 180 :=
      length_formatBitfield (by decide) (by decide)
    have hhours : (formatBitfield e.hours 0 23).length ≤ 72 :=
      length_formatBitfield (by decide) (by decide)
    have hdays : (formatBitfield e.days 1 31).length ≤ 93 :=
      length_formatBitfield (by decide) (by decide)
    have hmonths : (formatBitfield e.months 1 12).length ≤ 36 :=
      length_formatBitfield (by decide) (by decide)
    have hweekdays : (formatBitfield e.weekdays 0 6).length ≤ 21 :=
      length_formatBitfield (by decide) (by decide)
    rw [numericText]
    simp only [length_append, length_cons]
    omega
  have hday : (formatBitfield e.days 1 31 = [b '*']) = (e.days = allDays) := propext <|
    (formatBitfield_eq_star (by decide) (by decide) h.monthdays).trans
      (isStar_days.eq_iff (by decide) h.monthdays).symm
  have hweekday : (formatBitfield e.weekdays 0 6 = [b '*']) = (e.weekdays = allWeekdays) :=
    propext <| (formatBitfield_eq_star (by decide) (by decide) h.daysOfWeek).trans
      (isStar_weekdays.eq_iff (by decide) h.daysOfWeek).symm
  refine ⟨numericText e, if_pos hlength, ?_⟩
  rw [numericText, parse_fields (plain_formatBitfield (by decide) h.minutes)
      (plain_formatBitfield (by decide) h.hours) (plain_formatBitfield (by decide) h.monthdays)
      (plain_formatBitfield (by decide) h.months) (plain_formatBitfield (by decide) h.daysOfWeek),
    parseField_format isStar_minutes (by decide) (by decide) (by decide) (by decide) h.minutes
    (by decide), ok_bind,
    parseField_format isStar_hours (by decide) (by decide) (by decide) (by decide) h.hours
    (by decide), ok_bind,
    parseField_format isStar_days (by decide) (by decide) (by decide) (by decide) h.monthdays
    (by decide), ok_bind,
    parseField_format isStar_months (by decide) (by decide) (by decide) (by decide) h.months
    (by decide), ok_bind,
    parseField_format isStar_weekdays (by decide) (by decide) (by decide) (by decide) h.daysOfWeek
      (by decide), ok_bind]
  simp only [hday, hweekday]
  rfl

/-- The normalized text fits its buffer, is accepted and means the same. -/
def KeepsMeaning (e : CronExpression) : Prop :=
  ∃ text e', formatNumeric e = some text ∧ parse text = .ok e' ∧
    ∀ minute hour day month weekday : ℤ, 0 ≤ minute → minute ≤ 59 → 0 ≤ hour → hour ≤ 23 →
      1 ≤ day → day ≤ 31 → 1 ≤ month → month ≤ 12 → 0 ≤ weekday → weekday ≤ 6 →
      e'.matchesFields minute hour day month weekday = e.matchesFields minute hour day month weekday

section Meaning

variable {e : CronExpression} {input : Bytes} {day weekday : ℤ}

theorem bitSet_natCast (v : ℕ) : bitSet bits (v : ℤ) = bits.getLsbD v := rfl

/-- Both fields are compared where one of them has all its values. -/
theorem matchesDay_normalized : (normalized e).matchesDay day weekday =
    if e.days = allDays ∨ e.weekdays = allWeekdays
      then bitSet e.days day && bitSet e.weekdays weekday
    else bitSet e.days day || bitSet e.weekdays weekday := by
  rw [matchesDay, normalized]
  by_cases hdays : e.days = allDays <;> by_cases hweekdays : e.weekdays = allWeekdays <;>
    simp [hdays, hweekdays]

theorem matchesDay_of_not (hdays : e.daysIsWildcard = false)
    (hweekdays : e.weekdaysIsWildcard = false) :
    e.matchesDay day weekday = (bitSet e.days day || bitSet e.weekdays weekday) := by
  rw [matchesDay, hdays, hweekdays]
  rfl

theorem matchesDay_of_wildcard (h : e.daysIsWildcard = true ∨ e.weekdaysIsWildcard = true) :
    e.matchesDay day weekday = (bitSet e.days day && bitSet e.weekdays weekday) := by
  rw [matchesDay]
  rcases h with h | h
  · rw [h]
    rfl
  · rw [h, Bool.not_true, Bool.and_false]
    rfl

theorem bitSet_weekday {weekday : ℤ} (h0 : 0 ≤ weekday) (h6 : weekday ≤ 6) :
    bitSet allWeekdays weekday = true := by
  have hall : ∀ w < 7, bitSet allWeekdays (w : ℕ) = true := by decide
  obtain ⟨w, rfl⟩ := Int.eq_ofNat_of_zero_le h0
  exact hall w (by omega)

/-- A day field or a weekday field that has all its values is `*`, unless the other has all of its
own. -/
def PlainStars (e : CronExpression) : Prop :=
  (e.days = allDays → e.daysIsWildcard = true ∨ e.weekdays = allWeekdays) ∧
    (e.weekdays = allWeekdays → e.weekdaysIsWildcard = true ∨ e.days = allDays)

theorem matchesDay_of_plainStars (h : Valid e) (hstars : PlainStars e) (h1 : 1 ≤ day)
    (h31 : day ≤ 31) (h0 : 0 ≤ weekday) (h6 : weekday ≤ 6) :
    (normalized e).matchesDay day weekday = e.matchesDay day weekday := by
  rw [matchesDay_normalized]
  by_cases hwild : e.daysIsWildcard = true ∨ e.weekdaysIsWildcard = true
  · rw [matchesDay_of_wildcard hwild, if_pos (hwild.imp h.days h.weekdays)]
  · rw [not_or, Bool.not_eq_true, Bool.not_eq_true] at hwild
    rw [matchesDay_of_not hwild.1 hwild.2]
    split
    next hall =>
      have hboth : e.days = allDays ∧ e.weekdays = allWeekdays := by
        rcases hall with hdays | hweekdays
        · exact ⟨hdays, (hstars.1 hdays).resolve_left (Bool.eq_false_iff.1 hwild.1)⟩
        · exact ⟨(hstars.2 hweekdays).resolve_left (Bool.eq_false_iff.1 hwild.2), hweekdays⟩
      rw [hboth.1, hboth.2, bitSet_allDays h1 h31, bitSet_weekday h0 h6]
      rfl
    next => rfl

/-- A value of a field that has not all of them. -/
theorem exists_unset {all : BitVec w} {last : ℕ} (hall : IsStar all min max last kind)
    (hmax : max < w) (h : IsField bits min max) (hne : bits ≠ all) :
    ∃ v : ℕ, min ≤ v ∧ v ≤ max ∧ bitSet bits v = false := by
  by_contra hnone
  refine hne ((hall.eq_iff hmax h).2 fun v hmin hv => ?_)
  by_contra hunset
  exact hnone ⟨v, hmin, hv, Bool.eq_false_iff.2 hunset⟩

theorem plainStars_of_matchesDay (h : Valid e) (hmatches : ∀ day weekday : ℤ, 1 ≤ day → day ≤ 31 →
    0 ≤ weekday → weekday ≤ 6 → (normalized e).matchesDay day weekday = e.matchesDay day weekday) :
    PlainStars e := by
  constructor
  · intro hdays
    by_contra hnot
    rw [not_or, Bool.not_eq_true] at hnot
    obtain ⟨v, -, hv, hunset⟩ := exists_unset isStar_weekdays (by decide) h.daysOfWeek hnot.2
    have hwild : e.weekdaysIsWildcard = false :=
      Bool.eq_false_iff.2 fun hwild => hnot.2 (h.weekdays hwild)
    have hmatch := hmatches 1 v (by decide) (by decide) (by omega) (by omega)
    rw [matchesDay_normalized, if_pos (.inl hdays), matchesDay_of_not hnot.1 hwild, hunset,
      hdays] at hmatch
    cases hmatch
  · intro hweekdays
    by_contra hnot
    rw [not_or, Bool.not_eq_true] at hnot
    obtain ⟨v, hmin, hv, hunset⟩ := exists_unset isStar_days (by decide) h.monthdays hnot.2
    have hwild : e.daysIsWildcard = false := Bool.eq_false_iff.2 fun hwild => hnot.2 (h.days hwild)
    have hmatch := hmatches v 0 (by omega) (by omega) (by decide) (by decide)
    rw [matchesDay_normalized, if_pos (.inr hweekdays), matchesDay_of_not hwild hnot.1, hunset,
      hweekdays] at hmatch
    cases hmatch

/-- The normalized text of an expression that is accepted keeps its meaning just when no field
covers all days in another way than `*` while the other field is restricted. -/
theorem keepsMeaning_iff (hparse : parse input = .ok e) : KeepsMeaning e ↔ PlainStars e := by
  have h := valid_of_parse hparse
  obtain ⟨text, htext, hagain⟩ := parse_formatNumeric h
  constructor
  · rintro ⟨text', e', htext', hagain', hsame⟩
    obtain rfl := some.inj (htext.symm.trans htext')
    obtain rfl := Except.ok.inj (hagain.symm.trans hagain')
    obtain ⟨minute, hminute⟩ := h.minutes.exists_value
    obtain ⟨hour, hhour⟩ := h.hours.exists_value
    obtain ⟨month, hmonth⟩ := h.months.exists_value
    have hminuteRange := h.minutes.within minute hminute
    have hhourRange := h.hours.within hour hhour
    have hmonthRange := h.months.within month hmonth
    refine plainStars_of_matchesDay h fun day weekday h1 h31 h0 h6 => ?_
    have heq := hsame minute hour day month weekday (by omega) (by omega) (by omega)
      (by omega) h1 h31 (by omega) (by omega) h0 h6
    rw [matchesFields, matchesFields] at heq
    change (bitSet e.minutes minute && bitSet e.hours hour && bitSet e.months month && _) = _ at heq
    rw [bitSet_natCast, bitSet_natCast, bitSet_natCast, hminute, hhour, hmonth] at heq
    exact heq
  · intro hstars
    refine ⟨text, _, htext, hagain, fun minute hour day month weekday _ _ _ _ h1 h31 _ _ h0 h6 =>
      ?_⟩
    rw [matchesFields, matchesFields,
      matchesDay_of_plainStars h hstars h1 h31 h0 h6]
    rfl

/-- Weekdays at nine. -/
theorem keepsMeaning_iff_weekdays :
    KeepsMeaning ⟨1, 1 <<< 9, allDays, allMonths, 0x3E, true, false⟩ ↔
      PlainStars ⟨1, 1 <<< 9, allDays, allMonths, 0x3E, true, false⟩ :=
  keepsMeaning_iff (show parse (text "0 9 * * 1-5") = _ by decide +kernel)

/-- Every day of the month or a Monday, which is written as Mondays. -/
theorem keepsMeaning_fails : ¬∀ input e, parse input = .ok e → KeepsMeaning e := by
  intro h
  have hparse : parse (text "0 0 1-31 * 1") = .ok ⟨1, 1, allDays, allMonths, 2, false, false⟩ := by
    decide +kernel
  obtain ⟨text', e', htext, hagain, hsame⟩ := h _ _ hparse
  have hwritten :
      formatNumeric ⟨1, 1, allDays, allMonths, 2, false, false⟩ = some (text "0 0 * * 1") := by
    decide +kernel
  obtain rfl := some.inj (hwritten.symm.trans htext)
  have hread : parse (text "0 0 * * 1") =
    .ok ⟨1, 1, allDays, allMonths, 2, true, false⟩ := by decide +kernel
  obtain rfl := Except.ok.inj (hread.symm.trans hagain)
  have htuesday :=
    hsame 0 0 2 1 2 (by decide) (by decide) (by decide) (by decide) (by decide) (by decide)
    (by decide) (by decide) (by decide) (by decide)
  exact absurd htuesday (by decide)

end Meaning

end Soup.Cron
