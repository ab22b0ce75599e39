import Mathlib.Data.List.TakeWhile
import Soup.Install.MergeConflict

/-!
# The sides of a conflicted lockfile

`split_sides` of `merge_conflict.rs`: the scanner that takes a text with git's conflict markers
apart into the two documents that git merged. A text is written here from its segments, lines that
both sides have and conflicts, and `splitSides_write` says that the scanner finds the two documents
again.
-/

namespace Soup.Install

open List

/-! ## The scanner -/

inductive Region
  | outside
  | ours
  | base
  | theirs
  deriving DecidableEq, Repr

/-- `stop` is the source's `End`. -/
inductive Marker
  | start
  | base
  | separator
  | stop
  deriving DecidableEq, Repr

/-- The marker that a line with this first byte may be. -/
def Marker.ofByte (first : UInt8) : Option Marker :=
  if first = b '<' then some .start
  else if first = b '|' then some .base
  else if first = b '=' then some .separator
  else if first = b '>' then some .stop
  else none

/-- `<<<<<<< label`, `||||||| label`, `=======` or `>>>>>>> label` at column 0, with the length of
its run. git pads to `conflict-marker-size`, so any run of 7 or more counts. -/
def markerOf : Bytes → Option (Marker × ℕ)
  | [] => none
  | first :: line =>
    match Marker.ofByte first with
    | none => none
    | some marker =>
      let run := 1 + (line.takeWhile (· == first)).length
      if run < 7 then none
      else
        match (first :: line)[run]? with
        | none => some (marker, run)
        | some c => if c = b ' ' ∧ marker ≠ .separator then some (marker, run) else none

/-- `if let [head @ .., c] = content { content = head }`. -/
def stripLast (c : UInt8) (content : Bytes) : Bytes :=
  if content.getLast? = some c then content.dropLast else content

/-- A line without its line break. -/
def contentOf (line : Bytes) : Bytes := stripLast (b '\r') (stripLast (b '\n') line)

structure Sides where
  ours : Bytes
  theirs : Bytes
  deriving DecidableEq, Repr

/-- The variables of the loop of `split_sides`. -/
structure SideScan where
  ours : Bytes := []
  theirs : Bytes := []
  region : Region := .outside
  /-- The run of the marker that opened the hunk. -/
  size : ℕ := 0
  hunks : ℕ := 0
  deriving DecidableEq, Repr

namespace SideScan

/-- The marker of a line where it counts. The base of a merge with two ancestors holds the markers
of the merge of those, which git makes longer. -/
def found (s : SideScan) (line : Bytes) : Option (Marker × ℕ) :=
  (markerOf (contentOf line)).filter fun marker => s.region == .outside || marker.2 == s.size

/-- The body of the loop. -/
def step (s : SideScan) (line : Bytes) : Option SideScan :=
  let size := (s.found line).elim s.size Prod.snd
  match (s.found line).map Prod.fst, s.region with
  | some .start, .outside => some { s with size, region := .ours, hunks := s.hunks + 1 }
  | some .base, .ours => some { s with size, region := .base }
  | some .separator, .ours => some { s with size, region := .theirs }
  | some .separator, .base => some { s with size, region := .theirs }
  | some .stop, .theirs => some { s with size, region := .outside }
  | some _, _ => none
  | none, .outside => some { s with ours := s.ours ++ line, theirs := s.theirs ++ line }
  | none, .ours => some { s with ours := s.ours ++ line }
  | none, .base => some s
  | none, .theirs => some { s with theirs := s.theirs ++ line }

end SideScan

/-- The first line of a text, its line break included. -/
def firstLine (rest : Bytes) : Bytes :=
  match splitAtFirst (b '\n') rest with
  | some (line, _) => line ++ [b '\n']
  | none => rest

/-- The loop of `split_sides`. Each line has a byte, so the length of the text is fuel enough. -/
def splitLoop : ℕ → Bytes → SideScan → Option SideScan
  | 0, _, s => some s
  | fuel + 1, rest, s =>
    if rest = [] then some s
    else
      match s.step (firstLine rest) with
      | none => none
      | some s => splitLoop fuel (rest.drop (firstLine rest).length) s

/-- `None` for a stray, nested or unterminated marker. -/
def splitSides (text : Bytes) : Option Sides :=
  match splitLoop text.length text {} with
  | none => none
  | some s =>
    if s.region = .outside ∧ 0 < s.hunks then some { ours := s.ours, theirs := s.theirs } else none

/-! ## Texts with conflicts -/

def Marker.byte : Marker → UInt8
  | .start => b '<'
  | .base => b '|'
  | .separator => b '='
  | .stop => b '>'

/-- What git writes for a marker. There is no label behind `=======`. -/
def Marker.written (marker : Marker) (size : ℕ) (label : Option Bytes) : Bytes :=
  replicate size marker.byte ++
    match marker, label with
    | .separator, _ => []
    | _, none => []
    | _, some label => b ' ' :: label

/-- A line break, or what a line that ends the text may have of it. -/
def IsLineBreak (ending : Bytes) : Prop :=
  ending = [] ∨ ending = text "\n" ∨ ending = text "\r" ∨ ending = text "\r\n"

/-- The line is a marker with a run of this size. -/
def IsMarker (size : ℕ) (line : Bytes) : Prop :=
  ∃ marker label ending, IsLineBreak ending ∧ line = Marker.written marker size label ++ ending

/-- What git leaves where the two sides differ. -/
structure Conflict where
  size : ℕ
  ours : List Bytes
  base : Option (List Bytes)
  theirs : List Bytes
  label : Marker → Option Bytes
  /-- The line break behind each marker. -/
  ending : Marker → Bytes

namespace Conflict

def marker (conflict : Conflict) (marker : Marker) : Bytes :=
  marker.written conflict.size (conflict.label marker) ++ conflict.ending marker

/-- The lines of the base with their marker. -/
def baseLines (conflict : Conflict) : List Bytes :=
  match conflict.base with
  | none => []
  | some lines => conflict.marker .base :: lines

def lines (conflict : Conflict) : List Bytes :=
  conflict.marker .start :: conflict.ours ++ conflict.baseLines ++
    conflict.marker .separator :: conflict.theirs ++ [conflict.marker .stop]

/-- The lines between the markers. -/
def inner (conflict : Conflict) : List Bytes :=
  conflict.ours ++ conflict.base.getD [] ++ conflict.theirs

end Conflict

inductive Segment
  | common (lines : List Bytes)
  | conflict (hunk : Conflict)

namespace Segment

def lines : Segment → List Bytes
  | common lines => lines
  | conflict hunk => hunk.lines

def ours : Segment → List Bytes
  | common lines => lines
  | conflict hunk => hunk.ours

def theirs : Segment → List Bytes
  | common lines => lines
  | conflict hunk => hunk.theirs

def isConflict : Segment → Bool
  | common _ => false
  | conflict _ => true

/-- No line can be taken for a marker of the segment. -/
def Readable : Segment → Prop
  | common lines => ∀ line ∈ lines, ∀ size, 7 ≤ size → ¬ IsMarker size line
  | conflict hunk => 7 ≤ hunk.size ∧ (∀ marker, IsLineBreak (hunk.ending marker)) ∧
      ∀ line ∈ hunk.inner, ¬ IsMarker hunk.size line

end Segment

/-- Lines of a text: only the last one may be without a line break. -/
inductive IsLines : List Bytes → Prop
  | nil : IsLines []
  | last {line : Bytes} : line ≠ [] → b '\n' ∉ line → IsLines [line]
  | cons {line : Bytes} {lines : List Bytes} : b '\n' ∉ line → IsLines lines →
      IsLines ((line ++ [b '\n']) :: lines)

/-- The lines of a text with conflicts. -/
def documentLines (segments : List Segment) : List Bytes := segments.flatMap Segment.lines

def writeDocument (segments : List Segment) : Bytes := (documentLines segments).flatten

/-- A text that git may have written. -/
structure IsDocument (segments : List Segment) : Prop where
  lines : IsLines (documentLines segments)
  readable : ∀ segment ∈ segments, segment.Readable

/-! ## Lines -/

variable {line : Bytes}

theorem firstLine_append {rest : Bytes} (hline : b '\n' ∉ line) :
    firstLine (line ++ [b '\n'] ++ rest) = line ++ [b '\n'] := by
  rw [firstLine, append_assoc, singleton_append, splitAtFirst_append hline]

theorem firstLine_last (hline : b '\n' ∉ line) : firstLine line = line := by
  rw [firstLine, splitAtFirst_of_notMem hline]

variable {lines : List Bytes}

/-- The loop takes a step for each line. -/
theorem splitLoop_lines (hlines : IsLines lines) :
    ∀ (fuel : ℕ) (s : SideScan), lines.flatten.length ≤ fuel →
      splitLoop fuel lines.flatten s = lines.foldlM SideScan.step s := by
  induction hlines with
  | nil => intro fuel s _; cases fuel <;> rfl
  | @last line hne hline =>
    intro fuel s hfuel
    have hlength : 0 < line.length := length_pos_of_ne_nil hne
    simp only [flatten_cons, flatten_nil, append_nil] at hfuel ⊢
    obtain ⟨fuel, rfl⟩ : ∃ k, fuel = k + 1 := ⟨fuel - 1, by omega⟩
    rw [splitLoop, if_neg hne, firstLine_last hline, drop_length]
    cases hstep : s.step line with
    | none => simp [hstep]
    | some s' => cases fuel <;> simp [splitLoop, hstep]
  | @cons line lines hline _ ih =>
    intro fuel s hfuel
    simp only [flatten_cons, length_append, length_singleton] at hfuel ⊢
    obtain ⟨fuel, rfl⟩ : ∃ k, fuel = k + 1 := ⟨fuel - 1, by omega⟩
    rw [splitLoop, if_neg (by simp), firstLine_append hline, drop_left' rfl, foldlM_cons]
    cases hstep : s.step (line ++ [b '\n']) with
    | none => rfl
    | some s' => exact ih fuel s' (by omega)

/-! ## Markers -/

theorem stripLast_append (c : UInt8) (line : Bytes) : stripLast c (line ++ [c]) = line := by
  simp [stripLast]

theorem stripLast_append_of_ne {c d : UInt8} (hne : d ≠ c) (line : Bytes) :
    stripLast c (line ++ [d]) = line ++ [d] := by
  simp [stripLast, hne]

/-- What `stripLast` takes off. -/
theorem stripLast_spec (c : UInt8) (line : Bytes) :
    line = stripLast c line ∨ line = stripLast c line ++ [c] := by
  rw [stripLast]
  split
  · next h => exact .inr (dropLast_append_getLast? c h).symm
  · exact .inl rfl

theorem exists_ending (line : Bytes) :
    ∃ ending, IsLineBreak ending ∧ line = contentOf line ++ ending := by
  have hr := stripLast_spec (b '\r') (stripLast (b '\n') line)
  rcases stripLast_spec (b '\n') line with hn | hn
  · rcases hr with hr | hr
    · exact ⟨[], .inl rfl, by rw [append_nil]; exact hn.trans hr⟩
    · exact ⟨text "\r", .inr (.inr (.inl rfl)), hn.trans hr⟩
  · rcases hr with hr | hr
    · exact ⟨text "\n", .inr (.inl rfl), hn.trans (congrArg (· ++ [b '\n']) hr)⟩
    · refine ⟨text "\r\n", .inr (.inr (.inr rfl)), ?_⟩
      calc line = stripLast (b '\n') line ++ [b '\n'] := hn
        _ = (contentOf line ++ [b '\r']) ++ [b '\n'] := congrArg (· ++ [b '\n']) hr
        _ = contentOf line ++ text "\r\n" := append_assoc ..

namespace Marker

variable (marker : Marker)

theorem ofByte_byte : ofByte marker.byte = some marker := by
  cases marker <;> decide

theorem byte_of_ofByte {first : UInt8} {marker : Marker} (h : ofByte first = some marker) :
    first = marker.byte := by
  rw [ofByte] at h
  split at h
  · next hfirst => cases h; exact hfirst
  split at h
  · next hfirst => cases h; exact hfirst
  split at h
  · next hfirst => cases h; exact hfirst
  split at h
  · next hfirst => cases h; exact hfirst
  cases h

/-- Behind the run of a marker stands nothing or a space, which `=======` does not have. -/
theorem written_eq (size : ℕ) (label : Option Bytes) :
    ∃ rest, marker.written size label = replicate size marker.byte ++ rest ∧
      (rest = [] ∨ (∃ label, rest = b ' ' :: label) ∧ marker ≠ .separator) := by
  cases marker <;> cases label <;> simp [written]

theorem written_none (size : ℕ) : marker.written size none = replicate size marker.byte := by
  cases marker <;> simp [written]

theorem written_some {marker : Marker} (hmarker : marker ≠ .separator) (size : ℕ) (label : Bytes) :
    marker.written size (some label) = replicate size marker.byte ++ b ' ' :: label := by
  cases marker <;> simp [written] at hmarker ⊢

end Marker

variable {size : ℕ}

theorem markerOf_written (marker : Marker) (hsize : 7 ≤ size) (label : Option Bytes) :
    markerOf (marker.written size label) = some (marker, size) := by
  obtain ⟨rest, hwritten, hrest⟩ := marker.written_eq size label
  obtain ⟨n, rfl⟩ : ∃ n, size = n + 1 := ⟨size - 1, by omega⟩
  rw [hwritten, replicate_succ, cons_append, markerOf, Marker.ofByte_byte]
  have hspace : marker.byte ≠ b ' ' := by cases marker <;> decide
  have hrun : 1 + ((replicate n marker.byte ++ rest).takeWhile (· == marker.byte)).length =
      n + 1 := by
    have htake : rest.takeWhile (· == marker.byte) = [] := by
      rcases hrest with rfl | ⟨⟨label, rfl⟩, -⟩
      · rfl
      · simp [hspace.symm]
    rw [takeWhile_append_of_pos (by simp), htake]
    simp
    omega
  have hnext : (marker.byte :: (replicate n marker.byte ++ rest))[n + 1]? = rest[0]? := by
    rw [getElem?_cons_succ, getElem?_append_right (by simp)]
    simp
  simp only [hrun, hnext]
  rw [if_neg (by omega)]
  rcases hrest with rfl | ⟨⟨label, rfl⟩, hne⟩
  · rfl
  · simp [hne]

variable {marker : Marker}

theorem written_of_markerOf (h : markerOf line = some (marker, size)) :
    7 ≤ size ∧ ∃ label, line = marker.written size label := by
  cases line with
  | nil => cases h
  | cons first line =>
    rw [markerOf] at h
    cases hfirst : Marker.ofByte first with
    | none => rw [hfirst] at h; cases h
    | some kind =>
      rw [hfirst] at h
      obtain rfl := Marker.byte_of_ofByte hfirst
      set run := (line.takeWhile (· == kind.byte)).length with hrun
      have hline : kind.byte :: line = replicate (1 + run) kind.byte ++
          line.dropWhile (· == kind.byte) := by
        have htake : line.takeWhile (· == kind.byte) = replicate run kind.byte :=
          eq_replicate_iff.2 ⟨hrun.symm, fun x hx => by simpa using mem_takeWhile_imp hx⟩
        rw [add_comm, replicate_succ, cons_append, ← htake, takeWhile_append_dropWhile]
      have hnext : (kind.byte :: line)[1 + run]? = (line.dropWhile (· == kind.byte))[0]? := by
        rw [hline, getElem?_append_right (by simp)]
        simp
      simp only [hnext] at h
      split at h
      · cases h
      next hseven =>
      cases hrest : line.dropWhile (· == kind.byte) with
      | nil =>
        rw [hrest] at h hline
        cases h
        exact ⟨by omega, none, by rw [hline, Marker.written_none, append_nil]⟩
      | cons c rest =>
        rw [hrest] at h hline
        simp only [getElem?_cons_zero] at h
        split at h
        · next hc =>
          cases h
          obtain ⟨rfl, hne⟩ := hc
          exact ⟨by omega, some rest, by rw [hline, Marker.written_some hne]⟩
        · cases h

theorem isMarker_of_markerOf (h : markerOf (contentOf line) = some (marker, size)) :
    7 ≤ size ∧ IsMarker size line := by
  obtain ⟨hsize, label, hcontent⟩ := written_of_markerOf h
  obtain ⟨ending, hending, hline⟩ := exists_ending line
  exact ⟨hsize, marker, label, ending, hending, by rw [← hcontent]; exact hline⟩

/-- A label whose end looks like a line break is still a label. -/
theorem stripLast_written {c : UInt8} (hc : c = b '\n' ∨ c = b '\r') (marker : Marker) (size : ℕ)
    (label : Option Bytes) :
    ∃ label', stripLast c (marker.written size label) = marker.written size label' := by
  obtain ⟨rest, hwritten, hrest⟩ := marker.written_eq size label
  by_cases hlast : (marker.written size label).getLast? = some c
  · rcases hrest with rfl | ⟨⟨label, rfl⟩, hne⟩
    · rw [hwritten, append_nil] at hlast
      have hbyte : c = marker.byte := eq_of_mem_replicate (mem_of_getLast? hlast)
      rcases hc with rfl | rfl <;> cases marker <;> exact absurd hbyte (by decide)
    · rcases eq_nil_or_concat label with rfl | ⟨label, d, rfl⟩
      · rw [hwritten] at hlast
        simp only [getLast?_append, getLast?_singleton, Option.some_or, Option.some.injEq] at hlast
        rcases hc with rfl | rfl <;> exact absurd hlast (by decide)
      · refine ⟨some label, ?_⟩
        rw [stripLast, if_pos hlast, hwritten, Marker.written_some hne, concat_eq_append,
          ← cons_append, ← append_assoc, dropLast_concat]
  · exact ⟨label, by rw [stripLast, if_neg hlast]⟩

theorem contentOf_written {ending : Bytes} (hending : IsLineBreak ending) (marker : Marker)
    (size : ℕ) (label : Option Bytes) :
    ∃ label', contentOf (marker.written size label ++ ending) = marker.written size label' := by
  rcases hending with rfl | rfl | rfl | rfl
  · obtain ⟨label, h⟩ := stripLast_written (.inl rfl) marker size label
    rw [append_nil, contentOf, h]
    exact stripLast_written (.inr rfl) marker size label
  · rw [contentOf, show text "\n" = [b '\n'] from rfl, stripLast_append]
    exact stripLast_written (.inr rfl) marker size label
  · rw [contentOf, show text "\r" = [b '\r'] from rfl, stripLast_append_of_ne (by decide),
      stripLast_append]
    exact ⟨label, rfl⟩
  · rw [contentOf, show text "\r\n" = [b '\r'] ++ [b '\n'] from rfl, ← append_assoc,
      stripLast_append, stripLast_append]
    exact ⟨label, rfl⟩

theorem markerOf_contentOf {ending : Bytes} (hending : IsLineBreak ending) (marker : Marker)
    (hsize : 7 ≤ size) (label : Option Bytes) :
    markerOf (contentOf (marker.written size label ++ ending)) = some (marker, size) := by
  obtain ⟨label', hcontent⟩ := contentOf_written hending marker size label
  rw [hcontent, markerOf_written marker hsize]

theorem markerOf_of_isMarker (hsize : 7 ≤ size) (h : IsMarker size line) :
    (markerOf (contentOf line)).map Prod.snd = some size := by
  obtain ⟨marker, label, ending, hending, rfl⟩ := h
  rw [markerOf_contentOf hending marker hsize]
  rfl

/-! ## Runs of the scanner -/

namespace SideScan

variable {s : SideScan}

theorem found_eq_none
    (h : ∀ size, 7 ≤ size → s.region = .outside ∨ size = s.size → ¬ IsMarker size line) :
    s.found line = none := by
  rw [found, Option.filter_eq_none_iff]
  rintro ⟨marker, size⟩ hmarker hcounts
  obtain ⟨hsize, hline⟩ := isMarker_of_markerOf hmarker
  exact h size hsize (by simpa using hcounts) hline

variable {hunk : Conflict}

theorem found_marker (hsize : 7 ≤ hunk.size)
    (hending : IsLineBreak (hunk.ending marker)) (hs : s.region = .outside ∨ hunk.size = s.size) :
    s.found (hunk.marker marker) = some (marker, hunk.size) := by
  rw [found, Conflict.marker, markerOf_contentOf hending marker hsize]
  have hcounts : (s.region == .outside || hunk.size == s.size) = true := by simpa using hs
  rw [Option.filter_some, if_pos hcounts]

/-- The sides with text of the region. -/
def keep (s : SideScan) (text : Bytes) : SideScan :=
  match s.region with
  | .outside => { s with ours := s.ours ++ text, theirs := s.theirs ++ text }
  | .ours => { s with ours := s.ours ++ text }
  | .base => s
  | .theirs => { s with theirs := s.theirs ++ text }

theorem step_of_found_eq_none (h : s.found line = none) : s.step line = some (s.keep line) := by
  obtain ⟨ours, theirs, region, size, hunks⟩ := s
  cases region <;> simp [step, h, keep]

@[simp] theorem keep_region (s : SideScan) (text : Bytes) : (s.keep text).region = s.region := by
  rw [keep]
  split <;> rfl

@[simp] theorem keep_size (s : SideScan) (text : Bytes) : (s.keep text).size = s.size := by
  rw [keep]
  split <;> rfl

theorem keep_nil (s : SideScan) : s.keep [] = s := by
  obtain ⟨ours, theirs, region, size, hunks⟩ := s
  cases region <;> simp [keep]

theorem keep_keep (s : SideScan) (text text' : Bytes) :
    (s.keep text).keep text' = s.keep (text ++ text') := by
  obtain ⟨ours, theirs, region, size, hunks⟩ := s
  cases region <;> simp [keep]

/-- Lines of one region. -/
theorem run_keep : ∀ {s : SideScan},
    (∀ line ∈ lines, ∀ size, 7 ≤ size → s.region = .outside ∨ size = s.size →
      ¬ IsMarker size line) → lines.foldlM step s = some (s.keep lines.flatten) := by
  induction lines with
  | nil => intro s _; simp [keep_nil]
  | cons line lines ih =>
    intro s h
    have hline := step_of_found_eq_none (found_eq_none (h line mem_cons_self))
    have hlines := ih (s := s.keep line) fun line' hmem => by
      simpa using h line' (mem_cons_of_mem _ hmem)
    rw [foldlM_cons, hline, flatten_cons, ← keep_keep]
    exact hlines

theorem run_outside (hs : s.region = .outside)
    (h : ∀ line ∈ lines, ∀ size, 7 ≤ size → ¬ IsMarker size line) :
    lines.foldlM step s =
      some { s with ours := s.ours ++ lines.flatten, theirs := s.theirs ++ lines.flatten } := by
  rw [run_keep fun line hline size hsize _ => h line hline size hsize, keep, hs]

theorem run_inside (hs : s.region ≠ .outside) (h : ∀ line ∈ lines, ¬ IsMarker s.size line) :
    lines.foldlM step s = some (s.keep lines.flatten) := by
  refine run_keep fun line hline size _ hcounts => ?_
  rcases hcounts with hout | rfl
  · exact absurd hout hs
  · exact h line hline

/-- The base of a conflict leaves nothing. -/
theorem run_base (hs : s.region = .ours) (hsize : s.size = hunk.size)
    (hread : (Segment.conflict hunk).Readable) :
    ∃ region, (region = .ours ∨ region = .base) ∧
      hunk.baseLines.foldlM step s = some { s with region } := by
  obtain ⟨hseven, hending, hinner⟩ := hread
  rw [Conflict.baseLines]
  cases hbase : hunk.base with
  | none =>
    refine ⟨.ours, .inl rfl, ?_⟩
    rw [← hs]
    rfl
  | some lines =>
    refine ⟨.base, .inr rfl, ?_⟩
    have hfound := found_marker (s := s) hseven (hending .base) (.inr hsize.symm)
    have hstep : s.step (hunk.marker .base) = some { s with region := .base } := by
      simp [step, hfound, hs, hsize]
    have hlines : ∀ line ∈ lines, ¬ IsMarker s.size line := fun line hline => by
      rw [hsize]
      exact hinner line (by simp [Conflict.inner, hbase, hline])
    simp only [foldlM_cons, hstep]
    exact run_inside (s := { s with region := .base }) (by simp) hlines

/-- A conflict leaves its sides. -/
theorem run_conflict (hs : s.region = .outside) (hread : (Segment.conflict hunk).Readable) :
    hunk.lines.foldlM step s = some
      { ours := s.ours ++ hunk.ours.flatten
        theirs := s.theirs ++ hunk.theirs.flatten
        region := .outside
        size := hunk.size
        hunks := s.hunks + 1 } := by
  have hours : ∀ line ∈ hunk.ours, ¬ IsMarker hunk.size line := fun line hline =>
    hread.2.2 line (by simp [Conflict.inner, hline])
  have htheirs : ∀ line ∈ hunk.theirs, ¬ IsMarker hunk.size line := fun line hline =>
    hread.2.2 line (by simp [Conflict.inner, hline])
  -- The scanner behind each of the parts of the conflict.
  let opened : SideScan := { s with size := hunk.size, region := .ours, hunks := s.hunks + 1 }
  let read : SideScan := { opened with ours := s.ours ++ hunk.ours.flatten }
  let other : SideScan := { read with region := .theirs }
  have hstart : s.step (hunk.marker .start) = some opened := by
    simp [step, found_marker hread.1 (hread.2.1 .start) (.inl hs), hs, opened]
  have hmine : hunk.ours.foldlM step opened = some read :=
    run_inside (s := opened) (by simp [opened]) hours
  obtain ⟨region, hregion, hbase⟩ := run_base (s := read) rfl rfl hread
  have hsep : step { read with region } (hunk.marker .separator) = some other := by
    have hfound :=
      found_marker (s := { read with region }) hread.1 (hread.2.1 .separator) (.inr rfl)
    rcases hregion with rfl | rfl <;> simp [step, hfound, read, other, opened]
  have hyours : hunk.theirs.foldlM step other =
      some { other with theirs := s.theirs ++ hunk.theirs.flatten } :=
    run_inside (s := other) (by simp [other]) htheirs
  have hstop := found_marker (s := { other with theirs := s.theirs ++ hunk.theirs.flatten })
    hread.1 (hread.2.1 .stop) (.inr rfl)
  simp only [Conflict.lines, foldlM_append, foldlM_cons, foldlM_nil, hstart, hmine, hbase, hsep,
    hyours, Option.bind_eq_bind, Option.bind_some]
  simp [step, hstop, other, read, opened]

end SideScan

/-! ## The sides of a document -/

/-- The text of one side of a document. -/
def sideOf (linesOf : Segment → List Bytes) (segments : List Segment) : Bytes :=
  (segments.flatMap linesOf).flatten

variable {segments : List Segment}

theorem run_segments (hread : ∀ segment ∈ segments, segment.Readable) :
    ∀ {s : SideScan}, s.region = .outside → ∃ size,
      (documentLines segments).foldlM SideScan.step s = some
        { ours := s.ours ++ sideOf Segment.ours segments
          theirs := s.theirs ++ sideOf Segment.theirs segments
          region := .outside
          size
          hunks := s.hunks + segments.countP Segment.isConflict } := by
  induction segments with
  | nil =>
    intro s hs
    refine ⟨s.size, ?_⟩
    rw [← hs]
    simp [documentLines, sideOf]
  | cons segment segments ih =>
    intro s hs
    have hrest := @ih fun segment' hmem => hread segment' (mem_cons_of_mem _ hmem)
    have hfirst := hread segment mem_cons_self
    rw [documentLines, flatMap_cons, foldlM_append]
    cases segment with
    | common lines =>
      have hrun := SideScan.run_outside hs hfirst
      obtain ⟨size, htail⟩ :=
        hrest (s := { s with ours := s.ours ++ lines.flatten, theirs := s.theirs ++ lines.flatten })
        hs
      refine ⟨size, ?_⟩
      rw [Segment.lines, hrun]
      refine htail.trans ?_
      simp [sideOf, Segment.ours, Segment.theirs, Segment.isConflict]
    | conflict hunk =>
      have hrun := SideScan.run_conflict hs hfirst
      obtain ⟨size, htail⟩ := hrest (s := SideScan.mk (s.ours ++ hunk.ours.flatten)
        (s.theirs ++ hunk.theirs.flatten) .outside hunk.size (s.hunks + 1)) rfl
      refine ⟨size, ?_⟩
      rw [Segment.lines, hrun]
      refine htail.trans ?_
      simp [sideOf, Segment.ours, Segment.theirs, Segment.isConflict, countP_cons]
      omega

/-- A document with a conflict is taken apart into the documents that git merged. -/
theorem splitSides_writeDocument (hdoc : IsDocument segments) :
    splitSides (writeDocument segments) =
      if segments.any Segment.isConflict then
        some { ours := sideOf Segment.ours segments, theirs := sideOf Segment.theirs segments }
      else none := by
  obtain ⟨size, hrun⟩ := run_segments hdoc.readable (s := {}) rfl
  rw [splitSides, writeDocument, splitLoop_lines hdoc.lines _ _ le_rfl, hrun]
  have hcount : 0 < segments.countP Segment.isConflict ↔
      segments.any Segment.isConflict = true := by
    rw [countP_pos_iff, any_eq_true]
  simp [← hcount]

/-- A conflict whose base holds one with longer markers. -/
def nestedConflict : Conflict where
  size := 7
  ours := [text "b\r\n"]
  base := some [text "<<<<<<<<< x\r\n", text "=========\r\n", text ">>>>>>>>> y\r\n"]
  theirs := [text "c\r\n"]
  label := fun _ => some (text "HEAD")
  ending := fun _ => text "\r\n"

theorem splitSides_writeDocument_nested :
    splitSides (writeDocument [.conflict nestedConflict, .common [text "d"]]) =
      some { ours := text "b\r\nd", theirs := text "c\r\nd" } := by
  have hdoc : IsDocument [.conflict nestedConflict, .common [text "d"]] := by
    refine ⟨?_, ?_⟩
    · exact @IsLines.cons (text "<<<<<<< HEAD\r") _ (by decide) <| @IsLines.cons (text "b\r") _
        (by decide) <|
        @IsLines.cons (text "||||||| HEAD\r") _ (by decide)
          <| @IsLines.cons (text "<<<<<<<<< x\r") _ (by decide) <|
        @IsLines.cons (text "=========\r") _ (by decide) <| @IsLines.cons (text ">>>>>>>>> y\r") _
          (by decide) <|
        @IsLines.cons (text "=======\r") _ (by decide) <| @IsLines.cons (text "c\r") _ (by decide)
          <|
        @IsLines.cons (text ">>>>>>> HEAD\r") _ (by decide) <| .last (by decide) (by decide)
    · intro segment hmem
      rcases mem_pair.1 hmem with rfl | rfl
      · refine ⟨le_rfl, fun _ => .inr (.inr (.inr rfl)), fun line hline hmarker => ?_⟩
        have hnone : ∀ line ∈ nestedConflict.inner, (markerOf (contentOf line)).map Prod.snd ≠
          some 7 := by decide
        exact hnone line hline (markerOf_of_isMarker le_rfl hmarker)
      · intro line hline size hsize hmarker
        obtain rfl := mem_singleton.1 hline
        have hnone : (markerOf (contentOf (text "d"))).map Prod.snd = none := by decide
        exact absurd ((markerOf_of_isMarker hsize hmarker).symm.trans hnone) (by simp)
  exact splitSides_writeDocument hdoc

/-- A text without a conflict has no sides. -/
theorem not_splitSides_writeDocument : ¬ ∀ segments, IsDocument segments →
    splitSides (writeDocument segments) =
      some { ours := sideOf Segment.ours segments, theirs := sideOf Segment.theirs segments } := by
  intro h
  have hnil := h [] ⟨.nil, by simp⟩
  exact absurd hnil (by decide)

end Soup.Install
