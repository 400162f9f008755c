import Lineage.Proofs.Slice.Integrity
import Lineage.Proofs.Slice.Union

/-!
The lines that a slice shows. Statements are numbered by the lines of the source and shown by the
lines of the display, which end at more characters. The two agree up to the first line that holds
another vertical separator, so the shown lines are those of the statements if and only if a text has
none.
-/

namespace Lineage

open List

namespace Text

variable {c : Char} {isBreak : Char → Bool} {line : Line} {n : Nat} {text : List Char}

/-- What is on each line of a source, endings left out. -/
def sourceLines (text : String) : List String :=
  (narrowLines text).map fun l => String.ofList l.content

/-- A text has no other vertical separators than line feeds and carriage returns. -/
def IsPlain (text : String) : Prop :=
  ∀ c ∈ text.toList, isWideBreak c = true → isNarrowBreak c = true

instance (text : String) : Decidable (IsPlain text) :=
  List.decidableBAll (fun c => isWideBreak c = true → isNarrowBreak c = true) text.toList

theorem isWideBreak_of_narrow (narrow : isNarrowBreak c = true) : isWideBreak c = true := by
  simp only [isNarrowBreak, Bool.or_eq_true] at narrow
  simp only [isWideBreak, Bool.or_eq_true]
  tauto

theorem not_isBreak_of_mem_content (member : line ∈ breakLines isBreak text)
    (inside : c ∈ line.content) : isBreak c = false := by
  fun_induction breakLines isBreak text generalizing line with
  | case1 => exact absurd member not_mem_nil
  | case2 rest ih => grind
  | case3 d rest _ _ ih => grind
  | case4 d rest _ keeps none ih => grind
  | case5 d rest _ keeps first lines found ih => grind

theorem isBreak_of_mem_ending (member : line ∈ breakLines isNarrowBreak text)
    (inside : c ∈ line.ending) : isNarrowBreak c = true := by
  fun_induction breakLines isNarrowBreak text generalizing line with
  | case1 => exact absurd member not_mem_nil
  | case2 rest ih =>
    rcases mem_cons.mp member with rfl | later
    · simp only [mem_cons, not_mem_nil, or_false] at inside
      rcases inside with rfl | rfl <;> rfl
    · exact ih later inside
  | case3 d rest _ _ ih => grind
  | case4 d rest _ keeps none ih => grind
  | case5 d rest _ keeps first lines found ih => grind

/-- The lines of the display are those of the source as long as these hold no other vertical
separator. -/
theorem breakLines_getElem?_eq (plain : ∀ line ∈ (breakLines isNarrowBreak text).take (n + 1),
    ∀ c ∈ line.content, isWideBreak c = false) :
    (breakLines isWideBreak text)[n]? = (breakLines isNarrowBreak text)[n]? := by
  fun_induction breakLines isNarrowBreak text generalizing n with
  | case1 => rfl
  | case2 rest ih =>
    rw [breakLines]
    cases n with
    | zero => rfl
    | succ n => exact ih fun line member => plain line (mem_cons_of_mem _ member)
  | case3 c rest apart breaks ih =>
    rw [breakLines.eq_3 _ _ _ apart, if_pos (isWideBreak_of_narrow breaks)]
    cases n with
    | zero => rfl
    | succ n => exact ih fun line member => plain line (mem_cons_of_mem _ member)
  | case4 c rest apart keeps none ih =>
    have inside : isWideBreak c = false := plain ⟨[c], []⟩ (by simp) c (by simp)
    have last : breakLines isWideBreak rest = [] := by
      have same := ih (n := 0) (by simp [none])
      simpa [none] using same
    rw [breakLines.eq_3 _ _ _ apart, inside, last]
    rfl
  | case5 c rest apart keeps first lines found ih =>
    obtain ⟨own, others⟩ := forall_mem_cons.mp plain
    obtain ⟨inside, content⟩ := forall_mem_cons.mp own
    rw [found] at ih
    obtain ⟨more, same⟩ : ∃ more, breakLines isWideBreak rest = first :: more := by
      have head := ih (n := 0) (by simpa using content)
      rw [← head?_eq_getElem?] at head
      exact head?_eq_some_iff.mp head
    rw [breakLines.eq_3 _ _ _ apart, inside, same]
    cases n with
    | zero => rfl
    | succ n =>
      have later := ih (n := n + 1) (forall_mem_cons.mpr ⟨content, others⟩)
      rwa [same] at later

theorem line?_map {lines : List Line} {number : Int} {k : Nat} (place : number = k + 1) :
    CellSlice.line? (lines.map fun l => String.ofList l.content) number =
      lines[k]?.map fun l => String.ofList l.content := by
  rw [CellSlice.line?, if_pos (by omega), getElem?_map, show (number - 1).toNat = k by omega]

/-- A line is shown as it stands in the source unless it or one before it holds another vertical
separator. -/
theorem line?_displayLines_eq {text : String} {number : Int}
    (plain : ∀ line ∈ (narrowLines text).take number.toNat,
    ∀ c ∈ line.content, isWideBreak c = false) :
    CellSlice.line? (displayLines text) number = CellSlice.line? (sourceLines text) number := by
  by_cases positive : 1 ≤ number
  · obtain ⟨k, rfl⟩ : ∃ k : Nat, number = k + 1 := ⟨(number - 1).toNat, by omega⟩
    rw [displayLines, sourceLines, line?_map rfl, line?_map rfl, wideLines,
      breakLines_getElem?_eq plain]
    rfl
  · rw [CellSlice.line?, CellSlice.line?, if_neg positive, if_neg positive]

/-- The lines of the display are those of the source if and only if there is no other vertical
separator. -/
theorem line?_eq_iff_isPlain {text : String} :
    (∀ number, CellSlice.line? (displayLines text) number = CellSlice.line? (sourceLines text)
      number) ↔ IsPlain text := by
  constructor
  · intro same c member wide
    rw [← flatMap_chars_breakLines isNarrowBreak text.toList] at member
    obtain ⟨line, among, inside⟩ := mem_flatMap.mp member
    rcases mem_append.mp inside with content | ending
    · -- The line is one of the display as well, where no line holds a separator.
      obtain ⟨k, found⟩ := mem_iff_getElem?.mp among
      have shown := same (k + 1)
      rw [displayLines, sourceLines, line?_map rfl, line?_map rfl, narrowLines, found] at shown
      obtain ⟨other, there, equal⟩ := Option.map_eq_some_iff.mp shown
      rw [← String.ofList_inj.mp equal] at content
      exact absurd wide (Bool.eq_false_iff.mp
        (not_isBreak_of_mem_content (mem_of_getElem? there) content))
    · exact isBreak_of_mem_ending among ending
  · intro plain number
    refine line?_displayLines_eq fun line member c inside => Bool.eq_false_iff.mpr fun wide => ?_
    have among : line ∈ breakLines isNarrowBreak text.toList := mem_of_mem_take member
    have held : c ∈ text.toList := by
      rw [← flatMap_chars_breakLines isNarrowBreak text.toList]
      exact mem_flatMap.mpr ⟨line, among, mem_append_left _ inside⟩
    exact Bool.eq_false_iff.mp (not_isBreak_of_mem_content among inside) (plain c held wide)

end Text

/-- Ranges in their shortest form list lines in order. -/
theorem LineRange.Canonical.increasing {rs : List LineRange} (form : Canonical rs) :
    (rs.flatMap LineRange.lines).Pairwise (· < ·) := by
  refine pairwise_flatMap.mpr ⟨fun r _ => ?_, form.apart.imp fun {a b} gap x first y second => ?_⟩
  · refine pairwise_map.mpr (pairwise_lt_range.imp fun less => ?_)
    omega
  · rw [LineRange.mem_lines] at first second
    omega

theorem CellSlice.lines_eq (part : CellSlice) : part.lines =
    (part.ranges.flatMap LineRange.lines).filterMap
    (CellSlice.line? part.execution.displayLines) := by
  rw [lines, filterMap_flatMap]

namespace Log

/-- **The lines of a slice are those of its statements where a text has no other vertical
separators.** In a log that reads its texts as they are, an execution shows the line of its source
with any number if neither this line nor one in front of it holds another vertical separator, and it
does so for all numbers if and only if its text holds none. The lines of each part of a slice are
shown by the numbers that its included statements cover, in order and each once; so if the text of
the part holds no other vertical separator, they are the source lines of these statements. -/
theorem slice_lines {l : Log} (reachable : l.Reachable)
    (verbatim : ∀ a ∈ l.executions, l.plain a.text = a.text) {e : Execution}
    (member : e ∈ l.executions) :
      (∀ number, (∀ line ∈ (Text.narrowLines e.text).take number.toNat, ∀ c ∈ line.content,
        Text.isWideBreak c = false) → CellSlice.line? e.displayLines number = CellSlice.line?
        (Text.sourceLines e.text) number) ∧
    ((∀ number, CellSlice.line? e.displayLines number = CellSlice.line? (Text.sourceLines e.text)
      number) ↔ Text.IsPlain e.text) ∧
    ∀ r, e.facts? = some r → ∀ atCall lines, ∃ c slice,
      c = Slice.closureOf ⟨l, atCall⟩ e ((lines.map r.onLines).getD r.statements.toList) ∧
      l.slice atCall e lines = .ok slice ∧
        ∀ part ∈ slice.parts, ∃ numbers : List Int, numbers.Pairwise (· < ·) ∧
          (∀ number, number ∈ numbers ↔ ∃ f ∈ part.execution.statements, ⟨part.ordinal, f.index⟩ ∈
            c.included ∧ f.coversLine number = true) ∧
        part.lines = numbers.filterMap (CellSlice.line? part.execution.displayLines) ∧
        (Text.IsPlain part.execution.text →
          part.lines = numbers.filterMap (CellSlice.line?
            (Text.sourceLines part.execution.text))) := by
  have sound := reachable.sound
  have shown : ∀ a ∈ l.executions, a.displayLines = Text.displayLines a.text := by
    intro a among
    have source := (sound.reads a among).1
    rw [verbatim a among] at source
    rw [Execution.displayLines, source, if_pos rfl]
  rw [shown e member]
  refine ⟨fun number => Text.line?_displayLines_eq, Text.line?_eq_iff_isPlain,
    fun r facts atCall lines => ?_⟩
  obtain ⟨c, closure, made⟩ := slice_parsed sound member facts atCall lines
  refine ⟨c, _, closure, made, fun part among => ⟨part.ranges.flatMap LineRange.lines, ?_, ?_,
    part.lines_eq, ?_⟩⟩
  · exact (((Makes.slice member made).neat sound).canonical part among).increasing
  · intro number
    rw [mem_flatMap]
    exact Slice.hasLine_iff sound among
  · intro plain
    rw [part.lines_eq, shown _ (Slice.mem_parts sound among).1,
      funext (Text.line?_eq_iff_isPlain.mpr plain)]

/-- All parts of what the call needs are shown as they stand in the source. -/
theorem slice_lines_rebinding : ∃ e ∈ rebinding.executions, ∃ slice, rebinding.slice true e none =
    .ok slice ∧ slice.ordinals = [2, 3, 4] ∧
      ∀ part ∈ slice.parts, ∃ numbers : List Int, numbers.Pairwise (· < ·) ∧
      part.lines = numbers.filterMap (CellSlice.line? (Text.sourceLines part.execution.text)) := by
  have reachable : rebinding.Reachable := (Reachable.start _ _ _).runAll _
  have plain : ∀ e ∈ rebinding.executions, Text.IsPlain e.text := by decide +kernel
  have last : ∃ e ∈ rebinding.executions, e.facts?.isSome = true ∧
      (rebinding.slice true e none).toOption.map Slice.ordinals =
      some [2, 3, 4] := by decide +kernel
  obtain ⟨e, member, read, ordinals⟩ := last
  obtain ⟨r, facts⟩ := Option.isSome_iff_exists.mp read
  obtain ⟨c, slice, _, made, parts⟩ :=
    (slice_lines reachable (by decide +kernel) member).2.2 r facts true none
  rw [made] at ordinals
  refine ⟨e, member, slice, made, Option.some.inj ordinals, fun part among => ?_⟩
  obtain ⟨numbers, increasing, _, _, shown⟩ := parts part among
  have recorded := ((Makes.slice member made).neat reachable.sound).recorded part among
  exact ⟨numbers, increasing, shown (plain _ recorded)⟩

/-- A session with a form feed in a literal. -/
def fed : Log :=
  (Log.empty ⟨∅, ∅⟩ id ⟨0, 0⟩).runAll [⟨"a", "x = '\x0c'\ny = 1\n", none, []⟩]

/-- The second statement covers the second line only, but the second line on display is the rest of
the first. -/
theorem line_of_form_feed : ∃ e ∈ fed.executions, ∃ f ∈ e.statements, f.spans = [(2, 2)] ∧
    CellSlice.line? e.displayLines 2 = some "'" ∧ CellSlice.line? (Text.sourceLines e.text) 2 =
    some "y = 1" := by
  decide +kernel

end Log

end Lineage
