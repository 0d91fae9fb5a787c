import Mathlib.Data.List.TakeWhile
import RecordLisp.Proofs.Source.Forward
import RecordLisp.Proofs.Source.Lines

/-!
# The places that faults point at

A cursor counts lines and columns while it moves and never counts again, also not when it goes back
to a position kept earlier. What it counts is right because it always stands on the text: its
position is that of the characters before it, and what is left are the characters behind it. Moving
forward keeps this, so it holds wherever a scanner or the reader reports a fault. It counts in words
of 32 bits, so a count is exact as long as the numbers of the lines and columns of the text fit into
words, and is right up to multiples of the size of a word in any case.
-/

namespace RecordLisp

/-- The characters behind the last line feed of a text. -/
def sinceFeed (text : List Char) : List Char :=
  (text.reverse.takeWhile (· != '\n')).reverse

theorem sinceFeed_concat (text : List Char) (ch : Char) :
    sinceFeed (text ++ [ch]) = if ch = '\n' then [] else sinceFeed text ++ [ch] := by
  unfold sinceFeed
  rw [List.reverse_append, List.reverse_singleton, List.singleton_append, List.takeWhile_cons]
  by_cases feed : ch = '\n'
  · simp [feed]
  · simp [feed]

/-- Whether a position is one of a text, counted in words from the characters in front of it. -/
structure Position.IsIn (position : Position) (text : List Char) : Prop where
  offset : position.offset ≤ text.length
  line : position.line = .ofNat (1 + (text.take position.offset).count '\n')
  column : position.column = .ofNat (1 + (sinceFeed (text.take position.offset)).length)

namespace Cursor

variable {text : List Char}

/-- Whether a cursor stands on a text: at one of its positions, with all that follows. -/
structure On (cursor : Cursor) (text : List Char) : Prop where
  place : cursor.position.IsIn text
  rest : cursor.rest = text.drop cursor.position.offset

theorem on_ofText (text : String) : (ofText text).On text.toList :=
  ⟨⟨Nat.zero_le _, rfl, rfl⟩, rfl⟩

/-- The position counts on when a character is passed. -/
theorem On.next {ch : Char} {rest : List Char} {position : Position}
    (on : On ⟨ch :: rest, position⟩ text) : On ⟨rest, position.next ch⟩ text := by
  have follows : ch :: rest = text.drop position.offset := on.rest
  have line : position.line = .ofNat (1 + (text.take position.offset).count '\n') := on.place.line
  have column : position.column = .ofNat (1 + (sinceFeed (text.take position.offset)).length) :=
    on.place.column
  have here : text[position.offset]? = some ch := by
    rw [← List.head?_drop, ← follows]
    rfl
  have passed : text.take (position.offset + 1) = text.take position.offset ++ [ch] := by
    rw [List.take_add_one, here]
    rfl
  have behind : rest = text.drop (position.offset + 1) := by
    rw [← List.tail_drop, ← follows]
    rfl
  have further : position.offset + 1 ≤ text.length := (List.getElem?_eq_some_iff.mp here).1
  unfold Position.next
  split
  · rename_i feed
    refine ⟨⟨further, ?_, ?_⟩, behind⟩
    · simp only [passed, feed, List.count_append, List.count_singleton_self]
      rw [line, ← Nat.add_assoc, UInt32.ofNat_add _ 1]
      rfl
    · simp only [passed, sinceFeed_concat, if_pos feed, List.length_nil]
      rfl
  · rename_i noFeed
    refine ⟨⟨further, ?_, ?_⟩, behind⟩
    · simpa [passed, noFeed] using line
    · simp only [passed, sinceFeed_concat, if_neg noFeed, List.length_append,
        List.length_singleton]
      rw [column, ← Nat.add_assoc, UInt32.ofNat_add _ 1]
      rfl

theorem forward_on (text : List Char) : Forward (·.On text) := ⟨On.next⟩

theorem isIn_of_marks {position : Position} (marks : Marks (·.On text) position) :
    position.IsIn text := by
  obtain ⟨cursor, on, rfl⟩ := marks
  exact on.place

/-! ## Going back -/

/-- The cursor at a position of a text that was kept earlier. -/
def backtrack (text : String) (position : Position) : Cursor :=
  ⟨text.toList.drop position.offset, position⟩

theorem on_backtrack {text : String} {position : Position} (place : position.IsIn text.toList) :
    (backtrack text position).On text.toList :=
  ⟨place, rfl⟩

end Cursor

/-! ## Errors and their lines -/

theorem length_splitOn (text : List Char) : (text.splitOn '\n').length = 1 + text.count '\n' := by
  induction text with
  | nil => rfl
  | cons ch text ih =>
      rw [List.splitOn_cons_eq_if_modifyHead, List.count_cons]
      split
      · rw [List.length_cons, ih, Nat.add_assoc]
      · rw [List.length_modifyHead, ih, Nat.add_zero]

theorem notMem_sinceFeed (text : List Char) : '\n' ∉ sinceFeed text := by
  intro mem
  have passes := List.mem_takeWhile_imp (List.mem_reverse.mp mem)
  cases passes

/-- A text is one line, or has a last line feed. -/
theorem eq_sinceFeed_or (text : List Char) :
    text = sinceFeed text ∨ ∃ earlier, text = earlier ++ '\n' :: sinceFeed text := by
  have whole := congrArg List.reverse
    (List.takeWhile_append_dropWhile (p := (· != '\n')) (l := text.reverse))
  rw [List.reverse_append, List.reverse_reverse] at whole
  cases dropped : text.reverse.dropWhile (· != '\n') with
  | nil =>
      rw [dropped] at whole
      exact .inl whole.symm
  | cons ch earlier =>
      have feed : ch = '\n' := by
        have head := List.head?_dropWhile_not (· != '\n') text.reverse
        rw [dropped] at head
        simpa using head
      rw [dropped, feed] at whole
      exact .inr ⟨earlier.reverse, by simpa [sinceFeed] using whole.symm⟩

theorem head?_splitOn (text : List Char) :
    (text.splitOn '\n')[0]? = some (text.takeWhile (· != '\n')) := by
  induction text with
  | nil => rfl
  | cons ch text ih =>
      rw [List.splitOn_cons_eq_if_modifyHead, List.takeWhile_cons]
      by_cases feed : ch = '\n'
      · simp [feed]
      · simp [feed, ih]

/-- The line around a place: what stands in front of it behind the last line feed, and what follows
up to the next one. -/
theorem getElem?_splitOn (before rest : List Char) :
    ((before ++ rest).splitOn '\n')[before.count '\n']? =
      some (sinceFeed before ++ rest.takeWhile (· != '\n')) := by
  have line : ((sinceFeed before ++ rest).splitOn '\n')[0]? =
      some (sinceFeed before ++ rest.takeWhile (· != '\n')) := by
    rw [head?_splitOn, List.takeWhile_append_of_pos]
    intro ch mem
    apply bne_iff_ne.mpr
    rintro rfl
    exact notMem_sinceFeed before mem
  rcases eq_sinceFeed_or before with whole | ⟨earlier, divided⟩
  · have none : before.count '\n' = 0 := by
      rw [whole]
      exact List.count_eq_zero.mpr (notMem_sinceFeed before)
    rw [none, ← line, ← whole]
  · have many : before.count '\n' = (earlier.splitOn '\n').length := by
      have noMore := List.count_eq_zero.mpr (notMem_sinceFeed before)
      rw [length_splitOn, divided, List.count_append, List.count_cons_self, noMore]
      exact Nat.add_comm _ 1
    have pieces : (before ++ rest).splitOn '\n' =
        earlier.splitOn '\n' ++ (sinceFeed before ++ rest).splitOn '\n' := by
      rw [← List.splitOn_append_cons_self, ← List.cons_append, ← List.append_assoc, ← divided]
    rw [pieces, many, List.getElem?_append_right (Nat.le_refl _), Nat.sub_self, line]

/-- Whether the numbers of all lines and columns of a source fit into words. -/
structure Source.FitsWords (source : Source) : Prop where
  lines : source.lines.length < 2 ^ 32
  columns : ∀ line ∈ source.lines, line.length + 1 < 2 ^ 32

/-- Whether a position is one of a text, counted from the characters in front of it. -/
structure Position.Counts (position : Position) (text : List Char) : Prop where
  offset : position.offset ≤ text.length
  line : position.line.toNat = 1 + (text.take position.offset).count '\n'
  column : position.column.toNat = 1 + (sinceFeed (text.take position.offset)).length

/-- The line around a position of a source. -/
def Source.lineAround (source : Source) (position : Position) : List Char :=
  sinceFeed (source.content.toList.take position.offset) ++
    (source.content.toList.drop position.offset).takeWhile (· != '\n')

namespace Position

variable {source : Source} {position : Position}

theorem getElem?_lines (source : Source) (position : Position) :
    source.lines[(source.content.toList.take position.offset).count '\n']? =
      some (source.lineAround position) := by
  have line := getElem?_splitOn (source.content.toList.take position.offset)
    (source.content.toList.drop position.offset)
  rwa [List.take_append_drop] at line

/-- A position is counted exactly when all counts fit into words. -/
theorem IsIn.counts (place : position.IsIn source.content.toList) (fits : source.FitsWords) :
    position.Counts source.content.toList := by
  have around := getElem?_lines source position
  have inside := (List.getElem?_eq_some_iff.mp around).1
  have short := fits.columns _ (List.mem_of_getElem? around)
  rw [Source.lineAround, List.length_append] at short
  refine ⟨place.offset, ?_, ?_⟩
  · rw [place.line, UInt32.toNat_ofNat_of_lt']
    have few := fits.lines
    change _ < 2 ^ 32
    omega
  · rw [place.column, UInt32.toNat_ofNat_of_lt']
    change _ < 2 ^ 32
    omega

theorem Counts.getElem?_lines (counts : position.Counts source.content.toList) :
    source.lines[position.line.toNat - 1]? = some (source.lineAround position) := by
  rw [counts.line, Nat.add_sub_cancel_left]
  exact Position.getElem?_lines source position

end Position

/-- Whether an error stands at a place of a source, counted in words, and shows the line that the
source finds for it. -/
structure ParseError.StandsIn (error : ParseError) (source : Source) : Prop where
  place : error.position.IsIn source.content.toList
  line : error.sourceLine = (source.line? error.position.line).getD ""

theorem Position.IsIn.standsIn {source : Source} {position : Position}
    (place : position.IsIn source.content.toList) (message : String) :
    (ParseError.located source message position).StandsIn source :=
  ⟨place, rfl⟩

/-- What can be done with a scanner. Marks are positions that were kept, and are named by their
number. -/
inductive LexStep where
  | advance
  | skipTrivia
  | number
  | string
  | token
  | mark
  | backtrack (mark : Nat)
  | report (message : String)
  | reportAt (message : String) (mark : Nat)

/-- A cursor that is driven, and the positions that were kept. -/
structure Lexing where
  cursor : Cursor
  marks : List Position

namespace Lexing

/-- The error of a scan, if it fails, and the cursor after it. -/
def scanned (lexing : Lexing) (source : Source) (scan : Scanned Leaf) :
    Option ParseError × Lexing :=
  match scan with
  | (.ok _, cursor) => (none, { lexing with cursor })
  | (.error fault, cursor) => (some (fault.toError source), { lexing with cursor })

/-- One step and the error that it gives. A mark that does not exist does nothing. -/
def step (lexing : Lexing) (source : Source) : LexStep → Option ParseError × Lexing
  | .advance => (none, { lexing with cursor := lexing.cursor.advance })
  | .skipTrivia => (none, { lexing with cursor := lexing.cursor.skipTrivia })
  | .number => lexing.scanned source lexing.cursor.scanNumber
  | .string => lexing.scanned source lexing.cursor.scanString
  | .token => (none, { lexing with cursor := lexing.cursor.scanToken.2 })
  | .mark => (none, { lexing with marks := lexing.marks ++ [lexing.cursor.position] })
  | .backtrack mark =>
      match lexing.marks[mark]? with
      | some position => (none, { lexing with cursor := .backtrack source.content position })
      | none => (none, lexing)
  | .report message => (some (.located source message lexing.cursor.position), lexing)
  | .reportAt message mark => (lexing.marks[mark]?.map (.located source message ·), lexing)

/-- All errors of some steps, and where the scanner is after them. -/
def run (lexing : Lexing) (source : Source) : List LexStep → List ParseError × Lexing
  | [] => ([], lexing)
  | first :: steps =>
      let (error, next) := lexing.step source first
      let (errors, last) := next.run source steps
      (error.toList ++ errors, last)

/-- A scanner at the start of a source, whose position is the first mark. -/
def start (source : Source) : Lexing := ⟨.ofText source.content, [.start]⟩

/-- Whether a scanner stands on a source, and every position that it kept is one of the source. -/
structure On (lexing : Lexing) (source : Source) : Prop where
  cursor : lexing.cursor.On source.content.toList
  marks : ∀ position ∈ lexing.marks, position.IsIn source.content.toList

variable {lexing : Lexing} {source : Source}

theorem on_start (source : Source) : (start source).On source where
  cursor := Cursor.on_ofText source.content
  marks := List.forall_mem_singleton.mpr (Cursor.on_ofText source.content).place

theorem On.scanned (on : lexing.On source) {scan : Scanned Leaf}
    (stops : Cursor.StopsWith (·.On source.content.toList) scan) :
    (lexing.scanned source scan).2.On source ∧
      ∀ error ∈ (lexing.scanned source scan).1, error.StandsIn source := by
  obtain ⟨result, cursor⟩ := scan
  cases result with
  | ok value => exact ⟨⟨stops.stops, on.marks⟩, by simp [Lexing.scanned]⟩
  | error fault =>
      refine ⟨⟨stops.stops, on.marks⟩, fun error same => ?_⟩
      cases same
      exact (Cursor.isIn_of_marks (stops.fails fault rfl)).standsIn _

theorem On.step (on : lexing.On source) (step : LexStep) :
    (lexing.step source step).2.On source ∧
      ∀ error ∈ (lexing.step source step).1, error.StandsIn source := by
  have marked {mark : Nat} {position : Position} (kept : lexing.marks[mark]? = some position) :
      position.IsIn source.content.toList := on.marks position (List.mem_of_getElem? kept)
  have forward := Cursor.forward_on source.content.toList
  cases step with
  | advance => exact ⟨⟨forward.advance on.cursor, on.marks⟩, by simp [Lexing.step]⟩
  | skipTrivia => exact ⟨⟨forward.skipTrivia on.cursor, on.marks⟩, by simp [Lexing.step]⟩
  | number => exact on.scanned (forward.scanNumber on.cursor)
  | string => exact on.scanned (forward.scanString on.cursor)
  | token => exact ⟨⟨forward.scanToken on.cursor, on.marks⟩, by simp [Lexing.step]⟩
  | mark =>
      refine ⟨⟨on.cursor, fun position mem => ?_⟩, by simp [Lexing.step]⟩
      rcases List.mem_append.mp mem with before | here
      · exact on.marks position before
      · cases List.mem_singleton.mp here
        exact on.cursor.place
  | backtrack mark =>
      cases kept : lexing.marks[mark]? with
      | none => simpa [Lexing.step, kept] using on
      | some position =>
          simp only [Lexing.step, kept]
          exact ⟨⟨Cursor.on_backtrack (marked kept), on.marks⟩, by simp⟩
  | report message =>
      refine ⟨on, fun error same => ?_⟩
      cases same
      exact on.cursor.place.standsIn message
  | reportAt message mark =>
      refine ⟨on, fun error same => ?_⟩
      obtain ⟨position, kept, rfl⟩ := Option.map_eq_some_iff.mp same
      exact (marked kept).standsIn message

theorem On.run (on : lexing.On source) (steps : List LexStep) :
    (lexing.run source steps).2.On source ∧
      ∀ error ∈ (lexing.run source steps).1, error.StandsIn source := by
  induction steps generalizing lexing with
  | nil => exact ⟨on, List.forall_mem_nil _⟩
  | cons first steps ih =>
      obtain ⟨next, stands⟩ := on.step first
      obtain ⟨last, others⟩ := ih next
      refine ⟨last, fun error mem => ?_⟩
      rcases List.mem_append.mp mem with here | later
      · exact stands error (Option.mem_toList.mp here)
      · exact others error later

end Lexing

namespace Source

variable {source : Source}

/-- Whether an error is one that the reader gives for a source, or one that the scanners give
whatever steps they are driven by. -/
def Reports (source : Source) (error : ParseError) : Prop :=
  (∃ heap after, source.read heap = (.error error, after)) ∨
    ∃ steps, error ∈ ((Lexing.start source).run source steps).1

/-- Every error that is reported stands at a place of the source. -/
theorem Reports.standsIn {error : ParseError} (reports : source.Reports error) :
    error.StandsIn source := by
  rcases reports with ⟨heap, after, failed⟩ | ⟨steps, mem⟩
  · have stays := ReadM.stays_program (Cursor.forward_on source.content.toList)
      (source.content.toList.length + 1) ⟨.ofText source.content, heap⟩
      (Cursor.on_ofText source.content)
    change (((Effect.outcome (ReadM.program (source.content.toList.length + 1))
      ⟨.ofText source.content, heap⟩).1.mapError (Fault.toError · source)), _) = _ at failed
    generalize Effect.outcome (ReadM.program _) _ = ran at stays failed
    obtain ⟨_ | value, last⟩ := ran
    · cases failed
      exact (Cursor.isIn_of_marks (stays.2 _ rfl)).standsIn _
    · cases failed
  · exact ((Lexing.on_start source).run steps).2 error mem

end Source

end RecordLisp
