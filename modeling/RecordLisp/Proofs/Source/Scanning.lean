import Mathlib.Data.List.TakeWhile
import RecordLisp.Proofs.Source.Grammar

/-!
# Scanning follows the grammar

The scanners work on a cursor, which carries a place for the sake of messages. Here the place is
forgotten: each scanner is shown to accept exactly what the grammar says and to stop where the
grammar says, wherever in the text it starts.
-/

namespace RecordLisp

open Grammar

/-! ## Runs of characters -/

namespace Cursor

@[simp] theorem rest_skipWhile (test : Char → Bool) (input : List Char) (position : Position) :
    (skipWhile test input position).rest = input.dropWhile test := by
  induction input generalizing position with
  | nil => rfl
  | cons ch input ih =>
      by_cases passes : test ch = true
      · simp [skipWhile, passes, ih]
      · simp [skipWhile, passes]

theorem offset_next (position : Position) (ch : Char) :
    (position.next ch).offset = position.offset + 1 := by
  unfold Position.next
  split <;> rfl

theorem offset_skipWhile (test : Char → Bool) (input : List Char) (position : Position) :
    (skipWhile test input position).position.offset =
      position.offset + (input.takeWhile test).length := by
  induction input generalizing position with
  | nil => rfl
  | cons ch input ih =>
      by_cases passes : test ch = true
      · simp only [skipWhile, passes, ↓reduceIte, ih, offset_next, List.takeWhile_cons,
          List.length_cons]
        omega
      · simp [skipWhile, passes]

/-- The text between a cursor and the cursor after a run of characters is that run. -/
@[simp] theorem textSince_advanceWhile (cursor : Cursor) (test : Char → Bool) :
    (cursor.advanceWhile test).textSince cursor = String.ofList (cursor.rest.takeWhile test) := by
  unfold textSince advanceWhile
  rw [offset_skipWhile, Nat.add_sub_cancel_left]
  congr 1
  calc
    cursor.rest.take (cursor.rest.takeWhile test).length
        = (cursor.rest.takeWhile test ++ cursor.rest.dropWhile test).take
            (cursor.rest.takeWhile test).length := by rw [List.takeWhile_append_dropWhile]
    _ = cursor.rest.takeWhile test := List.take_left

@[simp] theorem rest_advanceWhile (cursor : Cursor) (test : Char → Bool) :
    (cursor.advanceWhile test).rest = cursor.rest.dropWhile test :=
  rest_skipWhile test cursor.rest cursor.position

@[simp] theorem rest_advance_mk (ch : Char) (rest : List Char) (position : Position) :
    (advance ⟨ch :: rest, position⟩).rest = rest := rfl

end Cursor

/-- A run of characters that pass a test, before a character that does not, is the whole run. -/
theorem takeWhile_append_of_head {test : Char → Bool} {run rest : List Char}
    (passes : ∀ ch ∈ run, test ch = true) (stops : ∀ ch ∈ rest.head?, test ch = false) :
    (run ++ rest).takeWhile test = run ∧ (run ++ rest).dropWhile test = rest := by
  rw [List.takeWhile_append_of_pos passes, List.dropWhile_append_of_pos passes]
  cases rest with
  | nil => simp
  | cons ch rest =>
      have fails : test ch = false := stops ch (by simp)
      simp [fails]

/-- The character after the longest run fails the test. -/
theorem head_dropWhile (test : Char → Bool) (input : List Char) :
    ∀ ch ∈ (input.dropWhile test).head?, test ch = false := by
  intro ch mem
  have stopped := List.head?_dropWhile_not test input
  rw [Option.mem_def.mp mem] at stopped
  simpa using stopped

/-! ## Separators and comments -/

namespace Grammar

private theorem skipTriviaFrom_inside {text : List Char} (inLine : '\n' ∉ text) (more : List Char)
    (position : Position) :
    ∃ position', Cursor.skipTriviaFrom true (text ++ more) position =
      Cursor.skipTriviaFrom true more position' := by
  induction text generalizing position with
  | nil => exact ⟨position, rfl⟩
  | cons ch text ih =>
      have different : ch ≠ '\n' := fun equal => inLine (by simp [equal])
      have later : '\n' ∉ text := fun mem => inLine (List.mem_cons_of_mem ch mem)
      obtain ⟨position', same⟩ := ih later (position.next ch)
      have open' : (ch != '\n') = true := bne_iff_ne.mpr different
      refine ⟨position', ?_⟩
      simpa [Cursor.skipTriviaFrom, open'] using same

/-- The cursor stops where the rule does. -/
theorem Skips.rest_skipTriviaFrom {input rest : List Char} (skips : Skips input rest)
    (position : Position) : (Cursor.skipTriviaFrom false input position).rest = rest := by
  induction skips generalizing position with
  | @stop rest visible =>
      cases rest with
      | nil => rfl
      | cons ch rest =>
          obtain ⟨solid, noComment⟩ := visible ch (by simp)
          simp [Cursor.skipTriviaFrom, solid, noComment]
  | separator blank _ ih => simp [Cursor.skipTriviaFrom, blank, ih]
  | @comment text input rest inLine _ ih =>
      obtain ⟨position', same⟩ :=
        skipTriviaFrom_inside inLine ('\n' :: input) (position.next ';')
      have opens : isSeparator ';' = false := by decide
      simp [Cursor.skipTriviaFrom, opens, same, ih]
  | @lastComment text inLine =>
      obtain ⟨position', same⟩ := skipTriviaFrom_inside inLine [] (position.next ';')
      have opens : isSeparator ';' = false := by decide
      rw [List.append_nil] at same
      simp [Cursor.skipTriviaFrom, opens, same]

/-- The rule allows what the cursor does. Inside a comment, `text` is what was passed of it. -/
private theorem skips_skipTriviaFrom (input : List Char) :
    (∀ position, Skips input (Cursor.skipTriviaFrom false input position).rest) ∧
      ∀ text, '\n' ∉ text → ∀ position,
        Skips (';' :: text ++ input) (Cursor.skipTriviaFrom true input position).rest := by
  induction input with
  | nil =>
      refine ⟨fun _ => .stop (by simp), fun text inLine _ => ?_⟩
      rw [List.append_nil]
      exact .lastComment inLine
  | cons ch input ih =>
      obtain ⟨outside, inside⟩ := ih
      constructor
      · intro position
        unfold Cursor.skipTriviaFrom
        by_cases blank : isSeparator ch = true
        · simpa [blank] using Skips.separator blank (outside (position.next ch))
        · by_cases opens : ch = ';'
          · subst opens
            simpa [blank] using inside [] (by simp) (position.next ';')
          · have solid : isSeparator ch = false := by simpa using blank
            simpa [solid, opens] using
              @Skips.stop (ch :: input) (by simp [solid, opens])
      · intro text inLine position
        unfold Cursor.skipTriviaFrom
        by_cases ends : ch = '\n'
        · subst ends
          simpa using Skips.comment inLine (outside (position.next '\n'))
        · have longer : '\n' ∉ text ++ [ch] := by
            simp [inLine, Ne.symm ends]
          have open' : (ch != '\n') = true := bne_iff_ne.mpr ends
          simpa [open'] using inside (text ++ [ch]) longer (position.next ch)

theorem skips_iff {input rest : List Char} (position : Position) :
    Skips input rest ↔ (Cursor.skipTriviaFrom false input position).rest = rest := by
  constructor
  · intro skips
    exact skips.rest_skipTriviaFrom position
  · rintro rfl
    exact (skips_skipTriviaFrom input).1 position

/-- There is one place where separators and comments end. -/
theorem Skips.unique {input rest other : List Char} (first : Skips input rest)
    (second : Skips input other) : rest = other :=
  (first.rest_skipTriviaFrom .start).symm.trans (second.rest_skipTriviaFrom .start)

/-- Nothing is left to skip where skipping ended. -/
theorem Skips.self {input rest : List Char} (skips : Skips input rest) : Skips rest rest := by
  induction skips with
  | stop visible => exact .stop visible
  | separator _ _ ih => exact ih
  | comment _ _ ih => exact ih
  | lastComment => exact .stop (by simp)

theorem Skips.length_le {input rest : List Char} (skips : Skips input rest) :
    rest.length ≤ input.length := by
  induction skips with
  | stop => exact Nat.le_refl _
  | separator _ _ ih => exact Nat.le_succ_of_le ih
  | comment _ _ ih =>
      simp only [List.length_append, List.length_cons]
      omega
  | lastComment => simp

end Grammar

/-! ## Strings -/

/-- Scanning succeeds on a cursor with a value and the given rest. -/
def Scans {α : Type} (scanned : Scanned α) (value : α) (rest : List Char) : Prop :=
  ∃ after, scanned = (.ok value, after) ∧ after.rest = rest

theorem Scans.unique {α : Type} {scanned : Scanned α} {value value' : α} {rest rest' : List Char}
    (first : Scans scanned value rest) (second : Scans scanned value' rest') :
    value = value' ∧ rest = rest' := by
  obtain ⟨cursor, rfl, rfl⟩ := first
  obtain ⟨cursor', same, rfl⟩ := second
  cases same
  exact ⟨rfl, rfl⟩

/-- Changing the value that a scanner gives changes nothing else. -/
theorem scans_map_iff {α : Type} (change : α → α) (result : Except Fault α) (after : Cursor)
    (value : α) (rest : List Char) :
    Scans (result.map change, after) value rest ↔
      ∃ inner, Scans (result, after) inner rest ∧ value = change inner := by
  cases result with
  | error => simp [Scans, Except.map]
  | ok inner =>
      constructor
      · rintro ⟨_, same, ends⟩
        cases same
        exact ⟨inner, ⟨after, rfl, ends⟩, rfl⟩
      · rintro ⟨_, ⟨_, same, ends⟩, rfl⟩
        cases same
        exact ⟨after, rfl, ends⟩

theorem not_scans_error {α : Type} (fault : Fault) (after : Cursor) (value : α)
    (rest : List Char) : ¬ Scans (.error fault, after) value rest := by
  simp [Scans]

namespace Grammar

section Characters

variable {input inner text rest : List Char}

theorem characters_close_iff :
    Characters ('\x22' :: input) text rest ↔ text = [] ∧ input = rest := by
  constructor
  · intro characters
    cases characters with
    | close => exact ⟨rfl, rfl⟩
    | plain noQuote => exact absurd rfl noQuote
  · rintro ⟨rfl, rfl⟩
    exact .close

theorem characters_lineFeed_iff : Characters ('\\' :: 'n' :: input) text rest ↔
    ∃ inner, Characters input inner rest ∧ text = '\n' :: inner := by
  constructor
  · intro characters
    cases characters with
    | lineFeed characters => exact ⟨_, characters, rfl⟩
    | plain _ noEscape => exact absurd rfl noEscape
  · rintro ⟨inner, characters, rfl⟩
    exact .lineFeed characters

theorem characters_backslash_iff : Characters ('\\' :: '\\' :: input) text rest ↔
    ∃ inner, Characters input inner rest ∧ text = '\\' :: inner := by
  constructor
  · intro characters
    cases characters with
    | backslash characters => exact ⟨_, characters, rfl⟩
    | plain _ noEscape => exact absurd rfl noEscape
  · rintro ⟨inner, characters, rfl⟩
    exact .backslash characters

theorem characters_plain_iff {ch : Char} (noQuote : ch ≠ '\x22') (noEscape : ch ≠ '\\') :
    Characters (ch :: input) text rest ↔
      ∃ inner, Characters input inner rest ∧ text = ch :: inner := by
  constructor
  · intro characters
    cases characters with
    | close => exact absurd rfl noQuote
    | lineFeed => exact absurd rfl noEscape
    | backslash => exact absurd rfl noEscape
    | plain _ _ characters => exact ⟨_, characters, rfl⟩
  · rintro ⟨inner, characters, rfl⟩
    exact .plain noQuote noEscape characters

/-- A backslash starts nothing but the two escapes. -/
theorem not_characters_escape (unknown : ∀ ch ∈ inner.head?, ch ≠ 'n' ∧ ch ≠ '\\') :
    ¬ Characters ('\\' :: inner) text rest := by
  intro characters
  cases characters with
  | lineFeed => exact (unknown 'n' rfl).1 rfl
  | backslash => exact (unknown '\\' rfl).2 rfl
  | plain _ noEscape => exact noEscape rfl

end Characters

end Grammar

theorem scanCharacters_iff (input : List Char) (position : Position) (text rest : List Char) :
    Scans (Cursor.scanCharacters input position) text rest ↔ Characters input text rest := by
  fun_induction Cursor.scanCharacters input position generalizing text with
  | case1 position => exact iff_of_false (not_scans_error _ _ _ _) nofun
  | case2 position rest' position' =>
      rw [characters_close_iff]
      constructor
      · rintro ⟨_, same, ends⟩
        cases same
        exact ⟨rfl, ends⟩
      · rintro ⟨rfl, ends⟩
        exact ⟨_, rfl, ends⟩
  | case3 position position' _ =>
      exact iff_of_false (not_scans_error _ _ _ _) (not_characters_escape (by simp))
  | case4 position rest' result after position' _ position'' scanned ih =>
      simp only [scanned] at ih
      simp only [scans_map_iff, ih, characters_lineFeed_iff]
  | case5 position rest' result after position' _ _ position'' scanned ih =>
      simp only [scanned] at ih
      simp only [scans_map_iff, ih, characters_backslash_iff]
  | case6 position escaped rest' noFeed noBackslash =>
      exact iff_of_false (not_scans_error _ _ _ _)
        (not_characters_escape (by simp [noFeed, noBackslash]))
  | case7 ch rest' position position' noQuote noEscape result after scanned ih =>
      simp only [scanned] at ih
      simp only [scans_map_iff, ih, characters_plain_iff noQuote noEscape]

theorem atLiteralEnd_iff (cursor : Cursor) :
    cursor.atLiteralEnd = true ↔ EndsLiteral cursor.rest := by
  obtain ⟨rest, position⟩ := cursor
  cases rest <;> simp [Cursor.atLiteralEnd, Cursor.atEnd, Cursor.nextIs, Cursor.peek?, EndsLiteral]

/-- A literal is accepted exactly where a literal may end. -/
theorem scans_finish_iff (result : Except Fault Leaf) (cursor : Cursor) (value : Leaf)
    (rest : List Char) :
    Scans (Cursor.finish result cursor) value rest ↔
      result = .ok value ∧ EndsLiteral rest ∧ cursor.rest = rest := by
  unfold Cursor.finish
  by_cases ends : EndsLiteral cursor.rest
  · rw [if_pos ((atLiteralEnd_iff cursor).mpr ends)]
    constructor
    · rintro ⟨_, same, rfl⟩
      cases same
      exact ⟨rfl, ends, rfl⟩
    · rintro ⟨rfl, _, rfl⟩
      exact ⟨cursor, rfl, rfl⟩
  · rw [if_neg (mt (atLiteralEnd_iff cursor).mp ends)]
    constructor
    · intro scans
      exact absurd scans (not_scans_error _ _ _ _)
    · rintro ⟨_, ends', rfl⟩
      exact absurd ends' ends

theorem scanString_iff (input : List Char) (position : Position) (value : Leaf)
    (rest : List Char) :
    Scans (Cursor.scanString ⟨'\x22' :: input, position⟩) value rest ↔
      ∃ text, Characters input text rest ∧ EndsLiteral rest ∧
        value = .string (String.ofList text) := by
  have inside := fun text rest => scanCharacters_iff input (position.next '\x22') text rest
  unfold Cursor.scanString
  simp only [Cursor.advance]
  cases scanned : Cursor.scanCharacters input (position.next '\x22') with
  | mk result after =>
      rw [scanned] at inside
      cases result with
      | error fault =>
          constructor
          · intro scans
            exact absurd scans (not_scans_error _ _ _ _)
          · rintro ⟨text, characters, _⟩
            exact absurd ((inside text rest).mpr characters) (not_scans_error _ _ _ _)
      | ok text =>
          simp only [scans_finish_iff]
          constructor
          · rintro ⟨same, ends, rfl⟩
            exact ⟨text, (inside text _).mp ⟨after, rfl, rfl⟩, ends, (Except.ok.inj same).symm⟩
          · rintro ⟨other, characters, ends, rfl⟩
            obtain ⟨_, same, rfl⟩ := (inside other rest).mpr characters
            cases same
            exact ⟨rfl, ends, rfl⟩

/-! ## Tokens -/

/-- A token is the longest run of characters that do not end one. -/
theorem scanToken_eq (input : List Char) (position : Position) :
    ∃ after, Cursor.scanToken ⟨input, position⟩ =
        (tokenLeaf (input.takeWhile fun ch => !endsToken ch), after) ∧
      after.rest = input.dropWhile fun ch => !endsToken ch := by
  refine ⟨_, ?_, Cursor.rest_advanceWhile ⟨input, position⟩ _⟩
  simp only [Cursor.scanToken, Cursor.textSince_advanceWhile, tokenLeaf]

/-- A number starts as a number does. -/
theorem startsNumber_digits {digits : List Char} (isDigits : Digits digits) (negative : Bool)
    (more : List Char) : startsNumber (sign negative ++ digits ++ more) = true := by
  obtain ⟨nonempty, all⟩ := isDigits
  have noSign : Text.isDigit '-' = false := by decide
  cases digits with
  | nil => exact absurd rfl nonempty
  | cons first digits =>
      have digit : Text.isDigit first = true := all first (by simp)
      have different : first ≠ '-' := fun equal => by simp [equal, noSign] at digit
      cases negative <;> simp [sign, startsNumber, digit, different]

theorem tokenLeaf_ne_empty {first : Char} {name : List Char} :
    tokenLeaf (first :: name) ≠ .token "" := by
  unfold tokenLeaf
  split
  · simp
  · intro same
    have empty : String.ofList (first :: name) = "" := Leaf.token.inj same
    simp at empty

/-- Where a token is expected, the scanned token is what the rule for tokens gives, unless it is
empty. -/
theorem scanToken_iff {input : List Char} (position : Position) {value : Leaf} {rest : List Char}
    (noNumber : startsNumber input = false) (noQuote : input.head? ≠ some '\x22')
    (noOpening : input.head? ≠ some '[') (noClosing : input.head? ≠ some ']') :
    (∃ after, Cursor.scanToken ⟨input, position⟩ = (value, after) ∧ after.rest = rest) ∧
        value ≠ .token "" ↔
      Lexeme input value rest := by
  obtain ⟨after, scanned, restEq⟩ := scanToken_eq input position
  constructor
  · rintro ⟨⟨_, same, rfl⟩, nonempty⟩
    rw [scanned] at same
    cases same
    cases run : input.takeWhile fun ch => !endsToken ch with
    | nil =>
        rw [run] at nonempty
        exact absurd rfl nonempty
    | cons first name =>
        have whole := List.takeWhile_append_dropWhile (p := fun ch => !endsToken ch) (l := input)
        rw [run, ← restEq] at whole
        have solid : ∀ ch ∈ first :: name, endsToken ch = false := by
          intro ch mem
          have passes := List.mem_takeWhile_imp (run ▸ mem)
          simpa using passes
        have ends : EndsToken after.rest := by
          intro ch mem
          have fails := head_dropWhile (fun ch => !endsToken ch) input ch (restEq ▸ mem)
          simpa using fails
        rw [← whole] at noNumber noQuote noOpening noClosing ⊢
        exact .token noNumber (by simpa using noQuote) (by simpa using noOpening)
          (by simpa using noClosing) solid ends
  · intro lexeme
    cases lexeme with
    | string => exact absurd rfl noQuote
    | @integer negative _ _ _ isDigits =>
        rw [startsNumber_digits isDigits] at noNumber
        cases noNumber
    | @decimal negative _ fraction _ isDigits =>
        rw [List.append_assoc, startsNumber_digits isDigits] at noNumber
        cases noNumber
    | @token first name _ _ _ _ _ solid ends =>
        have solid' : ∀ ch ∈ first :: name, (!endsToken ch) = true := by
          intro ch mem
          simp [solid ch mem]
        have ends' : ∀ ch ∈ rest.head?, (!endsToken ch) = false := by
          intro ch mem
          simp [ends ch mem]
        obtain ⟨taken, dropped⟩ := takeWhile_append_of_head solid' ends'
        rw [taken] at scanned
        rw [dropped] at restEq
        exact ⟨⟨after, scanned, restEq⟩, tokenLeaf_ne_empty⟩

/-! ## Numbers -/

/-- A text that starts with a digit. -/
def StartsDigit (input : List Char) : Prop :=
  ∃ ch more, input = ch :: more ∧ Text.isDigit ch = true

theorem Grammar.Digits.startsDigit {digits : List Char} (isDigits : Digits digits)
    (more : List Char) : StartsDigit (digits ++ more) := by
  obtain ⟨nonempty, all⟩ := isDigits
  cases digits with
  | nil => exact absurd rfl nonempty
  | cons first digits => exact ⟨first, digits ++ more, rfl, all first (by simp)⟩

/-- The sign of a number and the rest of it are determined by its text. -/
theorem sign_append_inj {a b : Bool} {left right : List Char} (leftDigit : StartsDigit left)
    (rightDigit : StartsDigit right) (same : sign a ++ left = sign b ++ right) :
    a = b ∧ left = right := by
  obtain ⟨x, _, rfl, digitX⟩ := leftDigit
  obtain ⟨y, _, rfl, digitY⟩ := rightDigit
  have noSign : Text.isDigit '-' = false := by decide
  cases a <;> cases b <;> simp only [sign] at same
  · exact ⟨rfl, same⟩
  · cases same
    rw [noSign] at digitX
    cases digitX
  · cases same
    rw [noSign] at digitY
    cases digitY
  · exact ⟨rfl, (List.cons.inj same).2⟩

/-- The longest run of digits at the front of a text that starts with one. -/
theorem digits_takeWhile {input : List Char} (starts : StartsDigit input) :
    Digits (input.takeWhile Text.isDigit) := by
  obtain ⟨first, more, rfl, digit⟩ := starts
  refine ⟨by simp [digit], ?_⟩
  intro ch mem
  exact List.mem_takeWhile_imp mem

theorem Grammar.EndsLiteral.noDigit {rest : List Char} (ends : EndsLiteral rest) :
    ∀ ch ∈ rest.head?, Text.isDigit ch = false := by
  intro ch mem
  have ending := ends ch mem
  by_contra digit
  simp only [Bool.not_eq_false, Text.isDigit, Bool.and_eq_true, decide_eq_true_eq] at digit
  simp only [endsLiteral, isSeparator, Bool.or_eq_true, beq_iff_eq] at ending
  rcases ending with (((((rfl | rfl) | rfl) | rfl) | rfl) | rfl) <;> revert digit <;> decide

theorem atFraction_iff (cursor : Cursor) :
    cursor.atFraction = true ↔ StartsFraction cursor.rest := by
  obtain ⟨rest, position⟩ := cursor
  constructor
  · intro fraction
    simp only [Cursor.atFraction, Cursor.peek?, Cursor.peekAt?, Bool.and_eq_true] at fraction
    obtain ⟨point, digit⟩ := fraction
    match rest with
    | [] => cases point
    | [_] => cases digit
    | first :: ch :: more =>
        have isPoint : first = '.' := by simpa using point
        exact ⟨ch, more, by rw [isPoint], by simpa using digit⟩
  · rintro ⟨ch, more, same, digit⟩
    simp only at same
    subst same
    simp [Cursor.atFraction, Cursor.peek?, Cursor.peekAt?, digit]

theorem natural?_of_digits {digits : List Char} (isDigits : Digits digits) :
    Text.natural? digits = some (Text.digitsValue digits) := by
  have all : digits.all Text.isDigit = true := List.all_eq_true.mpr isDigits.2
  simp [Text.natural?, isDigits.1, all]

/-- The value of an integer literal is the number it spells, which has to be in range. -/
theorem integerLiteral_iff {digits : List Char} (isDigits : Digits digits) (start after : Cursor)
    (negative : Bool) (value : Leaf) :
    Cursor.integerLiteral start after negative digits = .ok value ↔
      ∃ number : Integer, value = .integer number ∧
        number.val =
          (if negative then -(Text.digitsValue digits : Int) else Text.digitsValue digits) := by
  unfold Cursor.integerLiteral
  simp only [natural?_of_digits isDigits, Option.pure_def, Option.bind_eq_bind, Option.bind_some,
    Option.map_some]
  cases accepted : Integer.ofInt?
      (if negative then -(Text.digitsValue digits : Int) else Text.digitsValue digits) with
  | none =>
      constructor
      · intro same
        cases same
      · rintro ⟨number, _, spelled⟩
        rw [← spelled, Integer.ofInt?_val] at accepted
        cases accepted
  | some number =>
      constructor
      · intro same
        cases same
        exact ⟨number, rfl, Integer.ofInt?_eq_some_iff.mp accepted⟩
      · rintro ⟨other, rfl, spelled⟩
        rw [← spelled, Integer.ofInt?_val] at accepted
        cases accepted
        rfl

/-- Digits without a fraction behind them are an integer. -/
theorem scanUnsigned_integer (start : Cursor) (negative : Bool) {digits rest : List Char}
    (position : Position) (isDigits : Digits digits)
    (stops : ∀ ch ∈ rest.head?, Text.isDigit ch = false) (whole : ¬ StartsFraction rest)
    (value : Leaf) (rest' : List Char) :
    Scans (Cursor.scanUnsigned start ⟨digits ++ rest, position⟩ negative) value rest' ↔
      ∃ number : Integer, value = .integer number ∧
        number.val =
          (if negative then -(Text.digitsValue digits : Int) else Text.digitsValue digits) ∧
        EndsLiteral rest ∧ rest' = rest := by
  obtain ⟨taken, dropped⟩ := takeWhile_append_of_head isDigits.2 stops
  unfold Cursor.scanUnsigned
  simp only [Cursor.textSince_advanceWhile, taken, String.toList_ofList]
  have plain : ¬ (Cursor.advanceWhile ⟨digits ++ rest, position⟩ Text.isDigit).atFraction := by
    rw [atFraction_iff, Cursor.rest_advanceWhile, dropped]
    exact whole
  rw [if_neg plain, scans_finish_iff, integerLiteral_iff isDigits, Cursor.rest_advanceWhile,
    dropped]
  constructor
  · rintro ⟨⟨number, same, spelled⟩, ends, rfl⟩
    exact ⟨number, same, spelled, ends, rfl⟩
  · rintro ⟨number, same, spelled, ends, rfl⟩
    exact ⟨⟨number, same, spelled⟩, ends, rfl⟩

/-- Digits, a point and digits are a decimal. -/
theorem scanUnsigned_decimal (start : Cursor) (negative : Bool) {digits fraction rest : List Char}
    (position : Position) (isDigits : Digits digits) (areDigits : Digits fraction)
    (stops : ∀ ch ∈ rest.head?, Text.isDigit ch = false) (value : Leaf) (rest' : List Char) :
    Scans (Cursor.scanUnsigned start ⟨digits ++ '.' :: fraction ++ rest, position⟩ negative)
        value rest' ↔
      value = .decimal (.ofScientific negative (Text.digitsValue (digits ++ fraction))
        (-(fraction.length : Int))) ∧ EndsLiteral rest ∧ rest' = rest := by
  have point : ∀ ch ∈ ('.' :: fraction ++ rest).head?, Text.isDigit ch = false := by
    simp only [List.cons_append, List.head?_cons, Option.mem_def, Option.some.injEq]
    rintro _ rfl
    decide
  rw [List.append_assoc]
  obtain ⟨taken, dropped⟩ := takeWhile_append_of_head isDigits.2 point
  obtain ⟨takenFraction, droppedFraction⟩ := takeWhile_append_of_head areDigits.2 stops
  unfold Cursor.scanUnsigned
  have fractional :
      (Cursor.advanceWhile ⟨digits ++ ('.' :: fraction ++ rest), position⟩
        Text.isDigit).atFraction = true := by
    obtain ⟨ch, more, spelled, digit⟩ := areDigits.startsDigit rest
    rw [atFraction_iff, Cursor.rest_advanceWhile, dropped]
    exact ⟨ch, more, by rw [List.cons_append, spelled], digit⟩
  have behind : (Cursor.advanceWhile ⟨digits ++ ('.' :: fraction ++ rest), position⟩
      Text.isDigit).advance.rest = fraction ++ rest := by
    unfold Cursor.advance
    rw [Cursor.rest_advanceWhile, dropped]
    rfl
  simp only [Cursor.textSince_advanceWhile, taken, fractional, ↓reduceIte, String.toList_ofList,
    scans_finish_iff, Cursor.rest_advanceWhile, behind, takenFraction, droppedFraction]
  constructor
  · rintro ⟨same, ends, rfl⟩
    exact ⟨(Except.ok.inj same).symm, ends, rfl⟩
  · rintro ⟨rfl, ends, rfl⟩
    exact ⟨rfl, ends, rfl⟩

/-- From its first digit on, a number is scanned as the rules for numbers say. -/
theorem scanUnsigned_iff (start : Cursor) (negative : Bool) {input : List Char}
    (position : Position) (starts : StartsDigit input) (value : Leaf) (rest : List Char) :
    Scans (Cursor.scanUnsigned start ⟨input, position⟩ negative) value rest ↔
      Lexeme (sign negative ++ input) value rest := by
  constructor
  · have isDigits := digits_takeWhile starts
    have stops := head_dropWhile Text.isDigit input
    have split := List.takeWhile_append_dropWhile (p := Text.isDigit) (l := input)
    rw [← split, ← List.append_assoc]
    by_cases fractional : StartsFraction (input.dropWhile Text.isDigit)
    · obtain ⟨ch, more, spelled, digit⟩ := fractional
      have areDigits : Digits ((ch :: more).takeWhile Text.isDigit) :=
        digits_takeWhile ⟨ch, more, rfl, digit⟩
      have split' := List.takeWhile_append_dropWhile (p := Text.isDigit) (l := ch :: more)
      have stops' := head_dropWhile Text.isDigit (ch :: more)
      rw [spelled, ← split', ← List.cons_append, ← List.append_assoc, ← List.append_assoc,
        scanUnsigned_decimal start negative position isDigits areDigits stops']
      rintro ⟨rfl, ends, rfl⟩
      exact .decimal isDigits areDigits ends
    · rw [scanUnsigned_integer start negative position isDigits stops fractional]
      rintro ⟨number, rfl, spelled, ends, rfl⟩
      exact .integer isDigits ends fractional spelled
  · intro lexeme
    generalize spelled : sign negative ++ input = text at lexeme
    cases lexeme with
    | string =>
        exfalso
        obtain ⟨ch, more, rfl, digit⟩ := starts
        cases negative <;> simp [sign] at spelled
        rw [spelled.1] at digit
        revert digit
        decide
    | @integer negative' digits _ number isDigits ends whole value =>
        rw [List.append_assoc] at spelled
        obtain ⟨rfl, rfl⟩ := sign_append_inj starts (isDigits.startsDigit rest) spelled
        rw [scanUnsigned_integer start negative position isDigits ends.noDigit whole]
        exact ⟨number, rfl, value, ends, rfl⟩
    | @decimal negative' digits fraction _ isDigits areDigits ends =>
        rw [List.append_assoc, List.append_assoc, ← List.append_assoc digits] at spelled
        obtain ⟨rfl, rfl⟩ := sign_append_inj starts
          (by rw [List.append_assoc]; exact isDigits.startsDigit _) spelled
        rw [scanUnsigned_decimal start negative position isDigits areDigits ends.noDigit]
        exact ⟨rfl, ends, rfl⟩
    | @token first name _ noNumber =>
        exfalso
        have number := startsNumber_digits (digits_takeWhile starts) negative
          (input.dropWhile Text.isDigit)
        rw [List.append_assoc, List.takeWhile_append_dropWhile, spelled, noNumber] at number
        cases number

/-! ## Leaves -/

/-- No rule reads an empty token. -/
theorem Grammar.Lexeme.ne_empty {input rest : List Char} {value : Leaf}
    (lexeme : Lexeme input value rest) : value ≠ .token "" := by
  cases lexeme with
  | token => exact tokenLeaf_ne_empty
  | _ => simp

theorem scanLeaf_string (input : List Char) (position : Position) (value : Leaf)
    (rest : List Char) :
    Scans (Cursor.scanLeaf ⟨'\x22' :: input, position⟩) value rest ↔
      Lexeme ('\x22' :: input) value rest := by
  have scanned : Cursor.scanLeaf ⟨'\x22' :: input, position⟩ =
      Cursor.scanString ⟨'\x22' :: input, position⟩ := rfl
  rw [scanned, scanString_iff]
  constructor
  · rintro ⟨text, characters, ends, rfl⟩
    exact .string characters ends
  · intro lexeme
    generalize spelled : '\x22' :: input = text at lexeme
    cases lexeme with
    | string characters ends =>
        cases spelled
        exact ⟨_, characters, ends, rfl⟩
    | @integer negative digits _ _ isDigits =>
        have number := startsNumber_digits isDigits negative rest
        rw [← spelled] at number
        cases number
    | @decimal negative digits fraction _ isDigits =>
        have number := startsNumber_digits isDigits negative ('.' :: fraction ++ rest)
        rw [← List.append_assoc, ← spelled] at number
        cases number
    | token _ noQuote =>
        cases spelled
        exact absurd rfl noQuote

theorem scanLeaf_number {input : List Char} (position : Position)
    (number : startsNumber input = true) (value : Leaf) (rest : List Char) :
    Scans (Cursor.scanLeaf ⟨input, position⟩) value rest ↔ Lexeme input value rest := by
  by_cases digit : StartsDigit input
  · obtain ⟨first, more, rfl, digit⟩ := digit
    have noQuote : first ≠ '\x22' := by
      rintro rfl
      revert digit
      decide
    have noSign : first ≠ '-' := by
      rintro rfl
      revert digit
      decide
    have scanned : Cursor.scanLeaf ⟨first :: more, position⟩ =
        Cursor.scanUnsigned ⟨first :: more, position⟩ ⟨first :: more, position⟩ false := by
      simp [Cursor.scanLeaf, Cursor.atString, Cursor.atNumber, Cursor.nextIs, Cursor.peek?,
        Cursor.scanNumber, noQuote, noSign, digit]
    rw [scanned, scanUnsigned_iff _ false position ⟨first, more, rfl, digit⟩]
    rfl
  · match input with
    | [] => cases number
    | first :: more =>
        have noDigit : Text.isDigit first = false := by
          by_contra isDigit
          exact digit ⟨first, more, rfl, by simpa using isDigit⟩
        unfold startsNumber at number
        split at number
        · rename_i second tail spelled
          cases spelled
          have scanned : Cursor.scanLeaf ⟨'-' :: second :: tail, position⟩ =
              Cursor.scanUnsigned ⟨'-' :: second :: tail, position⟩
                ⟨second :: tail, position.next '-'⟩ true := by
            simp [Cursor.scanLeaf, Cursor.atString, Cursor.atNumber, Cursor.nextIs, Cursor.peek?,
              Cursor.scanNumber, Cursor.advance, number]
          rw [scanned, scanUnsigned_iff _ true _ ⟨second, tail, rfl, number⟩]
          rfl
        · rename_i spelled
          cases spelled
          rw [noDigit] at number
          cases number
        · cases number

theorem scanLeaf_token {input : List Char} (position : Position)
    (noNumber : startsNumber input = false) (noQuote : input.head? ≠ some '\x22') :
    Cursor.scanLeaf ⟨input, position⟩ =
      (.ok (Cursor.scanToken ⟨input, position⟩).1, (Cursor.scanToken ⟨input, position⟩).2) := by
  match input with
  | [] => rfl
  | first :: more =>
      have noQuote' : first ≠ '\x22' := by simpa using noQuote
      have noDigit : Text.isDigit first = false := by
        unfold startsNumber at noNumber
        split at noNumber
        · rename_i spelled
          cases spelled
          decide
        · rename_i spelled
          cases spelled
          exact noNumber
        · rename_i spelled
          cases spelled
      by_cases sign : first = '-'
      · subst sign
        have lone : more.head?.any Text.isDigit = false := by
          cases more with
          | nil => rfl
          | cons second tail => simpa [startsNumber] using noNumber
        simp [Cursor.scanLeaf, Cursor.atString, Cursor.atNumber, Cursor.nextIs, Cursor.peek?,
          Cursor.scanNumber, lone]
      · simp [Cursor.scanLeaf, Cursor.atString, Cursor.atNumber, Cursor.nextIs, Cursor.peek?,
          noQuote', noDigit, sign]

/-- A leaf is scanned exactly as the rules for leaves say. -/
theorem scanLeaf_iff {input : List Char} (position : Position) {value : Leaf} {rest : List Char}
    (noOpening : input.head? ≠ some '[') (noClosing : input.head? ≠ some ']') :
    Scans (Cursor.scanLeaf ⟨input, position⟩) value rest ∧ value ≠ .token "" ↔
      Lexeme input value rest := by
  by_cases quote : input.head? = some '\x22'
  · match input, quote with
    | _ :: input, rfl =>
        rw [scanLeaf_string]
        exact ⟨And.left, fun lexeme => ⟨lexeme, lexeme.ne_empty⟩⟩
  · cases number : startsNumber input with
    | true =>
        rw [scanLeaf_number position number]
        exact ⟨And.left, fun lexeme => ⟨lexeme, lexeme.ne_empty⟩⟩
    | false =>
        rw [← scanToken_iff position number quote noOpening noClosing,
          scanLeaf_token position number quote]
        refine and_congr_left fun _ => ?_
        constructor
        · rintro ⟨after, same, ends⟩
          cases same
          exact ⟨_, rfl, ends⟩
        · rintro ⟨after, same, ends⟩
          rw [same]
          exact ⟨after, rfl, ends⟩

end RecordLisp
