import RecordLisp.Atom.Basic
import RecordLisp.Decimal.Rounding
import RecordLisp.Source.Cursor
import RecordLisp.Source.Fault
import RecordLisp.Text.Digits

/-!
# Scanning of leaves

The three kinds of leaf that source text spells out: numbers, strings and tokens. A scanner gives
its result and the cursor it stopped at, also when it fails.
-/

namespace RecordLisp

/-- Whether a character ends a token. -/
def endsToken (ch : Char) : Bool := isSeparator ch || ch == '.' || ch == '(' || ch == ')'

/-- Whether a character may follow a number or a string directly. -/
def endsLiteral (ch : Char) : Bool := isSeparator ch || ch == '.' || ch == ')'

/-- What a scanner found, and the cursor after it. -/
abbrev Scanned (α : Type) := Except Fault α × Cursor

namespace Cursor

/-- Whether a number, or a token that is a minus sign, can start here. -/
def atNumber (cursor : Cursor) : Bool := cursor.nextIs fun ch => Text.isDigit ch || ch == '-'

/-- Whether a string starts here. -/
def atString (cursor : Cursor) : Bool := cursor.peek? == some '\x22'

/-- Whether a literal may end here. -/
def atLiteralEnd (cursor : Cursor) : Bool := cursor.atEnd || cursor.nextIs endsLiteral

/-- A fault at this place. -/
def fault (cursor : Cursor) (cause : SyntaxFault) : Fault := ⟨cause, cursor.position⟩

/-- Accepts a scanned literal only where a literal may end. -/
def finish (value : Except Fault Leaf) (cursor : Cursor) : Scanned Leaf :=
  if cursor.atLiteralEnd then (value, cursor)
  else (.error (cursor.fault .unfinishedLiteral), cursor)

/-- Scans a token. The text `nil` is nil. The token may be empty. -/
def scanToken (cursor : Cursor) : Leaf × Cursor :=
  let after := cursor.advanceWhile fun ch => !endsToken ch
  let text := after.textSince cursor
  (if text = "nil" then .nil else .token text, after)

/-- The integer that a sign and digits denote. -/
def integerLiteral (start after : Cursor) (negative : Bool) (digits : List Char) :
    Except Fault Leaf :=
  let value := (Text.natural? digits).map fun n => if negative then -(n : Int) else n
  match value.bind Integer.ofInt? with
  | some value => .ok (.integer value)
  | none => .error (start.fault (.integerOutOfRange (after.textSince start)))

/-- Whether a point and a digit come next. -/
def atFraction (cursor : Cursor) : Bool :=
  cursor.peek? == some '.' && (cursor.peekAt? 1).any Text.isDigit

/-- Scans digits with an optional fraction that start at `digits`, behind a sign at `start` if there
is one. -/
def scanUnsigned (start digits : Cursor) (negative : Bool) : Scanned Leaf :=
  let whole := digits.advanceWhile Text.isDigit
  let wholeText := (whole.textSince digits).toList
  if whole.atFraction then
    let after := whole.advance.advanceWhile Text.isDigit
    let fraction := (after.textSince whole.advance).toList
    let value := Decimal.ofScientific negative
      (Text.digitsValue (wholeText ++ fraction)) (-(fraction.length : Int))
    finish (.ok (.decimal value)) after
  else finish (integerLiteral start whole negative wholeText) whole

/-- Scans a number. A minus sign without a digit after it starts a token. -/
def scanNumber (cursor : Cursor) : Scanned Leaf :=
  if cursor.peek? = some '-' then
    if cursor.advance.nextIs Text.isDigit then scanUnsigned cursor cursor.advance true
    else
      let (leaf, after) := cursor.scanToken
      (.ok leaf, after)
  else scanUnsigned cursor cursor false

/-- Scans the characters of a string up to its closing quote. -/
def scanCharacters : List Char → Position → Scanned (List Char)
  | [], position => (.error ⟨.endInString, position⟩, ⟨[], position⟩)
  | ch :: rest, position =>
      let position' := position.next ch
      if ch = '\x22' then (.ok [], ⟨rest, position'⟩)
      else if ch = '\\' then
        match rest with
        | [] => (.error ⟨.endInEscape, position'⟩, ⟨[], position'⟩)
        | escaped :: rest =>
            let position'' := position'.next escaped
            if escaped = 'n' then
              let (result, after) := scanCharacters rest position''
              (result.map ('\n' :: ·), after)
            else if escaped = '\\' then
              let (result, after) := scanCharacters rest position''
              (result.map ('\\' :: ·), after)
            else (.error ⟨.unknownEscape escaped, position'⟩, ⟨rest, position''⟩)
      else
        let (result, after) := scanCharacters rest position'
        (result.map (ch :: ·), after)

/-- Scans a string. The first character is taken for the opening quote whatever it is. -/
def scanString (cursor : Cursor) : Scanned Leaf :=
  let opened := cursor.advance
  match scanCharacters opened.rest opened.position with
  | (.error fault, after) => (.error fault, after)
  | (.ok characters, after) => finish (.ok (.string (String.ofList characters))) after

/-- Scans the leaf that starts here, by its first character. -/
def scanLeaf (cursor : Cursor) : Scanned Leaf :=
  if cursor.atString then cursor.scanString
  else if cursor.atNumber then cursor.scanNumber
  else
    let (leaf, after) := cursor.scanToken
    (.ok leaf, after)

end Cursor

end RecordLisp
