/-!
# Source text and places in it

A source is a named text. A position counts characters from zero and lines and columns from one, but
the lines of a source are found by the byte offsets at which they start. Lines and columns are
counted in words of 32 bits, which start again from zero when a count does not fit. A parse error
carries the place and the line of text it points at, so that it can be shown without the source.
-/

namespace RecordLisp

/-- A place in a text. -/
structure Position where
  /-- characters before the place -/
  offset : Nat
  /-- line number, from one -/
  line : UInt32
  /-- column number, from one -/
  column : UInt32
deriving DecidableEq, Inhabited

namespace Position

/-- The place of the first character. -/
def start : Position := ⟨0, 1, 1⟩

/-- The place after a character. -/
def next (position : Position) (ch : Char) : Position :=
  if ch = '\n' then ⟨position.offset + 1, position.line + 1, 1⟩
  else ⟨position.offset + 1, position.line, position.column + 1⟩

/-- Line and column, divided by a colon. -/
def text (position : Position) : String :=
  position.line.toNat.repr ++ ":" ++ position.column.toNat.repr

end Position

/-- A named text. -/
structure Source where
  name : String
  content : String
deriving DecidableEq, Inhabited

namespace Source

/-- A text without a name of its own, such as interactive input. -/
def anonymous (content : String) : Source := ⟨"<input>", content⟩

/-- The byte offsets of the line feeds among characters, the first of which stands at an offset. -/
def feedOffsets : List Char → Nat → List Nat
  | [], _ => []
  | ch :: rest, offset =>
      if ch = '\n' then offset :: feedOffsets rest (offset + ch.utf8Size)
      else feedOffsets rest (offset + ch.utf8Size)

/-- The byte offsets at which the lines start. There is always at least one line. -/
def lineStarts (source : Source) : List Nat :=
  0 :: (feedOffsets source.content.toList 0).map (· + 1)

/-- The number of lines. -/
def lineCount (source : Source) : Nat := source.lineStarts.length

/-- The byte offsets between which the line with a number counted from one stands, without its line
feed. -/
def lineSpan? (source : Source) (number : UInt32) : Option (Nat × Nat) :=
  if number = 0 then none
  else source.lineStarts[number.toNat - 1]?.map fun start =>
    (start, match source.lineStarts[number.toNat]? with
      | some next => next - 1
      | none => source.content.utf8ByteSize)

/-- The text between two byte offsets. There is none when an offset is out of range or inside a
character, or when the offsets are in the wrong order. -/
def slice? (source : Source) (start stop : Nat) : Option String := do
  let start ← source.content.pos? ⟨start⟩
  let stop ← source.content.pos? ⟨stop⟩
  let slice ← source.content.slice? start stop
  return slice.copy

/-- A text without the carriage returns at its end. -/
def trimReturns (text : String) : String :=
  String.ofList (text.toList.reverse.dropWhile (· == '\r')).reverse

/-- The line with a number counted from one, without carriage returns at its end. -/
def line? (source : Source) (number : UInt32) : Option String := do
  let (start, stop) ← source.lineSpan? number
  let line ← source.slice? start stop
  return trimReturns line

end Source

/-- A fault in a source text. -/
structure ParseError where
  file : String
  message : String
  position : Position
  sourceLine : String
deriving DecidableEq, Inhabited

namespace ParseError

/-- An error at a place of a source. -/
def located (source : Source) (message : String) (position : Position) : ParseError :=
  ⟨source.name, message, position, (source.line? position.line).getD ""⟩

/-- File, line and column in front of the message. -/
def text (error : ParseError) : String :=
  error.file ++ ":" ++ error.position.text ++ ": " ++ error.message

end ParseError

end RecordLisp
