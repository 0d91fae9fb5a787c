import RecordLisp.Source.Basic

/-!
# Faults of source text

Why reading can fail. A fault is a cause and the place it is reported at; its wording is in one
function.
-/

namespace RecordLisp

/-- Why a text is not an atom. -/
inductive SyntaxFault where
  | endOfInput
  | leftover
  | unexpected (ch : Char)
  | expectedAtom
  | unterminatedList
  | unterminatedRecord
  | entryNotList
  | entryNotPair
  | entryNotNamed
  | modifierOnRecord
  | modifierOnLiteral
  | modifierOnField
  | unfinishedLiteral
  | integerOutOfRange (literal : String)
  | endInString
  | endInEscape
  | unknownEscape (ch : Char)
deriving DecidableEq, Inhabited

/-- The wording of a cause. -/
def SyntaxFault.message : SyntaxFault → String
  | .endOfInput => "Unexpected end of input"
  | .leftover => "Did not consume all input"
  | .unexpected ch => "Unexpected '" ++ String.singleton ch ++ "'"
  | .expectedAtom => "Expected an atom"
  | .unterminatedList => "Unterminated list"
  | .unterminatedRecord => "Unterminated record"
  | .entryNotList => "Expected list inside record"
  | .entryNotPair => "Malformed record: each entry must be a (name value) pair"
  | .entryNotNamed => "Malformed record: entry name must be a token or string"
  | .modifierOnRecord => "Modifiers not allowed on record"
  | .modifierOnLiteral => "Modifiers not allowed on literals"
  | .modifierOnField => "Modifier illegal in this context"
  | .unfinishedLiteral => "Expected end of token"
  | .integerOutOfRange literal => "Integer literal '" ++ literal ++ "' out of range"
  | .endInString => "Unexpected end of input in string literal"
  | .endInEscape => "Unexpected end of input in escape sequence"
  | .unknownEscape ch => "Unknown escape sequence '\\" ++ String.singleton ch ++ "'"

/-- A cause at a place. -/
structure Fault where
  cause : SyntaxFault
  position : Position
deriving DecidableEq, Inhabited

/-- The error that a fault of a source is reported as. -/
def Fault.toError (fault : Fault) (source : Source) : ParseError :=
  .located source fault.cause.message fault.position

end RecordLisp
