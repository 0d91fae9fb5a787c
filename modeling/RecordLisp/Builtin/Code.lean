import RecordLisp.Eval.Argument
import RecordLisp.Source.Reader
import RecordLisp.Text.Blank
import RecordLisp.Text.Digits

/-!
# Builtins on code and conversions

Reading and evaluating program text, turning tokens into strings and back, and turning values into
integers.
-/

namespace RecordLisp.Builtin

/-- Reads a text as an atom, which is not evaluated. -/
def parse (text : Atom) : EvalM Atom := do
  let text ← ArgumentPlace.string ⟨"parse", 1⟩ text
  match ← EvalM.onHeap fun heap => (Source.anonymous text).read heap with
  | .ok atom => return atom
  | .error error => EvalM.fail (.parse error)

/-- The token with the name that a string gives. -/
def stringToToken (text : Atom) : Except EvalError Atom := do
  return .token (← ArgumentPlace.string ⟨"stot", 1⟩ text)

/-- The name of a token as a string. -/
def tokenToString (token : Atom) : Except EvalError Atom := do
  return .string (← ArgumentPlace.token ⟨"ttos", 1⟩ token)

/-- The integer that a text denotes, blanks around it aside. -/
def textInteger? (text : String) : Option Integer :=
  (Text.signed? (Text.trimBlank text.toList)).bind Integer.ofInt?

/-- A value as an integer: an integer itself, the integer part of a decimal, or what a string
denotes. -/
def toInteger (value : Atom) : Except EvalError Atom :=
  match value with
  | .leaf _ (.integer _) => .ok value
  | .leaf _ (.decimal value) => .ok (.integer value.toInteger)
  | .leaf _ (.string text) =>
      match textInteger? text with
      | some value => .ok (.integer value)
      | none => .error (.typeMismatch ("could not convert \"" ++ text ++ "\" to an integer"))
  | value => .error (.argument "to-int" 1 "integer, decimal or string" value.typeName)

end RecordLisp.Builtin
