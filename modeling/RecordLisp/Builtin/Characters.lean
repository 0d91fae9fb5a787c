import RecordLisp.Builtin.Sequence
import RecordLisp.Printer
import RecordLisp.Text.Template

/-!
# Strings

Builtins on the characters of strings, and templates. Lengths and indices count characters.
-/

namespace RecordLisp.Builtin

/-- The text that a value puts into a template: a string without quotes, anything else as it prints.
-/
def displayText (heap : Heap) (value : Atom) : String := value.string?.getD (heap.print value)

/-- Fills a template with values. -/
def format (template values : Atom) : EvalM Atom := do
  let template ← ArgumentPlace.string ⟨"format", 1⟩ template
  let values ← ArgumentPlace.list ⟨"format", 2⟩ values
  let heap ← EvalM.heap
  match Text.fill template fun index => values[index]?.map (displayText heap) with
  | .ok text => return .string text
  | .error fault => EvalM.fail (.runtime (fault.message template values.length))

/-- The number of characters. -/
def stringLength (text : Atom) : Except EvalError Atom := do
  return .ofLength (← ArgumentPlace.string ⟨"slength", 1⟩ text).length

/-- The code of the character at an index that counts from zero. -/
def stringIndex (text index : Atom) : Except EvalError Atom := do
  let text ← ArgumentPlace.string ⟨"sindex", 1⟩ text
  let index ← ArgumentPlace.integer ⟨"sindex", 2⟩ index
  match if 0 ≤ index.val then text.toList[index.val.toNat]? else none with
  | some ch => return characterCode ch
  | none =>
      throw (.arithmeticTrap ("sindex: index " ++ index.text ++ " out of range for \"" ++
        text ++ "\""))

/-- The character with a code. -/
def character? (code : Int) : Option Char :=
  if 0 ≤ code ∧ code.toNat.isValidChar then some (Char.ofNat code.toNat) else none

/-- A string of the one character with a code. -/
def toCharacter (code : Atom) : Except EvalError Atom := do
  let code ← ArgumentPlace.integer ⟨"to-char", 1⟩ code
  match character? code.val with
  | some ch => return .string (String.singleton ch)
  | none => throw (.typeMismatch ("to-char: " ++ code.text ++ " is not a character code"))

/-- The characters from an index on, as many as `length` says. A start before the text takes away
from the length, a length below zero takes nothing, and the text ends where it ends. -/
def substring (text : String) (start length : Integer) : String :=
  let (start, length) :=
    if start.val < 0 then (Integer.zero, length.addClamped start) else (start, length)
  match start.toNat?, length.toNat? with
  | some skipped, some taken => String.ofList ((text.toList.drop skipped).take taken)
  | _, _ => ""

/-- A part of a string. -/
def stringPart (text start length : Atom) : Except EvalError Atom := do
  let text ← ArgumentPlace.string ⟨"ssubstring", 1⟩ text
  let start ← ArgumentPlace.integer ⟨"ssubstring", 2⟩ start
  let length ← ArgumentPlace.integer ⟨"ssubstring", 3⟩ length
  return .string (substring text start length)

end RecordLisp.Builtin
