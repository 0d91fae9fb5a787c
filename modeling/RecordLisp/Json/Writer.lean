import RecordLisp.Json.Basic
import RecordLisp.Text.Digits

/-!
# Writing JSON

Documents are written without spaces. A string escapes the quote, the backslash and the control
characters below the blank; all else stands as it is.
-/

namespace RecordLisp.Json

/-- The characters that stand for one character in a string. -/
def escapeChar (ch : Char) : List Char :=
  if ch = '\x22' then ['\\', '\x22']
  else if ch = '\\' then ['\\', '\\']
  else if ch = '\n' then ['\\', 'n']
  else if ch = '\r' then ['\\', 'r']
  else if ch = '\t' then ['\\', 't']
  else if ch = '\x08' then ['\\', 'b']
  else if ch = '\x0c' then ['\\', 'f']
  else if ch.toNat < 0x20 then
    ['\\', 'u', '0', '0', Text.hexChar (ch.toNat / 16), Text.hexChar (ch.toNat % 16)]
  else [ch]

/-- A string with its quotes. -/
def writeText (text : String) : String :=
  "\"" ++ String.ofList (text.toList.flatMap escapeChar) ++ "\""

/-- The text of a natural number. -/
def writeNatural (n : Nat) : String := n.repr

/-- The text of an optional value, where nothing is null. -/
def writeOption {α : Type} (write : α → String) : Option α → String
  | some value => write value
  | none => "null"

/-- An object whose member values are written already. -/
def writeObject (members : List (String × String)) : String :=
  "\x7b" ++ ",".intercalate (members.map fun (name, value) => writeText name ++ ":" ++ value) ++
    "\x7d"

end RecordLisp.Json
