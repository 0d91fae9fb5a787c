import RecordLisp.Text.Digits
import RecordLisp.Text.Printable

/-!
# Text shown with escapes

How a message shows a text whose exact characters matter: between quotes, with escapes for the
quote, the backslash, the common control characters and everything that does not print.
-/

namespace RecordLisp.Text

/-- The hexadecimal digits of a number below `16^(fuel + 1)`, without leading zeros. -/
def hexDigits : Nat → Nat → List Char
  | 0, n => [hexChar (n % 16)]
  | fuel + 1, n => if n < 16 then [hexChar n] else hexDigits fuel (n / 16) ++ [hexChar (n % 16)]

/-- The characters that show one character. -/
def showChar (ch : Char) : List Char :=
  if ch = '\x00' then ['\\', '0']
  else if ch = '\t' then ['\\', 't']
  else if ch = '\r' then ['\\', 'r']
  else if ch = '\n' then ['\\', 'n']
  else if ch = '\\' then ['\\', '\\']
  else if ch = '\x22' then ['\\', '\x22']
  else if isPrintable ch then [ch]
  else ['\\', 'u', '\x7b'] ++ hexDigits 5 ch.toNat ++ ['\x7d']

/-- A text between quotes, with escapes. -/
def escaped (text : String) : String :=
  "\"" ++ String.ofList (text.toList.flatMap showChar) ++ "\""

end RecordLisp.Text
