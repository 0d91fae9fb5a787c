/-!
# Digits

Reading of natural numbers in base ten over ASCII digits, the only digits that the language and its
file formats know, and the hexadecimal digits of escapes.
-/

namespace RecordLisp.Text

/-- Whether a character is one of `0` to `9`. -/
def isDigit (ch : Char) : Bool := '0' ≤ ch && ch ≤ '9'

/-- The value of an ASCII digit. -/
def digitValue (ch : Char) : Nat := ch.toNat - '0'.toNat

/-- The number that a run of digits denotes, most significant digit first. -/
def digitsValue (digits : List Char) : Nat :=
  digits.foldl (fun value ch => value * 10 + digitValue ch) 0

/-- The number that a nonempty text of digits denotes. -/
def natural? (text : List Char) : Option Nat :=
  if !text.isEmpty && text.all isDigit then some (digitsValue text) else none

/-- The number that digits after an optional sign denote. -/
def signed? : List Char → Option Int
  | '-' :: digits => (natural? digits).map fun n => -(n : Int)
  | '+' :: digits => (natural? digits).map fun n => (n : Int)
  | digits => (natural? digits).map fun n => (n : Int)

/-- The hexadecimal digit of a number below sixteen, in lower case. -/
def hexChar (n : Nat) : Char :=
  if n < 10 then Char.ofNat ('0'.toNat + n) else Char.ofNat ('a'.toNat + (n - 10))

end RecordLisp.Text
