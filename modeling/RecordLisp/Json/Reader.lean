import RecordLisp.Json.Basic
import RecordLisp.Text.Digits

/-!
# Reading JSON

`Json.read` reads a whole text as one document. Each reader takes the characters and gives what it
read and the characters after it, or nothing. Reading is bounded by the number of characters, since
every nested document starts at least one character further on.
-/

namespace RecordLisp.Json

/-- Whether a character may stand between the parts of a document. -/
def isSpace (ch : Char) : Bool := ch == ' ' || ch == '\n' || ch == '\t' || ch == '\r'

/-- The characters after the spaces in front. -/
def skipSpace (text : List Char) : List Char := text.dropWhile isSpace

/-- The characters after a word that must come next. -/
def readWord (value : Json) : List Char → List Char → Option (Json × List Char)
  | [], text => some (value, text)
  | expected :: word, ch :: text => if ch = expected then readWord value word text else none
  | _ :: _, [] => none

/-- The value of a hexadecimal digit in either case. -/
def hexDigit? (ch : Char) : Option Nat :=
  if '0' ≤ ch ∧ ch ≤ '9' then some (ch.toNat - '0'.toNat)
  else if 'a' ≤ ch ∧ ch ≤ 'f' then some (ch.toNat - 'a'.toNat + 10)
  else if 'A' ≤ ch ∧ ch ≤ 'F' then some (ch.toNat - 'A'.toNat + 10)
  else none

/-- The value of four hexadecimal digits. -/
def hexUnit? (a b c d : Char) : Option Nat := do
  return (((← hexDigit? a) * 16 + (← hexDigit? b)) * 16 + (← hexDigit? c)) * 16 + (← hexDigit? d)

/-- The character that a backslash and a letter stand for. -/
def shortEscape? : Char → Option Char
  | '\x22' => some '\x22'
  | '\\' => some '\\'
  | '/' => some '/'
  | 'b' => some '\x08'
  | 'f' => some '\x0c'
  | 'n' => some '\n'
  | 'r' => some '\r'
  | 't' => some '\t'
  | _ => none

/-- A part of a string literal: a character, or half of a surrogate pair. -/
inductive StringUnit where
  | char (ch : Char)
  | leading (code : Nat)
  | trailing (code : Nat)

/-- The part of a string literal that a 16-bit code stands for. -/
def StringUnit.ofCode (code : Nat) : StringUnit :=
  if 0xD800 ≤ code ∧ code < 0xDC00 then .leading (code - 0xD800)
  else if 0xDC00 ≤ code ∧ code < 0xE000 then .trailing (code - 0xDC00)
  else .char (Char.ofNat code)

/-- The characters of a string literal, each pair of surrogates joined to one. -/
def joinUnits : List StringUnit → Option (List Char)
  | [] => some []
  | .char ch :: units => (joinUnits units).map (ch :: ·)
  | .leading high :: .trailing low :: units =>
      (joinUnits units).map (Char.ofNat (0x10000 + high * 0x400 + low) :: ·)
  | .leading _ :: _ => none
  | .trailing _ :: _ => none

/-- The parts of a string literal up to its closing quote. Control characters must be escaped. -/
def readUnits : List Char → Option (List StringUnit × List Char)
  | [] => none
  | '\x22' :: text => some ([], text)
  | '\\' :: 'u' :: a :: b :: c :: d :: text => do
      let code ← hexUnit? a b c d
      let (units, rest) ← readUnits text
      return (.ofCode code :: units, rest)
  | '\\' :: escape :: text => do
      let ch ← shortEscape? escape
      let (units, rest) ← readUnits text
      return (.char ch :: units, rest)
  | ch :: text =>
      if ch.toNat < 0x20 ∨ ch = '\\' then none
      else do
        let (units, rest) ← readUnits text
        return (.char ch :: units, rest)

/-- A string literal after its opening quote. -/
def readText (text : List Char) : Option (JsonText × List Char) := do
  let (units, rest) ← readUnits text
  return ((joinUnits units).map String.ofList, rest)

/-- The digits that come next and what follows them. -/
def readDigits (text : List Char) : List Char × List Char :=
  (text.takeWhile Text.isDigit, text.dropWhile Text.isDigit)

/-- The whole part of a number: zero, or digits that do not start with zero. -/
def readWhole (text : List Char) : Option (List Char × List Char) :=
  match readDigits text with
  | ([], _) => none
  | ('0' :: _ :: _, _) => none
  | (digits, rest) => some (digits, rest)

/-- The fraction of a number. None is written as an empty one. -/
def readFraction : List Char → Option (List Char × List Char)
  | '.' :: text =>
      match readDigits text with
      | ([], _) => none
      | (digits, rest) => some (digits, rest)
  | text => some ([], text)

/-- Digits of an exponent that must come next. -/
def readExponentDigits (negative : Bool) (text : List Char) : Option (Option Int × List Char) :=
  match readDigits text with
  | ([], _) => none
  | (digits, rest) =>
      let value : Int := Text.digitsValue digits
      some (some (if negative then -value else value), rest)

/-- The exponent of a number, if one is written. -/
def readExponent : List Char → Option (Option Int × List Char)
  | ch :: text =>
      if ch = 'e' ∨ ch = 'E' then
        match text with
        | '-' :: digits => readExponentDigits true digits
        | '+' :: digits => readExponentDigits false digits
        | digits => readExponentDigits false digits
      else some (none, ch :: text)
  | [] => some (none, [])

/-- A number after its sign. -/
def readNumber (negative : Bool) (text : List Char) : Option (Json × List Char) := do
  let (whole, text) ← readWhole text
  let (fraction, text) ← readFraction text
  let (exponent, text) ← readExponent text
  let number : JsonNumber :=
    { negative
      digits := Text.digitsValue (whole ++ fraction)
      exponent := exponent.getD 0 - fraction.length
      plain := fraction.isEmpty && exponent.isNone }
  return (.number number, text)

/-- The items of an array after the first bracket or comma. -/
def readItems (read : List Char → Option (Json × List Char)) :
    Nat → List Char → Option (List Json × List Char)
  | 0, _ => none
  | rounds + 1, text => do
      let (item, text) ← read text
      match skipSpace text with
      | ',' :: text =>
          let (items, text) ← readItems read rounds text
          return (item :: items, text)
      | ']' :: text => return ([item], text)
      | _ => none

/-- A member of an object: its name, a colon and its value. -/
def readMember (read : List Char → Option (Json × List Char)) (text : List Char) :
    Option ((JsonText × Json) × List Char) :=
  match skipSpace text with
  | '\x22' :: text => do
      let (name, text) ← readText text
      match skipSpace text with
      | ':' :: text =>
          let (value, text) ← read text
          return ((name, value), text)
      | _ => none
  | _ => none

/-- The members of an object after the first brace or comma. -/
def readMembers (read : List Char → Option (Json × List Char)) :
    Nat → List Char → Option (List (JsonText × Json) × List Char)
  | 0, _ => none
  | rounds + 1, text => do
      let (member, text) ← readMember read text
      match skipSpace text with
      | ',' :: text =>
          let (members, text) ← readMembers read rounds text
          return (member :: members, text)
      | '\x7d' :: text => return ([member], text)
      | _ => none

/-- An array after its opening bracket. -/
def readArray (read : List Char → Option (Json × List Char)) (rounds : Nat) (text : List Char) :
    Option (Json × List Char) :=
  match skipSpace text with
  | ']' :: text => some (.array [], text)
  | text => do
      let (items, text) ← readItems read rounds text
      return (.array items, text)

/-- An object after its opening brace. -/
def readObject (read : List Char → Option (Json × List Char)) (rounds : Nat) (text : List Char) :
    Option (Json × List Char) :=
  match skipSpace text with
  | '\x7d' :: text => some (.object [], text)
  | text => do
      let (members, text) ← readMembers read rounds text
      return (.object members, text)

/-- A document with at most `fuel` levels of nesting. -/
def readValue : Nat → List Char → Option (Json × List Char)
  | 0, _ => none
  | fuel + 1, text =>
      match skipSpace text with
      | 'n' :: text => readWord .null "ull".toList text
      | 't' :: text => readWord (.bool true) "rue".toList text
      | 'f' :: text => readWord (.bool false) "alse".toList text
      | '\x22' :: text => do
          let (text, rest) ← readText text
          return (.string text, rest)
      | '[' :: text => readArray (readValue fuel) fuel text
      | '\x7b' :: text => readObject (readValue fuel) fuel text
      | '-' :: text => readNumber true text
      | text => readNumber false text

/-- Reads a whole text as one document. -/
def read (text : String) : Option Json := do
  let characters := text.toList
  let (document, rest) ← readValue (characters.length + 1) characters
  if (skipSpace rest).isEmpty then some document else none

end RecordLisp.Json
