/-!
# Blank characters

The characters with the Unicode property `White_Space`. A field name or token that holds one is
never written bare, and blanks around a number are ignored when text is turned into an integer. The
reader of source text separates atoms by four of them only; those stand in
`RecordLisp.Source.Cursor`.
-/

namespace RecordLisp.Text

/-- Whether a character has the Unicode property `White_Space`. -/
def isBlank (ch : Char) : Bool :=
  let code := ch.toNat
  (0x9 ≤ code && code ≤ 0xD) || code == 0x20 || code == 0x85 || code == 0xA0 || code == 0x1680 ||
    (0x2000 ≤ code && code ≤ 0x200A) || code == 0x2028 || code == 0x2029 || code == 0x202F ||
    code == 0x205F || code == 0x3000

/-- The text without blanks at either end. -/
def trimBlank (text : List Char) : List Char :=
  ((text.dropWhile isBlank).reverse.dropWhile isBlank).reverse

end RecordLisp.Text
