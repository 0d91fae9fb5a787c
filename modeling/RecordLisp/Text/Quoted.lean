/-!
# Quoted text

String literals of the language. Writing knows two escapes, one for the backslash and one for the
line feed; a double quote cannot be escaped, so a text that holds one has no literal that reads
back.
-/

namespace RecordLisp.Text

/-- The characters that stand for one character inside a literal. -/
def escapeLiteral : Char → List Char
  | '\\' => ['\\', '\\']
  | '\n' => ['\\', 'n']
  | ch => [ch]

/-- The literal of a text, with its two quotes. -/
def quoted (text : String) : String :=
  "\"" ++ String.ofList (text.toList.flatMap escapeLiteral) ++ "\""

/-- Whether a text holds a double quote. -/
def holdsQuote (text : String) : Bool := text.toList.contains '\x22'

end RecordLisp.Text
