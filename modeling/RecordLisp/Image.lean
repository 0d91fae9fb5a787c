import RecordLisp.Error
import RecordLisp.Numbering
import RecordLisp.Printer
import RecordLisp.Text.Blank
import RecordLisp.Text.Digits
import RecordLisp.Text.Escaped

/-!
# Saved environments

An image is a program that rebuilds a record and everything it leads to. It makes as many empty
records as there are, makes the functions again, links the functions to their scopes, fills the
records and links their parents, and has the first record as its value. Records and functions are
written by number, so shared and cyclic data keeps its shape.

Literal records are not numbered; they are written where they stand. A token that would not be read
back as itself is written as a conversion of its text. A text with a double quote, an infinite or
undefined decimal and a few kinds of unusual contents have no written form, and then there is no
image.
-/

namespace RecordLisp

/-- Whether a text starts as a number does. -/
def startsNumber : List Char → Bool
  | '-' :: ch :: _ => Text.isDigit ch
  | ch :: _ => Text.isDigit ch
  | [] => false

/-- Whether a first character keeps a text from being read as a token. -/
def marksNoToken (ch : Char) : Bool :=
  ch == '\x27' || ch == '$' || ch == ':' || ch == '\x22' || ch == '[' || ch == ']' || ch == ';'

/-- Whether a character cannot stand inside a token that is written bare. -/
def breaksToken (ch : Char) : Bool := Text.isBlank ch || ch == '.' || ch == '(' || ch == ')'

/-- Whether a text is read back as exactly the token it names. -/
def lexesAsToken (name : String) : Bool :=
  match name.toList with
  | [] => false
  | first :: rest =>
      !startsNumber (first :: rest) && name != "nil" && !marksNoToken first &&
        !(first :: rest).any breaksToken

/-- A heap and the numbers of the objects to be saved. -/
structure Image extends Numbering where
  heap : Heap
  coherent : toNumbering.Coherent

namespace Image

/-- The image of what a record leads to. -/
def ofRoot (heap : Heap) (root : RecordId) : Image :=
  ⟨heap.numbering root, heap, heap.coherent_numbering root⟩

/-- The number of a record. -/
def recordNumber? (image : Image) (id : RecordId) : Option Nat := image.recordIndex.find? id

/-- The number of a function. -/
def functionNumber? (image : Image) (id : FunctionId) : Option Nat := image.functionIndex.find? id

theorem recordNumber?_eq_some_iff {image : Image} {id : RecordId} {number : Nat} :
    image.recordNumber? id = some number ↔ image.records[number]? = some id :=
  image.coherent.records id number

theorem functionNumber?_eq_some_iff {image : Image} {id : FunctionId} {number : Nat} :
    image.functionNumber? id = some number ↔ image.functions[number]? = some id :=
  image.coherent.functions id number

/-- The expression for the record with a number. -/
def recordReference (number : Nat) : String := "(index-get atoms " ++ number.repr ++ ")"

/-- The expression for the function with a number. -/
def functionReference (number : Nat) : String := "(index-get funcs " ++ number.repr ++ ")"

mutual

/-- Whether the printed text of an atom is read back as the atom, with `record` for its records. -/
def verbatimWith (record : RecordId → Bool) : Atom → Bool
  | .leaf _ value =>
      match value with
      | .nil | .integer _ => true
      | .decimal value => value.isFinite
      | .string text => !Text.holdsQuote text
      | .token name => lexesAsToken name
      | .record id => record id
      | .function _ => false
  | .list _ items => verbatimItems record items
  | .member _ target field => verbatimWith record target && verbatimWith record field

/-- Whether the printed texts of the items of a list are read back. -/
def verbatimItems (record : RecordId → Bool) : List Atom → Bool
  | [] => true
  | item :: items => verbatimWith record item && verbatimItems record items

end

/-- Whether the printed text of a record is read back: it is literal and so are the records inside
it, and its names are tokens. At most `fuel` records may stand inside one another. -/
def verbatimRecord (heap : Heap) : Nat → RecordId → Bool
  | 0, _ => false
  | fuel + 1, id =>
      let record := heap.record id
      record.literal && record.fields.all fun (name, value) =>
        lexesAsToken name && verbatimWith (verbatimRecord heap fuel) value

/-- Whether the printed text of an atom is read back as the atom. -/
def verbatim (image : Image) (atom : Atom) : Bool :=
  verbatimWith (verbatimRecord image.heap (image.heap.records.size + 1)) atom

mutual

/-- Whether an atom is or contains an object with a number. -/
def holdsNumbered (image : Image) : Atom → Bool
  | .leaf _ (.record id) => (image.recordNumber? id).isSome
  | .leaf _ (.function _) => true
  | .leaf _ _ => false
  | .list _ items => image.anyHoldsNumbered items
  | .member _ target field => image.holdsNumbered target || image.holdsNumbered field

/-- Whether one of some atoms is or contains an object with a number. -/
def anyHoldsNumbered (image : Image) : List Atom → Bool
  | [] => false
  | item :: items => image.holdsNumbered item || image.anyHoldsNumbered items

end

/-- The literal of a text without double quotes. -/
def stringLiteral (text : String) : Except EvalError String :=
  if Text.holdsQuote text then
    .error (.runtime ("cannot serialize text containing a double quote: " ++ Text.escaped text))
  else .ok (Text.quoted text)

/-- The literal of a finite decimal. -/
def decimalLiteral (value : Decimal) : Except EvalError String :=
  if value.isFinite then .ok value.text
  else .error (.runtime ("cannot serialize the non-finite decimal " ++ value.text))

/-- A field name: bare when it is a token, otherwise a string. -/
def fieldName (name : String) : Except EvalError String :=
  if lexesAsToken name then .ok name else stringLiteral name

/-- The expression whose value a leaf is. -/
def leafExpression (image : Image) : Leaf → Except EvalError String
  | .nil => .ok "nil"
  | .integer value => .ok value.text
  | .decimal value => decimalLiteral value
  | .string text => stringLiteral text
  | .token name =>
      if lexesAsToken name then .ok ("'" ++ name)
      else do return "(stot " ++ (← stringLiteral name) ++ ")"
  | .record id =>
      match image.recordNumber? id with
      | some number => .ok (recordReference number)
      | none =>
          if image.verbatim (.record id) then .ok (image.heap.print (.record id))
          else .error (.runtime "cannot serialize a literal record with unwritable contents")
  | .function id =>
      match image.functionNumber? id with
      | some number => .ok (functionReference number)
      | none => .ok "nil"

mutual

/-- The expression whose value an atom is. A list is quoted as a whole when it holds nothing with a
number and is read back as it prints, and is built from its items otherwise. -/
def expression (image : Image) : Atom → Except EvalError String
  | .leaf _ value => image.leafExpression value
  | .list _ items =>
      if !image.anyHoldsNumbered items && image.verbatim (.ofList items) then
        .ok ("'" ++ image.heap.print (.ofList items))
      else do return "(list" ++ (← image.expressions items) ++ ")"
  | .member _ target field =>
      let chain : Atom := .member .plain target field
      if image.verbatim chain then .ok ("'" ++ image.heap.print chain)
      else .error (.runtime "cannot serialize a member expression with unwritable parts")

/-- The expressions for the items of a list, each after a blank. -/
def expressions (image : Image) : List Atom → Except EvalError String
  | [] => .ok ""
  | item :: items => do
      let first ← image.expression item
      return " " ++ first ++ (← image.expressions items)

end

/-- The line that makes a function again. -/
def functionLine (image : Image) (id : FunctionId) : String :=
  let closure := image.heap.closure id
  let formals := " ".intercalate (closure.signature.toAtoms.map image.heap.print)
  "    (func (" ++ formals ++ ") " ++ image.heap.print closure.body ++ ")\n"

/-- The line that links the function with a number to its scope. -/
def scopeLine (image : Image) (number : Nat) (id : FunctionId) : String :=
  match image.recordNumber? (image.heap.closure id).scope with
  | some scope =>
      "    (set-decl-scope " ++ functionReference number ++ " " ++ recordReference scope ++ ")\n"
  | none => ""

/-- The pairs of names and values that fill a record, each after a blank. -/
def fieldPairs (image : Image) : Fields → Except EvalError String
  | [] => .ok ""
  | (name, value) :: rest => do
      let name ← fieldName name
      let value ← image.expression value
      return " (" ++ name ++ " " ++ value ++ ")" ++ (← image.fieldPairs rest)

/-- The lines that fill the record with a number and link it to its parent. -/
def recordLines (image : Image) (number : Nat) (id : RecordId) : Except EvalError String := do
  let record := image.heap.record id
  let pairs ← image.fieldPairs record.fields
  let filled := "    (multi-set " ++ recordReference number ++ pairs ++ ")\n"
  match record.parent.bind image.recordNumber? with
  | some parent =>
      return filled ++ "    (set-parent " ++ recordReference number ++ " " ++
        recordReference parent ++ ")\n"
  | none => return filled

/-- The lines for all records, from the number `first` on. -/
def allRecordLines (image : Image) : Nat → List RecordId → Except EvalError String
  | _, [] => .ok ""
  | first, id :: ids => do
      let lines ← image.recordLines first id
      return lines ++ (← image.allRecordLines (first + 1) ids)

/-- The lines that link all functions to their scopes. -/
def allScopeLines (image : Image) : String :=
  String.join (image.functions.mapIdx image.scopeLine)

/-- The program that rebuilds the numbered objects. -/
def program (image : Image) : Except EvalError String := do
  let recordLines ← image.allRecordLines 0 image.records
  return "(using\n  (atoms (array " ++ image.records.length.repr ++ " []))\n  (funcs (list\n" ++
    String.join (image.functions.map image.functionLine) ++ "  ))\n  (last\n" ++
    image.allScopeLines ++ recordLines ++ "    " ++ recordReference 0 ++ "\n  )\n)"

end Image

/-- The program that rebuilds a record and everything it leads to. -/
def Heap.save (heap : Heap) (root : RecordId) : Except EvalError String :=
  if (heap.record root).literal then .error (.runtime "cannot serialize a literal record")
  else (Image.ofRoot heap root).program

end RecordLisp
