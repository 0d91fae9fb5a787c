import RecordLisp.Image
import RecordLisp.Source.Reader

/-!
# The grammar of source text

What source text may look like, and what it means, without a cursor and without a heap. A text is
read as a tree: an atom whose record literals stand inside it instead of behind a handle.
`Tree.build` turns a tree into an atom by putting its record literals into a heap, each when all
that stands inside it has been put there.

Every rule relates the text before a phrase, what the phrase is read as, and the text behind it.
Runs of characters are maximal because a rule says what must follow them.
-/

namespace RecordLisp

/-- An atom of source text, with its record literals written out. -/
inductive Tree where
  | leaf (modifier : Modifier) (value : Leaf)
  | list (modifier : Modifier) (items : List Tree)
  | member (modifier : Modifier) (target field : Tree)
  | record (fields : List (String × Tree))

namespace Tree

/-- The modifier of the outermost node. Record literals have none. -/
def modifier : Tree → Modifier
  | .leaf modifier _ => modifier
  | .list modifier _ => modifier
  | .member modifier _ _ => modifier
  | .record _ => .plain

/-- The tree with another modifier on its outermost node. -/
def withModifier (tree : Tree) (modifier : Modifier) : Tree :=
  match tree with
  | .leaf _ value => .leaf modifier value
  | .list _ items => .list modifier items
  | .member _ target field => .member modifier target field
  | .record fields => .record fields

/-- The tree of a chain of field accesses, which leans left. -/
def chain (first : Tree) (fields : List Tree) : Tree := fields.foldl (.member .plain) first

mutual

/-- The atom of a tree, and the heap with its record literals. -/
def build : Tree → Heap → Atom × Heap
  | .leaf modifier value, heap => (.leaf modifier value, heap)
  | .list modifier items, heap =>
      let (items, heap) := buildItems items heap
      (.list modifier items, heap)
  | .member modifier target field, heap =>
      let (target, heap) := target.build heap
      let (field, heap) := field.build heap
      (.member modifier target field, heap)
  | .record fields, heap =>
      let (fields, heap) := buildFields fields heap
      let (id, heap) := heap.allocRecord (Record.emptyLiteral.insertAll fields)
      (.record id, heap)

/-- The atoms of several trees, from left to right. -/
def buildItems : List Tree → Heap → List Atom × Heap
  | [], heap => ([], heap)
  | item :: items, heap =>
      let (item, heap) := item.build heap
      let (items, heap) := buildItems items heap
      (item :: items, heap)

/-- The fields of a record literal, from left to right. -/
def buildFields : List (String × Tree) → Heap → Fields × Heap
  | [], heap => ([], heap)
  | (name, value) :: fields, heap =>
      let (value, heap) := value.build heap
      let (fields, heap) := buildFields fields heap
      ((name, value) :: fields, heap)

end

end Tree

namespace Grammar

/-- Separators and comments, as many as there are. A comment runs to the end of its line or of the
text. -/
inductive Skips : List Char → List Char → Prop where
  | stop {rest : List Char} :
      (∀ ch ∈ rest.head?, isSeparator ch = false ∧ ch ≠ ';') → Skips rest rest
  | separator {ch : Char} {input rest : List Char} :
      isSeparator ch = true → Skips input rest → Skips (ch :: input) rest
  | comment {text input rest : List Char} :
      '\n' ∉ text → Skips input rest → Skips (';' :: text ++ '\n' :: input) rest
  | lastComment {text : List Char} : '\n' ∉ text → Skips (';' :: text) []

/-- A modifier is read whenever its character comes next. -/
inductive Marked : List Char → Modifier → List Char → Prop where
  | marked {ch : Char} {modifier : Modifier} {rest : List Char} :
      Modifier.ofChar? ch = some modifier → Marked (ch :: rest) modifier rest
  | unmarked {input : List Char} :
      (∀ ch ∈ input.head?, Modifier.ofChar? ch = none) → Marked input .plain input

/-- The inside of a string and its closing quote. There are two escapes. -/
inductive Characters : List Char → List Char → List Char → Prop where
  | close {rest : List Char} : Characters ('\x22' :: rest) [] rest
  | lineFeed {input text rest : List Char} :
      Characters input text rest → Characters ('\\' :: 'n' :: input) ('\n' :: text) rest
  | backslash {input text rest : List Char} :
      Characters input text rest → Characters ('\\' :: '\\' :: input) ('\\' :: text) rest
  | plain {ch : Char} {input text rest : List Char} :
      ch ≠ '\x22' → ch ≠ '\\' →
      Characters input text rest → Characters (ch :: input) (ch :: text) rest

/-- Digits, at least one. -/
def Digits (digits : List Char) : Prop := digits ≠ [] ∧ ∀ ch ∈ digits, Text.isDigit ch = true

/-- What may follow a number or a string. -/
def EndsLiteral (rest : List Char) : Prop := ∀ ch ∈ rest.head?, endsLiteral ch = true

/-- What may follow a token. -/
def EndsToken (rest : List Char) : Prop := ∀ ch ∈ rest.head?, endsToken ch = true

/-- Whether a point and a digit come next. -/
def StartsFraction (rest : List Char) : Prop :=
  ∃ ch more, rest = '.' :: ch :: more ∧ Text.isDigit ch = true

/-- The minus sign of a negative number. -/
def sign (negative : Bool) : List Char := if negative then ['-'] else []

/-- The leaf that a run of token characters stands for. -/
def tokenLeaf (name : List Char) : Leaf :=
  if String.ofList name = "nil" then .nil else .token (String.ofList name)

/-- Leaves. A number takes all digits that come next, because no digit may follow it, and takes a
fraction when there is one. -/
inductive Lexeme : List Char → Leaf → List Char → Prop where
  | string {input text rest : List Char} :
      Characters input text rest → EndsLiteral rest →
      Lexeme ('\x22' :: input) (.string (String.ofList text)) rest
  | integer {negative : Bool} {digits rest : List Char} {value : Integer} :
      Digits digits → EndsLiteral rest → ¬ StartsFraction rest →
      value.val = (if negative then -(Text.digitsValue digits : Int) else Text.digitsValue digits) →
      Lexeme (sign negative ++ digits ++ rest) (.integer value) rest
  | decimal {negative : Bool} {digits fraction rest : List Char} :
      Digits digits → Digits fraction → EndsLiteral rest →
      Lexeme (sign negative ++ digits ++ '.' :: fraction ++ rest)
        (.decimal (.ofScientific negative (Text.digitsValue (digits ++ fraction))
          (-(fraction.length : Int)))) rest
  | token {first : Char} {name rest : List Char} :
      startsNumber (first :: name ++ rest) = false →
      first ≠ '\x22' → first ≠ '[' → first ≠ ']' →
      (∀ ch ∈ first :: name, endsToken ch = false) → EndsToken rest →
      Lexeme (first :: name ++ rest) (tokenLeaf (first :: name)) rest

mutual

/-- An atom: a first segment and the fields behind it. The modifier of the first segment is that of
the whole. -/
inductive Atom : List Char → Tree → List Char → Prop where
  | segments {input middle rest : List Char} {modifier : Modifier} {first : Tree}
      {fields : List Tree} :
      Segment input modifier first middle → Chain middle fields rest →
      Atom input ((first.chain fields).withModifier modifier) rest

/-- A modifier and what it stands in front of. -/
inductive Segment : List Char → Modifier → Tree → List Char → Prop where
  | body {input marked inner rest : List Char} {modifier : Modifier} {tree : Tree} :
      Skips input marked → Marked marked modifier inner → Body modifier inner tree rest →
      Segment input modifier tree rest

/-- A leaf, a list or a record literal. Literals take no modifier. -/
inductive Body : Modifier → List Char → Tree → List Char → Prop where
  | leaf {modifier : Modifier} {input rest : List Char} {value : Leaf} :
      Lexeme input value rest → (ReadM.isLiteral value = true → modifier = .plain) →
      Body modifier input (.leaf .plain value) rest
  | list {modifier : Modifier} {input rest : List Char} {items : List Tree} :
      Items input items rest → Body modifier ('(' :: input) (.list .plain items) rest
  | record {input rest : List Char} {fields : List (String × Tree)} :
      Entries input fields rest → Body .plain ('[' :: input) (.record fields) rest

/-- The items of a list and its closing parenthesis. -/
inductive Items : List Char → List Tree → List Char → Prop where
  | close {input rest : List Char} : Skips input (')' :: rest) → Items input [] rest
  | item {input middle rest : List Char} {item : Tree} {items : List Tree} :
      Atom input item middle → Items middle items rest → Items input (item :: items) rest

/-- The entries of a record literal and its closing bracket. An entry is a list of a name, which is
a token or a string, and a value; modifiers on the list and on the name do not count. -/
inductive Entries : List Char → List (String × Tree) → List Char → Prop where
  | close {input rest : List Char} : Skips input (']' :: rest) → Entries input [] rest
  | entry {input middle rest : List Char} {onEntry onName : Modifier} {leaf : Leaf}
      {name : String} {value : Tree} {fields : List (String × Tree)} :
      Atom input (.list onEntry [.leaf onName leaf, value]) middle →
      leaf = .token name ∨ leaf = .string name →
      Entries middle fields rest → Entries input ((name, value) :: fields) rest

/-- The fields behind an atom, each after a point. There is one more exactly when a point comes
next, and it is not marked to be expanded. -/
inductive Chain : List Char → List Tree → List Char → Prop where
  | stop {input rest : List Char} :
      Skips input rest → rest.head? ≠ some '.' → Chain input [] rest
  | field {input inner middle rest : List Char} {modifier : Modifier} {field : Tree}
      {fields : List Tree} :
      Skips input ('.' :: inner) → Segment inner modifier field middle → modifier ≠ .expand →
      Chain middle fields rest → Chain input (field.withModifier modifier :: fields) rest

end

/-- A program: exactly one atom between separators and comments. -/
def Program (text : List Char) (tree : Tree) : Prop := Atom text tree []

end Grammar

end RecordLisp
