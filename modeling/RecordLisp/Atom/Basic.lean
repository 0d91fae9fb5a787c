import RecordLisp.Decimal.Basic
import RecordLisp.Integer
import RecordLisp.Modifier

/-!
# Atoms

An atom is both a value and a node of program text. Leaves are complete in themselves; lists and
member expressions contain further atoms. Records and functions live in a heap and an atom holds
only a handle to them, so an atom is always a finite tree even when the heap is cyclic.
-/

namespace RecordLisp

/-- Handle of a record in a heap. -/
structure RecordId where
  index : Nat
deriving DecidableEq, Inhabited

/-- Handle of a function in a heap. -/
structure FunctionId where
  index : Nat
deriving DecidableEq, Inhabited

/-- Handle of a heap object. -/
inductive Handle where
  | record (id : RecordId)
  | function (id : FunctionId)
deriving DecidableEq, Inhabited

/-- The payload of an atom without parts. -/
inductive Leaf where
  | nil
  | integer (value : Integer)
  | decimal (value : Decimal)
  | string (text : String)
  | token (name : String)
  | record (id : RecordId)
  | function (id : FunctionId)
deriving DecidableEq, Inhabited

/-- A value or a node of program text. -/
inductive Atom where
  | leaf (modifier : Modifier) (value : Leaf)
  | list (modifier : Modifier) (items : List Atom)
  | member (modifier : Modifier) (target field : Atom)

namespace Leaf

/-- Name of the kind, as messages give it. -/
def typeName : Leaf → String
  | .nil => "nil"
  | .integer _ => "integer"
  | .decimal _ => "decimal"
  | .string _ => "string"
  | .token _ => "token"
  | .record _ => "record"
  | .function _ => "function"

/-- The heap object that a leaf refers to. -/
def handle? : Leaf → Option Handle
  | .record id => some (.record id)
  | .function id => some (.function id)
  | _ => none

end Leaf

namespace Atom

/-- The unmarked nil. -/
@[match_pattern] abbrev nil : Atom := .leaf .plain .nil

/-- An unmarked integer. -/
@[match_pattern] abbrev integer (value : Integer) : Atom := .leaf .plain (.integer value)

/-- An unmarked decimal. -/
@[match_pattern] abbrev decimal (value : Decimal) : Atom := .leaf .plain (.decimal value)

/-- An unmarked string. -/
@[match_pattern] abbrev string (text : String) : Atom := .leaf .plain (.string text)

/-- An unmarked token. -/
@[match_pattern] abbrev token (name : String) : Atom := .leaf .plain (.token name)

/-- An unmarked record. -/
@[match_pattern] abbrev record (id : RecordId) : Atom := .leaf .plain (.record id)

/-- An unmarked function. -/
@[match_pattern] abbrev function (id : FunctionId) : Atom := .leaf .plain (.function id)

/-- An unmarked list. -/
abbrev ofList (items : List Atom) : Atom := .list .plain items

/-- One for true and zero for false. -/
def boolean (value : Bool) : Atom := .integer (if value then .one else .zero)

/-- The length of something as an integer, clamped to the largest. -/
def ofLength (length : Nat) : Atom := .integer (.clamp length)

instance : Inhabited Atom := ⟨.nil⟩

/-- The modifier of the outermost node. -/
def modifier : Atom → Modifier
  | .leaf modifier _ => modifier
  | .list modifier _ => modifier
  | .member modifier _ _ => modifier

/-- The atom with another modifier on its outermost node. -/
def withModifier (atom : Atom) (modifier : Modifier) : Atom :=
  match atom with
  | .leaf _ value => .leaf modifier value
  | .list _ items => .list modifier items
  | .member _ target field => .member modifier target field

/-- The atom without a modifier on its outermost node. -/
def unmarked (atom : Atom) : Atom := atom.withModifier .plain

/-- Name of the kind, as messages give it. -/
def typeName : Atom → String
  | .leaf _ value => value.typeName
  | .list _ _ => "list"
  | .member _ _ _ => "member"

/-- Whether the atom is nil, marked or not. -/
def isNil : Atom → Bool
  | .leaf _ .nil => true
  | _ => false

/-- Whether a condition holds: only an integer other than zero does. -/
def isTrue : Atom → Bool
  | .leaf _ (.integer value) => value.val != 0
  | _ => false

/-- The integer of an integer atom. -/
def integer? : Atom → Option Integer
  | .leaf _ (.integer value) => some value
  | _ => none

/-- The text of a string atom. -/
def string? : Atom → Option String
  | .leaf _ (.string text) => some text
  | _ => none

/-- The name of a token atom. -/
def token? : Atom → Option String
  | .leaf _ (.token name) => some name
  | _ => none

/-- The text of a token or string atom, the two spellings of a field name. -/
def name? : Atom → Option String
  | .leaf _ (.token name) => some name
  | .leaf _ (.string text) => some text
  | _ => none

/-- The items of a list atom. -/
def list? : Atom → Option (List Atom)
  | .list _ items => some items
  | _ => none

/-- The handle of a record atom. -/
def record? : Atom → Option RecordId
  | .leaf _ (.record id) => some id
  | _ => none

/-- The handle of a function atom. -/
def function? : Atom → Option FunctionId
  | .leaf _ (.function id) => some id
  | _ => none

mutual

/-- The heap objects that an atom refers to, from left to right. A list whose modifier is `inert` is
not searched. -/
def handles (inert : Modifier → Bool) : Atom → List Handle
  | .leaf _ value => value.handle?.toList
  | .list modifier items => if inert modifier then [] else handlesOfList inert items
  | .member _ target field => target.handles inert ++ field.handles inert

/-- The heap objects that the items of a list refer to. -/
def handlesOfList (inert : Modifier → Bool) : List Atom → List Handle
  | [] => []
  | item :: items => item.handles inert ++ handlesOfList inert items

end

@[simp] theorem modifier_withModifier (atom : Atom) (modifier : Modifier) :
    (atom.withModifier modifier).modifier = modifier := by
  cases atom <;> rfl

@[simp] theorem withModifier_modifier (atom : Atom) : atom.withModifier atom.modifier = atom := by
  cases atom <;> rfl

@[simp] theorem withModifier_withModifier (atom : Atom) (first second : Modifier) :
    (atom.withModifier first).withModifier second = atom.withModifier second := by
  cases atom <;> rfl

end Atom

end RecordLisp
