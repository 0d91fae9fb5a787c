import RecordLisp.Decimal.Shortest
import RecordLisp.Heap.Basic
import RecordLisp.Text.Quoted

/-!
# Printing atoms

The text of an atom for a reader of output. A function prints its formals and its body and loses its
scope. In one print pass the fields of a record are printed once; after that the record prints as a
placeholder, so cyclic data has a text.

Printing is bounded by the number of heap objects that can stand inside one another. Functions have
no guard of their own, but a path through the heap can meet each closure only once between two
records.
-/

namespace RecordLisp

/-- The text of a record that was printed before in the same pass. -/
def circularReference : String := "<circular reference>"

/-- The records printed so far in a pass. -/
abbrev PrintPass := List RecordId

/-- A step of printing. It fails only when the bound on nesting is met. -/
abbrev PrintM := StateT PrintPass Option

/-- The text of a leaf, with `object` for the objects of the heap. -/
def Leaf.printWith (object : Handle → PrintM String) : Leaf → PrintM String
  | .nil => pure "nil"
  | .integer value => pure value.text
  | .decimal value => pure value.text
  | .string text => pure (Text.quoted text)
  | .token name => pure name
  | .record id => object (.record id)
  | .function id => object (.function id)

mutual

/-- The text of an atom, with `object` for the objects of the heap. -/
def Atom.printWith (object : Handle → PrintM String) : Atom → PrintM String
  | .leaf modifier value => do return modifier.text ++ (← value.printWith object)
  | .list modifier items => do
      return modifier.text ++ "(" ++ (← Atom.printItems object items) ++ ")"
  | .member modifier target field => do
      let target ← target.printWith object
      let field ← field.printWith object
      return modifier.text ++ target ++ "." ++ field

/-- The texts of some atoms, divided by blanks. -/
def Atom.printItems (object : Handle → PrintM String) : List Atom → PrintM String
  | [] => pure ""
  | item :: items => do
      let first ← item.printWith object
      let rest ← Atom.printItems object items
      return if items.isEmpty then first else first ++ " " ++ rest

end

namespace Heap

/-- The texts of the fields of a record. -/
def printFields (object : Handle → PrintM String) : Fields → PrintM String
  | [] => pure ""
  | (name, value) :: rest => do
      let value ← value.printWith object
      return "(" ++ name ++ " " ++ value ++ ")" ++ (← printFields object rest)

/-- The text of a heap object, with at most `fuel` objects inside one another. -/
def printObject (heap : Heap) : Nat → Handle → PrintM String
  | 0, _ => failure
  | fuel + 1, .record id => do
      if (← get).contains id then return circularReference
      else
        modify (id :: ·)
        return "[" ++ (← printFields (heap.printObject fuel) (heap.record id).fields) ++ "]"
  | fuel + 1, .function id => do
      let closure := heap.closure id
      let formals ← Atom.printItems (heap.printObject fuel) closure.signature.toAtoms
      let body ← closure.body.printWith (heap.printObject fuel)
      return "(func (" ++ formals ++ ") " ++ body ++ ")"

/-- The most objects that can stand inside one another in print. -/
def printDepth (heap : Heap) : Nat := (heap.records.size + 2) * (heap.closures.size + 1)

/-- Prints an atom as part of a pass. -/
def printIn (heap : Heap) (atom : Atom) : PrintM String :=
  atom.printWith (heap.printObject heap.printDepth)

/-- The text of an atom in a pass of its own. -/
def print (heap : Heap) (atom : Atom) : String :=
  match (heap.printIn atom).run [] with
  | some (text, _) => text
  | none => ""

/-- The texts of several atoms in one pass, a line each. -/
def printLines (heap : Heap) (atoms : List Atom) : String :=
  match (atoms.mapM heap.printIn).run [] with
  | some (texts, _) => String.join (texts.map (· ++ "\n"))
  | none => ""

end Heap

end RecordLisp
