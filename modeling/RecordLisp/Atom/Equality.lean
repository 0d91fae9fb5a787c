import RecordLisp.Atom.Basic

/-!
# Equality of values

The equality of the language: numbers by value, text by content, lists and member expressions part
by part, records and functions by identity. Atoms of different kinds differ, so the integer one is
not the decimal one. Modifiers do not count at any depth.
-/

namespace RecordLisp

/-- Equality of leaves. -/
def Leaf.same : Leaf → Leaf → Bool
  | .decimal a, .decimal b => a.same b
  | a, b => a == b

mutual

/-- Equality of atoms as the language sees it. -/
def Atom.same : Atom → Atom → Bool
  | .leaf _ a, .leaf _ b => a.same b
  | .list _ a, .list _ b => Atom.sameItems a b
  | .member _ a b, .member _ c d => a.same c && b.same d
  | _, _ => false

/-- Equality of two lists, item by item. -/
def Atom.sameItems : List Atom → List Atom → Bool
  | [], [] => true
  | a :: as, b :: bs => a.same b && Atom.sameItems as bs
  | _, _ => false

end

end RecordLisp
