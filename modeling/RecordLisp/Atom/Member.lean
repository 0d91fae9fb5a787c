import RecordLisp.Atom.Basic

/-!
# Member chains

Source text gives the chain `a.b.c` from the right, as `a` joined to `b.c`, but field access works
from the left. `Atom.join` rebuilds such a chain so that it leans left. A modifier in front of a
chain belongs to the first segment of the chain and moves there, unless that segment has its own.
-/

namespace RecordLisp.Atom

/-- Joins `rhs` to `lhs`, part by part from the left. `inherited` goes to the first segment of `rhs`
when nothing nearer to that segment is marked. -/
def attach (lhs : Atom) (inherited : Modifier) : Atom → Atom
  | .member modifier target field =>
      (lhs.attach (modifier.orElse inherited) target).attach .plain field
  | rhs => .member .plain lhs (rhs.withModifier (rhs.modifier.orElse inherited))

/-- Joins `rhs` to `lhs`, so that the segments of `rhs` follow one by one. -/
def join (lhs rhs : Atom) : Atom := lhs.attach .plain rhs

/-- A leaf is joined as it stands. -/
@[simp] theorem join_leaf (lhs : Atom) (modifier : Modifier) (value : Leaf) :
    lhs.join (.leaf modifier value) = .member .plain lhs (.leaf modifier value) := by
  cases modifier <;> rfl

/-- A list is joined as it stands. -/
@[simp] theorem join_list (lhs : Atom) (modifier : Modifier) (items : List Atom) :
    lhs.join (.list modifier items) = .member .plain lhs (.list modifier items) := by
  cases modifier <;> rfl

end RecordLisp.Atom
