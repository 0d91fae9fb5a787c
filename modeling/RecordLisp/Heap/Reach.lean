import RecordLisp.Heap.Basic

/-!
# Reachable objects

Depth-first search of the heap. `explore` takes the objects that are still to be visited, in
order, and the objects that each object leads to. With every reference it finds what a collection
keeps.
-/

namespace RecordLisp

/-- The objects met so far. -/
structure Visited where
  records : Array Bool
  closures : Array Bool
  /-- the objects, the one met last in front -/
  order : List Handle

namespace Visited

/-- Nothing met yet, for a heap with the slots of `heap`. -/
def none (heap : Heap) : Visited :=
  ⟨Array.replicate heap.records.size false, Array.replicate heap.closures.size false, []⟩

/-- Whether an object was met. -/
def contains (visited : Visited) : Handle → Bool
  | .record id => visited.records[id.index]?.getD false
  | .function id => visited.closures[id.index]?.getD false

/-- Notes an object. -/
def insert (visited : Visited) (handle : Handle) : Visited :=
  match handle with
  | .record id =>
      { visited with
        records := visited.records.setIfInBounds id.index true
        order := handle :: visited.order }
  | .function id =>
      { visited with
        closures := visited.closures.setIfInBounds id.index true
        order := handle :: visited.order }

/-- The objects in the order they were met. -/
def toList (visited : Visited) : List Handle := visited.order.reverse

end Visited

/-- An object that a search stops at was not met. -/
theorem eq_false_of_dropWhile_eq_cons {met : Handle → Bool} {pending rest : List Handle}
    {handle : Handle} (left : pending.dropWhile met = handle :: rest) : met handle = false := by
  have stops := List.head?_dropWhile_not met pending
  rw [left] at stops
  simpa using stops

/-- Depth-first search in preorder: the first pending object that was not met yet is noted, and the
objects it leads to come before the others that are pending. Each round notes one object, so
`rounds` need not exceed the number of slots. -/
def explore (edges : Handle → List Handle) : Nat → Visited → List Handle → Visited
  | 0, visited, _ => visited
  | rounds + 1, visited, pending =>
      match pending.dropWhile visited.contains with
      | [] => visited
      | handle :: rest => explore edges rounds (visited.insert handle) (edges handle ++ rest)

namespace Heap

/-- Everything that an object refers to: the parent and the values of a record, the scope and the
body of a closure. -/
def references (heap : Heap) : Handle → List Handle
  | .record id =>
      let record := heap.record id
      (record.parent.map .record).toList ++ record.values.flatMap (Atom.handles fun _ => false)
  | .function id =>
      let closure := heap.closure id
      .record closure.scope :: closure.body.handles fun _ => false

/-- The objects that some atoms lead to. -/
def reachable (heap : Heap) (roots : List Atom) : Visited :=
  explore heap.references (heap.slotCount + 1) (.none heap)
    (roots.flatMap (Atom.handles fun _ => false))

end Heap

end RecordLisp
