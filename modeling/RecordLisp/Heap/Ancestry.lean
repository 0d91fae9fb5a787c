import RecordLisp.Heap.Basic

/-!
# Parent chains

A name is looked up in a record, then in its parent, and so on. Parents may form cycles, so the
chain stops at the first record it meets a second time.
-/

namespace RecordLisp.Heap

/-- The chain from `next`, without the records in `seen` and with at most `fuel` records. -/
def ancestorsFrom (heap : Heap) : Nat → List RecordId → Option RecordId → List RecordId
  | _, _, none => []
  | 0, _, some _ => []
  | fuel + 1, seen, some id =>
      if seen.contains id then []
      else id :: heap.ancestorsFrom fuel (id :: seen) (heap.record id).parent

/-- A record, its parent, the parent of that, and so on, each once. The chain cannot be longer than
the heap has slots, apart from a start that has none. -/
def ancestors (heap : Heap) (start : RecordId) : List RecordId :=
  heap.ancestorsFrom (heap.records.size + 1) [] (some start)

/-- The value under a name in the nearest record of the chain that has it. -/
def lookup? (heap : Heap) (start : RecordId) (name : String) : Option Atom :=
  (heap.ancestors start).findSome? fun id => (heap.record id).get? name

/-- The nearest record of the chain that has a name. -/
def declaring? (heap : Heap) (start : RecordId) (name : String) : Option RecordId :=
  (heap.ancestors start).find? fun id => (heap.record id).contains name

end RecordLisp.Heap
