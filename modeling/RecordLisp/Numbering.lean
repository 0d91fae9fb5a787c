import RecordLisp.Heap.Reach
import RecordLisp.Index

/-!
# Numbers of objects

The objects of a saved environment are numbered as a depth-first search meets them, records and
functions apart. The search goes by two indexes, which know the number of every object that was met:
an object is new when it has no number. A numbering is coherent when its indexes locate its lists,
and the search keeps it coherent, so the indexes are the inverses of the lists.
-/

namespace RecordLisp

/-- Records and functions in order, and the places of each. -/
structure Numbering where
  records : List RecordId
  recordIndex : Index RecordId
  functions : List FunctionId
  functionIndex : Index FunctionId

namespace Numbering

/-- Nothing numbered yet. -/
def empty : Numbering := ⟨[], [], [], []⟩

/-- Whether an object has a number. -/
def contains (numbering : Numbering) : Handle → Bool
  | .record id => (numbering.recordIndex.find? id).isSome
  | .function id => (numbering.functionIndex.find? id).isSome

/-- Gives an object the next number of its kind. -/
def insert (numbering : Numbering) : Handle → Numbering
  | .record id =>
      { numbering with
        records := numbering.records ++ [id]
        recordIndex := numbering.recordIndex.note id numbering.records.length }
  | .function id =>
      { numbering with
        functions := numbering.functions ++ [id]
        functionIndex := numbering.functionIndex.note id numbering.functions.length }

/-- Depth-first search in preorder: the first pending object without a number gets one, and the
objects it leads to come before the others that are pending. -/
def explore (edges : Handle → List Handle) : Nat → Numbering → List Handle → Numbering
  | 0, numbering, _ => numbering
  | rounds + 1, numbering, pending =>
      match pending.dropWhile numbering.contains with
      | [] => numbering
      | handle :: rest => explore edges rounds (numbering.insert handle) (edges handle ++ rest)

/-- Whether the indexes have the place of each object in its list and nothing else. -/
structure Coherent (numbering : Numbering) : Prop where
  records : numbering.recordIndex.Locates numbering.records
  functions : numbering.functionIndex.Locates numbering.functions

theorem coherent_empty : empty.Coherent := ⟨Index.locates_nil, Index.locates_nil⟩

variable {numbering : Numbering}

/-- Numbering a new object keeps a numbering coherent. -/
theorem Coherent.insert (coherent : numbering.Coherent) {handle : Handle}
    (new : numbering.contains handle = false) : (numbering.insert handle).Coherent := by
  cases handle with
  | record id =>
      have absent : numbering.recordIndex.find? id = none := by simpa [contains] using new
      exact ⟨coherent.records.note absent, coherent.functions⟩
  | function id =>
      have absent : numbering.functionIndex.find? id = none := by simpa [contains] using new
      exact ⟨coherent.records, coherent.functions.note absent⟩

/-- A search keeps a numbering coherent, wherever it leads. -/
theorem Coherent.explore (coherent : numbering.Coherent) (edges : Handle → List Handle)
    (rounds : Nat) (pending : List Handle) :
    (numbering.explore edges rounds pending).Coherent := by
  induction rounds generalizing numbering pending with
  | zero => exact coherent
  | succ rounds ih =>
      rw [Numbering.explore]
      split
      · exact coherent
      · rename_i handle rest left
        exact ih (coherent.insert (eq_false_of_dropWhile_eq_cons left)) _

end Numbering

namespace Heap

/-- Whether an object gets a number in an image. -/
def isNumbered (heap : Heap) : Handle → Bool
  | .record id => !(heap.record id).literal
  | .function _ => true

/-- The objects with a number that an object leads to: the values and then the parent of a record,
the scope and then the body of a closure. Quoted lists are not searched. -/
def savedReferences (heap : Heap) (handle : Handle) : List Handle :=
  let references : List Handle :=
    match handle with
    | .record id =>
        let record := heap.record id
        record.values.flatMap (Atom.handles Modifier.isQuote) ++ (record.parent.map .record).toList
    | .function id =>
        let closure := heap.closure id
        .record closure.scope :: closure.body.handles Modifier.isQuote
  references.filter heap.isNumbered

/-- The numbers of what a record leads to. Each round numbers one object, so there need not be more
rounds than slots. -/
def numbering (heap : Heap) (root : RecordId) : Numbering :=
  Numbering.empty.explore heap.savedReferences (heap.slotCount + 1) [.record root]

theorem coherent_numbering (heap : Heap) (root : RecordId) : (heap.numbering root).Coherent :=
  Numbering.coherent_empty.explore heap.savedReferences (heap.slotCount + 1) [.record root]

end Heap

end RecordLisp
