import RecordLisp.Record
import RecordLisp.Signature

/-!
# The heap

Records and closures live in slots and refer to one another by handle, so they may form cycles.
Slots are never removed. A slot that a collection freed is handed out again, the one freed last
first; a handle kept past that reads whatever the slot holds then. Reading a handle that was never
handed out gives an empty object, which keeps every operation total.

The free slots are part of the heap's own well-formedness: each of them exists and none is listed
twice, so an allocation always takes a slot that is not in use.

Handles are kept in words of 32 bits, and `newRecord` and `newClosure` cut the number of a new slot
to a word. Programs are evaluated with the numbers themselves, which are the same as long as there
are no more slots than words.
-/

namespace RecordLisp

/-- A function of the language: its formals, its body and the scope it was made in. -/
structure Closure where
  signature : Signature
  body : Atom
  scope : RecordId

namespace Closure

/-- The closure with its formals and body dropped, as it stays in a freed slot. -/
def cleared (closure : Closure) : Closure := ⟨.empty, .nil, closure.scope⟩

instance : Inhabited Closure := ⟨⟨.empty, .nil, ⟨0⟩⟩⟩

end Closure

/-- Slots of records and closures, and the slots that are free. -/
structure Heap where
  records : Array Record
  closures : Array Closure
  /-- freed records, the one to be reused next in front -/
  freeRecords : List RecordId
  /-- freed closures, the one to be reused next in front -/
  freeClosures : List FunctionId
  freeRecords_inRange : ∀ id ∈ freeRecords, id.index < records.size
  freeRecords_nodup : freeRecords.Nodup
  freeClosures_inRange : ∀ id ∈ freeClosures, id.index < closures.size
  freeClosures_nodup : freeClosures.Nodup

namespace Heap

/-- The heap without slots. -/
def empty : Heap where
  records := #[]
  closures := #[]
  freeRecords := []
  freeClosures := []
  freeRecords_inRange := by simp
  freeRecords_nodup := List.nodup_nil
  freeClosures_inRange := by simp
  freeClosures_nodup := List.nodup_nil

instance : Inhabited Heap := ⟨empty⟩

/-- The record of a handle. -/
def record (heap : Heap) (id : RecordId) : Record := heap.records[id.index]?.getD .empty

/-- The closure of a handle. -/
def closure (heap : Heap) (id : FunctionId) : Closure := heap.closures[id.index]?.getD default

/-- Changes the record of a handle. -/
def modifyRecord (heap : Heap) (id : RecordId) (change : Record → Record) : Heap :=
  { heap with
    records := heap.records.modify id.index change
    freeRecords_inRange := by simpa using heap.freeRecords_inRange }

/-- Changes the closure of a handle. -/
def modifyClosure (heap : Heap) (id : FunctionId) (change : Closure → Closure) : Heap :=
  { heap with
    closures := heap.closures.modify id.index change
    freeClosures_inRange := by simpa using heap.freeClosures_inRange }

/-- Stores a value in a field of a record. -/
def insert (heap : Heap) (id : RecordId) (name : String) (value : Atom) : Heap :=
  heap.modifyRecord id (·.insert name value)

/-- Puts a record into a free slot, or into a new one when none is free. -/
def allocRecord (heap : Heap) (record : Record) : RecordId × Heap :=
  match listed : heap.freeRecords with
  | id :: free =>
      (id, { heap with
        records := heap.records.setIfInBounds id.index record
        freeRecords := free
        freeRecords_inRange := fun other mem => by
          simpa using heap.freeRecords_inRange other (listed ▸ List.mem_cons_of_mem id mem)
        freeRecords_nodup := (List.nodup_cons.mp (listed ▸ heap.freeRecords_nodup)).2 })
  | [] =>
      (⟨heap.records.size⟩, { heap with
        records := heap.records.push record
        freeRecords_inRange := by simp [listed] })

/-- Puts a closure into a free slot, or into a new one when none is free. -/
def allocClosure (heap : Heap) (closure : Closure) : FunctionId × Heap :=
  match listed : heap.freeClosures with
  | id :: free =>
      (id, { heap with
        closures := heap.closures.setIfInBounds id.index closure
        freeClosures := free
        freeClosures_inRange := fun other mem => by
          simpa using heap.freeClosures_inRange other (listed ▸ List.mem_cons_of_mem id mem)
        freeClosures_nodup := (List.nodup_cons.mp (listed ▸ heap.freeClosures_nodup)).2 })
  | [] =>
      (⟨heap.closures.size⟩, { heap with
        closures := heap.closures.push closure
        freeClosures_inRange := by simp [listed] })

/-- The word for the number of a slot. What does not fit is cut off. -/
def slotWord (slot : Nat) : Nat := (UInt32.ofNat slot).toNat

/-- Puts a record into a slot and gives its handle as a word. A free slot was named by a word
before. -/
def newRecord (heap : Heap) (record : Record) : RecordId × Heap :=
  match heap.freeRecords with
  | id :: _ => (id, (heap.allocRecord record).2)
  | [] => (⟨slotWord heap.records.size⟩, (heap.allocRecord record).2)

/-- Puts a closure into a slot and gives its handle as a word. A free slot was named by a word
before. -/
def newClosure (heap : Heap) (closure : Closure) : FunctionId × Heap :=
  match heap.freeClosures with
  | id :: _ => (id, (heap.allocClosure closure).2)
  | [] => (⟨slotWord heap.closures.size⟩, (heap.allocClosure closure).2)

/-- The number of records that are not free. -/
def recordCount (heap : Heap) : Nat := heap.records.size - heap.freeRecords.length

/-- The number of closures that are not free. -/
def closureCount (heap : Heap) : Nat := heap.closures.size - heap.freeClosures.length

/-- The number of slots of either kind. -/
def slotCount (heap : Heap) : Nat := heap.records.size + heap.closures.size

/-- Changing a record changes what its handle reads, when the handle has a slot. -/
theorem record_modifyRecord_self (heap : Heap) {id : RecordId} (change : Record → Record)
    (inRange : id.index < heap.records.size) :
    (heap.modifyRecord id change).record id = change (heap.record id) := by
  simp [record, modifyRecord, inRange, Array.getElem_modify]

/-- Changing a record leaves every other record alone. -/
theorem record_modifyRecord_of_ne (heap : Heap) {id other : RecordId}
    (change : Record → Record) (different : other ≠ id) :
    (heap.modifyRecord id change).record other = heap.record other := by
  have indices : id.index ≠ other.index :=
    fun equal => different (by cases id; cases other; simp_all)
  simp [record, modifyRecord, Array.getElem?_modify, indices]

/-- Changing a record leaves every closure alone. -/
@[simp] theorem closure_modifyRecord (heap : Heap) (id : RecordId) (change : Record → Record)
    (function : FunctionId) :
    (heap.modifyRecord id change).closure function = heap.closure function := rfl

/-- Changing a closure leaves every record alone. -/
@[simp] theorem record_modifyClosure (heap : Heap) (id : FunctionId)
    (change : Closure → Closure) (other : RecordId) :
    (heap.modifyClosure id change).record other = heap.record other := rfl

end Heap

end RecordLisp
