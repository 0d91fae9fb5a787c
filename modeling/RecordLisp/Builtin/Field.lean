import RecordLisp.Eval.Argument
import RecordLisp.Eval.Basic

/-!
# Fields of records

Operations on the fields that a record has itself. Unlike a field access they never go to the
parent.
-/

namespace RecordLisp.Builtin

/-- The name of a field: a token or a string, or what an atom that is marked to be evaluated gives.
-/
def memberName (evaluator : Evaluator) (function : String) (raw : Atom) : EvalM String := do
  let name ← if raw.modifier = .evaluate then evaluator.eval raw else pure raw
  match name.name? with
  | some name => return name
  | none => EvalM.fail (.argument function 2 "member name" name.typeName)

/-- Stores a value in a field. -/
def setField (evaluator : Evaluator) (object name value : Atom) : EvalM Atom := do
  let id ← ArgumentPlace.record ⟨"set", 1⟩ object
  let name ← memberName evaluator "set" name
  EvalM.define id name value
  return value

/-- Evaluates the atoms of bindings in order and stores each value before the next is evaluated. -/
def storeBindings (evaluator : Evaluator) (id : RecordId) (bindings : Fields) :
    EvalM Unit :=
  bindings.forM fun (name, atom) => do
    let value ← evaluator.eval atom
    EvalM.define id name value

/-- Stores the values of several bindings in fields. -/
def setFields (evaluator : Evaluator) (object pairs : Atom) : EvalM Atom := do
  let id ← ArgumentPlace.record ⟨"multi-set", 1⟩ object
  let pairs ← ArgumentPlace.list ⟨"multi-set", 2⟩ pairs
  storeBindings evaluator id (← bindingPairs "multi-set" pairs)
  return object

/-- A copy of a record, without its parent and with further bindings. -/
def copyWith (evaluator : Evaluator) (object pairs : Atom) : EvalM Atom := do
  let id ← ArgumentPlace.record ⟨"with", 1⟩ object
  let pairs ← ArgumentPlace.list ⟨"with", 2⟩ pairs
  let copy := ((← EvalM.heap).record id).detached
  let fields ← evaluator.fields (← bindingPairs "with" pairs)
  return .record (← EvalM.allocRecord (copy.insertAll fields))

/-- The value of a field, which has to be there. -/
def getField (evaluator : Evaluator) (object name : Atom) : EvalM Atom := do
  let id ← ArgumentPlace.record ⟨"get", 1⟩ object
  let name ← memberName evaluator "get" name
  match ((← EvalM.heap).record id).get? name with
  | some value => return value
  | none => EvalM.fail (.missingMember name)

/-- Drops a field and gives the value it had, or nil. -/
def deleteField (evaluator : Evaluator) (object name : Atom) : EvalM Atom := do
  let id ← ArgumentPlace.record ⟨"delete", 1⟩ object
  let name ← memberName evaluator "delete" name
  let old := ((← EvalM.heap).record id).get? name
  EvalM.modifyHeap fun heap => heap.modifyRecord id fun record => record.erase name
  return old.getD .nil

/-- Gives a record another parent, or none. -/
def setParent (object parent : Atom) : EvalM Atom := do
  let id ← ArgumentPlace.record ⟨"set-parent", 1⟩ object
  let parent ←
    if parent.isNil then pure none
    else do pure (some (← ArgumentPlace.record ⟨"set-parent", 2⟩ parent))
  EvalM.modifyHeap fun heap => heap.modifyRecord id fun record => { record with parent }
  return object

end RecordLisp.Builtin
