import RecordLisp.Eval.Binding
import RecordLisp.Registry

/-!
# Evaluation

The value of an atom. Each evaluation of an atom takes one step of gas. Quoted atoms, numbers,
strings and functions are their own values; a token is looked up, a list is a call, a record is
built anew from the values of its fields, and a member expression reads a field.

The definition is open in the evaluator of the parts: `Evaluator.step` is one level, and
`Registry.eval` ties the levels together with a bound on their number.
-/

namespace RecordLisp

namespace Evaluator

/-- The value of a name in the active scope. -/
def lookup (name : String) : EvalM Atom := do
  let machine ← get
  match machine.heap.lookup? machine.scope name with
  | some value => return value
  | none => EvalM.fail (.undefinedVariable name)

/-- The fields with their values, evaluated in order. -/
def fields (evaluator : Evaluator) (fields : Fields) : EvalM Fields :=
  fields.mapM fun (name, atom) => return (name, ← evaluator.eval atom)

/-- A new record with the values of the fields of a record, without a parent. -/
def record (evaluator : Evaluator) (id : RecordId) : EvalM Atom := do
  let fields ← evaluator.fields ((← EvalM.heap).record id).fields
  return .record (← EvalM.allocRecord (Record.empty.insertAll fields))

/-- The name on the right of a field access. A token is the name itself unless it is marked to be
evaluated; anything else is evaluated and has to give a token. -/
def fieldName (evaluator : Evaluator) (field : Atom) : EvalM String :=
  match field.token? with
  | some name =>
      if field.modifier = .evaluate then computed else pure name
  | none => computed
where
  /-- The token that the value of the right side is. -/
  computed : EvalM String := do
    let value ← evaluator.eval field
    match value.token? with
    | some name => return name
    | none =>
        EvalM.fail (.typeMismatch
          ("right side of `.` must produce a token, found " ++ value.typeName))

/-- The value of a field access. A name that no record of the chain has gives nil. -/
def access (evaluator : Evaluator) (target field : Atom) : EvalM Atom := do
  let target ← evaluator.eval target
  match target.record? with
  | none =>
      EvalM.fail (.typeMismatch
        ("left side of `.` must be a record, found " ++ target.typeName))
  | some id =>
      let name ← evaluator.fieldName field
      return ((← EvalM.heap).lookup? id name).getD .nil

/-- Calls a function. Its operands are bound in the active scope and its body is evaluated in a new
child of the scope it was made in. -/
def apply (evaluator : Evaluator) (id : FunctionId) (label : String) (operands : List Atom) :
    EvalM Atom := do
  let closure := (← EvalM.heap).closure id
  let arguments ← evaluator.bindOperands label closure.signature operands
  let names := closure.signature.params.map Param.name
  let frame ← EvalM.allocRecord ((Record.childOf closure.scope).insertAll (names.zip arguments))
  EvalM.withScope frame (evaluator.eval closure.body)

/-- The name that a call form gives to its callee: a bare token in front. -/
def calleeName? : Atom → Option String
  | .token name => some name
  | _ => none

/-- The value of the head of a call form that names no builtin. -/
def callee (evaluator : Evaluator) (head : Atom) : EvalM Atom :=
  match calleeName? head with
  | some name => (evaluator.eval head).orUndefined (.unknownFunction name)
  | none => evaluator.eval head

/-- The value of a call form. -/
def call (evaluator : Evaluator) (registry : Registry) : List Atom → EvalM Atom
  | [] => EvalM.fail (.runtime "cannot call an empty list")
  | head :: operands =>
      match (calleeName? head).bind registry.get? with
      | some builtin => do
          let arguments ← evaluator.bindOperands builtin.name builtin.signature operands
          builtin.native evaluator arguments
      | none => do
          let callee ← evaluator.callee head
          match callee.function? with
          | some id => evaluator.apply id ((calleeName? head).getD "function") operands
          | none => EvalM.fail (.typeMismatch ("cannot call a " ++ callee.typeName))

/-- The value of an atom, with `evaluator` for the values of its parts. -/
def step (evaluator : Evaluator) (registry : Registry) (atom : Atom) : EvalM Atom := do
  EvalM.tick
  if atom.modifier = .quote then return atom.unmarked
  else
    match atom with
    | .leaf _ (.token name) => lookup name
    | .leaf _ (.record id) => evaluator.record id
    | .leaf _ value => return .leaf .plain value
    | .list _ items => evaluator.call registry items
    | .member _ target field => evaluator.access target field

end Evaluator

namespace Registry

/-- The value of an atom, with at most `fuel` levels of evaluation inside one another. -/
def eval (registry : Registry) : Nat → Atom → EvalM Atom
  | 0, _ => throw .outOfFuel
  | fuel + 1, atom => Evaluator.step ⟨registry.eval fuel, fuel⟩ registry atom

/-- The evaluator with a bound. -/
def evaluator (registry : Registry) (fuel : Nat) : Evaluator := ⟨registry.eval fuel, fuel⟩

/-- Runs an action with an evaluator whose bound the gas of the machine gives. -/
def run {α : Type} (registry : Registry) (action : Evaluator → EvalM α) (machine : Machine) :
    Except Stop α × Machine :=
  (action (registry.evaluator machine.fuel)).run.run machine

end Registry

end RecordLisp
