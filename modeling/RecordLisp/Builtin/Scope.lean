import RecordLisp.Eval.Argument
import RecordLisp.Eval.Basic

/-!
# Functions and scopes

Making functions, assigning variables and opening scopes.
-/

namespace RecordLisp.Builtin

/-- A function with given formals and body, made in the active scope. -/
def makeFunction (formals body : Atom) : EvalM Atom := do
  let formals ← ArgumentPlace.list ⟨"func", 1⟩ formals
  match Signature.ofFormals formals with
  | .error fault =>
      EvalM.fail (.typeMismatch ("malformed argument list in `func`: " ++ fault.message))
  | .ok signature =>
      return .function (← EvalM.allocClosure ⟨signature, body, ← EvalM.scope⟩)

/-- Gives a function another scope. -/
def setScope (function scope : Atom) : EvalM Atom := do
  let id ← ArgumentPlace.functionId ⟨"set-decl-scope", 1⟩ function
  let scope ← ArgumentPlace.record ⟨"set-decl-scope", 2⟩ scope
  EvalM.modifyHeap fun heap => heap.modifyClosure id fun closure => { closure with scope }
  return function

/-- Changes the nearest variable with a name. It never makes one. -/
def assign (name value : Atom) : EvalM Atom := do
  let name ← ArgumentPlace.token ⟨"let", 1⟩ name
  match (← EvalM.heap).declaring? (← EvalM.scope) name with
  | none => EvalM.fail (.undefinedVariable name)
  | some scope =>
      EvalM.define scope name value
      return value

/-- Evaluates a body in a new scope. All operands but the last are bindings, whose values are found
in the active scope. -/
def openScope (evaluator : Evaluator) (operands : Atom) : EvalM Atom := do
  let operands ← ArgumentPlace.list ⟨"using", 1⟩ operands
  match operands.getLast? with
  | none => EvalM.fail (.arity "`using` needs a body")
  | some body =>
      let parent ← EvalM.scope
      let bindings ← bindingPairs "using" operands.dropLast
      let fields ← evaluator.fields bindings
      let scope ← EvalM.allocRecord ((Record.childOf parent).insertAll fields)
      EvalM.withScope scope (evaluator.eval body)

end RecordLisp.Builtin
