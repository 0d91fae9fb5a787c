import RecordLisp.Eval.Machine

/-!
# Binding of operands

How the operands of a call become the arguments of a function. First every expand-marked operand is
evaluated and its items take its place. Then the number of operands is checked, before any other
operand is evaluated. Then each operand is evaluated or passed on as written, as its formal says,
and a rest formal collects what is left in a list.
-/

namespace RecordLisp

/-- An operand before it reaches its formal. -/
inductive Actual where
  /-- written in the call -/
  | raw (atom : Atom)
  /-- an item of an expanded list, which is a value already -/
  | value (atom : Atom)

namespace Signature

/-- The error of a call with too few or too many operands, if there is one. -/
def arityFault? (signature : Signature) (callee : String) (count : Nat) : Option EvalError :=
  let fixed := signature.fixed.length
  match signature.fixed[count]? with
  | some missing =>
      some (.arity ("`" ++ callee ++ "` is missing argument " ++ (count + 1).repr ++ " (`" ++
        missing.text ++ "`)"))
  | none =>
      match signature.rest? with
      | none =>
          if fixed < count then
            some (.arity ("`" ++ callee ++ "` takes " ++ fixed.repr ++ " argument" ++
              (if fixed = 1 then "" else "s") ++ ", got " ++ count.repr))
          else none
      | some rest =>
          if count - fixed < signature.restMinimum then
            some (.arity ("`" ++ callee ++ "` needs at least one argument for `" ++
              rest.text ++ "`"))
          else none

end Signature

namespace Evaluator

/-- Replaces each expand-marked operand by the items of its value. `position` is that of the first
operand. -/
def splice (evaluator : Evaluator) (callee : String) : Nat → List Atom → EvalM (List Actual)
  | _, [] => pure []
  | position, operand :: operands => do
      let actuals ←
        if operand.modifier = .expand then do
          let expanded ← evaluator.eval operand
          match expanded.list? with
          | some items => pure (items.map Actual.value)
          | none =>
              EvalM.fail (.argument callee position "list to expand" expanded.typeName)
        else pure [.raw operand]
      return actuals ++ (← evaluator.splice callee (position + 1) operands)

/-- Hands an operand to a formal. -/
def convert (evaluator : Evaluator) (convention : Convention) : Actual → EvalM Atom
  | .value atom => pure atom
  | .raw atom =>
      match convention with
      | .evaluated => evaluator.eval atom
      | .quoted => pure atom

/-- Hands operands to the formals that take one each, in order. -/
def convertFixed (evaluator : Evaluator) (params : List Param) (actuals : List Actual) :
    EvalM (List Atom) :=
  (params.zip actuals).mapM fun (param, actual) => evaluator.convert param.convention actual

/-- Hands operands to the rest formal, in order. -/
def convertRest (evaluator : Evaluator) (param : Param) (actuals : List Actual) :
    EvalM (List Atom) :=
  actuals.mapM (evaluator.convert param.convention)

/-- The arguments that operands give to the formals of a callee, one for each formal. -/
def bindOperands (evaluator : Evaluator) (callee : String) (signature : Signature)
    (operands : List Atom) : EvalM (List Atom) := do
  let actuals ← evaluator.splice callee 1 operands
  match signature.arityFault? callee actuals.length with
  | some error => EvalM.fail error
  | none =>
      let fixed := signature.fixed
      let arguments ← evaluator.convertFixed fixed actuals
      match signature.rest? with
      | none => return arguments
      | some param =>
          let rest ← evaluator.convertRest param (actuals.drop fixed.length)
          return arguments ++ [.ofList rest]

end Evaluator

end RecordLisp
