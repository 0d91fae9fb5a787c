import RecordLisp.Atom.Equality
import RecordLisp.Eval.Argument

/-!
# Logic, choice and repetition

Truth values are the integers one and zero. A condition holds when it is an integer other than zero,
while conjunction asks for exactly one, and takes everything that is no integer and not nil for
true.
-/

namespace RecordLisp.Builtin

/-- Whether conjunction takes a value for true. -/
def isAffirmative : Atom → Bool
  | .leaf _ (.integer value) => value.val == 1
  | .leaf _ .nil => false
  | _ => true

/-- Conjunction of all values. -/
def conjunction (values : Atom) : Except EvalError Atom := do
  return .boolean ((← ArgumentPlace.list ⟨"&", 1⟩ values).all isAffirmative)

/-- Whether all values equal the first. -/
def allEqual : List Atom → Bool
  | [] => true
  | first :: rest => rest.all first.same

/-- Whether all values are equal. -/
def equal (values : Atom) : Except EvalError Atom := do
  return .boolean (allEqual (← ArgumentPlace.list ⟨"=", 1⟩ values))

/-- Evaluates one of two atoms. -/
def choose (evaluator : Evaluator) (condition yes no : Atom) : EvalM Atom :=
  evaluator.eval (if condition.isTrue then yes else no)

/-- Evaluates the body of the first branch whose condition holds. `position` is that of the first
branch. -/
def selectFrom (evaluator : Evaluator) : Nat → List Atom → EvalM Atom
  | _, [] => pure .nil
  | position, branch :: branches =>
      match branch.list? with
      | some [condition, body] => do
          let condition ← evaluator.eval condition
          if condition.isTrue then evaluator.eval body
          else selectFrom evaluator (position + 1) branches
      | _ =>
          EvalM.fail (.typeMismatch
            ("branch " ++ position.repr ++ " of `select` must be a (condition body) pair"))

/-- Evaluates the body of the first branch whose condition holds, and is nil when none does. -/
def select (evaluator : Evaluator) (branches : Atom) : EvalM Atom := do
  selectFrom evaluator 1 (← ArgumentPlace.list ⟨"select", 1⟩ branches)

/-- Evaluates a body while a condition holds, for a bounded number of rounds. -/
def whileLoop (evaluator : Evaluator) (condition body : Atom) : Nat → EvalM Atom
  | 0 => throw .outOfFuel
  | rounds + 1 => do
      let holds ← evaluator.eval condition
      if holds.isTrue then
        let _ ← evaluator.eval body
        whileLoop evaluator condition body rounds
      else return .nil

/-- Evaluates a body while a condition holds, and is nil. -/
def repeatWhile (evaluator : Evaluator) (condition body : Atom) : EvalM Atom :=
  whileLoop evaluator condition body evaluator.rounds

end RecordLisp.Builtin
