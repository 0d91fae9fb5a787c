import RecordLisp.Eval.Argument

/-!
# Traversals

Builtins that evaluate an atom once for each item of a list or number of a range. Each opens one
child of the active scope, binds its variables there before every evaluation, and leaves the active
scope as it was.
-/

namespace RecordLisp.Builtin

/-- The value of an atom for an item. -/
def evaluateFor (evaluator : Evaluator) (scope : RecordId) (name : String) (code item : Atom) :
    EvalM Atom := do
  EvalM.define scope name item
  evaluator.eval code

/-- A list of the values of an atom for each item of a list. -/
def map (evaluator : Evaluator) (name list code : Atom) : EvalM Atom := do
  let name ← ArgumentPlace.token ⟨"map", 1⟩ name
  let items ← ArgumentPlace.list ⟨"map", 2⟩ list
  EvalM.withChildScope fun scope =>
    return .ofList (← items.mapM (evaluateFor evaluator scope name code))

/-- The values of an atom for each further item that a generator gives before nil, after those in
`values`, the latest in front, for a bounded number of rounds. -/
def mapGenerated (evaluator : Evaluator) (scope : RecordId) (name : String) (next code : Atom) :
    Nat → List Atom → EvalM (List Atom)
  | 0, _ => throw .outOfFuel
  | rounds + 1, values => do
      let item ← evaluator.eval next
      EvalM.define scope name item
      if item.isNil then return values.reverse
      else
        let value ← evaluator.eval code
        mapGenerated evaluator scope name next code rounds (value :: values)

/-- A list of the values of an atom for each item that a generator gives. The variable starts as nil
and holds the latest item, also for the generator. -/
def mapWhile (evaluator : Evaluator) (name next code : Atom) : EvalM Atom := do
  let name ← ArgumentPlace.token ⟨"mapex", 1⟩ name
  EvalM.withChildScope fun scope => do
    EvalM.define scope name .nil
    return .ofList (← mapGenerated evaluator scope name next code evaluator.rounds [])

/-- The value of an accumulator that an atom changes for each item of a list. -/
def fold (evaluator : Evaluator) (accumulator name first list code : Atom) : EvalM Atom := do
  let accumulator ← ArgumentPlace.token ⟨"fold", 1⟩ accumulator
  let name ← ArgumentPlace.token ⟨"fold", 2⟩ name
  let items ← ArgumentPlace.list ⟨"fold", 4⟩ list
  EvalM.withChildScope fun scope =>
    items.foldlM (fun value item => do
      EvalM.define scope accumulator value
      evaluateFor evaluator scope name code item) first

/-- A list of the items of a list for which a condition holds. -/
def filter (evaluator : Evaluator) (name list code : Atom) : EvalM Atom := do
  let name ← ArgumentPlace.token ⟨"where", 1⟩ name
  let items ← ArgumentPlace.list ⟨"where", 2⟩ list
  EvalM.withChildScope fun scope =>
    return .ofList (← items.filterM fun item =>
      return (← evaluateFor evaluator scope name code item).isTrue)

/-- Evaluates an atom for as many numbers from `from` on, and gives the last value. -/
def countUp (evaluator : Evaluator) (scope : RecordId) (name : String) (code : Atom) :
    Nat → Int → Atom → EvalM Atom
  | 0, _, last => pure last
  | count + 1, current, _ => do
      let last ← evaluateFor evaluator scope name code (.integer (.clamp current))
      countUp evaluator scope name code count (current + 1) last

/-- Evaluates an atom for each number of a range without its end. The value is the last one, or nil.
-/
def forRange (evaluator : Evaluator) (name first bound code : Atom) : EvalM Atom := do
  let name ← ArgumentPlace.token ⟨"for", 1⟩ name
  let first ← ArgumentPlace.integer ⟨"for", 2⟩ first
  let bound ← ArgumentPlace.integer ⟨"for", 3⟩ bound
  EvalM.withChildScope fun scope =>
    countUp evaluator scope name code (bound.val - first.val).toNat first.val .nil

end RecordLisp.Builtin
