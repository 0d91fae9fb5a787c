import RecordLisp.Error
import RecordLisp.Files
import RecordLisp.Heap.Ancestry

/-!
# The machine

What an evaluation changes: the heap, the active scope, the steps taken, and what a program can see
of the outside, its files and a source of random numbers. A step of evaluation is a function of the
machine that gives a value or a reason to stop, and the new machine in either case.
-/

namespace RecordLisp

/-- What a program sees of a source of random numbers: for each draw, numbered from zero, and each
range the integer that the source gives. -/
structure RandomSource where
  draw : Nat → Integer → Integer → Integer
  /-- the integer is in the range, which goes up to its end without it, unless the range is empty -/
  inRange : ∀ number least bound, least.val < bound.val →
    least.val ≤ (draw number least bound).val ∧ (draw number least bound).val < bound.val

/-- The source that always gives the least integer of a range. -/
def RandomSource.least : RandomSource where
  draw _ least _ := least
  inRange _ _ _ inhabited := ⟨Int.le_refl _, inhabited⟩

instance : Inhabited RandomSource := ⟨.least⟩

/-- The state of an evaluation. -/
structure Machine where
  heap : Heap
  /-- the scope in which names are looked up -/
  scope : RecordId
  /-- steps taken -/
  steps : Nat
  /-- the gas allowed, or nothing for no limit -/
  gasLimit : Option UInt64
  files : Files
  random : RandomSource
  /-- random integers drawn so far -/
  drawn : Nat

/-- Why an evaluation gives no value. -/
inductive Stop where
  /-- the program is at fault -/
  | fault (error : EvalError)
  /-- the bound on nesting and rounds was met before there was an answer -/
  | outOfFuel
deriving DecidableEq, Inhabited

/-- A step of evaluation. A step that stops keeps what it did to the machine. -/
abbrev EvalM := ExceptT Stop (StateM Machine)

instance : MonadLift (Except EvalError) EvalM where
  monadLift
    | .ok value => pure value
    | .error error => throw (.fault error)

namespace Machine

/-- A machine whose active scope is the only record of its heap. -/
def fresh (gasLimit : Option UInt64) (files : Files) (random : RandomSource) : Machine :=
  let (scope, heap) := Heap.empty.allocRecord .empty
  { heap, scope, steps := 0, gasLimit, files, random, drawn := 0 }

/-- The gas that the steps took. It is counted in 64 bits and goes round to zero after the greatest
count, so it never exceeds the greatest limit. -/
def gas (machine : Machine) : UInt64 := .ofNat machine.steps

/-- Works on the heap and keeps the rest. -/
def onHeap {α : Type} (work : Heap → α × Heap) : Machine → α × Machine
  | ⟨heap, scope, steps, gasLimit, files, random, drawn⟩ =>
      let (value, heap) := work heap
      (value, ⟨heap, scope, steps, gasLimit, files, random, drawn⟩)

/-- A bound on nesting and rounds that is not met before the gas runs out. Where gas does not run
out, without a limit or with the greatest one, it is large enough for any evaluation that ends in
practice. -/
def fuel (machine : Machine) : Nat :=
  match machine.gasLimit with
  | some limit => limit.toNat - machine.gas.toNat + 1
  | none => 0x4000000000000000

end Machine

namespace EvalM

/-- Stops with an error. -/
def fail {α : Type} (error : EvalError) : EvalM α := throw (.fault error)

/-- The heap. -/
def heap : EvalM Heap := do return (← get).heap

/-- The active scope. -/
def scope : EvalM RecordId := do return (← get).scope

/-- Changes the heap. -/
def onHeap {α : Type} (work : Heap → α × Heap) : EvalM α :=
  modifyGet fun machine => machine.onHeap work

/-- Changes the heap without giving a value. -/
def modifyHeap (change : Heap → Heap) : EvalM Unit := onHeap fun heap => ((), change heap)

/-- Puts a record into the heap. -/
def allocRecord (record : Record) : EvalM RecordId := onHeap fun heap => heap.allocRecord record

/-- Puts a closure into the heap. -/
def allocClosure (closure : Closure) : EvalM FunctionId :=
  onHeap fun heap => heap.allocClosure closure

/-- Takes one step, and stops when the gas exceeds the limit. -/
def tick : EvalM Unit := do
  modify fun machine => { machine with steps := machine.steps + 1 }
  let machine ← get
  match machine.gasLimit with
  | some limit => if limit < machine.gas then fail (.gasExhausted limit) else pure ()
  | none => pure ()

/-- Draws a random integer from `least` on and below `bound`. -/
def draw (least bound : Integer) : EvalM Integer :=
  modifyGet fun machine =>
    (machine.random.draw machine.drawn least bound, { machine with drawn := machine.drawn + 1 })

/-- Runs an action in another scope. The active scope is the same before and after, also when the
action stops. -/
def withScope {α : Type} (scope : RecordId) (action : EvalM α) : EvalM α :=
  ExceptT.mk fun machine =>
    let saved := machine.scope
    let (result, after) := action.run.run { machine with scope }
    (result, { after with scope := saved })

/-- The active scope after an action in another scope is the one before it. -/
@[simp] theorem scope_withScope {α : Type} (scope : RecordId) (action : EvalM α)
    (machine : Machine) : ((withScope scope action).run.run machine).2.scope = machine.scope := rfl

/-- Runs an action in a new child of the active scope, which it is given. -/
def withChildScope {α : Type} (action : RecordId → EvalM α) : EvalM α := do
  let child ← allocRecord (.childOf (← scope))
  withScope child (action child)

/-- Binds a name in a scope. -/
def define (scope : RecordId) (name : String) (value : Atom) : EvalM Unit :=
  modifyHeap fun heap => heap.insert scope name value

/-- Runs an action, and replaces the error of a variable that is not defined. -/
def orUndefined {α : Type} (action : EvalM α) (error : EvalError) : EvalM α :=
  tryCatch action fun
    | .fault (.undefinedVariable _) => fail error
    | stop => throw stop

end EvalM

/-- What a builtin may ask for: the value of an atom, and a bound on the rounds of a loop. -/
structure Evaluator where
  eval : Atom → EvalM Atom
  rounds : Nat

/-- The work of a builtin, given one argument for each formal. -/
abbrev Native := Evaluator → List Atom → EvalM Atom

end RecordLisp
