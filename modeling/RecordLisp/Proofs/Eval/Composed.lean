import RecordLisp.Eval.Basic
import RecordLisp.Proofs.Effect

/-!
# How evaluation is put together

An evaluation asks an evaluator for the values of parts, and between two such questions it only
works on the heap, the files and the source of random numbers. `Composed` lists the ways in which
such actions are put together: one after another, in another scope, with the error for a name
replaced, and in loops whose every round starts with a question. It says nothing about what is
computed.

A relation of actions that all ways of putting them together respect therefore relates whole
evaluations. `Congruence` collects the cases of such an argument, for two evaluators of which the
first may stop earlier, and one induction over `Composed` and one over the levels of evaluation
serve all of them.
-/

namespace RecordLisp

open Effect

/-! ## Actions without questions -/

namespace EvalM

variable {α β : Type}

/-- An action that neither takes steps nor looks at the gas, stays in its scope and comes to an
end. -/
structure Plain (action : EvalM α) : Prop where
  gasless : ∀ (machine : Machine) (steps : Nat) (gasLimit : Option UInt64),
    outcome action { machine with steps, gasLimit } =
      ((outcome action machine).1, { (outcome action machine).2 with steps, gasLimit })
  scope : ∀ machine, (outcome action machine).2.scope = machine.scope
  ends : ∀ machine, (outcome action machine).1 ≠ .error .outOfFuel

theorem Plain.steps {action : EvalM α} (plain : action.Plain) (machine : Machine) :
    (outcome action machine).2.steps = machine.steps :=
  congrArg (·.2.steps) (plain.gasless machine machine.steps machine.gasLimit)

theorem Plain.gasLimit {action : EvalM α} (plain : action.Plain) (machine : Machine) :
    (outcome action machine).2.gasLimit = machine.gasLimit :=
  congrArg (·.2.gasLimit) (plain.gasless machine machine.steps machine.gasLimit)

theorem plain_pure (value : α) : (pure value : EvalM α).Plain :=
  ⟨fun _ _ _ => rfl, fun _ => rfl, fun _ same => nomatch same⟩

theorem plain_fail (error : EvalError) : (fail error : EvalM α).Plain :=
  ⟨fun _ _ _ => rfl, fun _ => rfl, fun _ same => nomatch same⟩

theorem plain_lift (result : Except EvalError α) : (liftM result : EvalM α).Plain := by
  cases result with
  | error error => exact plain_fail error
  | ok value => exact plain_pure value

theorem plain_onHeap (work : Heap → α × Heap) : (onHeap work).Plain :=
  ⟨fun _ _ _ => rfl, fun _ => rfl, fun _ same => nomatch same⟩

theorem plain_heap : heap.Plain :=
  ⟨fun _ _ _ => rfl, fun _ => rfl, fun _ same => nomatch same⟩

theorem plain_scope : scope.Plain :=
  ⟨fun _ _ _ => rfl, fun _ => rfl, fun _ same => nomatch same⟩

end EvalM

/-! ## Loops -/

/-- A loop in which every round asks for a value first and may then ask for more. It goes on with
another state or ends with a value. -/
def Evaluator.loop {σ β : Type} (evaluator : Evaluator) (head : σ → Atom)
    (body : σ → Atom → Evaluator → EvalM (σ ⊕ β)) : Nat → σ → EvalM β
  | 0, _ => throw .outOfFuel
  | rounds + 1, state => do
      let value ← evaluator.eval (head state)
      match ← body state value evaluator with
      | .inl state => evaluator.loop head body rounds state
      | .inr value => return value

/-- The ways of putting an evaluation together. -/
inductive Evaluator.Composed : {α : Type} → (Evaluator → EvalM α) → Prop where
  | plain {α : Type} {action : EvalM α} : action.Plain → Composed fun _ => action
  | eval (atom : Atom) : Composed fun evaluator => evaluator.eval atom
  | bind {α β : Type} {first : Evaluator → EvalM α} {next : α → Evaluator → EvalM β} :
      Composed first → (∀ value, Composed (next value)) →
        Composed fun evaluator => first evaluator >>= fun value => next value evaluator
  | withScope {α : Type} (scope : RecordId) {action : Evaluator → EvalM α} :
      Composed action → Composed fun evaluator => EvalM.withScope scope (action evaluator)
  | orUndefined {α : Type} (error : EvalError) {action : Evaluator → EvalM α} :
      Composed action → Composed fun evaluator => (action evaluator).orUndefined error
  | loop {σ β : Type} (head : σ → Atom) {body : σ → Atom → Evaluator → EvalM (σ ⊕ β)} (start : σ) :
      (∀ state value, Composed (body state value)) →
        Composed fun evaluator => evaluator.loop head body evaluator.rounds start

/-- Whether a builtin is composed, whatever its arguments. -/
def Native.Composed (native : Native) : Prop :=
  ∀ arguments, Evaluator.Composed fun evaluator => native evaluator arguments

/-- Whether all builtins are composed. -/
def Registry.Composed (registry : Registry) : Prop :=
  ∀ builtin ∈ registry.builtins, builtin.native.Composed

namespace Evaluator

open EvalM

variable {α β γ : Type}

namespace Composed

theorem pure (value : α) : Composed fun _ => (Pure.pure value : EvalM α) :=
  .plain (plain_pure value)

theorem fail (error : EvalError) : Composed fun _ => (EvalM.fail error : EvalM α) :=
  .plain (plain_fail error)

theorem lift (result : Except EvalError α) : Composed fun _ => (liftM result : EvalM α) :=
  .plain (plain_lift result)

theorem onHeap (work : Heap → α × Heap) : Composed fun _ => EvalM.onHeap work :=
  .plain (plain_onHeap work)

theorem withChildScope {action : RecordId → Evaluator → EvalM α}
    (composed : ∀ scope, Composed (action scope)) :
    Composed fun evaluator => EvalM.withChildScope fun scope => action scope evaluator :=
  .bind (.plain plain_scope) fun _ =>
    .bind (.onHeap _) fun child => .withScope child (composed child)

/-! ## Repetition -/

theorem mapM {step : γ → Evaluator → EvalM α} {items : List γ}
    (composed : ∀ item ∈ items, Composed (step item)) :
    Composed fun evaluator => items.mapM fun item => step item evaluator := by
  induction items with
  | nil => exact .pure []
  | cons item items ih =>
      obtain ⟨first, others⟩ := List.forall_mem_cons.mp composed
      simp only [List.mapM_cons]
      exact .bind first fun value => .bind (ih others) fun values => .pure (value :: values)

theorem forM {step : γ → Evaluator → EvalM PUnit} {items : List γ}
    (composed : ∀ item, Composed (step item)) :
    Composed fun evaluator => items.forM fun item => step item evaluator := by
  induction items with
  | nil => exact .pure PUnit.unit
  | cons item items ih => exact .bind (composed item) fun _ => ih

theorem foldlM {step : α → γ → Evaluator → EvalM α} {items : List γ} (start : α)
    (composed : ∀ value item, Composed (step value item)) :
    Composed fun evaluator => items.foldlM (fun value item => step value item evaluator) start := by
  induction items generalizing start with
  | nil => exact .pure start
  | cons item items ih =>
      simp only [List.foldlM_cons]
      exact .bind (composed start item) ih

theorem filterM {test : γ → Evaluator → EvalM Bool} {items : List γ}
    (composed : ∀ item, Composed (test item)) :
    Composed fun evaluator => items.filterM fun item => test item evaluator := by
  have kept (passed : List γ) : Composed fun evaluator =>
      items.filterAuxM (fun item => test item evaluator) passed := by
    induction items generalizing passed with
    | nil => exact .pure passed
    | cons item items ih =>
        exact .bind (composed item) fun keep => ih (bif keep then item :: passed else passed)
  exact .bind (kept []) fun passed => .pure passed.reverse

end Composed

/-! ## Operands -/

theorem composed_splice (callee : String) (position : Nat) (operands : List Atom) :
    Composed fun evaluator => evaluator.splice callee position operands := by
  induction operands generalizing position with
  | nil => exact .pure []
  | cons operand operands ih =>
      have goesOn (front : List Actual) : Composed fun evaluator => do
          return front ++ (← evaluator.splice callee (position + 1) operands) :=
        .bind (ih (position + 1)) fun back => .pure (front ++ back)
      simp only [Evaluator.splice]
      split
      · refine .bind (.eval operand) fun expanded => ?_
        split
        · exact goesOn _
        · exact .bind (.fail _) goesOn
      · exact goesOn [.raw operand]

theorem composed_convert (convention : Convention) (actual : Actual) :
    Composed fun evaluator => evaluator.convert convention actual := by
  cases actual with
  | value atom => exact .pure atom
  | raw atom =>
      cases convention with
      | evaluated => exact .eval atom
      | quoted => exact .pure atom

theorem composed_bindOperands (callee : String) (signature : Signature) (operands : List Atom) :
    Composed fun evaluator => evaluator.bindOperands callee signature operands := by
  refine .bind (composed_splice callee 1 operands) fun actuals => ?_
  split
  · exact .fail _
  · refine .bind (.mapM fun item _ => composed_convert _ item.2) fun arguments => ?_
    split
    · exact .pure arguments
    · exact .bind (.mapM fun actual _ => composed_convert _ actual) fun rest => .pure _

/-! ## Atoms of each kind -/

theorem plain_lookup (name : String) : (lookup name).Plain := by
  have unfolded (machine : Machine) : outcome (lookup name) machine =
      ((machine.heap.lookup? machine.scope name).elim
        (.error (.fault (.undefinedVariable name))) .ok, machine) := by
    unfold lookup
    rw [outcome_bind_of_ok (outcome_get machine)]
    cases machine.heap.lookup? machine.scope name <;> rfl
  refine ⟨fun machine steps gasLimit => ?_, fun machine => ?_, fun machine => ?_⟩
  · rw [unfolded, unfolded]
  · rw [unfolded]
  · rw [unfolded]
    cases machine.heap.lookup? machine.scope name <;> simp

theorem composed_fields (fields : Fields) : Composed fun evaluator => evaluator.fields fields :=
  .mapM fun field _ => .bind (.eval field.2) fun value => .pure (field.1, value)

theorem composed_record (id : RecordId) : Composed fun evaluator => evaluator.record id :=
  .bind (.plain plain_heap) fun heap =>
    .bind (composed_fields (heap.record id).fields) fun _ => .bind (.onHeap _) fun _ => .pure _

theorem composed_fieldName (field : Atom) :
    Composed fun evaluator => evaluator.fieldName field := by
  have computed : Composed fun evaluator => fieldName.computed evaluator field := by
    refine .bind (.eval field) fun value => ?_
    split
    · exact .pure _
    · exact .fail _
  unfold Evaluator.fieldName
  split
  · split
    · exact computed
    · exact .pure _
  · exact computed

theorem composed_access (target field : Atom) :
    Composed fun evaluator => evaluator.access target field := by
  refine .bind (.eval target) fun target => ?_
  split
  · exact .fail _
  · exact .bind (composed_fieldName field) fun name => .bind (.plain plain_heap) fun heap => .pure _

/-! ## Calls -/

theorem composed_apply (id : FunctionId) (label : String) (operands : List Atom) :
    Composed fun evaluator => evaluator.apply id label operands :=
  .bind (.plain plain_heap) fun heap =>
    .bind (composed_bindOperands label (heap.closure id).signature operands) fun _ =>
      .bind (.onHeap _) fun frame => .withScope frame (.eval _)

theorem composed_callee (head : Atom) : Composed fun evaluator => evaluator.callee head := by
  unfold Evaluator.callee
  split
  · exact .orUndefined _ (.eval head)
  · exact .eval head

theorem mem_of_get? {registry : Registry} {name : String} {builtin : Builtin}
    (found : registry.get? name = some builtin) : builtin ∈ registry.builtins := by
  obtain ⟨place, _, stands⟩ := Option.bind_eq_some_iff.mp found
  exact List.mem_of_getElem? stands

theorem composed_call {registry : Registry} (builtins : registry.Composed) (items : List Atom) :
    Composed fun evaluator => evaluator.call registry items := by
  cases items with
  | nil => exact .fail _
  | cons head operands =>
      simp only [Evaluator.call]
      split
      · rename_i builtin found
        obtain ⟨name, _, found⟩ := Option.bind_eq_some_iff.mp found
        refine .bind (composed_bindOperands _ _ operands) fun arguments => ?_
        exact builtins builtin (mem_of_get? found) arguments
      · refine .bind (composed_callee head) fun callee => ?_
        split
        · exact composed_apply _ _ operands
        · exact .fail _

/-- What follows the step of gas in the evaluation of an atom. -/
def contents (evaluator : Evaluator) (registry : Registry) (atom : Atom) : EvalM Atom :=
  if atom.modifier = .quote then return atom.unmarked
  else
    match atom with
    | .leaf _ (.token name) => lookup name
    | .leaf _ (.record id) => evaluator.record id
    | .leaf _ value => return .leaf .plain value
    | .list _ items => evaluator.call registry items
    | .member _ target field => evaluator.access target field

theorem composed_contents {registry : Registry} (builtins : registry.Composed) (atom : Atom) :
    Composed fun evaluator => evaluator.contents registry atom := by
  unfold contents
  split
  · exact .pure _
  · split
    · exact .plain (plain_lookup _)
    · exact composed_record _
    · exact .pure _
    · exact composed_call builtins _
    · exact composed_access _ _

end Evaluator

/-! ## What evaluation respects -/

/-- A relation of actions that the ways of putting them together respect. What is stopped for want
of fuel is related to everything. -/
structure EvalM.Congruence (relates : {α : Type} → EvalM α → EvalM α → Prop) : Prop where
  stop : ∀ {α : Type} (other : EvalM α), relates (throw .outOfFuel) other
  plain : ∀ {α : Type} {action : EvalM α}, action.Plain → relates action action
  bind : ∀ {α β : Type} {first first' : EvalM α} {next next' : α → EvalM β}, relates first first' →
    (∀ value, relates (next value) (next' value)) → relates (first >>= next) (first' >>= next')
  withScope : ∀ {α : Type} (scope : RecordId) {action action' : EvalM α}, relates action action' →
    relates (EvalM.withScope scope action) (EvalM.withScope scope action')
  orUndefined : ∀ {α : Type} (error : EvalError) {action action' : EvalM α},
    relates action action' →
    relates (action.orUndefined error) (action'.orUndefined error)

/-- Whether a relation relates the answers of two evaluators, the first with fewer rounds. -/
structure Evaluator.Related (relates : {α : Type} → EvalM α → EvalM α → Prop)
    (evaluator other : Evaluator) : Prop where
  eval : ∀ atom, relates (evaluator.eval atom) (other.eval atom)
  rounds : evaluator.rounds ≤ other.rounds

/-- Two builtins of one name and with the same formals, whose work for two evaluators is related. -/
structure Builtin.Related (relates : {α : Type} → EvalM α → EvalM α → Prop)
    (evaluator other : Evaluator) (builtin builtin' : Builtin) : Prop where
  name : builtin.name = builtin'.name
  signature : builtin.signature = builtin'.signature
  native : ∀ arguments,
    relates (builtin.native evaluator arguments) (builtin'.native other arguments)

/-- Whether two registries have related builtins under every name. -/
def Registry.Related (relates : {α : Type} → EvalM α → EvalM α → Prop) (evaluator other : Evaluator)
    (registry registry' : Registry) : Prop :=
  ∀ name, Option.Rel (Builtin.Related relates evaluator other) (registry.get? name)
    (registry'.get? name)

section Congruence

variable {relates : {α : Type} → EvalM α → EvalM α → Prop} (congruence : EvalM.Congruence relates)
include congruence

theorem Evaluator.Related.loop {evaluator other : Evaluator}
    (related : Evaluator.Related relates evaluator other) {σ β : Type} (head : σ → Atom)
    {body : σ → Atom → Evaluator → EvalM (σ ⊕ β)}
    (bodies : ∀ state value, relates (body state value evaluator) (body state value other))
    {rounds more : Nat} (fewer : rounds ≤ more) (start : σ) :
    relates (evaluator.loop head body rounds start) (other.loop head body more start) := by
  induction rounds generalizing more start with
  | zero => exact congruence.stop _
  | succ rounds ih =>
      cases more with
      | zero => exact absurd fewer (Nat.not_succ_le_zero rounds)
      | succ more =>
          refine congruence.bind (related.eval _) fun value =>
            congruence.bind (bodies start value) ?_
          intro next
          cases next with
          | inl state => exact ih (Nat.le_of_succ_le_succ fewer) state
          | inr value => exact congruence.plain (EvalM.plain_pure value)

theorem Evaluator.Composed.respects {evaluator other : Evaluator}
    (related : Evaluator.Related relates evaluator other) {α : Type} {action : Evaluator → EvalM α}
    (composed : Composed action) : relates (action evaluator) (action other) := by
  induction composed with
  | plain plain => exact congruence.plain plain
  | eval atom => exact related.eval atom
  | bind _ _ first next => exact congruence.bind first next
  | withScope scope _ ih => exact congruence.withScope scope ih
  | orUndefined error _ ih => exact congruence.orUndefined error ih
  | loop head start _ ih => exact related.loop congruence head ih related.rounds start

theorem Evaluator.Related.call {evaluator other : Evaluator} {registry registry' : Registry}
    (related : Evaluator.Related relates evaluator other)
    (builtins : Registry.Related relates evaluator other registry registry') (items : List Atom) :
    relates (evaluator.call registry items) (other.call registry' items) := by
  cases items with
  | nil => exact congruence.plain (EvalM.plain_fail _)
  | cons head operands =>
      have found :
          Option.Rel (Builtin.Related relates evaluator other)
            ((calleeName? head).bind registry.get?)
            ((calleeName? head).bind registry'.get?) := by
        cases calleeName? head with
        | none => exact .none
        | some name => exact builtins name
      rw [Evaluator.call, Evaluator.call]
      generalize (calleeName? head).bind registry.get? = builtin? at found
      generalize (calleeName? head).bind registry'.get? = builtin'? at found
      cases found with
      | some same =>
          refine congruence.bind ?_ same.native
          rw [same.name, same.signature]
          exact (composed_bindOperands _ _ operands).respects congruence related
      | none =>
          refine congruence.bind ((composed_callee head).respects congruence related)
            fun callee => ?_
          split
          · exact (composed_apply _ _ operands).respects congruence related
          · exact congruence.plain (EvalM.plain_fail _)

theorem Evaluator.Related.contents {evaluator other : Evaluator} {registry registry' : Registry}
    (related : Evaluator.Related relates evaluator other)
    (builtins : Registry.Related relates evaluator other registry registry') (atom : Atom) :
    relates (evaluator.contents registry atom) (other.contents registry' atom) := by
  unfold Evaluator.contents
  split
  · exact congruence.plain (EvalM.plain_pure _)
  · split
    · exact congruence.plain (plain_lookup _)
    · exact (composed_record _).respects congruence related
    · exact congruence.plain (EvalM.plain_pure _)
    · exact related.call congruence builtins _
    · exact (composed_access _ _).respects congruence related

/-- Evaluations with two registries are related when their builtins are. -/
theorem Registry.related_evaluator {registry registry' : Registry}
    (builtins : ∀ evaluator other, Evaluator.Related relates evaluator other →
      Registry.Related relates evaluator other registry registry')
    (tick : relates EvalM.tick EvalM.tick) (fuel : Nat) :
    Evaluator.Related relates (registry.evaluator fuel) (registry'.evaluator fuel) := by
  induction fuel with
  | zero => exact ⟨fun _ => congruence.stop _, Nat.le_refl _⟩
  | succ fuel ih =>
      refine ⟨fun atom => ?_, Nat.le_refl _⟩
      exact congruence.bind tick fun _ => ih.contents congruence (builtins _ _ ih) atom

/-- A congruence that a step of gas respects relates evaluations at a bound and at a larger one. -/
theorem Registry.Composed.related {registry : Registry} (builtins : registry.Composed)
    (tick : relates EvalM.tick EvalM.tick) (fuel more : Nat) :
    Evaluator.Related relates (registry.evaluator fuel) (registry.evaluator (fuel + more)) := by
  induction fuel with
  | zero => exact ⟨fun atom => congruence.stop _, Nat.zero_le _⟩
  | succ fuel ih =>
      refine ⟨fun atom => ?_, by rw [Nat.succ_add]; exact Nat.succ_le_succ ih.rounds⟩
      rw [Nat.succ_add]
      exact congruence.bind tick fun _ =>
        (Evaluator.composed_contents builtins atom).respects congruence ih

end Congruence

end RecordLisp
