import RecordLisp.Eval.Argument
import RecordLisp.Eval.Basic
import RecordLisp.Proofs.Simulation

/-!
# Evaluation does not depend on handles

Two evaluators are alike when they do the same to matching atoms on matching machines, and so are
two builtins. Names, calls and field accesses never look at a handle except to follow it, so
evaluation with builtins that are alike is alike at every bound. In particular evaluation is alike
to itself: what a program does cannot depend on the handles it is given.
-/

namespace RecordLisp

open Effect

/-- Machines with matching heaps and paired scopes that agree in everything else. -/
structure Machine.Match (pairing : Pairing) (machine other : Machine) : Prop where
  heap : machine.heap.Match pairing other.heap
  scope : pairing.record machine.scope other.scope
  steps : machine.steps = other.steps
  gasLimit : machine.gasLimit = other.gasLimit
  files : machine.files = other.files
  random : machine.random = other.random
  drawn : machine.drawn = other.drawn

namespace EvalM

/-- Whether two evaluations do the same up to handles. -/
abbrev Simulates {α : Type} (values : Correspondence α) (pairing : Pairing)
    (action other : EvalM α) : Prop :=
  Effect.Simulates Machine.Match values pairing action other

variable {α β : Type} {pairing : Pairing} {values : Correspondence α} {results : Correspondence β}

theorem simulates_fail (error : EvalError) : Simulates values pairing (fail error) (fail error) :=
  simulates_throw _

/-- After a result that involves no machine, with the pairs there were. -/
theorem simulates_lift {relation : α → α → Prop} {result other : Except EvalError α}
    (related : ResultRel relation result other) {next next' : α → EvalM β}
    (goesOn : ∀ value value', relation value value' →
      Simulates results pairing (next value) (next' value')) :
    Simulates results pairing (liftM result >>= next) (liftM other >>= next') := by
  cases related with
  | error error => exact simulates_throw _
  | ok related => exact goesOn _ _ related

theorem reads_heap : Reads EvalM.heap Machine.heap := fun _ => rfl

theorem reads_scope : Reads EvalM.scope Machine.scope := fun _ => rfl

theorem reads_machine : Reads (get : EvalM Machine) id := fun _ => rfl

theorem simulates_tick : Simulates (.same Unit) pairing tick tick := by
  refine (simulates_modify fun _ _ machine machine' matched => ?_).bind fun _ _ _ _ _ => ?_
  · exact { matched with steps := congrArg (· + 1) matched.steps }
  · refine Simulates.read reads_machine fun later _ machine machine' matched => ?_
    have gas : machine.gas = machine'.gas := congrArg UInt64.ofNat matched.steps
    simp only [id, matched.gasLimit, gas]
    split
    · split
      · exact simulates_fail _
      · exact simulates_pure rfl
    · exact simulates_pure rfl

/-- Work on matching heaps that gives corresponding values and matching heaps. -/
theorem simulates_onHeap {work work' : Heap → α × Heap}
    (works : ∀ later, pairing.Within later → ∀ heap heap', heap.Match later heap' →
      ∃ last, later.Within last ∧ values.relates last (work heap).1 (work' heap').1 ∧
        (work heap).2.Match last (work' heap').2) :
    Simulates values pairing (onHeap work) (onHeap work') := by
  intro later within machine machine' matched
  obtain ⟨last, grows, related, after⟩ := works later within _ _ matched.heap
  exact ⟨last, grows,
    { matched with heap := after, scope := grows.record matched.scope },
    .ok related⟩

theorem simulates_modifyHeap {change change' : Heap → Heap}
    (changes : ∀ later, pairing.Within later → ∀ heap heap', heap.Match later heap' →
      (change heap).Match later (change' heap')) :
    Simulates (.same Unit) pairing (modifyHeap change) (modifyHeap change') :=
  simulates_onHeap fun later within heap heap' matched =>
    ⟨later, .refl later, rfl, changes later within heap heap' matched⟩

theorem simulates_allocRecord {record record' : Record} (same : record.Match pairing record') :
    Simulates .record pairing (allocRecord record) (allocRecord record') :=
  simulates_onHeap fun _ within _ _ matched => matched.allocRecord (same.mono within)

theorem simulates_allocClosure {closure closure' : Closure}
    (same : closure.Match pairing closure') :
    Simulates .function pairing (allocClosure closure) (allocClosure closure') :=
  simulates_onHeap fun _ within _ _ matched => matched.allocClosure (same.mono within)

theorem simulates_define {scope scope' : RecordId} (paired : pairing.record scope scope')
    (name : String) {value value' : Atom} (same : value.Match pairing value') :
    Simulates (.same Unit) pairing (define scope name value) (define scope' name value') :=
  simulates_modifyHeap fun _ within _ _ matched =>
    matched.modifyRecord (within.record paired)
      ((matched.record (within.record paired)).insert name (same.mono within))

theorem Simulates.withScope {scope scope' : RecordId} (paired : pairing.record scope scope')
    {action other : EvalM α} (simulates : Simulates values pairing action other) :
    Simulates values pairing (withScope scope action) (withScope scope' other) := by
  intro later within machine machine' matched
  have unfolded (scope : RecordId) (action : EvalM α) (machine : Machine) :
      outcome (EvalM.withScope scope action) machine =
        ((outcome action { machine with scope }).1,
          { (outcome action { machine with scope }).2 with scope := machine.scope }) := rfl
  have inside : Machine.Match later { machine with scope } { machine' with scope := scope' } :=
    { matched with scope := within.record paired }
  obtain ⟨last, grows, after, related⟩ := simulates later within _ _ inside
  rw [unfolded, unfolded]
  exact ⟨last, grows, { after with scope := grows.record matched.scope }, related⟩

theorem Simulates.withChildScope {action action' : RecordId → EvalM α}
    (simulates : ∀ later, pairing.Within later → ∀ scope scope', later.record scope scope' →
      Simulates values later (action scope) (action' scope')) :
    Simulates values pairing (withChildScope action) (withChildScope action') := by
  refine Simulates.read reads_scope fun later within machine machine' matched => ?_
  refine (simulates_allocRecord (Record.match_childOf matched.scope)).bind
    fun last grows child child' paired => ?_
  exact Simulates.withScope paired (simulates last (within.trans grows) child child' paired)

theorem Simulates.orUndefined {action other : EvalM α}
    (simulates : Simulates values pairing action other) (error : EvalError) :
    Simulates values pairing (action.orUndefined error) (other.orUndefined error) := by
  refine simulates.tryCatch fun stop => ?_
  split
  · exact simulates_fail error
  · exact simulates_throw stop

end EvalM

/-! ## Operands -/

/-- Whether two evaluators do the same to matching atoms, in loops with the same bound. -/
structure Evaluator.Alike (evaluator copy : Evaluator) : Prop where
  eval : ∀ {pairing : Pairing} {atom other : Atom}, atom.Match pairing other →
    EvalM.Simulates .atom pairing (evaluator.eval atom) (copy.eval other)
  rounds : evaluator.rounds = copy.rounds

/-- Whether two builtins do the same to matching arguments. -/
def Native.Alike (native copy : Native) : Prop :=
  ∀ {evaluator evaluator' : Evaluator}, evaluator.Alike evaluator' →
    ∀ {pairing : Pairing} {arguments others : List Atom},
      List.Forall₂ (Atom.Match pairing) arguments others →
        EvalM.Simulates .atom pairing (native evaluator arguments) (copy evaluator' others)

/-- Builtins that are alike under the same names and with the same formals. -/
structure Builtin.Alike (builtin copy : Builtin) : Prop where
  name : builtin.name = copy.name
  signature : builtin.signature = copy.signature
  native : builtin.native.Alike copy.native

/-- Whether two registries hold builtins that are alike, in the same order. -/
def Registry.Alike (registry copy : Registry) : Prop :=
  List.Forall₂ Builtin.Alike registry.builtins copy.builtins

theorem Registry.Alike.get? {registry copy : Registry} (alike : registry.Alike copy)
    (name : String) :
    Option.Rel Builtin.Alike (registry.get? name) (copy.get? name) := by
  rw [Registry.get?_eq_find?, Registry.get?_eq_find?]
  unfold Registry.Alike at alike
  generalize registry.builtins = builtins, copy.builtins = builtins' at alike
  induction alike with
  | nil => exact .none
  | cons first _ ih =>
      rw [List.find?_cons, List.find?_cons, first.name]
      split
      · exact .some first
      · exact ih

/-- Operands of the same kind that match. -/
inductive Actual.Match (pairing : Pairing) : Actual → Actual → Prop where
  | raw {atom other : Atom} : atom.Match pairing other → Match pairing (.raw atom) (.raw other)
  | value {atom other : Atom} :
      atom.Match pairing other → Match pairing (.value atom) (.value other)

def Correspondence.actual : Correspondence Actual where
  relates := Actual.Match
  mono within matched := by
    cases matched with
    | raw same => exact .raw (same.mono within)
    | value same => exact .value (same.mono within)

theorem forall₂_zip {α β : Type} {relation : β → β → Prop} {items others : List β}
    (related : List.Forall₂ relation items others) (labels : List α) :
    List.Forall₂ (fun item other => item.1 = other.1 ∧ relation item.2 other.2) (labels.zip items)
      (labels.zip others) := by
  induction related generalizing labels with
  | nil => simp
  | cons first _ ih =>
      cases labels with
      | nil => exact .nil
      | cons label labels => exact .cons ⟨rfl, first⟩ (ih labels)

namespace Evaluator

open EvalM

variable {evaluator copy : Evaluator} {pairing : Pairing}

theorem Alike.splice (alike : evaluator.Alike copy) (callee : String) (position : Nat)
    {operands others : List Atom} (same : List.Forall₂ (Atom.Match pairing) operands others) :
    Simulates (.list .actual) pairing (evaluator.splice callee position operands)
      (copy.splice callee position others) := by
  induction operands generalizing pairing position others with
  | nil =>
      cases same
      exact simulates_pure .nil
  | cons operand operands ih =>
      cases same with
      | @cons _ operand' _ others first rest =>
          have goesOn : ∀ later, pairing.Within later → ∀ front front',
              List.Forall₂ (Actual.Match later) front front' → Simulates (.list .actual) later
                (do return front ++ (← evaluator.splice callee (position + 1) operands))
                (do return front' ++ (← copy.splice callee (position + 1) others)) := by
            intro later within front front' fronts
            refine (ih (position + 1) (Atom.matchAll_mono within rest)).map
              fun last grows _ _ back => ?_
            exact List.rel_append ((Correspondence.list .actual).mono grows fronts) back
          rw [Evaluator.splice, Evaluator.splice, first.modifier_eq]
          split
          · refine (alike.eval first).bind fun later within value value' same => ?_
            have items := Atom.Match.list? same
            rw [Atom.Match.typeName_eq same]
            generalize value.list? = items, value'.list? = items' at items
            cases items with
            | none => exact simulates_throw _
            | some items =>
                refine goesOn later within _ _ (List.rel_map (fun _ _ same => ?_) items)
                exact .value same
          · exact goesOn pairing (.refl pairing) _ _ (.cons (.raw first) .nil)

theorem Alike.convert (alike : evaluator.Alike copy) (convention : Convention)
    {actual other : Actual} (same : actual.Match pairing other) :
    Simulates .atom pairing (evaluator.convert convention actual)
      (copy.convert convention other) := by
  cases same with
  | value same => exact simulates_pure same
  | raw same =>
      cases convention with
      | evaluated => exact alike.eval same
      | quoted => exact simulates_pure same

theorem Alike.bindOperands (alike : evaluator.Alike copy) (callee : String) (signature : Signature)
    {operands others : List Atom} (same : List.Forall₂ (Atom.Match pairing) operands others) :
    Simulates (.list .atom) pairing (evaluator.bindOperands callee signature operands)
      (copy.bindOperands callee signature others) := by
  refine (alike.splice callee 1 same).bind fun later within actuals actuals' same => ?_
  rw [List.Forall₂.length_eq same]
  cases signature.arityFault? callee actuals'.length with
  | some error => exact simulates_fail error
  | none =>
      have fixed : Simulates (.list .atom) later (evaluator.convertFixed signature.fixed actuals)
          (copy.convertFixed signature.fixed actuals') :=
        Simulates.mapM (.prod (.same Param) .actual) (forall₂_zip same signature.fixed)
          fun _ _ (param, actual) (param', actual') ⟨sameParam, same⟩ => by
            cases sameParam
            exact alike.convert param.convention same
      refine fixed.bind fun last grows arguments arguments' bound => ?_
      cases signature.rest? with
      | none => exact simulates_pure bound
      | some param =>
          have left := List.forall₂_drop signature.fixed.length same
          have rest : Simulates (.list .atom) last
              (evaluator.convertRest param (actuals.drop signature.fixed.length))
              (copy.convertRest param (actuals'.drop signature.fixed.length)) :=
            Simulates.mapM .actual ((Correspondence.list .actual).mono grows left)
              fun _ _ _ _ => alike.convert param.convention
          refine rest.map fun final growsOn _ _ others => ?_
          exact List.rel_append ((Correspondence.list .atom).mono growsOn bound)
            (.cons (.list others) .nil)

/-! ## Atoms of each kind -/

theorem simulates_lookup (name : String) :
    Simulates .atom pairing (Evaluator.lookup name) (Evaluator.lookup name) := by
  refine Simulates.read reads_machine fun later _ machine machine' matched => ?_
  have found := matched.heap.lookup? matched.scope name
  dsimp only [id]
  generalize machine.heap.lookup? machine.scope name = value,
    machine'.heap.lookup? machine'.scope name = value' at found
  cases found with
  | none => exact simulates_fail _
  | some same => exact simulates_pure same

theorem Alike.fields (alike : evaluator.Alike copy) {fields others : Fields}
    (same : fields.Match pairing others) :
    Simulates .fields pairing (evaluator.fields fields) (copy.fields others) := by
  refine Simulates.mapM (.prod (.same String) .atom) same ?_
  rintro later _ ⟨name, atom⟩ ⟨name', atom'⟩ ⟨sameName, same⟩
  exact (alike.eval same).map fun _ _ _ _ same => ⟨sameName, same⟩

theorem Alike.record (alike : evaluator.Alike copy) {id image : RecordId}
    (paired : pairing.record id image) :
    Simulates .atom pairing (evaluator.record id) (copy.record image) := by
  refine Simulates.read reads_heap fun later within machine machine' matched => ?_
  have contents := matched.heap.record (within.record paired)
  refine (alike.fields contents.fields).bind fun last _ fields fields' same => ?_
  refine (simulates_allocRecord (Record.match_empty.insertAll same)).map fun _ _ _ _ paired => ?_
  exact .leaf (.record paired)

theorem Alike.fieldName (alike : evaluator.Alike copy) {field other : Atom}
    (same : field.Match pairing other) :
    Simulates (.same String) pairing (evaluator.fieldName field) (copy.fieldName other) := by
  have computed : Simulates (.same String) pairing (fieldName.computed evaluator field)
      (fieldName.computed copy other) := by
    refine (alike.eval same).bind fun later within value value' same => ?_
    rw [Atom.Match.token?_eq same, Atom.Match.typeName_eq same]
    split
    · exact simulates_pure rfl
    · exact simulates_fail _
  unfold Evaluator.fieldName
  rw [same.token?_eq, same.modifier_eq]
  split
  · split
    · exact computed
    · exact simulates_pure rfl
  · exact computed

theorem Alike.access (alike : evaluator.Alike copy) {target field target' field' : Atom}
    (targets : target.Match pairing target') (fields : field.Match pairing field') :
    Simulates .atom pairing (evaluator.access target field) (copy.access target' field') := by
  refine (alike.eval targets).bind fun later within value value' same => ?_
  have records := Atom.Match.record? same
  rw [Atom.Match.typeName_eq same]
  generalize value.record? = id, value'.record? = image at records
  cases records with
  | none => exact simulates_fail _
  | some paired =>
      refine (alike.fieldName (fields.mono within)).bind fun last grows name _ equal => ?_
      cases equal
      refine Simulates.read reads_heap fun final growsOn machine machine' matched => ?_
      have found := matched.heap.lookup? (growsOn.record (grows.record paired)) name
      apply simulates_pure
      generalize machine.heap.lookup? _ name = value, machine'.heap.lookup? _ name = value' at found
      cases found with
      | none => exact .leaf (.same rfl)
      | some same => exact same

/-! ## Calls -/

theorem Alike.apply (alike : evaluator.Alike copy) {id image : FunctionId}
    (paired : pairing.function id image) (label : String) {operands others : List Atom}
    (same : List.Forall₂ (Atom.Match pairing) operands others) :
    Simulates .atom pairing (evaluator.apply id label operands)
      (copy.apply image label others) := by
  refine Simulates.read reads_heap fun later within machine machine' matched => ?_
  have contents := matched.heap.closure (within.function paired)
  dsimp only
  rw [contents.signature]
  refine (alike.bindOperands label _ (Atom.matchAll_mono within same)).bind
    fun last grows arguments arguments' bound => ?_
  have frames := (Record.match_childOf (grows.record contents.scope)).insertAll
    (forall₂_zip bound ((machine'.heap.closure image).signature.params.map Param.name))
  refine (simulates_allocRecord frames).bind fun final growsOn frame frame' paired => ?_
  exact Simulates.withScope paired (alike.eval (contents.body.mono (grows.trans growsOn)))

theorem calleeName?_eq {head other : Atom} (same : head.Match pairing other) :
    calleeName? head = calleeName? other :=
  same.view_eq calleeName? none (fun modifier _ => by cases modifier <;> rfl)
    (fun modifier _ => by cases modifier <;> rfl) (fun _ _ => rfl) fun _ _ _ => rfl

theorem Alike.callee (alike : evaluator.Alike copy) {head other : Atom}
    (same : head.Match pairing other) :
    Simulates .atom pairing (evaluator.callee head) (copy.callee other) := by
  unfold Evaluator.callee
  rw [calleeName?_eq same]
  split
  · exact Simulates.orUndefined (alike.eval same) _
  · exact alike.eval same

theorem Alike.call (alike : evaluator.Alike copy) {registry registry' : Registry}
    (builtins : registry.Alike registry') {items others : List Atom}
    (same : List.Forall₂ (Atom.Match pairing) items others) :
    Simulates .atom pairing (evaluator.call registry items) (copy.call registry' others) := by
  cases same with
  | nil => exact simulates_fail _
  | @cons head head' operands operands' heads operandsSame =>
      rw [Evaluator.call, Evaluator.call, calleeName?_eq heads]
      have found : Option.Rel Builtin.Alike ((calleeName? head').bind registry.get?)
          ((calleeName? head').bind registry'.get?) := by
        cases calleeName? head' with
        | none => exact .none
        | some name => exact builtins.get? name
      generalize (calleeName? head').bind registry.get? = builtin,
        (calleeName? head').bind registry'.get? = builtin' at found
      cases found with
      | some same =>
          dsimp only
          rw [same.name, same.signature]
          refine (alike.bindOperands _ _ operandsSame).bind
            fun later within arguments arguments' bound => ?_
          exact same.native alike bound
      | none =>
          refine (alike.callee heads).bind fun later within value value' same => ?_
          have functions := Atom.Match.function? same
          rw [Atom.Match.typeName_eq same]
          generalize value.function? = id, value'.function? = image at functions
          cases functions with
          | none => exact simulates_fail _
          | some paired => exact alike.apply paired _ (Atom.matchAll_mono within operandsSame)

/-- One level of evaluation does the same to matching atoms when the levels below do. -/
theorem Alike.step (alike : evaluator.Alike copy) {registry registry' : Registry}
    (builtins : registry.Alike registry') {atom other : Atom} (same : atom.Match pairing other) :
    Simulates .atom pairing (evaluator.step registry atom) (copy.step registry' other) := by
  refine simulates_tick.bind fun later within _ _ _ => ?_
  have same := same.mono within
  rw [same.modifier_eq]
  split
  · exact simulates_pure (same.withModifier .plain)
  · cases same with
    | list items => exact alike.call builtins items
    | member target field => exact alike.access target field
    | @leaf _ value _ values =>
        cases values with
        | record paired => exact alike.record paired
        | function paired => exact simulates_pure (.leaf (.function paired))
        | same noHandle =>
            cases value with
            | record | function => cases noHandle
            | token name => exact simulates_lookup name
            | nil | integer | decimal | string => exact simulates_pure (.leaf (.same rfl))

end Evaluator

/-- Evaluation with builtins that are alike is alike at every bound. -/
theorem Registry.Alike.evaluator {registry copy : Registry} (builtins : registry.Alike copy)
    (fuel : Nat) : (registry.evaluator fuel).Alike (copy.evaluator fuel) := by
  induction fuel with
  | zero => exact ⟨fun _ => simulates_throw _, rfl⟩
  | succ fuel ih => exact ⟨fun same => ih.step builtins same, rfl⟩

end RecordLisp
