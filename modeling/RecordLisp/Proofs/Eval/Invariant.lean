import RecordLisp.Proofs.Eval.Composed
import RecordLisp.Proofs.Heap.Contents
import RecordLisp.Proofs.Invariant

/-!
# Invariants of evaluation

An evaluator that keeps an invariant for the parts of an atom keeps it for the atom, and so do the
evaluations with builtins that keep it. Names are looked up along parents, which the laws of an
invariant follow; the only records that evaluation itself changes are the ones it has just made.
-/

namespace RecordLisp

open Effect Invariant

/-! ## Parent chains -/

namespace Invariant

variable {inv : Invariant} {base : Heap}

theorem record_of_mem_ancestorsFrom (kept : inv.heap base) {fuel : Nat} {seen : List RecordId}
    {next : Option RecordId} (known : ∀ id ∈ next, inv.atom base (.record id)) {id : RecordId}
    (mem : id ∈ base.ancestorsFrom fuel seen next) : inv.atom base (.record id) := by
  induction fuel generalizing seen next with
  | zero => cases next <;> cases mem
  | succ fuel ih =>
      cases next with
      | none => cases mem
      | some start =>
          rw [Heap.ancestorsFrom] at mem
          split at mem
          · cases mem
          · have known := known start rfl
            rcases List.mem_cons.mp mem with rfl | later
            · exact known
            · exact ih (inv.parent kept known) later

/-- Programs get hold of the records on the chain of a record that they get hold of. -/
theorem record_of_mem_ancestors (kept : inv.heap base) {start id : RecordId}
    (known : inv.atom base (.record start)) (mem : id ∈ base.ancestors start) :
    inv.atom base (.record id) := by
  refine record_of_mem_ancestorsFrom kept (fun other same => ?_) mem
  cases same
  exact known

theorem atom_of_lookup? (kept : inv.heap base) {start : RecordId} {name : String} {value : Atom}
    (known : inv.atom base (.record start)) (found : base.lookup? start name = some value) :
    inv.atom base value := by
  obtain ⟨id, mem, found⟩ := List.exists_of_findSome?_eq_some found
  exact inv.value kept (record_of_mem_ancestors kept known mem) value
    (Record.mem_values_of_get? found)

theorem record_of_declaring? (kept : inv.heap base) {start id : RecordId} {name : String}
    (known : inv.atom base (.record start)) (found : base.declaring? start name = some id) :
    inv.atom base (.record id) :=
  record_of_mem_ancestors kept known (List.mem_of_find?_eq_some found)

theorem nil (inv : Invariant) (base : Heap) : inv.atom base .nil := inv.leaf rfl

/-- The record that a record atom refers to, whatever its modifier. -/
theorem record_of_record? {atom : Atom} {id : RecordId} (known : inv.atom base atom)
    (found : atom.record? = some id) : inv.atom base (.record id) := by
  unfold Atom.record? at found
  split at found <;> cases found
  exact inv.unmarked known

theorem function_of_function? {atom : Atom} {id : FunctionId} (known : inv.atom base atom)
    (found : atom.function? = some id) : inv.atom base (.function id) := by
  unfold Atom.function? at found
  split at found <;> cases found
  exact inv.unmarked known

theorem items_of_list? {atom : Atom} {items : List Atom} (known : inv.atom base atom)
    (found : atom.list? = some items) : ∀ item ∈ items, inv.atom base item := by
  unfold Atom.list? at found
  split at found <;> cases found
  exact inv.item known

end Invariant

/-! ## Actions -/

/-- Whether the heap of a machine has an invariant, and its scope is one that programs get hold
of. -/
def Machine.Obeys (inv : Invariant) (machine : Machine) : Prop :=
  inv.heap machine.heap ∧ inv.atom machine.heap (.record machine.scope)

namespace EvalM

variable {inv : Invariant} {α β : Type} {values : inv.Kind α} {results : inv.Kind β} {base : Heap}

/-- Whether an evaluation keeps an invariant and gives values of a kind. -/
abbrev Maintains (values : inv.Kind α) (base : Heap) (action : EvalM α) : Prop :=
  Effect.Maintains Machine.heap (Machine.Obeys inv) values base action

theorem maintains_fail (error : EvalError) : Maintains values base (fail error : EvalM α) :=
  maintains_throw _

/-- After a result that involves no machine. -/
theorem maintains_lift {property : α → Prop} {result : Except EvalError α}
    (yields : Yields property result) {next : α → EvalM β}
    (goesOn : ∀ value, property value → Maintains results base (next value)) :
    Maintains results base (liftM result >>= next) := by
  cases result with
  | error error => exact maintains_throw _
  | ok value => exact goesOn value (yields value rfl)

theorem maintains_heap {next : Heap → EvalM β}
    (goesOn : ∀ after, inv.later base after → inv.heap after →
      Maintains results after (next after)) :
    Maintains results base (heap >>= next) :=
  maintains_get fun machine later kept => goesOn machine.heap later kept.1

theorem maintains_scope : Maintains (.record inv) base scope :=
  maintains_get fun _ _ kept => maintains_pure kept.2

/-- After a look at the heap and at the scope of the same machine. -/
theorem maintains_heap_scope {next : Heap → RecordId → EvalM β}
    (goesOn : ∀ after scope, inv.later base after → inv.heap after →
      inv.atom after (.record scope) →
      Maintains results after (next after scope)) :
    Maintains results base (heap >>= fun heap => scope >>= next heap) := by
  intro machine later kept
  have readsHeap : outcome heap machine = (.ok machine.heap, machine) := rfl
  have readsScope : outcome scope machine = (.ok machine.scope, machine) := rfl
  rw [outcome_bind_of_ok readsHeap, outcome_bind_of_ok readsScope]
  exact goesOn machine.heap machine.scope later kept.1 kept.2 machine (inv.refl _) kept

theorem maintains_onHeap {work : Heap → α × Heap}
    (works : ∀ after, inv.later base after → inv.heap after →
      inv.heap (work after).2 ∧ inv.later after (work after).2 ∧
        values.holds (work after).2 (work after).1) :
    Maintains values base (onHeap work) := by
  intro machine later kept
  obtain ⟨heap, grows, known⟩ := works machine.heap later kept.1
  refine ⟨grows, ⟨heap, inv.atom_mono grows kept.2⟩, fun value same => ?_⟩
  cases same
  exact known

theorem maintains_modifyHeap {change : Heap → Heap}
    (changes : ∀ after, inv.later base after → inv.heap after →
      inv.heap (change after) ∧ inv.later after (change after)) :
    Maintains (.any inv Unit) base (modifyHeap change) :=
  maintains_onHeap fun after later kept =>
    have ⟨heap, grows⟩ := changes after later kept
    ⟨heap, grows, trivial⟩

theorem maintains_allocRecord {record : Record}
    (values : ∀ value ∈ record.values, inv.atom base value)
    (parent : ∀ parent ∈ record.parent, inv.atom base (.record parent)) :
    Maintains (.ownRecord inv) base (allocRecord record) :=
  maintains_onHeap fun _ later kept =>
    inv.allocRecord kept (fun value mem => inv.atom_mono later (values value mem))
      fun id mem => inv.atom_mono later (parent id mem)

theorem maintains_allocClosure {closure : Closure} (body : inv.atom base closure.body)
    (scope : inv.atom base (.record closure.scope)) :
    Maintains (.function inv) base (allocClosure closure) :=
  maintains_onHeap fun _ later kept =>
    inv.allocClosure kept (inv.atom_mono later body) (inv.atom_mono later scope)

/-- A value may be stored in a record whose contents may change. -/
theorem maintains_define {id : RecordId} (known : (Kind.ownRecord inv).holds base id)
    (name : String) {value : Atom} (stored : inv.atom base value) :
    Maintains (.any inv Unit) base (define id name value) := by
  refine maintains_modifyHeap fun after later kept => ?_
  obtain ⟨known, owned⟩ := (Kind.ownRecord inv).mono later known
  refine inv.modifyRecord kept owned (fun held mem => ?_) (inv.parent kept known) rfl
  rcases Record.mem_values_insert mem with rfl | before
  · exact inv.atom_mono later stored
  · exact inv.value kept known held before

theorem maintains_tick : Maintains (.any inv Unit) base tick := by
  intro machine _ kept
  unfold tick
  rw [outcome_bind_of_ok (outcome_modify _ machine), outcome_bind_of_ok (outcome_get _)]
  split
  · split
    · exact ⟨inv.refl _, kept, nofun⟩
    · exact ⟨inv.refl _, kept, fun _ _ => trivial⟩
  · exact ⟨inv.refl _, kept, fun _ _ => trivial⟩

theorem Maintains.orUndefined {action : EvalM α} (maintains : Maintains values base action)
    (error : EvalError) : Maintains values base (action.orUndefined error) := by
  refine Maintains.tryCatch maintains fun stop => ?_
  split
  · exact maintains_fail error
  · exact maintains_throw _

theorem Maintains.withScope {scope : RecordId} (known : inv.atom base (.record scope))
    {action : EvalM α} (maintains : Maintains values base action) :
    Maintains values base (withScope scope action) := by
  intro machine later kept
  obtain ⟨grows, inside, given⟩ :=
    maintains { machine with scope } later ⟨kept.1, inv.atom_mono later known⟩
  exact ⟨grows, ⟨inside.1, inv.atom_mono grows kept.2⟩, given⟩

theorem Maintains.withChildScope {action : RecordId → EvalM α}
    (maintains : ∀ after, inv.later base after → ∀ scope,
      (Kind.ownRecord inv).holds after scope → Maintains values after (action scope)) :
    Maintains values base (withChildScope action) := by
  refine maintains_scope.bind fun after later parent known => ?_
  have noValues : ∀ value ∈ (Record.childOf parent).values, inv.atom after value :=
    List.forall_mem_nil _
  have parents : ∀ id ∈ (Record.childOf parent).parent, inv.atom after (.record id) := by
    intro id same
    cases same
    exact known
  refine (maintains_allocRecord noValues parents).bind fun last grows child owned => ?_
  exact (maintains last (inv.trans later grows) child owned).withScope owned.1

end EvalM

/-- Whether an evaluator keeps an invariant and gives atoms that programs get hold of. -/
def Evaluator.Maintains (inv : Invariant) (evaluator : Evaluator) : Prop :=
  ∀ base atom, inv.atom base atom → EvalM.Maintains (.atoms inv) base (evaluator.eval atom)

/-- Whether a builtin keeps an invariant, given arguments that programs get hold of. -/
def Native.Maintains (inv : Invariant) (native : Native) : Prop :=
  ∀ evaluator, evaluator.Maintains inv → ∀ base arguments,
    (∀ argument ∈ arguments, inv.atom base argument) →
      EvalM.Maintains (.atoms inv) base (native evaluator arguments)

/-- Whether all builtins keep an invariant. -/
def Registry.Maintains (inv : Invariant) (registry : Registry) : Prop :=
  ∀ builtin ∈ registry.builtins, builtin.native.Maintains inv

namespace Evaluator

open EvalM

variable {inv : Invariant} {evaluator : Evaluator} {base : Heap}

/-- Operands, and items of expanded lists. -/
def actuals (inv : Invariant) : inv.Kind Actual :=
  (Kind.atoms inv).view fun
    | .raw atom => atom
    | .value atom => atom

namespace Maintains

section Operands

variable (maintains : evaluator.Maintains inv)
include maintains

/-! ## Operands -/

omit maintains in
theorem known_append {α : Type} {kind : inv.Kind α} {front back : List α}
    (first : kind.list.holds base front) (second : kind.list.holds base back) :
    kind.list.holds base (front ++ back) :=
  fun item mem => (List.mem_append.mp mem).elim (first item) (second item)

theorem splice {operands : List Atom} (known : ∀ operand ∈ operands, inv.atom base operand)
    (callee : String) (position : Nat) :
    EvalM.Maintains (actuals inv).list base (evaluator.splice callee position operands) := by
  induction operands generalizing base position with
  | nil => exact maintains_pure (List.forall_mem_nil _)
  | cons operand operands ih =>
      obtain ⟨first, others⟩ := List.forall_mem_cons.mp known
      have goesOn {after : Heap} (later : inv.later base after) {front : List Actual}
          (known : (actuals inv).list.holds after front) :
          EvalM.Maintains (actuals inv).list after (do
            return front ++ (← evaluator.splice callee (position + 1) operands)) := by
        refine (ih (fun other mem => inv.atom_mono later (others other mem)) _).map
          fun last grows back others => ?_
        exact known_append ((actuals inv).list.mono grows known) others
      simp only [Evaluator.splice]
      split
      · refine (maintains base operand first).bind fun after later expanded known => ?_
        split
        · rename_i items found
          refine goesOn later fun actual mem => ?_
          obtain ⟨item, inside, rfl⟩ := List.mem_map.mp mem
          exact items_of_list? known found item inside
        · have stops : EvalM.Maintains (actuals inv).list after (EvalM.fail
            (.argument callee position "list to expand" expanded.typeName)) := maintains_fail _
          exact stops.bind fun last grows front known => goesOn (inv.trans later grows) known
      · exact goesOn (inv.refl base) (List.forall_mem_singleton.mpr first)

theorem convert (convention : Convention) {actual : Actual}
    (known : (actuals inv).holds base actual) :
    EvalM.Maintains (.atoms inv) base (evaluator.convert convention actual) := by
  cases actual with
  | value atom => exact maintains_pure known
  | raw atom =>
      cases convention with
      | evaluated => exact maintains base atom known
      | quoted => exact maintains_pure known

/-- What is bound to the formals are atoms that programs get hold of. -/
theorem bindOperands (callee : String) (signature : Signature) {operands : List Atom}
    (known : ∀ operand ∈ operands, inv.atom base operand) :
    EvalM.Maintains (Kind.atoms inv).list base
      (evaluator.bindOperands callee signature operands) := by
  refine (maintains.splice known callee 1).bind fun after _ actuals' known => ?_
  split
  · exact maintains_fail _
  · have fixed : EvalM.Maintains (Kind.atoms inv).list after
        (evaluator.convertFixed signature.fixed actuals') := by
      refine maintains_mapM fun last grows item mem => ?_
      exact maintains.convert _ ((actuals inv).mono grows (known _ (List.of_mem_zip mem).2))
    refine fixed.bind fun last grows arguments bound => ?_
    split
    · exact maintains_pure bound
    · rename_i param _
      have others : EvalM.Maintains (Kind.atoms inv).list last
          (evaluator.convertRest param (actuals'.drop signature.fixed.length)) := by
        refine maintains_mapM fun final growsOn actual mem => ?_
        exact maintains.convert _ ((actuals inv).mono (inv.trans grows growsOn)
          (known _ (List.mem_of_mem_drop mem)))
      refine others.map fun final growsOn rest collected => ?_
      refine known_append ((Kind.atoms inv).list.mono growsOn bound) ?_
      exact List.forall_mem_singleton.mpr (inv.list collected)

/-! ## Atoms of each kind -/

theorem fields {fields : Fields} (known : (Kind.fields inv).holds base fields) :
    EvalM.Maintains (Kind.fields inv) base (evaluator.fields fields) := by
  refine maintains_mapM fun after later field mem => ?_
  exact (maintains after field.2 (inv.atom_mono later (known field mem))).map
    fun _ _ _ known => known

omit maintains in
theorem lookup (name : String) : EvalM.Maintains (.atoms inv) base (Evaluator.lookup name) := by
  refine maintains_get fun machine later kept => ?_
  split
  · exact maintains_pure (Invariant.atom_of_lookup? kept.1 kept.2 ‹_›)
  · exact maintains_fail _

omit maintains in
/-- A record that is filled with fields of which all is known. -/
theorem values_insertAll {record : Record} {fields : Fields}
    (values : ∀ value ∈ record.values, inv.atom base value)
    (known : (Kind.fields inv).holds base fields) :
    ∀ value ∈ (record.insertAll fields).values, inv.atom base value := by
  intro value mem
  rcases Record.mem_values_insertAll mem with before | stored
  · exact values value before
  · obtain ⟨field, inside, rfl⟩ := List.mem_map.mp stored
    exact known field inside

theorem record {id : RecordId} (known : inv.atom base (.record id)) :
    EvalM.Maintains (.atoms inv) base (evaluator.record id) := by
  refine maintains_heap fun after later kept => ?_
  have held : (Kind.fields inv).holds after (after.record id).fields := fun field mem =>
    inv.value kept (inv.atom_mono later known) field.2 (List.mem_map_of_mem mem)
  refine (maintains.fields held).bind fun last grows fields evaluated => ?_
  have noValues : ∀ value ∈ Record.empty.values, inv.atom last value := List.forall_mem_nil _
  refine (maintains_allocRecord (values_insertAll noValues evaluated) ?_).map fun _ _ _ known =>
    known.1
  rw [Record.parent_insertAll]
  exact nofun

theorem fieldName {field : Atom} (known : inv.atom base field) :
    EvalM.Maintains (.any inv String) base (evaluator.fieldName field) := by
  have computed : EvalM.Maintains (.any inv String) base (fieldName.computed evaluator field) := by
    refine (maintains base field known).bind fun after _ value _ => ?_
    split
    · exact maintains_pure trivial
    · exact maintains_fail _
  unfold Evaluator.fieldName
  split
  · split
    · exact computed
    · exact maintains_pure trivial
  · exact computed

theorem access {target field : Atom} (targetKnown : inv.atom base target)
    (fieldKnown : inv.atom base field) :
    EvalM.Maintains (.atoms inv) base (evaluator.access target field) := by
  refine (maintains base target targetKnown).bind fun after later target known => ?_
  split
  · exact maintains_fail _
  · rename_i id found
    refine (maintains.fieldName (inv.atom_mono later fieldKnown)).bind fun last grows name _ => ?_
    refine maintains_heap fun final growsOn kept => maintains_pure ?_
    cases value : final.lookup? id name with
    | none => exact inv.nil final
    | some value =>
        have isRecord : inv.atom after (.record id) := record_of_record? known found
        exact atom_of_lookup? kept (inv.atom_mono (inv.trans grows growsOn) isRecord) ‹_›

/-! ## Calls -/

omit maintains in
/-- A new child of a scope with given bindings. -/
theorem openChild {parent : RecordId} (isScope : inv.atom base (.record parent)) {fields : Fields}
    (known : (Kind.fields inv).holds base fields) :
    EvalM.Maintains (.ownRecord inv) base
      (allocRecord ((Record.childOf parent).insertAll fields)) := by
  have noValues : ∀ value ∈ (Record.childOf parent).values, inv.atom base value :=
    List.forall_mem_nil _
  refine maintains_allocRecord (values_insertAll noValues known) fun id same => ?_
  rw [Record.parent_insertAll] at same
  cases same
  exact isScope

theorem apply {id : FunctionId} (isFunction : inv.atom base (.function id)) (label : String)
    {operands : List Atom} (known : ∀ operand ∈ operands, inv.atom base operand) :
    EvalM.Maintains (.atoms inv) base (evaluator.apply id label operands) := by
  refine maintains_heap fun after later kept => ?_
  have isFunction := inv.atom_mono later isFunction
  have body := inv.body kept isFunction
  have scope := inv.scope kept isFunction
  have known := (Kind.atoms inv).list.mono later known
  refine (maintains.bindOperands label _ known).bind fun last grows arguments bound => ?_
  have bindings : (Kind.fields inv).holds last
      (((after.closure id).signature.params.map Param.name).zip arguments) :=
    fun binding mem => bound _ (List.of_mem_zip mem).2
  refine (openChild (inv.atom_mono grows scope) bindings).bind fun final growsOn frame owned => ?_
  exact (maintains final _ (inv.atom_mono (inv.trans grows growsOn) body)).withScope owned.1

theorem callee {head : Atom} (known : inv.atom base head) :
    EvalM.Maintains (.atoms inv) base (evaluator.callee head) := by
  unfold Evaluator.callee
  split
  · exact (maintains base head known).orUndefined _
  · exact maintains base head known

theorem call {registry : Registry} (builtins : registry.Maintains inv) {items : List Atom}
    (known : ∀ item ∈ items, inv.atom base item) :
    EvalM.Maintains (.atoms inv) base (evaluator.call registry items) := by
  cases items with
  | nil => exact maintains_fail _
  | cons head operands =>
      obtain ⟨first, others⟩ := List.forall_mem_cons.mp known
      simp only [Evaluator.call]
      split
      · rename_i builtin found
        obtain ⟨name, _, found⟩ := Option.bind_eq_some_iff.mp found
        refine (maintains.bindOperands _ _ others).bind fun after _ arguments bound => ?_
        exact builtins builtin (mem_of_get? found) evaluator maintains after arguments bound
      · refine (maintains.callee first).bind fun after later callee known => ?_
        split
        · rename_i id found
          exact maintains.apply (function_of_function? known found) _
            ((Kind.atoms inv).list.mono later others)
        · exact maintains_fail _

theorem contents {registry : Registry} (builtins : registry.Maintains inv) {atom : Atom}
    (known : inv.atom base atom) :
    EvalM.Maintains (.atoms inv) base (evaluator.contents registry atom) := by
  unfold Evaluator.contents
  split
  · exact maintains_pure (inv.unmarked known)
  · split
    · exact lookup _
    · exact maintains.record (inv.unmarked known)
    · exact maintains_pure (inv.unmarked known)
    · exact maintains.call builtins (inv.item known)
    · exact maintains.access (inv.target known) (inv.field known)

end Operands

end Maintains

end Evaluator

/-- Evaluation with builtins that keep an invariant keeps it. -/
theorem Registry.Maintains.evaluator {inv : Invariant} {registry : Registry}
    (builtins : registry.Maintains inv) (fuel : Nat) : (registry.evaluator fuel).Maintains inv := by
  induction fuel with
  | zero => exact fun _ _ _ => maintains_throw _
  | succ fuel ih =>
      intro base atom known
      refine EvalM.maintains_tick.bind fun after later _ _ => ?_
      exact ih.contents builtins (inv.atom_mono later known)

end RecordLisp
