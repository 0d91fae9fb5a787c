import RecordLisp.Proofs.Eval.Core
import RecordLisp.Proofs.Heap.Ancestry

/-!
# Assignment

Assigning a variable overwrites one entry of one record: that of the nearest scope that has the
name. An overwritten entry keeps its place, so no other lookup can notice the change, and searches
that climb the parents go the same way as before.
-/

namespace RecordLisp

namespace Record

variable {record : Record} {name : String}

theorem contains_iff : record.contains name = true ↔ name ∈ record.names := by
  rw [contains_eq, get?_eq]
  exact Fields.isSome_get?_iff record.fields name

theorem ne_empty_of_contains (present : record.contains name = true) : record ≠ .empty := by
  rintro rfl
  cases present

theorem names_insert_of_contains (value : Atom) (present : record.contains name = true) :
    (record.insert name value).names = record.names := by
  rw [names, fields_insert]
  exact Fields.names_put_of_mem value (contains_iff.mp present)

end Record

namespace Heap

/-- Whether a heap differs from another in one value only, which is stored under a name that was
there. -/
structure Overwrites (heap : Heap) (scope : RecordId) (name : String) (value : Atom)
    (after : Heap) : Prop where
  stored : (after.record scope).get? name = some value
  others : ∀ id key, id ≠ scope ∨ key ≠ name →
    (after.record id).get? key = (heap.record id).get? key
  names : ∀ id, (after.record id).names = (heap.record id).names
  parent : ∀ id, (after.record id).parent = (heap.record id).parent
  literal : ∀ id, (after.record id).literal = (heap.record id).literal
  hasRecord : ∀ id, after.HasRecord id ↔ heap.HasRecord id
  closures : after.closures = heap.closures
  freeClosures : after.freeClosures = heap.freeClosures

variable {heap after : Heap} {start scope : RecordId} {name : String} {value : Atom}

theorem overwrites_insert (value : Atom) (present : (heap.record scope).contains name = true) :
    heap.Overwrites scope name value (heap.insert scope name value) := by
  have inRange := inRange_of_record_ne_empty (Record.ne_empty_of_contains present)
  have here : (heap.insert scope name value).record scope = (heap.record scope).insert name value :=
    record_modifyRecord_self heap _ inRange
  have elsewhere {id : RecordId} (different : id ≠ scope) :
      (heap.insert scope name value).record id = heap.record id :=
    record_modifyRecord_of_ne heap _ different
  constructor
  case stored =>
    rw [here]
    exact Record.get?_insert_self _ name value
  case others =>
    intro id key different
    by_cases same : id = scope
    · subst same
      rw [here]
      exact Record.get?_insert_of_ne _ value (different.resolve_left (absurd rfl))
    · rw [elsewhere same]
  case names =>
    intro id
    by_cases same : id = scope
    · subst same
      rw [here]
      exact Record.names_insert_of_contains value present
    · rw [elsewhere same]
  case parent | literal =>
    intro id
    by_cases same : id = scope
    · subst same
      rw [here]
      rfl
    · rw [elsewhere same]
  case hasRecord =>
    intro id
    exact hasRecord_modifyRecord_iff
  case closures | freeClosures => rfl

namespace Overwrites

variable (overwrites : heap.Overwrites scope name value after)
include overwrites

theorem contains_eq (id : RecordId) (key : String) :
    (after.record id).contains key = (heap.record id).contains key := by
  apply Bool.eq_iff_iff.mpr
  rw [Record.contains_iff, Record.contains_iff, overwrites.names id]

/-- The same record is the nearest with a name as before. -/
theorem nearest_iff {key : String} {id : RecordId} :
    after.Nearest start key id ↔ heap.Nearest start key id := by
  simp only [Nearest, climb_congr overwrites.parent, overwrites.contains_eq]

/-- Where the record that changed is the nearest with the name, the name has the new value. -/
theorem lookup?_eq (nearest : heap.Nearest start name scope) :
    after.lookup? start name = some value := by
  rw [lookup?_eq_bind_declaring?, declaring?_eq_some_iff.mpr (overwrites.nearest_iff.mpr nearest)]
  exact overwrites.stored

end Overwrites

end Heap

open Effect

namespace Builtin

variable {modifier : Modifier} {name : String} {value : Atom} {machine : Machine}

/-- The name is looked for before anything else is done. -/
theorem outcome_assign :
    outcome (assign (.leaf modifier (.token name)) value) machine =
      outcome ((machine.heap.declaring? machine.scope name).elim
        (EvalM.fail (.undefinedVariable name))
        fun scope => EvalM.define scope name value >>= fun _ => pure value) machine := by
  have named :
      outcome (liftM (ArgumentPlace.token ⟨"let", 1⟩ (.leaf modifier (.token name))) : EvalM String)
        machine = (.ok name, machine) := rfl
  have heap : outcome EvalM.heap machine = (.ok machine.heap, machine) := rfl
  have scope : outcome EvalM.scope machine = (.ok machine.scope, machine) := rfl
  rw [assign, outcome_bind_of_ok named, outcome_bind_of_ok heap, outcome_bind_of_ok scope]
  cases machine.heap.declaring? machine.scope name <;> rfl

theorem outcome_assign_of_nearest {scope : RecordId}
    (nearest : machine.heap.Nearest machine.scope name scope) :
    outcome (assign (.leaf modifier (.token name)) value) machine =
      (.ok value, { machine with heap := machine.heap.insert scope name value }) := by
  rw [outcome_assign, Heap.declaring?_eq_some_iff.mpr nearest]
  rfl

theorem outcome_assign_of_undeclared
    (undeclared : machine.heap.declaring? machine.scope name = none) :
    outcome (assign (.leaf modifier (.token name)) value) machine =
      (.error (.fault (.undefinedVariable name)), machine) := by
  rw [outcome_assign, undeclared]
  rfl

end Builtin

/-- `let` takes its name as written and the value of its second operand. When climbing the parents
of the active scope meets a record with the name, the nearest of them gets the value under the name,
which is found there from then on, and nothing else changes anywhere. When there is none, the
variable is not defined, and nothing changes at all. -/
theorem Registry.let_overwrites_nearest {registry : Registry} (core : registry.Has Pack.core)
    (evaluator : Evaluator) (machine : Machine) (modifier : Modifier) (name : String)
    (value : Atom) :
    ∃ builtin, registry.get? "let" = some builtin ∧
      builtin.signature.params = [⟨"name", .quoted, none⟩, ⟨"value", .evaluated, none⟩] ∧
      let ran := outcome (builtin.native evaluator [.leaf modifier (.token name), value]) machine
      let declares := ∃ steps id, machine.heap.climb steps (some machine.scope) = some id ∧
        (machine.heap.record id).contains name = true
      (declares → ∃ scope after, machine.heap.Nearest machine.scope name scope ∧
        ran = (.ok value, { machine with heap := after }) ∧
        machine.heap.Overwrites scope name value after ∧
        after.lookup? machine.scope name = some value) ∧
      (¬ declares → ran = (.error (.fault (.undefinedVariable name)), machine)) := by
  obtain ⟨builtin, found, formals, works⟩ := core.find "let 'name value" "let"
    [⟨"name", .quoted, none⟩, ⟨"value", .evaluated, none⟩] (by simp [Pack.core]; rfl) (by decide)
  refine ⟨builtin, found, formals, ?_⟩
  intro ran declares
  have assigns : ran = outcome (Builtin.assign (.leaf modifier (.token name)) value) machine :=
    congrArg (fun native : Native => outcome (native evaluator _) machine) works
  constructor
  · intro declared
    cases search : machine.heap.declaring? machine.scope name with
    | none =>
        obtain ⟨steps, id, reached, has⟩ := declared
        rw [Heap.declaring?_eq_none_iff.mp search steps id reached] at has
        cases has
    | some scope =>
        have nearest := Heap.declaring?_eq_some_iff.mp search
        have overwrites := Heap.overwrites_insert value nearest.contains
        have result := assigns.trans (Builtin.outcome_assign_of_nearest nearest)
        exact ⟨scope, _, nearest, result, overwrites, overwrites.lookup?_eq nearest⟩
  · intro undeclared
    have search : machine.heap.declaring? machine.scope name = none := by
      apply Heap.declaring?_eq_none_iff.mpr
      intro steps id reached
      by_contra has
      exact undeclared ⟨steps, id, reached, by simpa using has⟩
    exact assigns.trans (Builtin.outcome_assign_of_undeclared search)

/-- Two scopes that are each other's parents: a variable of the outer one is assigned, and one that
neither has is not defined. -/
theorem Registry.let_overwrites_nearest_cyclic :
    let registry := (Registry.empty.registerAll Pack.core).2
    let inner := (Heap.empty.allocRecord (.childOf ⟨1⟩)).2
    let heap := (inner.allocRecord ((Record.childOf ⟨0⟩).insert "x" .nil)).2
    let machine := { Machine.fresh none .empty .least with heap }
    let ran name := (registry.get? "let").map fun builtin =>
      outcome (builtin.native (registry.evaluator 1) [.token name, .boolean true]) machine
    registry.Has Pack.core ∧
      (∃ after, ran "x" = some (.ok (.boolean true), { machine with heap := after }) ∧
        heap.Overwrites ⟨1⟩ "x" (.boolean true) after ∧
        after.lookup? ⟨0⟩ "x" = some (.boolean true)) ∧
      ran "y" = some (.error (.fault (.undefinedVariable "y")), machine) := by
  intro registry inner heap machine ran
  have core : registry.Has Pack.core := Registry.has_registerAll (by decide +kernel)
  have nearest : heap.Nearest ⟨0⟩ "x" ⟨1⟩ := Heap.declaring?_eq_some_iff.mp (by decide)
  have absent := Heap.declaring?_eq_none_iff.mp (show heap.declaring? ⟨0⟩ "y" = none by decide)
  refine ⟨core, ?_, ?_⟩
  · obtain ⟨builtin, found, _, assigned, _⟩ :=
      let_overwrites_nearest core (registry.evaluator 1) machine .plain "x" (.boolean true)
    have declared := nearest
    obtain ⟨steps, reached, has, _⟩ := declared
    obtain ⟨scope, after, isNearest, result, overwrites, lookup⟩ :=
      assigned ⟨steps, ⟨1⟩, reached, has⟩
    cases isNearest.unique nearest
    exact ⟨after, by simp [ran, found, result], overwrites, lookup⟩
  · obtain ⟨builtin, found, _, _, refused⟩ :=
      let_overwrites_nearest core (registry.evaluator 1) machine .plain "y" (.boolean true)
    have undeclared := refused fun ⟨steps, id, reached, has⟩ => by
      rw [absent steps id reached] at has
      cases has
    simp [ran, found, undeclared]

end RecordLisp
