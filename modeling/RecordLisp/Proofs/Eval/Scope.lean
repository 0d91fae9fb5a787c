import RecordLisp.Proofs.Builtin.Composed

/-!
# The active scope

Calls, bindings and traversals evaluate code in other scopes. Whatever an evaluation does and
however it ends, the active scope after it is the one before: an action in another scope is the only
way to change it, and such an action restores it on every path.
-/

namespace RecordLisp

open Effect

/-- Whether an action leaves the active scope as it was, also when it stops. -/
def EvalM.KeepsScope {α : Type} (action : EvalM α) : Prop :=
  ∀ machine, (outcome action machine).2.scope = machine.scope

namespace EvalM

theorem KeepsScope.bind {α β : Type} {first : EvalM α} {next : α → EvalM β}
    (keeps : first.KeepsScope)
    (goesOn : ∀ value, (next value).KeepsScope) : (first >>= next).KeepsScope := by
  intro machine
  have kept := keeps machine
  rw [outcome_bind]
  generalize outcome first machine = ran at kept
  obtain ⟨_ | value, after⟩ := ran
  · exact kept
  · exact (goesOn value after).trans kept

theorem KeepsScope.orUndefined {α : Type} {action : EvalM α} (keeps : action.KeepsScope)
    (error : EvalError) : (action.orUndefined error).KeepsScope := by
  intro machine
  have kept := keeps machine
  unfold EvalM.orUndefined
  rw [outcome_tryCatch]
  generalize outcome action machine = ran at kept
  obtain ⟨stop | value, after⟩ := ran
  · dsimp only
    split <;> exact kept
  · exact kept

theorem keepsScope_tick : tick.KeepsScope := by
  intro machine
  unfold tick
  rw [outcome_bind_of_ok (outcome_modify _ machine), outcome_bind_of_ok (outcome_get _)]
  split
  · split <;> rfl
  · rfl

theorem congruence_keepsScope : Congruence fun action _ => action.KeepsScope where
  stop _ := fun _ => rfl
  plain plain := plain.scope
  bind := KeepsScope.bind
  withScope _ _ _ _ := fun _ => rfl
  orUndefined error _ _ keeps := keeps.orUndefined error

end EvalM

/-- Evaluating an atom, evaluating it in another scope, calling a function and binding operands
leave the active scope as it was, with a value and with every error. -/
theorem Registry.evaluation_keeps_scope {registry : Registry} (drawn : registry.DrawnFrom Pack.all)
    (fuel : Nat) (machine : Machine) :
    (∀ atom, (outcome (registry.eval fuel atom) machine).2.scope = machine.scope) ∧
    (∀ scope atom,
      (outcome (EvalM.withScope scope (registry.eval fuel atom)) machine).2.scope = machine.scope) ∧
    (∀ id label operands,
      (outcome ((registry.evaluator fuel).apply id label operands) machine).2.scope =
        machine.scope) ∧
    (∀ callee signature operands,
      (outcome ((registry.evaluator fuel).bindOperands callee signature operands) machine).2.scope =
        machine.scope) := by
  have keeps := drawn.composed.related EvalM.congruence_keepsScope EvalM.keepsScope_tick fuel 0
  refine ⟨fun atom => keeps.eval atom machine, fun _ _ => rfl, fun id label operands => ?_,
    fun callee signature operands => ?_⟩
  · exact (Evaluator.composed_apply id label operands).respects
      EvalM.congruence_keepsScope keeps machine
  · exact (Evaluator.composed_bindOperands callee signature operands).respects
      EvalM.congruence_keepsScope keeps machine

/-- The body of a traversal fails inside a scope of its own inside the scope of the traversal. -/
theorem Registry.evaluation_keeps_scope_failing_body :
    let registry := (Registry.empty.registerAll Pack.all).2
    let machine := Machine.fresh (some 40) .empty .least
    let body := Atom.ofList [.token "using", .ofList [.token "y", .token "x"], .token "z"]
    let atom := Atom.ofList
      [.token "map", .token "x", .ofList [.token "list", .integer .zero, .nil], body]
    registry.DrawnFrom Pack.all ∧
      (outcome (registry.eval 50 atom) machine).2.scope = machine.scope ∧
      (outcome (EvalM.withScope ⟨7⟩ (registry.eval 50 atom)) machine).2.scope = machine.scope ∧
      (outcome ((registry.evaluator 50).apply ⟨3⟩ "f" [atom]) machine).2.scope = machine.scope ∧
      (outcome ((registry.evaluator 50).bindOperands "f" .empty [atom]) machine).2.scope =
        machine.scope := by
  have drawn : (Registry.empty.registerAll Pack.all).2.DrawnFrom Pack.all :=
    (Registry.drawnFrom_empty _).registerAll fun _ mem => mem
  obtain ⟨eval, evalIn, apply, bind⟩ :=
    Registry.evaluation_keeps_scope drawn 50 (Machine.fresh (some 40) .empty .least)
  exact ⟨drawn, eval _, evalIn _ _, apply _ _ _, bind _ _ _⟩

end RecordLisp
