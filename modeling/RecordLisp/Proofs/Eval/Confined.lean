import RecordLisp.Proofs.Builtin.Drawn
import RecordLisp.Proofs.Eval.Core
import RecordLisp.Proofs.Eval.Gas

/-!
# Registries confined to a pack

A host may add builtins that do anything at all: they may count fuel, take steps back or stop for
want of fuel. What holds for evaluations with the builtins of the packs can still be used for
programs that call no others. A registry confined to a pack fails instead of doing the work of a
builtin that is not from the pack, and an evaluation that does not fail in this way is one with the
registry itself.
-/

namespace RecordLisp

open Effect

/-- The failure of a builtin that is left out. -/
def Native.leftOut : Native := fun _ _ => EvalM.fail (.runtime "left out")

/-- A stop that says nothing of the evaluation with all builtins. -/
def Stop.IsLeftOut (stop : Stop) : Prop := stop = .outOfFuel ∨ stop = .fault (.runtime "left out")

open Classical in
/-- A builtin, left out unless its work is from a pack. -/
noncomputable def Builtin.confinedTo (pack : Pack) (builtin : Builtin) : Builtin :=
  if ∃ declaration, (declaration, builtin.native) ∈ pack then builtin
  else { builtin with native := .leftOut }

theorem Builtin.name_confinedTo (pack : Pack) (builtin : Builtin) :
    (builtin.confinedTo pack).name = builtin.name := by
  unfold confinedTo
  split <;> rfl

/-- The same builtins, without those that are not from a pack. -/
noncomputable def Registry.confinedTo (registry : Registry) (pack : Pack) : Registry :=
  registry.map (Builtin.confinedTo pack) (Builtin.name_confinedTo pack)

theorem EvalM.congruence_leftOut : Congruence (Foretells Stop.IsLeftOut) :=
  congruence_foretells (.inl rfl) (by rintro error _ (rfl | rfl) <;> rfl)

namespace Builtin

variable {pack : Pack} {builtin : Builtin}

theorem confinedTo_of_mem {declaration : String} (mem : (declaration, builtin.native) ∈ pack) :
    builtin.confinedTo pack = builtin :=
  if_pos ⟨declaration, mem⟩

theorem signature_confinedTo (pack : Pack) (builtin : Builtin) :
    (builtin.confinedTo pack).signature = builtin.signature := by
  unfold confinedTo
  split <;> rfl

variable (composed : ∀ entry ∈ pack, entry.2.Composed)
include composed

theorem composed_confinedTo (builtin : Builtin) : (builtin.confinedTo pack).native.Composed := by
  unfold confinedTo
  split
  · rename_i found
    obtain ⟨_, mem⟩ := found
    exact composed _ mem
  · exact fun _ => .fail _

theorem related_confinedTo {evaluator other : Evaluator}
    (related : Evaluator.Related (EvalM.Foretells Stop.IsLeftOut) evaluator other)
    (builtin : Builtin) :
    Builtin.Related (EvalM.Foretells Stop.IsLeftOut) evaluator other (builtin.confinedTo pack)
      builtin := by
  refine ⟨name_confinedTo pack builtin, signature_confinedTo pack builtin, fun arguments => ?_⟩
  unfold confinedTo
  split
  · rename_i found
    obtain ⟨_, mem⟩ := found
    exact (composed _ mem arguments).respects EvalM.congruence_leftOut related
  · exact fun _ ended => absurd rfl (ended _ (.inr rfl))

end Builtin

namespace Registry

open EvalM

variable {registry : Registry} {pack : Pack}

theorem get?_confinedTo (registry : Registry) (pack : Pack) (name : String) :
    (registry.confinedTo pack).get? name = (registry.get? name).map (Builtin.confinedTo pack) :=
  registry.get?_map _ (Builtin.name_confinedTo pack) name

/-- The builtins of the pack are found as before. -/
theorem Has.confinedTo (has : registry.Has pack) : (registry.confinedTo pack).Has pack := by
  intro declaration native mem name signature read
  have known : (⟨name, signature, native⟩ : Builtin).confinedTo pack = ⟨name, signature, native⟩ :=
    Builtin.confinedTo_of_mem mem
  rw [get?_confinedTo, has declaration native mem name signature read, Option.map_some, known]

variable (composed : ∀ entry ∈ pack, entry.2.Composed)
include composed

theorem composed_confinedTo (registry : Registry) : (registry.confinedTo pack).Composed := by
  intro builtin mem
  obtain ⟨builtin, _, rfl⟩ := List.mem_map.mp mem
  exact builtin.composed_confinedTo composed

/-- An evaluation that calls no builtin that is left out is one with all builtins. -/
theorem foretells_confinedTo (registry : Registry) (fuel : Nat) :
    Evaluator.Related (Foretells Stop.IsLeftOut) ((registry.confinedTo pack).evaluator fuel)
      (registry.evaluator fuel) := by
  refine related_evaluator congruence_leftOut (fun evaluator other related name => ?_)
    (.refl tick) fuel
  rw [get?_confinedTo]
  cases registry.get? name with
  | none => exact .none
  | some builtin => exact .some (builtin.related_confinedTo composed related)

/-- On a machine whose limit leaves fewer steps than `fuel`, what an evaluation that calls no
builtin that is left out does with more fuel it does already with this fuel, and with all
builtins. -/
theorem eval_eq_confinedTo {fuel more : Nat} (le : fuel ≤ more) {atom : Atom} {machine : Machine}
    {limit : UInt64} (limited : machine.gasLimit = some limit)
    (counts : limit.toNat + 1 < UInt64.size) (below : machine.steps ≤ limit.toNat)
    (enough : limit.toNat < machine.steps + fuel)
    (ended : (outcome ((registry.confinedTo pack).eval more atom) machine).1 ≠
      .error (.fault (.runtime "left out"))) :
    outcome (registry.eval fuel atom) machine =
      outcome ((registry.confinedTo pack).eval more atom) machine := by
  have builtins := registry.composed_confinedTo composed
  have finished := builtins.ends atom limited counts below enough
  have same := builtins.approximates le atom machine finished
  rw [same] at ended ⊢
  refine (registry.foretells_confinedTo composed fuel).eval atom machine ?_
  rintro stop (rfl | rfl)
  · exact finished
  · exact ended

/-- Whatever fuel a program needs, there is an evaluation with at least as much and with the
builtins of the pack that does the same as the evaluation on a machine, unless it calls others: its
own bound is out of reach when gas can run out, and has to suffice otherwise. -/
theorem exists_enough (has : registry.Has pack) {machine : Machine} {needed : Nat}
    (below : ∀ limit, machine.gasLimit = some limit → machine.steps ≤ limit.toNat)
    (deep : ¬ machine.RunsOut → needed < machine.fuel) :
    ∃ (confined : Registry) (fuel : Nat), confined.Has pack ∧ needed < fuel ∧ ∀ atom,
      (outcome (confined.eval fuel atom) machine).1 ≠ .error (.fault (.runtime "left out")) →
        outcome (registry.eval machine.fuel atom) machine =
          outcome (confined.eval fuel atom) machine := by
  by_cases runsOut : machine.RunsOut
  · obtain ⟨limit, limited, counts⟩ := runsOut
    have below := below limit limited
    refine ⟨registry.confinedTo pack, max machine.fuel (needed + 1), has.confinedTo, by omega, ?_⟩
    exact fun atom => eval_eq_confinedTo composed (by omega) limited counts below
      (machine.lt_steps_add_fuel limited below)
  · exact ⟨registry, machine.fuel, has, deep runsOut, fun _ _ => rfl⟩

end Registry

end RecordLisp
