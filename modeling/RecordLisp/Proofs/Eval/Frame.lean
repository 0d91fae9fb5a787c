import RecordLisp.Proofs.Builtin.Invariant
import RecordLisp.Proofs.Heap.Recycling
import RecordLisp.Proofs.Source.Invariant

/-!
# What evaluation leaves alone

Calls, scopes and traversals make records and bind names in them, over and over again and in any
nesting. But they only ever change records that they have made themselves: without the six builtins
that change objects, whatever was in use before an evaluation is in use after it, with the same
contents.
-/

namespace RecordLisp

open Effect

/-- The invariant that what is in use in a heap stays as it is. Only what is not in use there may
change. -/
def Heap.frame (base : Heap) : Invariant where
  heap := base.Keeps
  atom _ _ := True
  later heap after := ∀ handle, heap.HasSlot handle → after.HasSlot handle
  owned _ handle := ¬ base.InUse handle
  refl _ _ slot := slot
  trans first second handle slot := second handle (first handle slot)
  atom_mono _ _ := trivial
  owned_mono _ new := new
  leaf _ := trivial
  unmarked _ := trivial
  item _ _ _ := trivial
  list _ := trivial
  target _ := trivial
  field _ := trivial
  value _ _ _ _ := trivial
  parent _ _ _ _ := trivial
  body _ _ := trivial
  scope _ _ := trivial
  allocRecord {heap record} keeps _ _ := by
    refine ⟨keeps.trans (heap.keeps_allocRecord record), fun _ slot => ?_, trivial, fun used => ?_⟩
    · exact Heap.hasSlot_allocRecord_iff.mpr (.inr slot)
    · exact heap.not_hasRecord_allocRecord record (keeps.hasRecord _ used)
  allocClosure {heap closure} keeps _ _ := by
    refine ⟨keeps.trans (heap.keeps_allocClosure closure), fun _ slot => ?_, trivial⟩
    exact Heap.hasSlot_allocClosure_iff.mpr (.inr slot)
  modifyRecord keeps new _ _ _ :=
    ⟨keeps.modifyRecord new _, fun _ slot => Heap.hasSlot_modifyRecord_iff.mpr slot⟩
  setScope keeps new _ :=
    ⟨keeps.modifyClosure new _, fun _ slot => Heap.hasSlot_modifyClosure_iff.mpr slot⟩

/-- Nothing is asked of the atoms of source text. -/
def Heap.frameText (base : Heap) : base.frame.Text where
  kind := .any _ Atom
  atom _ := trivial
  leaf _ := trivial
  list _ := trivial
  item _ _ _ := trivial
  join _ _ _ _ := trivial
  mark _ _ _ _ := trivial
  record _ _ _ _ := trivial

/-- All builtins but those that change objects which are there already. -/
def Pack.withoutMutators : Pack := all.filter fun entry => entry.1 ∉ mutators

theorem Registry.DrawnFrom.maintains_frame {registry : Registry}
    (drawn : registry.DrawnFrom Pack.withoutMutators) (base : Heap) :
    registry.Maintains base.frame := by
  intro builtin mem
  obtain ⟨declaration, entry⟩ := drawn builtin mem
  obtain ⟨entry, harmless⟩ := List.mem_filter.mp entry
  refine Pack.maintains_all base.frameText.reads entry fun mutates => ?_
  exact absurd mutates (of_decide_eq_true harmless)

/-- Without the builtins that change objects, an evaluation of any atom in any state, whatever comes
of it, leaves all records and functions in use as they are, and only adds slots. -/
theorem Registry.evaluation_frames {registry : Registry}
    (drawn : registry.DrawnFrom Pack.withoutMutators) (fuel : Nat) (machine : Machine)
    (atom : Atom) :
    let after := (outcome (registry.eval fuel atom) machine).2.heap
    machine.heap.Keeps after ∧ ∀ handle, machine.heap.HasSlot handle → after.HasSlot handle := by
  have maintains := (drawn.maintains_frame machine.heap).evaluator fuel machine.heap atom trivial
  obtain ⟨later, ⟨keeps, _⟩, _⟩ := maintains machine (fun _ slot => slot) ⟨.refl _, trivial⟩
  exact ⟨keeps, later⟩

/-- A traversal that copies the active scope in its first round and fails in its second. -/
theorem Registry.evaluation_frames_failing_traversal :
    let registry := (Registry.empty.registerAll (Pack.withoutMutators.filter fun entry =>
      entry.1 ∈ ["map 'x list 'code", "with record '+vars"])).2
    let machine := Machine.fresh none .empty .least
    let items := Atom.list .quote [.record machine.scope, .integer .one]
    let copy := Atom.ofList [.token "with", .token "x", .ofList [.token "y", .token "x"]]
    let ran := outcome (registry.eval 9 (.ofList [.token "map", .token "x", items, copy])) machine
    registry.DrawnFrom Pack.withoutMutators ∧ ran.1.isOk = false ∧ ran.2.heap.slotCount = 3 ∧
      machine.heap.Keeps ran.2.heap ∧
      ∀ handle, machine.heap.HasSlot handle → ran.2.heap.HasSlot handle := by
  intro registry machine items copy ran
  have drawn : registry.DrawnFrom Pack.withoutMutators :=
    (Registry.drawnFrom_empty _).registerAll fun _ mem => (List.mem_filter.mp mem).1
  have ends : ran.1.isOk = false ∧ ran.2.heap.slotCount = 3 := by decide +kernel
  exact ⟨drawn, ends.1, ends.2, Registry.evaluation_frames drawn 9 machine _⟩

end RecordLisp
