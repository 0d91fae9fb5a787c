import RecordLisp.Proofs.Heap.Grounded
import RecordLisp.Proofs.Heap.Printing
import RecordLisp.Proofs.Heap.Recycling

/-!
# Functions do not stand in themselves

The body of a function refers to objects that were there before the function. So functions that
stand in the bodies of others form no cycle, although records lead back to functions in any way.
Slots are used again, and with them handles: the order of slots is not the order of time, and an old
reference to a slot would be one to the new function in it. There is none, because what is in use
refers to what is in use and a free slot refers to nothing.
-/

namespace RecordLisp

/-- The objects that a record shows in print. -/
def Record.shown (record : Record) : List Handle :=
  record.values.flatMap (Atom.handles fun _ => false)

/-- The objects that a closure shows in print. -/
def Closure.shown (closure : Closure) : List Handle := closure.body.handles fun _ => false

namespace Heap

variable {heap after : Heap}

/-- The objects that an object shows in print: those in its fields or in its body. -/
def shown (heap : Heap) : Handle → List Handle
  | .record id => (heap.record id).shown
  | .function id => (heap.closure id).shown

theorem shown_subset_references (heap : Heap) (handle : Handle) :
    heap.shown handle ⊆ heap.references handle := by
  cases handle with
  | record id => exact List.subset_append_right _ _
  | function id => exact List.subset_cons_self _ _

/-- Whether what is in use refers to what is in use, what is not shows nothing, and the bodies of
functions are nested. -/
structure Layered (heap : Heap) : Prop where
  closed : ∀ handle, heap.InUse handle → ∀ next ∈ heap.references handle, heap.InUse next
  cleared : ∀ handle, ¬ heap.InUse handle → heap.shown handle = []
  nested : WellFounded heap.InBody

/-- Whether everything in use stays in use. -/
def Grows (heap after : Heap) : Prop := ∀ handle, heap.InUse handle → after.InUse handle

theorem Keeps.grows (keeps : heap.Keeps after) : heap.Grows after := by
  intro handle used
  cases handle with
  | record id => exact keeps.hasRecord id used
  | function id => exact keeps.hasClosure id used

theorem inUse_modifyRecord_iff {id : RecordId} {change : Record → Record} {handle : Handle} :
    (heap.modifyRecord id change).InUse handle ↔ heap.InUse handle := by
  cases handle with
  | record other => exact hasRecord_modifyRecord_iff
  | function other => exact hasClosure_modifyRecord_iff

theorem inUse_modifyClosure_iff {id : FunctionId} {change : Closure → Closure} {handle : Handle} :
    (heap.modifyClosure id change).InUse handle ↔ heap.InUse handle := by
  cases handle with
  | record other => exact hasRecord_modifyClosure_iff
  | function other => exact hasClosure_modifyClosure_iff

namespace Layered

variable (layered : heap.Layered)
include layered

/-- What an object shows is in use. -/
theorem inUse_of_mem_shown (handle : Handle) {next : Handle} (mem : next ∈ heap.shown handle) :
    heap.InUse next := by
  by_cases used : heap.InUse handle
  · exact layered.closed handle used next (heap.shown_subset_references handle mem)
  · rw [layered.cleared handle used] at mem
    cases mem

/-- A change of one object in use, or of one that comes into use. The new contents refer to what was
in use. -/
theorem changed (target : Handle)
    (inUse_iff : ∀ handle, after.InUse handle ↔ handle = target ∨ heap.InUse handle)
    (record : ∀ id, .record id ≠ target → after.record id = heap.record id)
    (closure : ∀ id, .function id ≠ target → after.closure id = heap.closure id)
    (inUse : ∀ next ∈ after.references target, heap.InUse next)
    (nested : WellFounded after.InBody) :
    after.Layered where
  closed handle used next mem := by
    refine (inUse_iff next).mpr (.inr ?_)
    by_cases same : handle = target
    · exact inUse next (same ▸ mem)
    · have before := ((inUse_iff handle).mp used).resolve_left same
      refine layered.closed handle before next ?_
      cases handle with
      | record id => rwa [references, record id same] at mem
      | function id => rwa [references, closure id same] at mem
  cleared handle unused := by
    obtain ⟨other, before⟩ := not_or.mp ((inUse_iff handle).not.mp unused)
    rw [← layered.cleared handle before]
    cases handle with
    | record id => rw [shown, shown, record id other]
    | function id => rw [shown, shown, closure id other]
  nested := nested

/-! ## Changes of the heap -/

theorem nested_of_bodies (bodies : ∀ id, (after.closure id).body = (heap.closure id).body) :
    WellFounded after.InBody := by
  refine Subrelation.wf (fun {inner outer} inside => ?_) layered.nested
  rw [InBody, ← bodies]
  exact inside

theorem allocRecord {record : Record} (inUse : ∀ next ∈ record.references, heap.InUse next) :
    (heap.allocRecord record).2.Layered := by
  refine layered.changed (.record (heap.allocRecord record).1)
    (heap.handsOut_allocRecord record).inUse_iff
    (fun id other => record_allocRecord_of_ne fun same => other (congrArg Handle.record same))
    (fun id _ => closure_allocRecord heap record id) ?_ (layered.nested_of_bodies fun id => ?_)
  · rwa [references, record_allocRecord_self]
  · rw [closure_allocRecord]

theorem modifyRecord {id : RecordId} {change : Record → Record} (used : heap.HasRecord id)
    (inUse : ∀ next ∈ (change (heap.record id)).references, heap.InUse next) :
    (heap.modifyRecord id change).Layered := by
  refine layered.changed (.record id) (fun handle => ?_)
    (fun other different => record_modifyRecord_of_ne heap change fun same =>
      different (congrArg Handle.record same))
    (fun _ _ => rfl) ?_ (layered.nested_of_bodies fun _ => rfl)
  · rw [inUse_modifyRecord_iff]
    exact (or_iff_right_of_imp fun same => same ▸ used).symm
  · rwa [references, record_modifyRecord_self heap change used.1]

/-- A function may get another scope, since the scope does not stand in its body. -/
theorem setScope {id : FunctionId} {scope : RecordId} (used : heap.HasClosure id)
    (known : heap.HasRecord scope) :
    (heap.modifyClosure id fun closure => { closure with scope }).Layered := by
  let change (closure : Closure) : Closure := { closure with scope }
  have changed := closure_modifyClosure_self change used.1
  refine layered.changed (.function id) (fun handle => ?_) (fun _ _ => rfl)
    (fun other different => closure_modifyClosure_of_ne change fun same =>
      different (congrArg Handle.function same)) ?_ (layered.nested_of_bodies fun other => ?_)
  · rw [inUse_modifyClosure_iff]
    exact (or_iff_right_of_imp fun same => same ▸ used).symm
  · rw [references, changed]
    refine List.forall_mem_cons.mpr ⟨known, fun next inside => ?_⟩
    exact layered.closed (.function id) used next (List.mem_cons_of_mem _ inside)
  · by_cases same : other = id
    · rw [same, changed]
    · rw [closure_modifyClosure_of_ne change same]

/-- A new function is an outermost one: no body refers to its slot, and its own body refers to what
was in use. -/
theorem allocClosure {closure : Closure} (inUse : ∀ next ∈ closure.references, heap.InUse next) :
    (heap.allocClosure closure).2.Layered := by
  let id := (heap.allocClosure closure).1
  let after := (heap.allocClosure closure).2
  have new : (heap.allocClosure closure).2.closure id = closure :=
    closure_allocClosure_self heap closure
  have others {other : FunctionId} (different : other ≠ id) :
      after.closure other = heap.closure other :=
    closure_allocClosure_of_ne different
  have unused : ¬ heap.HasClosure id := not_hasClosure_allocClosure heap closure
  -- The functions that were in use stand in one another as before.
  have older (other : FunctionId) : heap.HasClosure other → Acc after.InBody other := by
    induction other using layered.nested.induction with
    | _ other ih =>
        refine fun used => .intro other fun inner inside => ?_
        have inside : heap.InBody inner other := by
          rwa [InBody, others fun same => unused (same ▸ used)] at inside
        exact ih inner inside (layered.inUse_of_mem_shown (.function other) inside)
  have nested : WellFounded after.InBody := by
    refine ⟨fun other => .intro other fun inner inside => older inner ?_⟩
    by_cases same : other = id
    · rw [InBody, same, new] at inside
      exact inUse (.function inner) (List.mem_cons_of_mem _ inside)
    · rw [InBody, others same] at inside
      exact layered.inUse_of_mem_shown (.function other) inside
  refine layered.changed (.function id) (heap.handsOut_allocClosure closure).inUse_iff
    (fun other _ => record_allocClosure heap closure other)
    (fun other different => others fun same => different (congrArg Handle.function same)) ?_ nested
  rwa [references, new]

/-! ## Collections -/

/-- Everything that atoms with handles in use lead to is in use. -/
theorem grounded {roots : List Atom}
    (used : ∀ handle ∈ roots.flatMap (Atom.handles fun _ => false), heap.InUse handle) :
    heap.Grounded roots := by
  intro handle leads
  induction leads with
  | root mem => exact used _ mem
  | step _ edge before => exact layered.closed _ before _ edge

/-- What a collection keeps refers to what it keeps, and what it frees shows nothing any more. -/
theorem collect {roots : List Atom} (grounded : heap.Grounded roots) :
    (heap.collect roots).2.Layered := by
  have slots handle (leads : heap.Leads roots handle) := (grounded handle leads).hasSlot
  have inUse := inUse_collect_iff slots
  constructor
  case closed =>
    intro handle used next mem
    obtain ⟨before, leads⟩ := (inUse handle).mp used
    have mem : next ∈ heap.references handle := by
      cases handle with
      | record id => rwa [references, record_collect slots leads] at mem
      | function id => rwa [references, closure_collect slots leads] at mem
    exact (inUse next).mpr ⟨layered.closed handle before next mem, .step leads mem⟩
  case cleared =>
    intro handle unused
    cases handle with
    | record id =>
        rw [shown, record_collect_eq]
        split
        case isTrue => rfl
        case isFalse kept =>
          refine layered.cleared (.record id) fun used => kept ?_
          refine (mem_lostRecords_reachable_iff slots).mpr ⟨used, fun leads => unused ?_⟩
          exact (inUse (.record id)).mpr ⟨used, leads⟩
    | function id =>
        rw [shown, closure_collect_eq]
        split
        case isTrue => rfl
        case isFalse kept =>
          refine layered.cleared (.function id) fun used => kept ?_
          refine (mem_lostClosures_reachable_iff slots).mpr ⟨used, fun leads => unused ?_⟩
          exact (inUse (.function id)).mpr ⟨used, leads⟩
  case nested =>
    refine Subrelation.wf (fun {inner outer} inside => ?_) layered.nested
    rw [InBody, closure_collect_eq] at inside
    split at inside
    · cases inside
    · exact inside

end Layered

theorem layered_empty : Heap.empty.Layered where
  closed handle used := by
    cases handle <;> exact absurd used.1 (Nat.not_lt_zero _)
  cleared handle _ := by
    cases handle <;> rfl
  nested := ⟨fun outer => .intro outer fun inner inside => by cases inside⟩

end Heap

end RecordLisp
