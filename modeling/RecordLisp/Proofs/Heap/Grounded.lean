import RecordLisp.Proofs.Heap.Contents
import RecordLisp.Proofs.Heap.Occupancy

/-!
# What atoms lead to, kept

Atoms are grounded when all that they lead to is in use. Then an allocation cannot take one of these
objects for a new one, and a collection that knows of the atoms does not free them: all that the
atoms lead to is kept as it is, whatever else becomes of the heap.
-/

namespace RecordLisp

namespace Heap

variable {heap after : Heap} {roots more : List Atom}

/-- Whether all that some atoms lead to is in use. -/
def Grounded (heap : Heap) (roots : List Atom) : Prop :=
  ∀ handle, heap.Leads roots handle → heap.InUse handle

/-- Whether all that some atoms lead to in a heap is in use in another, with the same contents. -/
structure KeepsGraph (heap : Heap) (roots : List Atom) (after : Heap) : Prop where
  inUse : ∀ handle, heap.Leads roots handle → after.InUse handle
  record : ∀ id, heap.Leads roots (.record id) → after.record id = heap.record id
  closure : ∀ id, heap.Leads roots (.function id) → after.closure id = heap.closure id

/-! ## What atoms lead to -/

theorem leads_append_iff {handle : Handle} :
    heap.Leads (roots ++ more) handle ↔ heap.Leads roots handle ∨ heap.Leads more handle := by
  constructor
  · intro leads
    induction leads with
    | root mem =>
        rw [List.flatMap_append] at mem
        exact (List.mem_append.mp mem).imp .root .root
    | step _ edge ih => exact ih.imp (.step · edge) (.step · edge)
  · rintro (leads | leads)
    · exact leads.mono (List.subset_append_left _ _)
    · exact leads.mono (List.subset_append_right _ _)

theorem leads_of_mem_record {id : RecordId} (mem : .record id ∈ roots) :
    heap.Leads roots (.record id) :=
  .root (List.mem_flatMap.mpr ⟨_, mem, List.mem_singleton_self _⟩)

theorem Grounded.append (grounded : heap.Grounded roots) (others : heap.Grounded more) :
    heap.Grounded (roots ++ more) := by
  intro handle leads
  exact (leads_append_iff.mp leads).elim (grounded handle) (others handle)

theorem Grounded.mono (grounded : heap.Grounded more) (kept : roots ⊆ more) : heap.Grounded roots :=
  fun handle leads => grounded handle (leads.mono kept)

/-- What matches objects of another heap is grounded. -/
theorem Match.grounded {pairing : Pairing} {other : Heap} (matched : heap.Match pairing other)
    {others : List Atom} (starts : List.Forall₂ (Atom.Match pairing) roots others) :
    heap.Grounded roots := by
  intro handle leads
  obtain ⟨image, paired, _⟩ := matched.reaches (handles_of_roots starts) leads
  cases paired with
  | record paired => exact (matched.hasRecord paired).1
  | function paired => exact (matched.hasClosure paired).1

namespace KeepsGraph

variable (keeps : heap.KeepsGraph roots after)
include keeps

theorem references {handle : Handle} (leads : heap.Leads roots handle) :
    after.references handle = heap.references handle := by
  cases handle with
  | record id => simp only [Heap.references, keeps.record id leads]
  | function id => simp only [Heap.references, keeps.closure id leads]

/-- The atoms lead to the same objects as before. -/
theorem leads_iff {handle : Handle} : after.Leads roots handle ↔ heap.Leads roots handle := by
  constructor
  · intro leads
    induction leads with
    | root mem => exact .root mem
    | step _ edge ih =>
        rw [keeps.references ih] at edge
        exact .step ih edge
  · intro leads
    induction leads with
    | root mem => exact .root mem
    | step before edge ih =>
        rw [← keeps.references before] at edge
        exact .step ih edge

theorem grounded : after.Grounded roots :=
  fun handle leads => keeps.inUse handle (keeps.leads_iff.mp leads)

theorem trans {later : Heap} (goesOn : after.KeepsGraph roots later) :
    heap.KeepsGraph roots later where
  inUse handle leads := goesOn.inUse handle (keeps.leads_iff.mpr leads)
  record id leads := (goesOn.record id (keeps.leads_iff.mpr leads)).trans (keeps.record id leads)
  closure id leads := (goesOn.closure id (keeps.leads_iff.mpr leads)).trans (keeps.closure id leads)

end KeepsGraph

/-- What is in use and kept as a whole is kept for all grounded atoms. -/
theorem Keeps.graph (keeps : heap.Keeps after) (grounded : heap.Grounded roots) :
    heap.KeepsGraph roots after where
  inUse handle leads := by
    have used := grounded handle leads
    cases handle with
    | record id => exact keeps.hasRecord id used
    | function id => exact keeps.hasClosure id used
  record id leads := keeps.record id (grounded _ leads)
  closure id leads := keeps.closure id (grounded _ leads)

/-- A collection keeps all that some of its atoms lead to. -/
theorem Grounded.collect (grounded : heap.Grounded more) (kept : roots ⊆ more) :
    heap.KeepsGraph roots (heap.collect more).2 := by
  have slots : ∀ handle, heap.Leads more handle → heap.HasSlot handle := fun handle leads =>
    (grounded handle leads).hasSlot
  refine ⟨fun handle leads => ?_, fun id leads => ?_, fun id leads => ?_⟩
  · exact (inUse_collect_iff slots handle).mpr ⟨grounded handle (leads.mono kept), leads.mono kept⟩
  · exact record_collect slots (leads.mono kept)
  · exact closure_collect slots (leads.mono kept)

/-! ## A value stored in a field -/

section Insert

variable {id : RecordId} {name : String} {value : Atom}

/-- The value is all that the record refers to anew, and no other object is changed. -/
theorem mem_references_of_insert {handle next : Handle} (slot : heap.HasSlot handle)
    (edge : next ∈ (heap.insert id name value).references handle) :
    next ∈ heap.references handle ∨ next ∈ value.handles fun _ => false := by
  cases handle with
  | function other => exact .inl edge
  | record other =>
      simp only [Heap.references, Heap.insert] at edge
      by_cases same : other = id
      · subst same
        rw [record_modifyRecord_self heap _ slot] at edge
        obtain parent | inside := List.mem_append.mp edge
        · exact .inl (List.mem_append_left _ parent)
        · obtain ⟨held, mem, inside⟩ := List.mem_flatMap.mp inside
          obtain ⟨⟨key, held⟩, field, rfl⟩ := List.mem_map.mp mem
          rw [Record.fields_insert] at field
          obtain same | field := Fields.mem_of_mem_put field
          · cases same
            exact .inr inside
          · exact .inl (mem_references_value field inside)
      · rw [record_modifyRecord_of_ne heap _ same] at edge
        exact .inl edge

variable (led : ∀ handle ∈ value.handles (fun _ => false), heap.Leads roots handle)
include led

/-- A value that was led to before leads to nothing new. -/
theorem leads_of_insert (grounded : heap.Grounded roots) {handle : Handle}
    (leads : (heap.insert id name value).Leads roots handle) : heap.Leads roots handle := by
  induction leads with
  | root mem => exact .root mem
  | step _ edge ih =>
      obtain edge | inside := mem_references_of_insert (grounded _ ih).hasSlot edge
      · exact .step ih edge
      · exact led _ inside

/-- The same value may be stored in a heap and in one that keeps what the atoms lead to. -/
theorem KeepsGraph.insert (keeps : heap.KeepsGraph roots after) (grounded : heap.Grounded roots) :
    (heap.insert id name value).KeepsGraph roots (after.insert id name value) := by
  refine ⟨fun handle leads => ?_, fun other leads => ?_, fun other leads => ?_⟩
  · have used := keeps.inUse handle (leads_of_insert led grounded leads)
    cases handle with
    | record other => exact hasRecord_modifyRecord_iff.mpr used
    | function other => exact hasClosure_modifyRecord_iff.mpr used
  · replace leads := leads_of_insert led grounded leads
    by_cases same : other = id
    · subst same
      have slot : other.index < heap.records.size := (grounded _ leads).1
      have slotAfter : other.index < after.records.size := (keeps.inUse _ leads).1
      unfold Heap.insert
      rw [record_modifyRecord_self heap _ slot, record_modifyRecord_self after _ slotAfter,
        keeps.record other leads]
    · unfold Heap.insert
      rw [record_modifyRecord_of_ne heap _ same, record_modifyRecord_of_ne after _ same,
        keeps.record other leads]
  · exact keeps.closure other (leads_of_insert led grounded leads)

end Insert

end Heap

end RecordLisp
