import RecordLisp.Proofs.Heap.Occupancy

/-!
# Slots freed and handed out again

A heap is built from the empty one by allocations, by changes through any handle that has a slot,
and by collections from any roots that have slots. The handles may be stale: their slots may have
been freed, or handed out again for another object. All the same every object of such a heap refers
to slots only, so that a collection finds exactly what its roots lead to and frees exactly the rest
of what is in use.

Handles are words of 32 bits. A collection names the slots that it frees by words, which is only
possible while there are no more slots than words. An allocation that needs a new slot when there
are as many slots as words gives the handle of an object in use.
-/

namespace RecordLisp

/-- The objects that a record refers to. -/
def Record.references (record : Record) : List Handle :=
  (record.parent.map .record).toList ++ record.values.flatMap (Atom.handles fun _ => false)

/-- The objects that a closure refers to. -/
def Closure.references (closure : Closure) : List Handle :=
  .record closure.scope :: closure.body.handles fun _ => false

namespace Heap

variable {heap after : Heap} {roots : List Atom}

/-- Whether some objects all have slots, free or not. -/
def HasSlots (heap : Heap) (handles : List Handle) : Prop := ∀ handle ∈ handles, heap.HasSlot handle

instance (heap : Heap) : DecidablePred heap.HasSlot
  | .record id => inferInstanceAs (Decidable (id.index < heap.records.size))
  | .function id => inferInstanceAs (Decidable (id.index < heap.closures.size))

instance (heap : Heap) (handles : List Handle) : Decidable (heap.HasSlots handles) :=
  inferInstanceAs (Decidable (∀ handle ∈ handles, heap.HasSlot handle))

/-- Whether every slot has a word for its number. -/
def FitsWords (heap : Heap) : Prop := heap.records.size ≤ 2 ^ 32 ∧ heap.closures.size ≤ 2 ^ 32

instance (heap : Heap) : Decidable heap.FitsWords := inferInstanceAs (Decidable (_ ∧ _))

/-- The heaps that allocations, changes and collections make of the empty one. -/
inductive Built : Heap → Prop where
  | empty : Built .empty
  | newRecord {heap : Heap} (built : Built heap) {record : Record}
      (slots : heap.HasSlots record.references) : Built (heap.newRecord record).2
  | newClosure {heap : Heap} (built : Built heap) {closure : Closure}
      (slots : heap.HasSlots closure.references) : Built (heap.newClosure closure).2
  | modifyRecord {heap : Heap} (built : Built heap) {id : RecordId} {change : Record → Record}
      (slot : heap.HasSlot (.record id))
      (slots : heap.HasSlots (change (heap.record id)).references) :
      Built (heap.modifyRecord id change)
  | modifyClosure {heap : Heap} (built : Built heap) {id : FunctionId} {change : Closure → Closure}
      (slot : heap.HasSlot (.function id))
      (slots : heap.HasSlots (change (heap.closure id)).references) :
      Built (heap.modifyClosure id change)
  | collect {heap : Heap} (built : Built heap) (fits : heap.FitsWords) {roots : List Atom}
      (slots : heap.HasSlots (roots.flatMap (Atom.handles fun _ => false))) :
      Built (heap.collect roots).2

/-! ## Objects refer to slots -/

/-- Whether every object, in use or not, refers to slots only. -/
def Referential (heap : Heap) : Prop :=
  ∀ handle, heap.HasSlot handle → heap.HasSlots (heap.references handle)

theorem HasSlots.mono {handles : List Handle} (slots : heap.HasSlots handles)
    (grows : ∀ handle, heap.HasSlot handle → after.HasSlot handle) : after.HasSlots handles :=
  fun handle mem => grows handle (slots handle mem)

/-- A change that removes no slot and after which each object refers to what it referred to before,
or to slots anyway. -/
theorem Referential.changed (referential : heap.Referential)
    (grows : ∀ handle, heap.HasSlot handle → after.HasSlot handle)
    (edges : ∀ handle, after.HasSlot handle →
      heap.HasSlot handle ∧ after.references handle ⊆ heap.references handle ∨
        heap.HasSlots (after.references handle)) : after.Referential := by
  intro handle slot
  rcases edges handle slot with ⟨before, fewer⟩ | slots
  · exact fun next edge => grows next (referential handle before next (fewer edge))
  · exact slots.mono grows

theorem hasSlot_allocRecord_iff {record : Record} {handle : Handle} :
    (heap.allocRecord record).2.HasSlot handle ↔
      handle = .record (heap.allocRecord record).1 ∨ heap.HasSlot handle := by
  cases handle with
  | function id => simp [HasSlot, closures_allocRecord]
  | record id =>
      obtain ⟨index⟩ := id
      rcases allocRecord_cases heap record with ⟨free, listed, _, slots⟩ | ⟨_, new, _, slots⟩
      · have inRange := heap.freeRecords_inRange _ (listed ▸ List.mem_cons_self)
        simp only [HasSlot, slots, Array.size_setIfInBounds, Handle.record.injEq]
        refine ⟨.inr, fun known => known.elim (fun same => ?_) id⟩
        rw [← same] at inRange
        exact inRange
      · simp only [HasSlot, slots, new, Array.size_push, Handle.record.injEq, RecordId.mk.injEq]
        omega

theorem hasSlot_allocClosure_iff {closure : Closure} {handle : Handle} :
    (heap.allocClosure closure).2.HasSlot handle ↔
      handle = .function (heap.allocClosure closure).1 ∨ heap.HasSlot handle := by
  cases handle with
  | record id => simp [HasSlot, records_allocClosure]
  | function id =>
      obtain ⟨index⟩ := id
      rcases allocClosure_cases heap closure with ⟨free, listed, _, slots⟩ | ⟨_, new, _, slots⟩
      · have inRange := heap.freeClosures_inRange _ (listed ▸ List.mem_cons_self)
        simp only [HasSlot, slots, Array.size_setIfInBounds, Handle.function.injEq]
        refine ⟨.inr, fun known => known.elim (fun same => ?_) id⟩
        rw [← same] at inRange
        exact inRange
      · simp only [HasSlot, slots, new, Array.size_push, Handle.function.injEq, FunctionId.mk.injEq]
        omega

theorem hasSlot_modifyRecord_iff {id : RecordId} {change : Record → Record} {handle : Handle} :
    (heap.modifyRecord id change).HasSlot handle ↔ heap.HasSlot handle := by
  cases handle <;> simp [HasSlot, Heap.modifyRecord]

theorem hasSlot_modifyClosure_iff {id : FunctionId} {change : Closure → Closure} {handle : Handle} :
    (heap.modifyClosure id change).HasSlot handle ↔ heap.HasSlot handle := by
  cases handle <;> simp [HasSlot, Heap.modifyClosure]

theorem hasSlot_collect_iff {handle : Handle} :
    (heap.collect roots).2.HasSlot handle ↔ heap.HasSlot handle := by
  cases handle with
  | record id =>
      simp [HasSlot, Heap.collect, freeLostClosures, freeLostRecords, freeLostRecords.size_clear]
  | function id =>
      simp [HasSlot, Heap.collect, freeLostClosures, freeLostRecords, freeLostClosures.size_clear]

/-- A slot to which each step that hits it does one change, where changing it twice is changing it
once. -/
theorem getElem?_foldl_change {α β : Type} (step : Array α → β → Array α) (change : α → α)
    (slot : Nat) (hits : β → Prop) [DecidablePred hits]
    (again : ∀ value, change (change value) = change value)
    (changes : ∀ slots item, (step slots item)[slot]? =
      if hits item then slots[slot]?.map change else slots[slot]?)
    (items : List β) (slots : Array α) :
    (items.foldl step slots)[slot]? =
      if ∃ item ∈ items, hits item then slots[slot]?.map change else slots[slot]? := by
  induction items generalizing slots with
  | nil => simp
  | cons item items ih =>
      rw [List.foldl_cons, ih, changes]
      have twice : (slots[slot]?.map change).map change = slots[slot]?.map change := by
        rw [Option.map_map]
        exact congrArg (slots[slot]?.map ·) (funext again)
      by_cases hit : hits item <;> simp [hit, twice]

/-- A collection empties the records that it loses and leaves the others alone. -/
theorem record_collect_eq (heap : Heap) (roots : List Atom) (id : RecordId) :
    (heap.collect roots).2.record id =
      if id ∈ heap.lostRecords (heap.reachable roots) then .empty else heap.record id := by
  have slots := getElem?_foldl_change
    (fun slots (lost : RecordId) => slots.setIfInBounds lost.index Record.empty)
    (fun _ => .empty) id.index (· = id) (fun _ => rfl) (fun slots lost => ?_)
    (heap.lostRecords (heap.reachable roots)) heap.records
  · refine (congrArg (·.getD .empty) slots).trans ?_
    simp only [exists_eq_right]
    split
    · cases heap.records[id.index]? <;> rfl
    · rfl
  · split
    case isTrue same =>
      by_cases inRange : id.index < slots.size <;> simp [same, inRange]
    case isFalse other =>
      exact Array.getElem?_setIfInBounds_ne fun same => other (RecordId.ext same)

/-- A collection clears the closures that it loses and leaves the others alone. -/
theorem closure_collect_eq (heap : Heap) (roots : List Atom) (id : FunctionId) :
    (heap.collect roots).2.closure id =
      if id ∈ heap.lostClosures (heap.reachable roots) then (heap.closure id).cleared
      else heap.closure id := by
  have slots := getElem?_foldl_change
    (fun slots (lost : FunctionId) => slots.modify lost.index Closure.cleared)
    Closure.cleared id.index (· = id) (fun _ => rfl) (fun slots lost => ?_)
    (heap.lostClosures (heap.reachable roots)) heap.closures
  · refine (congrArg (·.getD default) slots).trans ?_
    simp only [exists_eq_right]
    unfold Heap.closure
    split
    · cases heap.closures[id.index]? <;> rfl
    · rfl
  · rw [Array.getElem?_modify]
    exact if_congr ⟨FunctionId.ext, congrArg FunctionId.index⟩ rfl rfl

theorem Referential.allocRecord (referential : heap.Referential) {record : Record}
    (slots : heap.HasSlots record.references) : (heap.allocRecord record).2.Referential := by
  refine referential.changed (fun _ slot => hasSlot_allocRecord_iff.mpr (.inr slot))
    fun handle slot => ?_
  by_cases new : handle = .record (heap.allocRecord record).1
  · subst new
    refine .inr ?_
    simp only [references, record_allocRecord_self]
    exact slots
  · refine .inl ⟨(hasSlot_allocRecord_iff.mp slot).resolve_left new, ?_⟩
    cases handle with
    | record id =>
        have other : id ≠ (heap.allocRecord record).1 :=
          fun same => new (congrArg Handle.record same)
        simp [references, record_allocRecord_of_ne other]
    | function id => simp [references]

theorem Referential.allocClosure (referential : heap.Referential) {closure : Closure}
    (slots : heap.HasSlots closure.references) : (heap.allocClosure closure).2.Referential := by
  refine referential.changed (fun _ slot => hasSlot_allocClosure_iff.mpr (.inr slot))
    fun handle slot => ?_
  by_cases new : handle = .function (heap.allocClosure closure).1
  · subst new
    refine .inr ?_
    simp only [references, closure_allocClosure_self]
    exact slots
  · refine .inl ⟨(hasSlot_allocClosure_iff.mp slot).resolve_left new, ?_⟩
    cases handle with
    | record id => simp [references]
    | function id =>
        have other : id ≠ (heap.allocClosure closure).1 :=
          fun same => new (congrArg Handle.function same)
        simp [references, closure_allocClosure_of_ne other]

theorem Referential.modifyRecord (referential : heap.Referential) {id : RecordId}
    {change : Record → Record} (inRange : heap.HasSlot (.record id))
    (slots : heap.HasSlots (change (heap.record id)).references) :
    (heap.modifyRecord id change).Referential := by
  refine referential.changed (fun _ => hasSlot_modifyRecord_iff.mpr) fun handle slot => ?_
  by_cases changed : handle = .record id
  · subst changed
    refine .inr ?_
    simp only [references, record_modifyRecord_self heap change inRange]
    exact slots
  · refine .inl ⟨hasSlot_modifyRecord_iff.mp slot, ?_⟩
    cases handle with
    | record other =>
        have different : other ≠ id := fun same => changed (congrArg Handle.record same)
        simp [references, record_modifyRecord_of_ne heap change different]
    | function other => exact List.Subset.refl _

theorem Referential.modifyClosure (referential : heap.Referential) {id : FunctionId}
    {change : Closure → Closure} (inRange : heap.HasSlot (.function id))
    (slots : heap.HasSlots (change (heap.closure id)).references) :
    (heap.modifyClosure id change).Referential := by
  refine referential.changed (fun _ => hasSlot_modifyClosure_iff.mpr) fun handle slot => ?_
  by_cases changed : handle = .function id
  · subst changed
    refine .inr ?_
    simp only [references, closure_modifyClosure_self change inRange]
    exact slots
  · refine .inl ⟨hasSlot_modifyClosure_iff.mp slot, ?_⟩
    cases handle with
    | record other => exact List.Subset.refl _
    | function other =>
        have different : other ≠ id := fun same => changed (congrArg Handle.function same)
        simp [references, closure_modifyClosure_of_ne change different]

/-- The slots that a collection clears refer to less than before. -/
theorem Referential.collect (referential : heap.Referential) (roots : List Atom) :
    (heap.collect roots).2.Referential := by
  refine referential.changed (fun _ => hasSlot_collect_iff.mpr) fun handle slot => .inl ?_
  refine ⟨hasSlot_collect_iff.mp slot, ?_⟩
  cases handle with
  | record id =>
      rw [references, record_collect_eq]
      split
      · exact List.nil_subset _
      · exact List.Subset.refl _
  | function id =>
      rw [references, closure_collect_eq]
      split
      · exact List.cons_subset_cons _ (List.nil_subset _)
      · exact List.Subset.refl _

theorem snd_newRecord (heap : Heap) (record : Record) :
    (heap.newRecord record).2 = (heap.allocRecord record).2 := by
  unfold newRecord
  split <;> rfl

theorem snd_newClosure (heap : Heap) (closure : Closure) :
    (heap.newClosure closure).2 = (heap.allocClosure closure).2 := by
  unfold newClosure
  split <;> rfl

/-- Every object of a heap that was built refers to slots only. -/
theorem Built.referential (built : Built heap) : heap.Referential := by
  induction built with
  | empty =>
      intro handle slot
      cases handle <;> exact absurd slot (Nat.not_lt_zero _)
  | newRecord _ slots ih => exact snd_newRecord _ _ ▸ ih.allocRecord slots
  | newClosure _ slots ih => exact snd_newClosure _ _ ▸ ih.allocClosure slots
  | modifyRecord _ slot slots ih => exact ih.modifyRecord slot slots
  | modifyClosure _ slot slots ih => exact ih.modifyClosure slot slots
  | collect _ _ _ ih => exact ih.collect _

/-- Roots that have slots lead to slots only. -/
theorem Referential.leads (referential : heap.Referential)
    (slots : heap.HasSlots (roots.flatMap (Atom.handles fun _ => false))) (handle : Handle)
    (leads : heap.Leads roots handle) : heap.HasSlot handle :=
  leads.closed slots referential

/-! ## Allocations and collections -/

/-- An allocation gives a handle that was not in use, and leaves the use and the contents of the
others alone. -/
structure HandsOut (heap : Heap) (handle : Handle) (after : Heap) : Prop where
  unused : ¬ heap.InUse handle
  inUse_iff : ∀ other, after.InUse other ↔ other = handle ∨ heap.InUse other
  keeps : heap.Keeps after

theorem handsOut_allocRecord (heap : Heap) (record : Record) :
    heap.HandsOut (.record (heap.allocRecord record).1) (heap.allocRecord record).2 where
  unused := not_hasRecord_allocRecord heap record
  inUse_iff other := by
    cases other with
    | record id => exact hasRecord_allocRecord_iff.trans (by rw [Handle.record.injEq]; rfl)
    | function id => exact hasClosure_allocRecord_iff.trans (by simp [InUse])
  keeps := heap.keeps_allocRecord record

theorem handsOut_allocClosure (heap : Heap) (closure : Closure) :
    heap.HandsOut (.function (heap.allocClosure closure).1) (heap.allocClosure closure).2 where
  unused := not_hasClosure_allocClosure heap closure
  inUse_iff other := by
    cases other with
    | record id => exact hasRecord_allocClosure_iff.trans (by simp [InUse])
    | function id => exact hasClosure_allocClosure_iff.trans (by rw [Handle.function.injEq]; rfl)
  keeps := heap.keeps_allocClosure closure

/-! ## Words -/

theorem FitsWords.collect (fits : heap.FitsWords) (roots : List Atom) :
    (heap.collect roots).2.FitsWords := by
  simpa [FitsWords, Heap.collect, freeLostClosures, freeLostRecords, freeLostRecords.size_clear,
    freeLostClosures.size_clear] using fits

section Collection

variable (slots : ∀ handle, heap.Leads roots handle → heap.HasSlot handle)
include slots

theorem mem_lostRecords_reachable_iff {id : RecordId} :
    id ∈ heap.lostRecords (heap.reachable roots) ↔
      heap.HasRecord id ∧ ¬ heap.Leads roots (.record id) := by
  rw [mem_lostRecords_iff, ← contains_reachable_iff slots, Bool.not_eq_true, HasRecord, and_assoc]

theorem mem_lostClosures_reachable_iff {id : FunctionId} :
    id ∈ heap.lostClosures (heap.reachable roots) ↔
      heap.HasClosure id ∧ ¬ heap.Leads roots (.function id) := by
  rw [mem_lostClosures_iff, ← contains_reachable_iff slots, Bool.not_eq_true, HasClosure, and_assoc]

end Collection

end Heap

end RecordLisp
