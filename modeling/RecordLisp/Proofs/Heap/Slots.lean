import RecordLisp.Heap.Basic

/-!
# Slots in use

A handle is in use when it has a slot that is not free. Allocation hands out a handle that was not
in use, and changes neither the contents nor the use of any other.
-/

namespace RecordLisp

@[ext] theorem RecordId.ext {first second : RecordId} (same : first.index = second.index) :
    first = second := by
  cases first; cases second; cases same; rfl

@[ext] theorem FunctionId.ext {first second : FunctionId} (same : first.index = second.index) :
    first = second := by
  cases first; cases second; cases same; rfl

namespace Heap

variable {heap : Heap}

/-- Whether a record handle has a slot that is not free. -/
def HasRecord (heap : Heap) (id : RecordId) : Prop :=
  id.index < heap.records.size ∧ id ∉ heap.freeRecords

/-- Whether a function handle has a slot that is not free. -/
def HasClosure (heap : Heap) (id : FunctionId) : Prop :=
  id.index < heap.closures.size ∧ id ∉ heap.freeClosures

/-! ## Records -/

/-- An allocation takes the slot freed last, or makes a new one. -/
theorem allocRecord_cases (heap : Heap) (record : Record) :
    (∃ free, heap.freeRecords = (heap.allocRecord record).1 :: free ∧
        (heap.allocRecord record).2.freeRecords = free ∧
        (heap.allocRecord record).2.records =
          heap.records.setIfInBounds (heap.allocRecord record).1.index record) ∨
      (heap.freeRecords = [] ∧ (heap.allocRecord record).1 = ⟨heap.records.size⟩ ∧
        (heap.allocRecord record).2.freeRecords = [] ∧
        (heap.allocRecord record).2.records = heap.records.push record) := by
  unfold allocRecord
  split
  · rename_i id free listed
    exact .inl ⟨free, listed, rfl, rfl⟩
  · rename_i listed
    exact .inr ⟨listed, rfl, listed, rfl⟩

theorem closures_allocRecord (heap : Heap) (record : Record) :
    (heap.allocRecord record).2.closures = heap.closures := by
  unfold allocRecord
  split <;> rfl

theorem freeClosures_allocRecord (heap : Heap) (record : Record) :
    (heap.allocRecord record).2.freeClosures = heap.freeClosures := by
  unfold allocRecord
  split <;> rfl

/-- The handle that an allocation hands out was not in use. -/
theorem not_hasRecord_allocRecord (heap : Heap) (record : Record) :
    ¬ heap.HasRecord (heap.allocRecord record).1 := by
  rintro ⟨inRange, notFree⟩
  rcases allocRecord_cases heap record with ⟨free, listed, _⟩ | ⟨_, new, _⟩
  · exact notFree (listed ▸ List.mem_cons_self)
  · rw [new] at inRange
    exact Nat.lt_irrefl _ inRange

/-- After an allocation the new handle is in use, and of the others those that were before. -/
theorem hasRecord_allocRecord_iff {record : Record} {id : RecordId} :
    (heap.allocRecord record).2.HasRecord id ↔
      id = (heap.allocRecord record).1 ∨ heap.HasRecord id := by
  unfold HasRecord
  rcases allocRecord_cases heap record with ⟨free, listed, rest, slots⟩ | ⟨listed, new, rest, slots⟩
  · have inRange := heap.freeRecords_inRange _ (listed ▸ List.mem_cons_self)
    have fresh := (List.nodup_cons.mp (listed ▸ heap.freeRecords_nodup)).1
    rw [rest, slots, listed, Array.size_setIfInBounds, List.mem_cons]
    by_cases same : id = (heap.allocRecord record).1
    · subst same
      simp [inRange, fresh]
    · simp [same]
  · obtain ⟨index⟩ := id
    rw [rest, slots, listed, new, Array.size_push]
    simp only [List.not_mem_nil, not_false_eq_true, and_true, RecordId.mk.injEq]
    omega

@[simp] theorem record_allocRecord_self (heap : Heap) (record : Record) :
    (heap.allocRecord record).2.record (heap.allocRecord record).1 = record := by
  unfold Heap.record
  rcases allocRecord_cases heap record with ⟨free, listed, _, slots⟩ | ⟨_, new, _, slots⟩
  · have inRange := heap.freeRecords_inRange _ (listed ▸ List.mem_cons_self)
    rw [slots, Array.getElem?_setIfInBounds_self_of_lt inRange, Option.getD_some]
  · rw [slots, new, Array.getElem?_push_size, Option.getD_some]

theorem record_allocRecord_of_ne {record : Record} {id : RecordId}
    (different : id ≠ (heap.allocRecord record).1) :
    (heap.allocRecord record).2.record id = heap.record id := by
  have indices : (heap.allocRecord record).1.index ≠ id.index :=
    fun same => different (RecordId.ext same.symm)
  unfold Heap.record
  rcases allocRecord_cases heap record with ⟨free, _, _, slots⟩ | ⟨_, new, _, slots⟩
  · rw [slots, Array.getElem?_setIfInBounds_ne indices]
  · rw [new] at indices
    rw [slots, Array.getElem?_push, if_neg (Ne.symm indices)]

theorem record_allocRecord_of_hasRecord {record : Record} {id : RecordId}
    (used : heap.HasRecord id) : (heap.allocRecord record).2.record id = heap.record id := by
  refine record_allocRecord_of_ne fun same => ?_
  exact not_hasRecord_allocRecord heap record (same ▸ used)

@[simp] theorem closure_allocRecord (heap : Heap) (record : Record) (id : FunctionId) :
    (heap.allocRecord record).2.closure id = heap.closure id := by
  unfold Heap.closure
  rw [closures_allocRecord]

@[simp] theorem hasClosure_allocRecord_iff {record : Record} {id : FunctionId} :
    (heap.allocRecord record).2.HasClosure id ↔ heap.HasClosure id := by
  unfold HasClosure
  rw [closures_allocRecord, freeClosures_allocRecord]

/-- A record that is not the empty one stands in a slot. -/
theorem inRange_of_record_ne_empty {id : RecordId} (notEmpty : heap.record id ≠ .empty) :
    id.index < heap.records.size := by
  by_cases inRange : id.index < heap.records.size
  · exact inRange
  · exact absurd (by simp [Heap.record, Nat.le_of_not_lt inRange]) notEmpty

/-- There are no more different records than slots. -/
theorem length_le_of_inRange {ids : List RecordId} (once : ids.Nodup)
    (inRange : ∀ id ∈ ids, id.index < heap.records.size) : ids.length ≤ heap.records.size := by
  have slots : ids ⊆ (List.range heap.records.size).map RecordId.mk := fun id mem =>
    List.mem_map.mpr ⟨id.index, List.mem_range.mpr (inRange id mem), rfl⟩
  simpa using once.length_le_of_subset slots

@[simp] theorem hasRecord_modifyRecord_iff {id other : RecordId} {change : Record → Record} :
    (heap.modifyRecord id change).HasRecord other ↔ heap.HasRecord other := by
  simp [HasRecord, modifyRecord]

@[simp] theorem hasClosure_modifyRecord_iff {id : RecordId} {change : Record → Record}
    {other : FunctionId} :
    (heap.modifyRecord id change).HasClosure other ↔ heap.HasClosure other := Iff.rfl

/-! ## Closures -/

theorem allocClosure_cases (heap : Heap) (closure : Closure) :
    (∃ free, heap.freeClosures = (heap.allocClosure closure).1 :: free ∧
        (heap.allocClosure closure).2.freeClosures = free ∧
        (heap.allocClosure closure).2.closures =
          heap.closures.setIfInBounds (heap.allocClosure closure).1.index closure) ∨
      (heap.freeClosures = [] ∧ (heap.allocClosure closure).1 = ⟨heap.closures.size⟩ ∧
        (heap.allocClosure closure).2.freeClosures = [] ∧
        (heap.allocClosure closure).2.closures = heap.closures.push closure) := by
  unfold allocClosure
  split
  · rename_i id free listed
    exact .inl ⟨free, listed, rfl, rfl⟩
  · rename_i listed
    exact .inr ⟨listed, rfl, listed, rfl⟩

theorem records_allocClosure (heap : Heap) (closure : Closure) :
    (heap.allocClosure closure).2.records = heap.records := by
  unfold allocClosure
  split <;> rfl

theorem freeRecords_allocClosure (heap : Heap) (closure : Closure) :
    (heap.allocClosure closure).2.freeRecords = heap.freeRecords := by
  unfold allocClosure
  split <;> rfl

theorem not_hasClosure_allocClosure (heap : Heap) (closure : Closure) :
    ¬ heap.HasClosure (heap.allocClosure closure).1 := by
  rintro ⟨inRange, notFree⟩
  rcases allocClosure_cases heap closure with ⟨free, listed, _⟩ | ⟨_, new, _⟩
  · exact notFree (listed ▸ List.mem_cons_self)
  · rw [new] at inRange
    exact Nat.lt_irrefl _ inRange

theorem hasClosure_allocClosure_iff {closure : Closure} {id : FunctionId} :
    (heap.allocClosure closure).2.HasClosure id ↔
      id = (heap.allocClosure closure).1 ∨ heap.HasClosure id := by
  unfold HasClosure
  rcases allocClosure_cases heap closure with
    ⟨free, listed, rest, slots⟩ | ⟨listed, new, rest, slots⟩
  · have inRange := heap.freeClosures_inRange _ (listed ▸ List.mem_cons_self)
    have fresh := (List.nodup_cons.mp (listed ▸ heap.freeClosures_nodup)).1
    rw [rest, slots, listed, Array.size_setIfInBounds, List.mem_cons]
    by_cases same : id = (heap.allocClosure closure).1
    · subst same
      simp [inRange, fresh]
    · simp [same]
  · obtain ⟨index⟩ := id
    rw [rest, slots, listed, new, Array.size_push]
    simp only [List.not_mem_nil, not_false_eq_true, and_true, FunctionId.mk.injEq]
    omega

@[simp] theorem closure_allocClosure_self (heap : Heap) (closure : Closure) :
    (heap.allocClosure closure).2.closure (heap.allocClosure closure).1 = closure := by
  unfold Heap.closure
  rcases allocClosure_cases heap closure with ⟨free, listed, _, slots⟩ | ⟨_, new, _, slots⟩
  · have inRange := heap.freeClosures_inRange _ (listed ▸ List.mem_cons_self)
    rw [slots, Array.getElem?_setIfInBounds_self_of_lt inRange, Option.getD_some]
  · rw [slots, new, Array.getElem?_push_size, Option.getD_some]

theorem closure_allocClosure_of_ne {closure : Closure} {id : FunctionId}
    (different : id ≠ (heap.allocClosure closure).1) :
    (heap.allocClosure closure).2.closure id = heap.closure id := by
  have indices : (heap.allocClosure closure).1.index ≠ id.index :=
    fun same => different (FunctionId.ext same.symm)
  unfold Heap.closure
  rcases allocClosure_cases heap closure with ⟨free, _, _, slots⟩ | ⟨_, new, _, slots⟩
  · rw [slots, Array.getElem?_setIfInBounds_ne indices]
  · rw [new] at indices
    rw [slots, Array.getElem?_push, if_neg (Ne.symm indices)]

theorem closure_allocClosure_of_hasClosure {closure : Closure} {id : FunctionId}
    (used : heap.HasClosure id) : (heap.allocClosure closure).2.closure id = heap.closure id := by
  refine closure_allocClosure_of_ne fun same => ?_
  exact not_hasClosure_allocClosure heap closure (same ▸ used)

@[simp] theorem record_allocClosure (heap : Heap) (closure : Closure) (id : RecordId) :
    (heap.allocClosure closure).2.record id = heap.record id := by
  unfold Heap.record
  rw [records_allocClosure]

@[simp] theorem hasRecord_allocClosure_iff {closure : Closure} {id : RecordId} :
    (heap.allocClosure closure).2.HasRecord id ↔ heap.HasRecord id := by
  unfold HasRecord
  rw [records_allocClosure, freeRecords_allocClosure]

/-- There are no more different functions than slots. -/
theorem functions_le_of_inRange {ids : List FunctionId} (once : ids.Nodup)
    (inRange : ∀ id ∈ ids, id.index < heap.closures.size) : ids.length ≤ heap.closures.size := by
  have slots : ids ⊆ (List.range heap.closures.size).map FunctionId.mk := fun id mem =>
    List.mem_map.mpr ⟨id.index, List.mem_range.mpr (inRange id mem), rfl⟩
  simpa using once.length_le_of_subset slots

theorem closure_modifyClosure_self {id : FunctionId} (change : Closure → Closure)
    (inRange : id.index < heap.closures.size) :
    (heap.modifyClosure id change).closure id = change (heap.closure id) := by
  simp [Heap.closure, modifyClosure, inRange, Array.getElem_modify]

theorem closure_modifyClosure_of_ne {id other : FunctionId} (change : Closure → Closure)
    (different : other ≠ id) :
    (heap.modifyClosure id change).closure other = heap.closure other := by
  have indices : id.index ≠ other.index := fun equal => different (FunctionId.ext equal.symm)
  simp [Heap.closure, modifyClosure, Array.getElem?_modify, indices]

@[simp] theorem hasClosure_modifyClosure_iff {id other : FunctionId} {change : Closure → Closure} :
    (heap.modifyClosure id change).HasClosure other ↔ heap.HasClosure other := by
  simp [HasClosure, modifyClosure]

@[simp] theorem hasRecord_modifyClosure_iff {id : FunctionId} {change : Closure → Closure}
    {other : RecordId} :
    (heap.modifyClosure id change).HasRecord other ↔ heap.HasRecord other := Iff.rfl

/-! ## What stays as it is -/

/-- Whether all that is in use in a heap is in use in another heap too, with the same contents. -/
structure Keeps (base heap : Heap) : Prop where
  hasRecord : ∀ id, base.HasRecord id → heap.HasRecord id
  record : ∀ id, base.HasRecord id → heap.record id = base.record id
  hasClosure : ∀ id, base.HasClosure id → heap.HasClosure id
  closure : ∀ id, base.HasClosure id → heap.closure id = base.closure id

variable {base : Heap}

theorem Keeps.refl (heap : Heap) : heap.Keeps heap :=
  ⟨fun _ used => used, fun _ _ => rfl, fun _ used => used, fun _ _ => rfl⟩

theorem Keeps.trans {later : Heap} (keeps : base.Keeps heap) (goesOn : heap.Keeps later) :
    base.Keeps later where
  hasRecord id used := goesOn.hasRecord id (keeps.hasRecord id used)
  record id used := (goesOn.record id (keeps.hasRecord id used)).trans (keeps.record id used)
  hasClosure id used := goesOn.hasClosure id (keeps.hasClosure id used)
  closure id used := (goesOn.closure id (keeps.hasClosure id used)).trans (keeps.closure id used)

theorem keeps_allocRecord (heap : Heap) (record : Record) :
    heap.Keeps (heap.allocRecord record).2 where
  hasRecord _ used := hasRecord_allocRecord_iff.mpr (.inr used)
  record _ used := record_allocRecord_of_hasRecord used
  hasClosure _ used := hasClosure_allocRecord_iff.mpr used
  closure id _ := closure_allocRecord heap record id

theorem keeps_allocClosure (heap : Heap) (closure : Closure) :
    heap.Keeps (heap.allocClosure closure).2 where
  hasRecord _ used := hasRecord_allocClosure_iff.mpr used
  record id _ := record_allocClosure heap closure id
  hasClosure _ used := hasClosure_allocClosure_iff.mpr (.inr used)
  closure _ used := closure_allocClosure_of_hasClosure used

/-- A record that is not among those kept may be changed. -/
theorem Keeps.modifyRecord (keeps : base.Keeps heap) {id : RecordId} (new : ¬ base.HasRecord id)
    (change : Record → Record) : base.Keeps (heap.modifyRecord id change) where
  hasRecord other used := hasRecord_modifyRecord_iff.mpr (keeps.hasRecord other used)
  record other used := by
    have different : other ≠ id := fun same => new (same ▸ used)
    rw [record_modifyRecord_of_ne heap change different, keeps.record other used]
  hasClosure other used := hasClosure_modifyRecord_iff.mpr (keeps.hasClosure other used)
  closure other used := by rw [closure_modifyRecord, keeps.closure other used]

/-- A closure that is not among those kept may be changed. -/
theorem Keeps.modifyClosure (keeps : base.Keeps heap) {id : FunctionId} (new : ¬ base.HasClosure id)
    (change : Closure → Closure) : base.Keeps (heap.modifyClosure id change) where
  hasRecord other used := hasRecord_modifyClosure_iff.mpr (keeps.hasRecord other used)
  record other used := by rw [record_modifyClosure, keeps.record other used]
  hasClosure other used := hasClosure_modifyClosure_iff.mpr (keeps.hasClosure other used)
  closure other used := by
    have different : other ≠ id := fun same => new (same ▸ used)
    rw [closure_modifyClosure_of_ne change different, keeps.closure other used]

end Heap

end RecordLisp
