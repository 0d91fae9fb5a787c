import RecordLisp.Heap.Reach

/-!
# Collection

A collection frees every slot that the given atoms do not lead to. A freed record is emptied; a
freed closure loses its formals and its body. Slots are freed by increasing index, so the highest is
reused first.
-/

namespace RecordLisp

/-- The numbers of slots that a collection freed. -/
structure Collected where
  records : Nat
  closures : Nat
deriving DecidableEq, Inhabited

/-- As many flags as there are slots, set for the listed slots only. -/
def slotFlags (size : Nat) (slots : List Nat) : Array Bool :=
  slots.foldl (fun flags slot => flags.setIfInBounds slot true) (Array.replicate size false)

/-- A flag once set stays set, and the flags of all listed slots that exist are set. -/
theorem getElem?_foldl_setIfInBounds (slots : List Nat) (flags : Array Bool) (index : Nat) :
    (slots.foldl (fun flags slot => flags.setIfInBounds slot true) flags)[index]?.getD false =
      (flags[index]?.getD false || decide (index ∈ slots ∧ index < flags.size)) := by
  induction slots generalizing flags with
  | nil => simp
  | cons slot slots ih =>
      rw [List.foldl_cons, ih]
      by_cases same : index = slot
      · subst same
        by_cases inRange : index < flags.size <;> simp [inRange]
      · have other : slot ≠ index := fun equal => same equal.symm
        simp [other, same]

/-- The flag of a slot that exists says whether the slot is listed. -/
theorem getElem?_slotFlags (size : Nat) (slots : List Nat) {index : Nat} (inRange : index < size) :
    (slotFlags size slots)[index]?.getD false = decide (index ∈ slots) := by
  rw [slotFlags, getElem?_foldl_setIfInBounds]
  simp [inRange]

/-- The slots that are neither free nor met, by increasing index. -/
def lostSlots (size : Nat) (free : List Nat) (met : Nat → Bool) : List Nat :=
  let free := slotFlags size free
  (List.range size).filter fun slot => !(met slot || free[slot]?.getD false)

/-- A slot is lost exactly when it exists, is in use, and was not met. -/
theorem mem_lostSlots_iff {size : Nat} {free : List Nat} {met : Nat → Bool} {slot : Nat} :
    slot ∈ lostSlots size free met ↔ slot < size ∧ slot ∉ free ∧ met slot = false := by
  unfold lostSlots
  rw [List.mem_filter, List.mem_range]
  refine and_congr_right fun inRange => ?_
  rw [getElem?_slotFlags _ _ inRange]
  simp only [Bool.not_eq_true', Bool.or_eq_false_iff, decide_eq_false_iff_not]
  exact and_comm

theorem nodup_lostSlots (size : Nat) (free : List Nat) (met : Nat → Bool) :
    (lostSlots size free met).Nodup :=
  List.nodup_range.filter _

namespace Heap

/-- The records in use that were not met, by increasing index. -/
def lostRecords (heap : Heap) (live : Visited) : List RecordId :=
  (lostSlots heap.records.size (heap.freeRecords.map RecordId.index) fun slot =>
    live.contains (.record ⟨slot⟩)).map RecordId.mk

/-- The closures in use that were not met, by increasing index. -/
def lostClosures (heap : Heap) (live : Visited) : List FunctionId :=
  (lostSlots heap.closures.size (heap.freeClosures.map FunctionId.index) fun slot =>
    live.contains (.function ⟨slot⟩)).map FunctionId.mk

theorem mem_lostRecords_iff {heap : Heap} {live : Visited} {id : RecordId} :
    id ∈ heap.lostRecords live ↔
      id.index < heap.records.size ∧ id ∉ heap.freeRecords ∧
      live.contains (.record id) = false := by
  obtain ⟨index⟩ := id
  have listed : index ∈ heap.freeRecords.map RecordId.index ↔ ⟨index⟩ ∈ heap.freeRecords := by
    constructor
    · intro mem
      obtain ⟨⟨_⟩, free, rfl⟩ := List.mem_map.mp mem
      exact free
    · exact List.mem_map_of_mem
  have named (slots : List Nat) : (⟨index⟩ : RecordId) ∈ slots.map RecordId.mk ↔
      index ∈ slots := by simp
  rw [lostRecords, named, mem_lostSlots_iff, listed]

theorem mem_lostClosures_iff {heap : Heap} {live : Visited} {id : FunctionId} :
    id ∈ heap.lostClosures live ↔
      id.index < heap.closures.size ∧ id ∉ heap.freeClosures ∧
        live.contains (.function id) = false := by
  obtain ⟨index⟩ := id
  have listed : index ∈ heap.freeClosures.map FunctionId.index ↔ ⟨index⟩ ∈ heap.freeClosures := by
    constructor
    · intro mem
      obtain ⟨⟨_⟩, free, rfl⟩ := List.mem_map.mp mem
      exact free
    · exact List.mem_map_of_mem
  have named (slots : List Nat) : (⟨index⟩ : FunctionId) ∈ slots.map FunctionId.mk ↔
      index ∈ slots := by simp
  rw [lostClosures, named, mem_lostSlots_iff, listed]

theorem nodup_lostRecords (heap : Heap) (live : Visited) : (heap.lostRecords live).Nodup :=
  List.Pairwise.map _ (fun _ _ different equal => different (RecordId.mk.inj equal))
    (nodup_lostSlots _ _ _)

theorem nodup_lostClosures (heap : Heap) (live : Visited) : (heap.lostClosures live).Nodup :=
  List.Pairwise.map _ (fun _ _ different equal => different (FunctionId.mk.inj equal))
    (nodup_lostSlots _ _ _)

/-- Empties the records that were not met and puts their slots in front of the free ones. -/
def freeLostRecords (heap : Heap) (live : Visited) : Heap :=
  { heap with
    records := (heap.lostRecords live).foldl
      (fun slots id => slots.setIfInBounds id.index .empty) heap.records
    freeRecords := (heap.lostRecords live).reverse ++ heap.freeRecords
    freeRecords_inRange := fun id mem => by
      rw [size_clear]
      rcases List.mem_append.mp mem with lost | free
      · exact (mem_lostRecords_iff.mp (List.mem_reverse.mp lost)).1
      · exact heap.freeRecords_inRange id free
    freeRecords_nodup := by
      refine List.nodup_append.mpr ⟨?_, heap.freeRecords_nodup, ?_⟩
      · exact List.pairwise_reverse.mpr ((heap.nodup_lostRecords live).imp Ne.symm)
      · rintro id lost _ free rfl
        exact (mem_lostRecords_iff.mp (List.mem_reverse.mp lost)).2.1 free }
where
  size_clear (ids : List RecordId) (slots : Array Record) :
      (ids.foldl (fun slots id => slots.setIfInBounds id.index .empty) slots).size =
        slots.size := by
    induction ids generalizing slots with
    | nil => rfl
    | cons id ids ih => rw [List.foldl_cons, ih, Array.size_setIfInBounds]

/-- Clears the closures that were not met and puts their slots in front of the free ones. -/
def freeLostClosures (heap : Heap) (live : Visited) : Heap :=
  { heap with
    closures := (heap.lostClosures live).foldl
      (fun slots id => slots.modify id.index Closure.cleared) heap.closures
    freeClosures := (heap.lostClosures live).reverse ++ heap.freeClosures
    freeClosures_inRange := fun id mem => by
      rw [size_clear]
      rcases List.mem_append.mp mem with lost | free
      · exact (mem_lostClosures_iff.mp (List.mem_reverse.mp lost)).1
      · exact heap.freeClosures_inRange id free
    freeClosures_nodup := by
      refine List.nodup_append.mpr ⟨?_, heap.freeClosures_nodup, ?_⟩
      · exact List.pairwise_reverse.mpr ((heap.nodup_lostClosures live).imp Ne.symm)
      · rintro id lost _ free rfl
        exact (mem_lostClosures_iff.mp (List.mem_reverse.mp lost)).2.1 free }
where
  size_clear (ids : List FunctionId) (slots : Array Closure) :
      (ids.foldl (fun slots id => slots.modify id.index Closure.cleared) slots).size =
        slots.size := by
    induction ids generalizing slots with
    | nil => rfl
    | cons id ids ih => rw [List.foldl_cons, ih, Array.size_modify]

/-- Frees what `roots` do not lead to. -/
def collect (heap : Heap) (roots : List Atom) : Collected × Heap :=
  let live := heap.reachable roots
  (⟨(heap.lostRecords live).length, (heap.lostClosures live).length⟩,
    (heap.freeLostRecords live).freeLostClosures live)

end Heap

end RecordLisp
