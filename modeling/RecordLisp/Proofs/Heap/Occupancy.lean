import RecordLisp.Proofs.Heap.Collection

/-!
# What is in use after a collection

A collection of a heap in which the roots lead to slots only keeps exactly those objects in use that
were in use and that the roots lead to, and leaves their contents alone. The counters of the heap
count the objects in use.
-/

namespace RecordLisp

/-- How many objects have a property: as many as there are in a list of them without repetitions. -/
def Counts {α : Type} (property : α → Prop) (count : Nat) : Prop :=
  ∃ listed : List α, listed.Nodup ∧ listed.length = count ∧ ∀ item, item ∈ listed ↔ property item

theorem Counts.congr {α : Type} {property other : α → Prop} {count : Nat}
    (counts : Counts property count)
    (same : ∀ item, property item ↔ other item) : Counts other count := by
  obtain ⟨listed, once, size, mem⟩ := counts
  exact ⟨listed, once, size, fun item => (mem item).trans (same item)⟩

namespace Heap

variable {heap : Heap} {roots : List Atom}

/-- Whether a handle has a slot that is not free. -/
def InUse (heap : Heap) : Handle → Prop
  | .record id => heap.HasRecord id
  | .function id => heap.HasClosure id

theorem InUse.hasSlot {handle : Handle} (used : heap.InUse handle) : heap.HasSlot handle := by
  cases handle with
  | record id => exact used.1
  | function id => exact used.1

/-- More roots lead to more objects. -/
theorem Leads.mono {more : List Atom} {handle : Handle} (leads : heap.Leads roots handle)
    (kept : roots ⊆ more) : heap.Leads more handle := by
  induction leads with
  | root mem =>
      obtain ⟨root, mem, inside⟩ := List.mem_flatMap.mp mem
      exact .root (List.mem_flatMap.mpr ⟨root, kept mem, inside⟩)
  | step _ edge ih => exact .step ih edge

/-! ## Counting -/

/-- Of the slots below a bound, all but the ones in a list of such slots are counted. -/
theorem counts_unlisted {α : Type} [DecidableEq α] {make : Nat → α} {slot : α → Nat}
    (make_slot : ∀ id, make (slot id) = id) (slot_make : ∀ index, slot (make index) = index)
    {size : Nat} {listed : List α} (inRange : ∀ id ∈ listed, slot id < size) (once : listed.Nodup) :
    Counts (fun id => slot id < size ∧ id ∉ listed) (size - listed.length) := by
  let all := (List.range size).map make
  have mem_all (id : α) : id ∈ all ↔ slot id < size := by
    refine ⟨fun mem => ?_,
      fun below => List.mem_map.mpr ⟨slot id, List.mem_range.mpr below, make_slot id⟩⟩
    obtain ⟨index, below, rfl⟩ := List.mem_map.mp mem
    rw [slot_make]
    exact List.mem_range.mp below
  have allOnce : all.Nodup := by
    refine List.Pairwise.map _ (fun first second different same => different ?_) List.nodup_range
    rw [← slot_make first, same, slot_make]
  -- What is listed is as long as the part of all slots that it is.
  have part : (all.filter (· ∈ listed)).length = listed.length := by
    refine ((List.perm_ext_iff_of_nodup (allOnce.filter _) once).mpr fun id => ?_).length_eq
    rw [List.mem_filter, mem_all, decide_eq_true_iff]
    exact ⟨And.right, fun mem => ⟨inRange id mem, mem⟩⟩
  have split := List.length_eq_length_filter_add (l := all) (· ∈ listed)
  refine ⟨all.filter (¬ · ∈ listed), allOnce.filter _, ?_, fun id => ?_⟩
  · have size_all : all.length = size := by simp [all]
    simp only [decide_not] at *
    omega
  · rw [List.mem_filter, mem_all, decide_eq_true_iff]

theorem counts_hasRecord (heap : Heap) : Counts heap.HasRecord heap.recordCount :=
  counts_unlisted (fun _ => rfl) (fun _ => rfl) heap.freeRecords_inRange heap.freeRecords_nodup

theorem counts_hasClosure (heap : Heap) : Counts heap.HasClosure heap.closureCount :=
  counts_unlisted (fun _ => rfl) (fun _ => rfl) heap.freeClosures_inRange heap.freeClosures_nodup

/-! ## Collection -/

/-- A search from roots that lead to slots only meets what they lead to. -/
theorem contains_reachable_iff (slots : ∀ handle, heap.Leads roots handle → heap.HasSlot handle)
    (handle : Handle) : (heap.reachable roots).contains handle = true ↔ heap.Leads roots handle :=
  ((wellFormed_explore slots).contains_iff handle).trans (mem_order_explore_iff slots handle)

theorem not_mem_lostRecords (slots : ∀ handle, heap.Leads roots handle → heap.HasSlot handle)
    {id : RecordId} (leads : heap.Leads roots (.record id)) :
    id ∉ heap.lostRecords (heap.reachable roots) := by
  intro lost
  have missed := (mem_lostRecords_iff.mp lost).2.2
  rw [(contains_reachable_iff slots _).mpr leads] at missed
  cases missed

theorem not_mem_lostClosures (slots : ∀ handle, heap.Leads roots handle → heap.HasSlot handle)
    {id : FunctionId} (leads : heap.Leads roots (.function id)) :
    id ∉ (heap.freeLostRecords (heap.reachable roots)).lostClosures (heap.reachable roots) := by
  intro lost
  have missed := (mem_lostClosures_iff.mp lost).2.2
  rw [(contains_reachable_iff slots _).mpr leads] at missed
  cases missed

theorem hasRecord_freeLostRecords_iff {live : Visited} {id : RecordId} :
    (heap.freeLostRecords live).HasRecord id ↔
      heap.HasRecord id ∧ live.contains (.record id) = true := by
  constructor
  · rintro ⟨inRange, notFree⟩
    unfold freeLostRecords at inRange notFree
    rw [freeLostRecords.size_clear] at inRange
    obtain ⟨notLost, notFree⟩ := not_or.mp (List.mem_append.not.mp notFree)
    refine ⟨⟨inRange, notFree⟩, Bool.of_not_eq_false fun missed => notLost ?_⟩
    exact List.mem_reverse.mpr (mem_lostRecords_iff.mpr ⟨inRange, notFree, missed⟩)
  · rintro ⟨used, met⟩
    refine hasRecord_freeLostRecords used fun lost => ?_
    rw [(mem_lostRecords_iff.mp lost).2.2] at met
    cases met

theorem hasClosure_freeLostClosures_iff {live : Visited} {id : FunctionId} :
    (heap.freeLostClosures live).HasClosure id ↔
      heap.HasClosure id ∧ live.contains (.function id) = true := by
  constructor
  · rintro ⟨inRange, notFree⟩
    unfold freeLostClosures at inRange notFree
    rw [freeLostClosures.size_clear] at inRange
    obtain ⟨notLost, notFree⟩ := not_or.mp (List.mem_append.not.mp notFree)
    refine ⟨⟨inRange, notFree⟩, Bool.of_not_eq_false fun missed => notLost ?_⟩
    exact List.mem_reverse.mpr (mem_lostClosures_iff.mpr ⟨inRange, notFree, missed⟩)
  · rintro ⟨used, met⟩
    refine hasClosure_freeLostClosures used fun lost => ?_
    rw [(mem_lostClosures_iff.mp lost).2.2] at met
    cases met

/-- A collection keeps in use what was in use and what the roots lead to. -/
theorem inUse_collect_iff (slots : ∀ handle, heap.Leads roots handle → heap.HasSlot handle)
    (handle : Handle) :
    (heap.collect roots).2.InUse handle ↔ heap.InUse handle ∧ heap.Leads roots handle := by
  rw [← contains_reachable_iff slots]
  let live := heap.reachable roots
  cases handle with
  | record id =>
      have kept : (heap.freeLostRecords live).HasRecord id ↔ _ := hasRecord_freeLostRecords_iff
      exact kept
  | function id =>
      have kept : ((heap.freeLostRecords live).freeLostClosures live).HasClosure id ↔ _ :=
        hasClosure_freeLostClosures_iff
      exact kept

theorem record_collect (slots : ∀ handle, heap.Leads roots handle → heap.HasSlot handle)
    {id : RecordId}
    (leads : heap.Leads roots (.record id)) : (heap.collect roots).2.record id = heap.record id :=
  record_freeLostRecords (not_mem_lostRecords slots leads)

theorem closure_collect (slots : ∀ handle, heap.Leads roots handle → heap.HasSlot handle)
    {id : FunctionId} (leads : heap.Leads roots (.function id)) :
    (heap.collect roots).2.closure id = heap.closure id :=
  closure_freeLostClosures (not_mem_lostClosures slots leads)

end Heap

end RecordLisp
