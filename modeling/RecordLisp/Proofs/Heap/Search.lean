import Mathlib.Data.List.TakeWhile
import RecordLisp.Heap.Reach
import RecordLisp.Proofs.Heap.Slots

/-!
# Search visits what can be reached

`Reaches` says which objects some roots lead to along given edges. Depth-first search with as many
rounds as the heap has slots lists exactly these objects, each once, provided that all of them have
slots. The rounds suffice because each one lists a new object.
-/

namespace RecordLisp

namespace Heap

/-- Whether a handle has a slot, free or not. -/
def HasSlot (heap : Heap) : Handle → Prop
  | .record id => id.index < heap.records.size
  | .function id => id.index < heap.closures.size

/-- There are no more different objects than slots. -/
theorem length_le_slotCount {heap : Heap} {handles : List Handle} (once : handles.Nodup)
    (slots : ∀ handle ∈ handles, heap.HasSlot handle) : handles.length ≤ heap.slotCount := by
  have listed : handles ⊆
      (List.range heap.records.size).map (fun index => Handle.record ⟨index⟩) ++
        (List.range heap.closures.size).map (fun index => Handle.function ⟨index⟩) := by
    intro handle mem
    have slot := slots handle mem
    cases handle with
    | record id =>
        apply List.mem_append_left
        exact List.mem_map.mpr ⟨id.index, List.mem_range.mpr slot, rfl⟩
    | function id =>
        apply List.mem_append_right
        exact List.mem_map.mpr ⟨id.index, List.mem_range.mpr slot, rfl⟩
  simpa [slotCount] using once.length_le_of_subset listed

end Heap

/-- The objects that some roots lead to. -/
inductive Reaches (edges : Handle → List Handle) (roots : List Handle) : Handle → Prop where
  | root {handle : Handle} : handle ∈ roots → Reaches edges roots handle
  | step {handle next : Handle} :
      Reaches edges roots handle → next ∈ edges handle → Reaches edges roots next

/-- What holds of the roots and is kept along edges holds of everything they lead to. -/
theorem Reaches.closed {edges : Handle → List Handle} {roots : List Handle}
    {property : Handle → Prop} (atRoots : ∀ handle ∈ roots, property handle)
    (along : ∀ handle, property handle → ∀ next ∈ edges handle, property next) {handle : Handle}
    (reaches : Reaches edges roots handle) : property handle := by
  induction reaches with
  | root mem => exact atRoots _ mem
  | step _ mem ih => exact along _ ih _ mem

namespace Visited

/-- The flags and the order of the objects that were met agree, and each object stands in the order
once. -/
structure WellFormed (heap : Heap) (visited : Visited) : Prop where
  records_size : visited.records.size = heap.records.size
  closures_size : visited.closures.size = heap.closures.size
  contains_iff : ∀ handle, visited.contains handle = true ↔ handle ∈ visited.order
  once : visited.order.Nodup
  slots : ∀ handle ∈ visited.order, heap.HasSlot handle

theorem wellFormed_none (heap : Heap) : (none heap).WellFormed heap where
  records_size := by simp [none]
  closures_size := by simp [none]
  contains_iff handle := by
    cases handle with
    | record id =>
        by_cases inRange : id.index < heap.records.size <;> simp [none, contains, inRange]
    | function id =>
        by_cases inRange : id.index < heap.closures.size <;> simp [none, contains, inRange]
  once := List.nodup_nil
  slots := by simp [none]

theorem contains_insert_iff {heap : Heap} {visited : Visited} {handle : Handle}
    (wellFormed : visited.WellFormed heap) (slot : heap.HasSlot handle) (other : Handle) :
    (visited.insert handle).contains other = true ↔
      other = handle ∨ visited.contains other = true := by
  cases handle with
  | record id =>
      cases other with
      | record other =>
          have inRange : id.index < visited.records.size := wellFormed.records_size ▸ slot
          by_cases same : id.index = other.index
          · have equal : other = id := RecordId.ext same.symm
            subst equal
            simp [insert, contains, inRange]
          · have different : other ≠ id := fun equal => same (equal ▸ rfl)
            simp [insert, contains, same, different]
      | function other => simp [insert, contains]
  | function id =>
      cases other with
      | record other => simp [insert, contains]
      | function other =>
          have inRange : id.index < visited.closures.size := wellFormed.closures_size ▸ slot
          by_cases same : id.index = other.index
          · have equal : other = id := FunctionId.ext same.symm
            subst equal
            simp [insert, contains, inRange]
          · have different : other ≠ id := fun equal => same (equal ▸ rfl)
            simp [insert, contains, same, different]

@[simp] theorem order_insert (visited : Visited) (handle : Handle) :
    (visited.insert handle).order = handle :: visited.order := by
  cases handle <;> rfl

theorem WellFormed.insert {heap : Heap} {visited : Visited} {handle : Handle}
    (wellFormed : visited.WellFormed heap) (slot : heap.HasSlot handle)
    (new : visited.contains handle = false) : (visited.insert handle).WellFormed heap where
  records_size := by
    cases handle <;> simp [Visited.insert, wellFormed.records_size]
  closures_size := by
    cases handle <;> simp [Visited.insert, wellFormed.closures_size]
  contains_iff other := by
    rw [contains_insert_iff wellFormed slot, order_insert, List.mem_cons, wellFormed.contains_iff]
  once := by
    rw [order_insert, List.nodup_cons]
    refine ⟨fun mem => ?_, wellFormed.once⟩
    rw [(wellFormed.contains_iff handle).mpr mem] at new
    cases new
  slots other mem := by
    rw [order_insert, List.mem_cons] at mem
    rcases mem with rfl | earlier
    · exact slot
    · exact wellFormed.slots other earlier

end Visited

/-- A search in progress: the objects met and pending can all be reached, the roots are among them,
and what an object that was met leads to was met or is pending. -/
structure Searching (heap : Heap) (edges : Handle → List Handle) (roots : List Handle)
    (visited : Visited) (pending : List Handle) : Prop where
  wellFormed : visited.WellFormed heap
  met : ∀ handle ∈ visited.order, Reaches edges roots handle
  reached : ∀ handle ∈ pending, Reaches edges roots handle
  roots_met : ∀ handle ∈ roots, handle ∈ visited.order ∨ handle ∈ pending
  edges_met : ∀ handle ∈ visited.order, ∀ next ∈ edges handle,
    next ∈ visited.order ∨ next ∈ pending

section Explore

variable {heap : Heap} {edges : Handle → List Handle} {roots pending : List Handle}
  {visited : Visited}

theorem searching_none (heap : Heap) (edges : Handle → List Handle) (roots : List Handle) :
    Searching heap edges roots (.none heap) roots where
  wellFormed := Visited.wellFormed_none heap
  met := by simp [Visited.none]
  reached _ mem := .root mem
  roots_met _ mem := .inr mem
  edges_met := by simp [Visited.none]

/-- Pending objects that were met can be passed over. -/
theorem Searching.dropWhile (searching : Searching heap edges roots visited pending) :
    Searching heap edges roots visited (pending.dropWhile visited.contains) := by
  have later : ∀ handle ∈ pending, handle ∈ visited.order ∨
      handle ∈ pending.dropWhile visited.contains := by
    intro handle mem
    rw [← List.takeWhile_append_dropWhile (p := visited.contains) (l := pending),
      List.mem_append] at mem
    rcases mem with passed | left
    · exact .inl ((searching.wellFormed.contains_iff handle).mp (List.mem_takeWhile_imp passed))
    · exact .inr left
  constructor
  case wellFormed => exact searching.wellFormed
  case met => exact searching.met
  case reached =>
    intro handle mem
    exact searching.reached handle ((List.dropWhile_sublist _).subset mem)
  case roots_met =>
    intro handle mem
    exact (searching.roots_met handle mem).elim .inl (later handle)
  case edges_met =>
    intro handle mem next edge
    exact (searching.edges_met handle mem next edge).elim .inl (later next)

/-- One round: the next object is noted, and what it leads to becomes pending. -/
theorem Searching.visit {handle : Handle}
    (searching : Searching heap edges roots visited (handle :: pending))
    (slot : heap.HasSlot handle) (new : visited.contains handle = false) :
    Searching heap edges roots (visited.insert handle) (edges handle ++ pending) := by
  have reached := searching.reached handle List.mem_cons_self
  have moved : ∀ other, other ∈ visited.order ∨ other ∈ handle :: pending →
      other ∈ (visited.insert handle).order ∨ other ∈ edges handle ++ pending := by
    intro other known
    rw [Visited.order_insert, List.mem_cons, List.mem_append]
    rcases known with earlier | left
    · exact .inl (.inr earlier)
    · rcases List.mem_cons.mp left with same | left
      · exact .inl (.inl same)
      · exact .inr (.inr left)
  constructor
  case wellFormed => exact searching.wellFormed.insert slot new
  case met =>
    intro other mem
    rw [Visited.order_insert, List.mem_cons] at mem
    rcases mem with rfl | earlier
    · exact reached
    · exact searching.met other earlier
  case reached =>
    intro other mem
    rcases List.mem_append.mp mem with edge | left
    · exact .step reached edge
    · exact searching.reached other (List.mem_cons_of_mem handle left)
  case roots_met =>
    intro other mem
    exact moved other (searching.roots_met other mem)
  case edges_met =>
    intro other mem next edge
    rw [Visited.order_insert, List.mem_cons] at mem
    rcases mem with rfl | earlier
    · exact .inr (List.mem_append_left pending edge)
    · exact moved next (searching.edges_met other earlier next edge)

/-- A search that has rounds for all slots ends with nothing pending. -/
theorem Searching.explore {rounds : Nat} (searching : Searching heap edges roots visited pending)
    (slots : ∀ handle, Reaches edges roots handle → heap.HasSlot handle)
    (enough : heap.slotCount < rounds + visited.order.length) :
    Searching heap edges roots (RecordLisp.explore edges rounds visited pending) [] := by
  induction rounds generalizing visited pending with
  | zero =>
      have few := Heap.length_le_slotCount searching.wellFormed.once searching.wellFormed.slots
      omega
  | succ rounds ih =>
      rw [RecordLisp.explore]
      have skipped := searching.dropWhile
      split
      · rename_i none
        rw [none] at skipped
        exact skipped
      · rename_i handle rest left
        rw [left] at skipped
        have slot := slots handle (skipped.reached handle List.mem_cons_self)
        refine ih (skipped.visit slot (eq_false_of_dropWhile_eq_cons left)) ?_
        rw [Visited.order_insert, List.length_cons]
        omega

/-- Search from some roots lists exactly what they lead to. -/
theorem mem_order_explore_iff
    (slots : ∀ handle, Reaches edges roots handle → heap.HasSlot handle) (handle : Handle) :
    handle ∈ (explore edges (heap.slotCount + 1) (.none heap) roots).order ↔
      Reaches edges roots handle := by
  have done := (searching_none heap edges roots).explore slots (Nat.lt_succ_self heap.slotCount)
  constructor
  · exact done.met handle
  · apply Reaches.closed
    · intro other mem
      simpa using done.roots_met other mem
    · intro other mem next edge
      simpa using done.edges_met other mem next edge

theorem wellFormed_explore
    (slots : ∀ handle, Reaches edges roots handle → heap.HasSlot handle) :
    (explore edges (heap.slotCount + 1) (.none heap) roots).WellFormed heap :=
  ((searching_none heap edges roots).explore slots (Nat.lt_succ_self heap.slotCount)).wellFormed

end Explore

end RecordLisp
