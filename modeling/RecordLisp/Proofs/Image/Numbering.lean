import RecordLisp.Image
import RecordLisp.Proofs.Heap.Search

/-!
# Numbers and marks

The search behind an image goes by its indexes, where a collection marks slots. As long as what is
met has slots, both meet the same objects in the same order. What is known of searches with marks
thus holds of the numbers: they are given to what the record leads to, and more rounds would give no
others.
-/

namespace RecordLisp

/-- The record behind a handle. -/
def Handle.record? : Handle → Option RecordId
  | .record id => some id
  | .function _ => none

/-- The function behind a handle. -/
def Handle.function? : Handle → Option FunctionId
  | .function id => some id
  | .record _ => none

/-- The objects that a search with marks meets where an image numbers objects. -/
def Heap.savedObjects (heap : Heap) (root : RecordId) : Visited :=
  explore heap.savedReferences (heap.slotCount + 1) (.none heap) [.record root]

namespace Numbering

variable {heap : Heap} {edges : Handle → List Handle} {roots pending : List Handle}
  {numbering : Numbering} {visited : Visited} {handle : Handle}

/-- Whether an object is one of those that are numbered. -/
def Numbers (numbering : Numbering) : Handle → Prop
  | .record id => id ∈ numbering.records
  | .function id => id ∈ numbering.functions

/-- Whether a numbering has the objects that a search with marks met, in the same order. -/
structure Follows (numbering : Numbering) (visited : Visited) : Prop where
  coherent : numbering.Coherent
  records : numbering.records = visited.toList.filterMap Handle.record?
  functions : numbering.functions = visited.toList.filterMap Handle.function?

theorem follows_none (heap : Heap) : empty.Follows (.none heap) := ⟨coherent_empty, rfl, rfl⟩

theorem Follows.numbers_iff (follows : numbering.Follows visited) (handle : Handle) :
    numbering.Numbers handle ↔ handle ∈ visited.order := by
  cases handle with
  | record id | function id =>
      simp only [Numbers, follows.records, follows.functions, List.mem_filterMap, Visited.toList,
        List.mem_reverse]
      constructor
      · rintro ⟨_ | _, mem, same⟩ <;> cases same
        exact mem
      · exact fun mem => ⟨_, mem, rfl⟩

theorem Coherent.contains_iff (coherent : numbering.Coherent) (handle : Handle) :
    numbering.contains handle = true ↔ numbering.Numbers handle := by
  cases handle with
  | record id => exact coherent.records.isSome_find?_iff
  | function id => exact coherent.functions.isSome_find?_iff

theorem Follows.contains_eq (follows : numbering.Follows visited)
    (wellFormed : visited.WellFormed heap) : numbering.contains = visited.contains := by
  funext handle
  rw [Bool.eq_iff_iff, follows.coherent.contains_iff, follows.numbers_iff, wellFormed.contains_iff]

theorem Follows.insert (follows : numbering.Follows visited)
    (new : numbering.contains handle = false) :
    (numbering.insert handle).Follows (visited.insert handle) := by
  refine ⟨follows.coherent.insert new, ?_, ?_⟩ <;>
    rw [Visited.toList, Visited.order_insert, List.reverse_cons, List.filterMap_append]
  · cases handle with
    | record id => exact congrArg (· ++ [id]) follows.records
    | function id => exact follows.records.trans (List.append_nil _).symm
  · cases handle with
    | record id => exact follows.functions.trans (List.append_nil _).symm
    | function id => exact congrArg (· ++ [id]) follows.functions

/-- The search with indexes keeps up with the search with marks. -/
theorem Follows.explore (follows : numbering.Follows visited)
    (searching : Searching heap edges roots visited pending)
    (slots : ∀ handle, Reaches edges roots handle → heap.HasSlot handle) (rounds : Nat) :
    (numbering.explore edges rounds pending).Follows
      (RecordLisp.explore edges rounds visited pending) := by
  induction rounds generalizing numbering visited pending with
  | zero => exact follows
  | succ rounds ih =>
      have skipped := searching.dropWhile
      have same := follows.contains_eq searching.wellFormed
      rw [Numbering.explore, RecordLisp.explore, same]
      cases left : pending.dropWhile visited.contains with
      | nil => exact follows
      | cons handle rest =>
          rw [left] at skipped
          have slot := slots handle (skipped.reached handle List.mem_cons_self)
          have new := eq_false_of_dropWhile_eq_cons left
          exact ih (follows.insert (same ▸ new)) (skipped.visit slot new)

/-- A search that has rounds for all slots ends with nothing pending, so more rounds change
nothing. -/
theorem Follows.explore_add (follows : numbering.Follows visited)
    (searching : Searching heap edges roots visited pending)
    (slots : ∀ handle, Reaches edges roots handle → heap.HasSlot handle) {rounds : Nat} (more : Nat)
    (enough : heap.slotCount < rounds + visited.order.length) :
    numbering.explore edges (rounds + more) pending = numbering.explore edges rounds pending := by
  induction rounds generalizing numbering visited pending with
  | zero =>
      have few := Heap.length_le_slotCount searching.wellFormed.once searching.wellFormed.slots
      omega
  | succ rounds ih =>
      have skipped := searching.dropWhile
      have same := follows.contains_eq searching.wellFormed
      rw [Nat.succ_add, Numbering.explore, Numbering.explore, same]
      split
      · rfl
      · rename_i handle rest left
        rw [left] at skipped
        have slot := slots handle (skipped.reached handle List.mem_cons_self)
        have new := eq_false_of_dropWhile_eq_cons left
        refine ih (follows.insert (same ▸ new)) (skipped.visit slot new) ?_
        rw [Visited.order_insert, List.length_cons]
        omega

/-- What has a number keeps it. -/
theorem records_isPrefix_explore (edges : Handle → List Handle) (rounds : Nat)
    (numbering : Numbering) (pending : List Handle) :
    numbering.records <+: (numbering.explore edges rounds pending).records := by
  induction rounds generalizing numbering pending with
  | zero => exact List.prefix_rfl
  | succ rounds ih =>
      rw [explore]
      split
      · exact List.prefix_rfl
      · rename_i handle rest _
        refine List.IsPrefix.trans ?_ (ih (numbering.insert handle) (edges handle ++ rest))
        cases handle with
        | record id => exact List.prefix_append _ _
        | function id => exact List.prefix_rfl

end Numbering

namespace Heap

variable {heap : Heap} {root : RecordId}

/-- The record itself has number zero. -/
theorem head?_records_numbering (heap : Heap) (root : RecordId) :
    (heap.numbering root).records.head? = some root := by
  obtain ⟨later, same⟩ := Numbering.records_isPrefix_explore heap.savedReferences heap.slotCount
    (Numbering.empty.insert (.record root)) (heap.savedReferences (.record root) ++ [])
  have first : heap.numbering root = (Numbering.empty.insert (.record root)).explore
    heap.savedReferences heap.slotCount (heap.savedReferences (.record root) ++ []) := rfl
  rw [first, ← same]
  rfl

section Slots

variable (slots : ∀ handle, Reaches heap.savedReferences [.record root] handle →
  heap.HasSlot handle)
include slots

/-- The numbers of an image follow a search with marks. -/
theorem follows_savedObjects : (heap.numbering root).Follows (heap.savedObjects root) :=
  (Numbering.follows_none heap).explore (searching_none heap _ _) slots _

/-- What has a number is what the record leads to. -/
theorem numbers_iff_reaches {handle : Handle} :
    (heap.numbering root).Numbers handle ↔ Reaches heap.savedReferences [.record root] handle :=
  (follows_savedObjects slots).numbers_iff handle |>.trans (mem_order_explore_iff slots handle)

/-- The rounds of the search are enough. -/
theorem explore_add_numbering (more : Nat) :
    Numbering.empty.explore heap.savedReferences (heap.slotCount + 1 + more) [.record root] =
      heap.numbering root :=
  (Numbering.follows_none heap).explore_add (searching_none heap _ _) slots more
    (Nat.lt_succ_self heap.slotCount)

end Slots

end Heap

end RecordLisp
