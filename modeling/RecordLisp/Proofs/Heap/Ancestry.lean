import Mathlib.Logic.Function.Iterate
import RecordLisp.Heap.Ancestry
import RecordLisp.Proofs.Heap.Slots

/-!
# Climbing parent chains

Climbing goes from a record to its parent again and again, without an end when the parents form a
cycle. The chain that lookups search is the piece of it up to the first record that was met before.
Nothing above this piece is missing from it, so the first record with a name in the list is the
nearest one that climbing finds.
-/

namespace RecordLisp.Heap

variable {heap : Heap}

/-- The record that some steps of climbing from `next` lead to, when there are as many parents. -/
def climb (heap : Heap) (steps : Nat) (next : Option RecordId) : Option RecordId :=
  (fun next => next.bind fun id => (heap.record id).parent)^[steps] next

theorem climb_succ (heap : Heap) (steps : Nat) (next : Option RecordId) :
    heap.climb (steps + 1) next = (heap.climb steps next).bind fun id => (heap.record id).parent :=
  Function.iterate_succ_apply' _ steps next

/-- Climbing looks at parents only. -/
theorem climb_congr {after : Heap} (same : ∀ id, (after.record id).parent = (heap.record id).parent)
    (steps : Nat) (next : Option RecordId) : after.climb steps next = heap.climb steps next := by
  unfold climb
  simp only [same]

/-- The start of a climb up to the first record that was met before, be it one of `seen` or one of
the chain itself. -/
structure IsChain (heap : Heap) (seen : List RecordId) (next : Option RecordId)
    (chain : List RecordId) : Prop where
  once : chain.Nodup
  fresh : ∀ id ∈ chain, id ∉ seen
  follows : ∀ steps < chain.length, heap.climb steps next = chain[steps]?
  stops : ∀ id, heap.climb chain.length next = some id → id ∈ seen ∨ id ∈ chain

theorem isChain_none (heap : Heap) (seen : List RecordId) : heap.IsChain seen none [] where
  once := List.nodup_nil
  fresh := List.forall_mem_nil _
  follows _ inside := absurd inside (Nat.not_lt_zero _)
  stops _ found := nomatch found

theorem isChain_seen {seen : List RecordId} {id : RecordId} (met : id ∈ seen) :
    heap.IsChain seen (some id) [] where
  once := List.nodup_nil
  fresh := List.forall_mem_nil _
  follows _ inside := absurd inside (Nat.not_lt_zero _)
  stops _ found := .inl (Option.some.inj found ▸ met)

theorem IsChain.cons {seen chain : List RecordId} {id : RecordId} (new : id ∉ seen)
    (above : heap.IsChain (id :: seen) (heap.record id).parent chain) :
    heap.IsChain seen (some id) (id :: chain) where
  once := by
    apply List.nodup_cons.mpr
    constructor
    · intro again
      exact above.fresh id again List.mem_cons_self
    · exact above.once
  fresh := by
    intro other mem met
    rcases List.mem_cons.mp mem with rfl | later
    · exact new met
    · exact above.fresh other later (List.mem_cons_of_mem id met)
  follows steps inside := by
    cases steps with
    | zero => rfl
    | succ steps => exact above.follows steps (Nat.lt_of_succ_lt_succ inside)
  stops other found := by
    rcases above.stops other found with met | here
    · rcases List.mem_cons.mp met with same | met
      · exact .inr (same ▸ List.mem_cons_self)
      · exact .inl met
    · exact .inr (List.mem_cons_of_mem id here)

theorem isChain_ancestorsFrom {fuel : Nat} {seen : List RecordId} (once : seen.Nodup)
    (slots : ∀ id ∈ seen, id.index < heap.records.size)
    (enough : heap.records.size < fuel + seen.length) (next : Option RecordId) :
    heap.IsChain seen next (heap.ancestorsFrom fuel seen next) := by
  induction fuel generalizing seen next with
  | zero =>
      have few := length_le_of_inRange once slots
      omega
  | succ fuel ih =>
      cases next with
      | none => exact isChain_none heap seen
      | some id =>
          rw [ancestorsFrom]
          split
          · rename_i met
            exact isChain_seen (by simpa using met)
          · rename_i unseen
            have new : id ∉ seen := by simpa using unseen
            apply IsChain.cons new
            by_cases slot : id.index < heap.records.size
            · apply ih (List.nodup_cons.mpr ⟨new, once⟩) (List.forall_mem_cons.mpr ⟨slot, slots⟩)
              rw [List.length_cons]
              omega
            · -- A handle without a slot reads as a record without a parent.
              have isEmpty : heap.record id = .empty := by
                by_contra notEmpty
                exact slot (inRange_of_record_ne_empty notEmpty)
              rw [isEmpty]
              simp only [Record.empty, ancestorsFrom]
              exact isChain_none heap (id :: seen)

/-- The chain of a record is the start of the climb from it, up to the first record met twice. -/
theorem isChain_ancestors (heap : Heap) (start : RecordId) :
    heap.IsChain [] (some start) (heap.ancestors start) :=
  isChain_ancestorsFrom List.nodup_nil (List.forall_mem_nil _) (Nat.lt_succ_self _) (some start)

/-- Climbing never leaves the chain: a step from its last record leads to none or back into it. -/
theorem mem_ancestors_iff {start id : RecordId} :
    id ∈ heap.ancestors start ↔ ∃ steps, heap.climb steps (some start) = some id := by
  have chain := heap.isChain_ancestors start
  constructor
  · intro mem
    obtain ⟨steps, inside, here⟩ := List.mem_iff_getElem.mp mem
    have reached : heap.climb steps (some start) = some id := by
      rw [chain.follows steps inside, List.getElem?_eq_getElem inside, here]
    exact ⟨steps, reached⟩
  · rintro ⟨steps, found⟩
    induction steps generalizing id with
    | zero =>
        cases length : (heap.ancestors start).length with
        | zero => exact (chain.stops id (length ▸ found)).resolve_left List.not_mem_nil
        | succ length' =>
            have first := chain.follows 0 (length ▸ Nat.succ_pos length')
            exact List.mem_of_getElem? (first.symm.trans found)
    | succ steps ih =>
        rw [climb_succ] at found
        obtain ⟨below, reached, isParent⟩ := Option.bind_eq_some_iff.mp found
        obtain ⟨place, inside, here⟩ := List.mem_iff_getElem.mp (ih reached)
        have atPlace : heap.climb place (some start) = some below := by
          rw [chain.follows place inside, List.getElem?_eq_getElem inside, here]
        have next : heap.climb (place + 1) (some start) = some id := by
          rw [climb_succ, atPlace]
          exact isParent
        by_cases further : place + 1 < (heap.ancestors start).length
        · exact List.mem_of_getElem? ((chain.follows _ further).symm.trans next)
        · have last : place + 1 = (heap.ancestors start).length := by omega
          exact (chain.stops id (last ▸ next)).resolve_left List.not_mem_nil

/-- Whether climbing from a record goes along a list, as far as the list goes. -/
def ClimbsAlong (heap : Heap) (start : RecordId) (path : List RecordId) : Prop :=
  ∀ steps < path.length, heap.climb steps (some start) = path[steps]?

/-- No list without repetitions that the climb goes along is longer than the chain. -/
theorem ClimbsAlong.prefix_ancestors {start : RecordId} {path : List RecordId}
    (along : heap.ClimbsAlong start path) (once : path.Nodup) : path <+: heap.ancestors start := by
  have chain := heap.isChain_ancestors start
  have within : path.length ≤ (heap.ancestors start).length := by
    by_contra longer
    have inside := Nat.lt_of_not_le longer
    -- The record after the end of the chain would be one of the chain again.
    have next := (along _ inside).trans (List.getElem?_eq_getElem inside)
    have again := (chain.stops _ next).resolve_left List.not_mem_nil
    obtain ⟨place, before, same⟩ := List.mem_iff_getElem.mp again
    have first := (chain.follows place before).symm.trans (along place (Nat.lt_trans before inside))
    rw [List.getElem?_eq_getElem before, same] at first
    have places :=
      (List.getElem?_inj inside once).mp ((List.getElem?_eq_getElem inside).trans first)
    exact Nat.lt_irrefl place (places ▸ before)
  apply List.prefix_iff_getElem?.mpr
  intro steps inside
  rw [← chain.follows steps (Nat.lt_of_lt_of_le inside within), along steps inside,
    List.getElem?_eq_getElem inside]

/-! ## The nearest record with a name -/

/-- Whether a record is the first with a name that climbing from `start` meets. -/
def Nearest (heap : Heap) (start : RecordId) (name : String) (scope : RecordId) : Prop :=
  ∃ steps, heap.climb steps (some start) = some scope ∧ (heap.record scope).contains name = true ∧
    ∀ earlier < steps, ∀ id, heap.climb earlier (some start) = some id →
      (heap.record id).contains name = false

variable {start scope : RecordId} {name : String}

theorem Nearest.unique {other : RecordId} (first : heap.Nearest start name scope)
    (second : heap.Nearest start name other) : scope = other := by
  obtain ⟨steps, reached, has, before⟩ := first
  obtain ⟨steps', reached', has', before'⟩ := second
  rcases Nat.lt_trichotomy steps steps' with less | same | more
  · rw [before' steps less scope reached] at has
    cases has
  · exact Option.some.inj (reached.symm.trans (same ▸ reached'))
  · rw [before steps' more other reached'] at has'
    cases has'

theorem Nearest.contains (nearest : heap.Nearest start name scope) :
    (heap.record scope).contains name = true := by
  obtain ⟨_, _, has, _⟩ := nearest
  exact has

/-- The search of the chain finds the nearest record with a name. -/
theorem declaring?_eq_some_iff :
    heap.declaring? start name = some scope ↔ heap.Nearest start name scope := by
  have chain := heap.isChain_ancestors start
  have nearest {id : RecordId} (found : heap.declaring? start name = some id) :
      heap.Nearest start name id := by
    obtain ⟨has, steps, inside, here, before⟩ := List.find?_eq_some_iff_getElem.mp found
    refine ⟨steps, ?_, has, ?_⟩
    · rw [chain.follows steps inside, List.getElem?_eq_getElem inside, here]
    · intro earlier less other reached
      have inside' := Nat.lt_trans less inside
      rw [chain.follows earlier inside', List.getElem?_eq_getElem inside'] at reached
      cases reached
      simpa using before earlier less
  constructor
  · exact nearest
  · intro isNearest
    cases found : heap.declaring? start name with
    | none =>
        obtain ⟨steps, reached, has, _⟩ := isNearest
        have absent := List.find?_eq_none.mp found scope (mem_ancestors_iff.mpr ⟨steps, reached⟩)
        exact absurd has absent
    | some other => rw [(nearest found).unique isNearest]

/-- The search fails exactly when climbing meets no record with the name. -/
theorem declaring?_eq_none_iff :
    heap.declaring? start name = none ↔
      ∀ steps id, heap.climb steps (some start) = some id →
        (heap.record id).contains name = false := by
  unfold declaring?
  rw [List.find?_eq_none]
  constructor
  · intro absent steps id reached
    simpa using absent id (mem_ancestors_iff.mpr ⟨steps, reached⟩)
  · intro absent id mem
    obtain ⟨steps, reached⟩ := mem_ancestors_iff.mp mem
    simpa using absent steps id reached

/-- A name is looked up in the nearest record that has it. -/
theorem lookup?_eq_bind_declaring? (heap : Heap) (start : RecordId) (name : String) :
    heap.lookup? start name = (heap.declaring? start name).bind fun id =>
      (heap.record id).get? name := by
  unfold lookup? declaring?
  induction heap.ancestors start with
  | nil => rfl
  | cons id chain ih =>
      rw [List.findSome?_cons, List.find?_cons, Record.contains_eq]
      cases found : (heap.record id).get? name with
      | none => exact ih
      | some value => exact found.symm

/-- The search of the chain gives the value of the nearest record with a name. -/
theorem lookup?_eq_some_iff {value : Atom} :
    heap.lookup? start name = some value ↔
      ∃ scope, heap.Nearest start name scope ∧ (heap.record scope).get? name = some value := by
  rw [lookup?_eq_bind_declaring?, Option.bind_eq_some_iff]
  simp only [declaring?_eq_some_iff]

theorem lookup?_eq_none_iff :
    heap.lookup? start name = none ↔
      ∀ steps id, heap.climb steps (some start) = some id →
        (heap.record id).contains name = false := by
  rw [← declaring?_eq_none_iff, lookup?_eq_bind_declaring?, Option.bind_eq_none_iff]
  constructor
  · intro absent
    cases found : heap.declaring? start name with
    | none => rfl
    | some scope =>
        have has := (declaring?_eq_some_iff.mp found).contains
        rw [Record.contains_eq, absent scope found] at has
        cases has
  · intro none scope found
    cases none.symm.trans found

/-- The chain of a record is the longest list without repetitions that climbing from it goes along:
the next step leads to no record or to one of the chain, whatever cycle the parents form. A name is
looked up in the nearest record that has it, and nothing is found only when climbing meets no record
with the name; finding that record and reading its own field gives the same. -/
theorem parent_search_is_exact (heap : Heap) (start : RecordId) :
    let chain := heap.ancestors start
    heap.ClimbsAlong start chain ∧ chain.Nodup ∧
    (∀ path, heap.ClimbsAlong start path → path.Nodup → path <+: chain) ∧
    (∀ id, heap.climb chain.length (some start) = some id → id ∈ chain) ∧
    ∀ name : String,
      (∀ value, heap.lookup? start name = some value ↔
        ∃ scope, heap.Nearest start name scope ∧ (heap.record scope).get? name = some value) ∧
      (heap.lookup? start name = none ↔
        ∀ steps id, heap.climb steps (some start) = some id →
          (heap.record id).contains name = false) ∧
      heap.lookup? start name =
        (heap.declaring? start name).bind fun id => (heap.record id).get? name := by
  intro chain
  have isChain := heap.isChain_ancestors start
  refine ⟨isChain.follows, isChain.once, fun path along once => along.prefix_ancestors once, ?_, ?_⟩
  · intro id next
    exact (isChain.stops id next).resolve_left List.not_mem_nil
  · intro name
    exact ⟨fun value => lookup?_eq_some_iff, lookup?_eq_none_iff,
      lookup?_eq_bind_declaring? heap start name⟩

/-- Two records that are the parents of each other and a third below them: the chain from the third
ends where the cycle would close, although it does not close at the third. -/
theorem parent_search_is_exact_cycle :
    let parent (id : Nat) (record : Record) : Record := { record with parent := some ⟨id⟩ }
    let heap := (Heap.empty.allocRecord .empty).2
    let heap := (heap.allocRecord (.childOf ⟨0⟩)).2
    let heap := (heap.allocRecord (.childOf ⟨1⟩)).2
    let heap := (heap.modifyRecord ⟨0⟩ (parent 1)).insert ⟨0⟩ "hit" .nil
    heap.ancestors ⟨2⟩ = [⟨2⟩, ⟨1⟩, ⟨0⟩] ∧
      [⟨2⟩, ⟨1⟩] <+: heap.ancestors ⟨2⟩ ∧
      (heap.climb 3 (some ⟨2⟩) = some ⟨1⟩ ∧ ⟨1⟩ ∈ heap.ancestors ⟨2⟩) ∧
      (heap.lookup? ⟨2⟩ "hit" = some .nil ∧
        ∃ scope, heap.Nearest ⟨2⟩ "hit" scope ∧ (heap.record scope).get? "hit" = some .nil) ∧
      heap.lookup? ⟨2⟩ "miss" = none := by
  intro parent heap heap heap heap
  obtain ⟨-, -, longest, stops, search⟩ := parent_search_is_exact heap ⟨2⟩
  have chain : heap.ancestors ⟨2⟩ = [⟨2⟩, ⟨1⟩, ⟨0⟩] := rfl
  have closes : heap.climb 3 (some ⟨2⟩) = some ⟨1⟩ := rfl
  have hit : heap.lookup? ⟨2⟩ "hit" = some .nil := rfl
  have along : heap.ClimbsAlong ⟨2⟩ [⟨2⟩, ⟨1⟩] := fun steps inside => by
    match steps, inside with
    | 0, _ | 1, _ => rfl
  refine ⟨chain, longest _ along (by decide), ⟨closes, stops ⟨1⟩ ?_⟩,
    ⟨hit, ((search "hit").1 .nil).mp hit⟩, ?_⟩
  · rw [chain]
    exact closes
  · apply (search "miss").2.1.mpr
    intro steps id reached
    have mem := mem_ancestors_iff.mpr ⟨steps, reached⟩
    rw [chain] at mem
    simp only [List.mem_cons, List.not_mem_nil, or_false] at mem
    obtain rfl | rfl | rfl := mem <;> rfl

end RecordLisp.Heap
