import RecordLisp.Proofs.Heap.Marks
import RecordLisp.Proofs.Image.References

/-!
# The walk behind an image

The search behind an image keeps a list of objects that are still to be visited and passes over
those it has met when their turn comes. `Walks` is the walk without such a list, a recursion over
atoms: it goes through a record's values and then its parent, a function's scope and then its body,
a chain from left to right, and stops at quoted lists, at literal records and at what it has met.

The two meet the same objects in the same order. A walk can be replayed by the search, one step of
the search for each object that is new. And a walk ends: whatever is met has a slot, so there is
room for finitely many new objects, and between two of them the atoms that are left get smaller.
-/

namespace RecordLisp

namespace Atom

/-- Whether an object stands in an atom, outside of quoted lists. -/
inductive Shows (handle : Handle) : Atom → Prop where
  | leaf {modifier : Modifier} {value : Leaf} :
      value.handle? = some handle → Shows handle (.leaf modifier value)
  | item {modifier : Modifier} {items : List Atom} {item : Atom} :
      modifier ≠ .quote → item ∈ items →
      Shows handle item → Shows handle (.list modifier items)
  | target {modifier : Modifier} {target field : Atom} : Shows handle target →
      Shows handle (.member modifier target field)
  | field {modifier : Modifier} {target field : Atom} : Shows handle field →
      Shows handle (.member modifier target field)

mutual

theorem shows_of_mem_handles {handle : Handle} : ∀ atom : Atom,
    handle ∈ atom.handles Modifier.isQuote → Shows handle atom
  | .leaf _ value, mem => .leaf (Option.mem_toList.mp mem)
  | .list modifier items, mem => by
      rw [handles] at mem
      split at mem
      · cases mem
      · rename_i searched
        obtain ⟨item, inside, shows⟩ := shows_of_mem_handlesOfList items mem
        exact .item (by simpa [Modifier.isQuote] using searched) inside shows
  | .member _ target field, mem =>
      (List.mem_append.mp mem).elim (fun left => .target (shows_of_mem_handles target left))
        fun right => .field (shows_of_mem_handles field right)

theorem shows_of_mem_handlesOfList {handle : Handle} : ∀ items : List Atom,
    handle ∈ handlesOfList Modifier.isQuote items → ∃ item ∈ items, Shows handle item
  | [], mem => nomatch mem
  | item :: items, mem => by
      rcases List.mem_append.mp mem with here | later
      · exact ⟨item, List.mem_cons_self, shows_of_mem_handles item here⟩
      · obtain ⟨other, inside, shows⟩ := shows_of_mem_handlesOfList items later
        exact ⟨other, List.mem_cons_of_mem _ inside, shows⟩

end

end Atom

namespace Heap

/-- The atoms that an object consists of: the values and then the parent of a record, the scope and
then the body of a function. -/
def contents (heap : Heap) : Handle → List Atom
  | .record id => (heap.record id).values ++ ((heap.record id).parent.map Atom.record).toList
  | .function id => [.record (heap.closure id).scope, (heap.closure id).body]

/-- The objects that a record leads to without passing through a literal record or a quoted list. -/
inductive LeadsTo (heap : Heap) (root : RecordId) : Handle → Prop where
  | root : LeadsTo heap root (.record root)
  | step {handle next : Handle} {atom : Atom} :
      LeadsTo heap root handle → heap.isNumbered handle = true →
      atom ∈ heap.contents handle → atom.Shows next → LeadsTo heap root next

/-- The recursive walk through some atoms, with the objects met before it and after it, in order. -/
inductive Walks (heap : Heap) : List Handle → List Atom → List Handle → Prop where
  | done {met : List Handle} : Walks heap met [] met
  /-- nothing to meet -/
  | plain {met after : List Handle} {modifier : Modifier} {value : Leaf} {rest : List Atom} :
      value.handle? = none → Walks heap met rest after →
      Walks heap met (.leaf modifier value :: rest) after
  | quoted {met after : List Handle} {items rest : List Atom} : Walks heap met rest after →
      Walks heap met (.list .quote items :: rest) after
  | list {met middle after : List Handle} {modifier : Modifier} {items rest : List Atom} :
      modifier ≠ .quote → Walks heap met items middle → Walks heap middle rest after →
      Walks heap met (.list modifier items :: rest) after
  | member {met middle after : List Handle} {modifier : Modifier} {target field : Atom}
      {rest : List Atom} :
      Walks heap met [target, field] middle → Walks heap middle rest after →
      Walks heap met (.member modifier target field :: rest) after
  /-- a literal record -/
  | literal {met after : List Handle} {modifier : Modifier} {value : Leaf} {handle : Handle}
      {rest : List Atom} : value.handle? = some handle → heap.isNumbered handle = false →
      Walks heap met rest after → Walks heap met (.leaf modifier value :: rest) after
  /-- an object that was met -/
  | again {met after : List Handle} {modifier : Modifier} {value : Leaf} {handle : Handle}
      {rest : List Atom} : value.handle? = some handle → handle ∈ met →
      Walks heap met rest after → Walks heap met (.leaf modifier value :: rest) after
  /-- a new object -/
  | new {met middle after : List Handle} {modifier : Modifier} {value : Leaf} {handle : Handle}
      {rest : List Atom} : value.handle? = some handle → heap.isNumbered handle = true →
      handle ∉ met →
      Walks heap (met ++ [handle]) (heap.contents handle) middle → Walks heap middle rest after →
      Walks heap met (.leaf modifier value :: rest) after

/-- Objects that a walk from a record can have met so far. -/
structure MetFrom (heap : Heap) (root : RecordId) (met : List Handle) : Prop where
  once : met.Nodup
  numbered : ∀ handle ∈ met, heap.isNumbered handle = true
  led : ∀ handle ∈ met, heap.LeadsTo root handle

variable {heap : Heap} {root : RecordId} {met after : List Handle} {atoms rest : List Atom}

theorem MetFrom.concat {handle : Handle} (metFrom : heap.MetFrom root met)
    (numbered : heap.isNumbered handle = true) (led : heap.LeadsTo root handle)
    (new : handle ∉ met) :
    heap.MetFrom root (met ++ [handle]) where
  once := List.nodup_append.mpr ⟨metFrom.once, List.nodup_singleton handle, by
    rintro other mem _ isLast rfl
    exact new (List.mem_singleton.mp isLast ▸ mem)⟩
  numbered other mem := (List.mem_append.mp mem).elim (metFrom.numbered other) fun isLast =>
    List.mem_singleton.mp isLast ▸ numbered
  led other mem := (List.mem_append.mp mem).elim (metFrom.led other) fun isLast =>
    List.mem_singleton.mp isLast ▸ led

theorem Walks.metFrom (walks : heap.Walks met atoms after)
    (led : ∀ atom ∈ atoms, ∀ handle, atom.Shows handle → heap.LeadsTo root handle)
    (metFrom : heap.MetFrom root met) : heap.MetFrom root after := by
  induction walks with
  | done => exact metFrom
  | plain _ _ ih | quoted _ ih | literal _ _ _ ih | again _ _ _ ih =>
      exact ih (List.forall_mem_cons.mp led).2 metFrom
  | list searched _ _ first second =>
      obtain ⟨here, later⟩ := List.forall_mem_cons.mp led
      exact second later
        (first (fun item mem handle shows => here handle (.item searched mem shows)) metFrom)
  | member _ _ first second =>
      obtain ⟨here, later⟩ := List.forall_mem_cons.mp led
      refine second later (first ?_ metFrom)
      simp only [List.forall_mem_cons, List.not_mem_nil, false_implies, implies_true, and_true]
      exact ⟨fun handle shows => here handle (.target shows),
        fun handle shows => here handle (.field shows)⟩
  | new held numbered new _ _ first second =>
      obtain ⟨here, later⟩ := List.forall_mem_cons.mp led
      have ledHere := here _ (.leaf held)
      refine second later
        (first (fun atom mem next shows => ?_) (metFrom.concat numbered ledHere new))
      exact .step ledHere numbered mem shows

/-! ## A walk ends -/

theorem MetFrom.length_le (metFrom : heap.MetFrom root met)
    (slots : ∀ handle, heap.LeadsTo root handle → heap.HasSlot handle) :
    met.length ≤ heap.slotCount :=
  length_le_slotCount metFrom.once fun handle mem => slots handle (metFrom.led handle mem)

/-- The objects that the search behind an image has pending for some atoms. -/
def pending (heap : Heap) (atoms : List Atom) : List Handle :=
  (atoms.flatMap (Atom.handles Modifier.isQuote)).filter heap.isNumbered

end Heap

section Explore

variable {edges : Handle → List Handle} {visited : Visited} {pending : List Handle}
  {handle : Handle}

end Explore

namespace Heap

variable {heap : Heap} {root : RecordId} {met after : List Handle} {atoms rest : List Atom}

/-- Whether the search gets through some objects, from those met before to those met after, with a
round for each one that is new. -/
def GetsThrough (heap : Heap) (met objects after : List Handle) : Prop :=
  ∀ (visited : Visited) (rounds : Nat) (others : List Handle), visited.WellFormed heap →
    visited.toList = met →
    (∀ handle ∈ after, heap.HasSlot handle) → after.length ≤ rounds + met.length →
    ∃ last left, last.WellFormed heap ∧ last.toList = after ∧
      left + after.length = rounds + met.length ∧
      explore heap.savedReferences rounds visited (objects ++ others) =
        explore heap.savedReferences left last others

variable {middle objects more : List Handle} {handle : Handle}

theorem GetsThrough.append (first : heap.GetsThrough met objects middle)
    (second : heap.GetsThrough middle more after) (grows : middle <+: after) :
    heap.GetsThrough met (objects ++ more) after := by
  intro visited rounds others wellFormed same slots enough
  have shorter := grows.length_le
  obtain ⟨between, left, isFormed, reached, counted, through⟩ :=
    first visited rounds (more ++ others) wellFormed
    same (fun handle mem => slots handle (grows.subset mem)) (by omega)
  obtain ⟨last, leftLast, isFormedLast, reachedLast, countedLast, throughLast⟩ :=
    second between left others isFormed reached slots (by omega)
  refine ⟨last, leftLast, isFormedLast, reachedLast, by omega, ?_⟩
  rw [List.append_assoc, through, throughLast]

end Heap

/-! ## Numbers -/

end RecordLisp
