import RecordLisp.Heap.Collect
import RecordLisp.Proofs.Heap.Matching
import RecordLisp.Proofs.Heap.Search

/-!
# Collections do not change what can be reached

What some atoms lead to is the same graph in two matching heaps. A collection on one side keeps
exactly that graph in use, so the heaps still match afterwards, under the pairs that can be reached.
-/

namespace RecordLisp

/-- The objects that some atoms lead to. -/
def Heap.Leads (heap : Heap) (roots : List Atom) : Handle → Prop :=
  Reaches heap.references (roots.flatMap (Atom.handles fun _ => false))

/-- Atoms of two heaps that lead to the same graph: a pairing of all that the one lead to with all
that the others lead to, under which the atoms match and paired objects have matching contents. -/
structure Pairing.Identifies (pairing : Pairing) (heap : Heap) (roots : List Atom) (other : Heap)
    (others : List Atom) : Prop where
  starts : List.Forall₂ (Atom.Match pairing) roots others
  leads : ∀ handle, heap.Leads roots handle ↔ ∃ image, handle.Match pairing image
  leadsImage : ∀ image, other.Leads others image ↔ ∃ handle : Handle, handle.Match pairing image
  record : ∀ {id image}, pairing.record id image →
    (heap.record id).Match pairing (other.record image)
  closure : ∀ {id image}, pairing.function id image →
    (heap.closure id).Match pairing (other.closure image)

/-- The pairs whose first objects have a property. -/
def Pairing.restrict (pairing : Pairing) (keep : Handle → Prop) : Pairing where
  record id image := pairing.record id image ∧ keep (.record id)
  function id image := pairing.function id image ∧ keep (.function id)
  record_unique first second := pairing.record_unique first.1 second.1
  function_unique first second := pairing.function_unique first.1 second.1

section Restrict

variable {pairing : Pairing} {keep : Handle → Prop}

theorem Handle.match_restrict_iff {handle image : Handle} :
    handle.Match (pairing.restrict keep) image ↔ handle.Match pairing image ∧ keep handle := by
  constructor
  · intro matched
    cases matched with
    | record paired => exact ⟨.record paired.1, paired.2⟩
    | function paired => exact ⟨.function paired.1, paired.2⟩
  · rintro ⟨matched, kept⟩
    cases matched with
    | record paired => exact .record ⟨paired, kept⟩
    | function paired => exact .function ⟨paired, kept⟩

mutual

theorem Atom.Match.restrict : ∀ {atom other : Atom}, atom.Match pairing other →
    (∀ handle ∈ atom.handles (fun _ => false), keep handle) →
      atom.Match (pairing.restrict keep) other
  | .leaf _ _, _, .leaf value, kept => by
      apply Atom.Match.leaf
      cases value with
      | same noHandle => exact .same noHandle
      | record paired => exact .record ⟨paired, kept _ (by simp [handles, Leaf.handle?])⟩
      | function paired => exact .function ⟨paired, kept _ (by simp [handles, Leaf.handle?])⟩
  | .list _ _, _, .list items, kept => by
      simp only [handles, Bool.false_eq_true, if_false] at kept
      exact .list (Atom.matchAll_restrict items kept)
  | .member _ _ _, _, .member target field, kept => by
      simp only [handles, List.mem_append] at kept
      exact .member (Atom.Match.restrict target fun handle mem => kept handle (.inl mem))
        (Atom.Match.restrict field fun handle mem => kept handle (.inr mem))

theorem Atom.matchAll_restrict : ∀ {items others : List Atom},
    List.Forall₂ (Atom.Match pairing) items others →
      (∀ handle ∈ Atom.handlesOfList (fun _ => false) items, keep handle) →
      List.Forall₂ (Atom.Match (pairing.restrict keep)) items others
  | [], _, .nil, _ => .nil
  | _ :: _, _, .cons item items, kept => by
      simp only [handlesOfList, List.mem_append] at kept
      exact .cons (Atom.Match.restrict item fun handle mem => kept handle (.inl mem))
        (Atom.matchAll_restrict items fun handle mem => kept handle (.inr mem))

end

theorem Fields.Match.restrict {fields others : Fields} (matched : fields.Match pairing others)
    (kept : ∀ name value, (name, value) ∈ fields →
      ∀ handle ∈ value.handles (fun _ => false), keep handle) :
    fields.Match (pairing.restrict keep) others := by
  induction matched with
  | nil => exact .nil
  | cons field _ ih =>
      refine .cons ⟨field.1, field.2.restrict (kept _ _ List.mem_cons_self)⟩ (ih ?_)
      exact fun name value mem => kept name value (List.mem_cons_of_mem _ mem)

end Restrict

namespace Heap

variable {pairing : Pairing} {heap other : Heap}

/-! ## References -/

theorem mem_references_value {id : RecordId} {name : String} {value : Atom}
    (field : (name, value) ∈ (heap.record id).fields) {handle : Handle}
    (mem : handle ∈ value.handles fun _ => false) : handle ∈ heap.references (.record id) := by
  refine List.mem_append_right _ (List.mem_flatMap.mpr ⟨value, ?_, mem⟩)
  exact List.mem_map.mpr ⟨_, field, rfl⟩

theorem mem_references_parent {id parent : RecordId}
    (isParent : (heap.record id).parent = some parent) :
    .record parent ∈ heap.references (.record id) :=
  List.mem_append_left _ (by simp [isParent])

/-- Paired objects refer to paired objects, in the same order. -/
theorem Match.references (matched : heap.Match pairing other) {handle image : Handle}
    (paired : handle.Match pairing image) :
    List.Forall₂ (Handle.Match pairing) (heap.references handle) (other.references image) := by
  cases paired with
  | record paired =>
      have contents := matched.record paired
      exact List.rel_append contents.parentHandles (contents.valueHandles _)
  | function paired =>
      have contents := matched.closure paired
      exact .cons (.record contents.scope) (contents.body.handles _)

theorem Match.reaches (matched : heap.Match pairing other) {roots others : List Handle}
    (starts : List.Forall₂ (Handle.Match pairing) roots others) {handle : Handle}
    (reached : Reaches heap.references roots handle) :
    ∃ image, handle.Match pairing image ∧ Reaches other.references others image := by
  induction reached with
  | root mem =>
      obtain ⟨image, mem', paired⟩ := exists_right_of_mem starts mem
      exact ⟨image, paired, .root mem'⟩
  | step _ edge ih =>
      obtain ⟨image, paired, reached⟩ := ih
      obtain ⟨next, edge', paired'⟩ := exists_right_of_mem (matched.references paired) edge
      exact ⟨next, paired', .step reached edge'⟩

theorem Match.reachesBack (matched : heap.Match pairing other) {roots others : List Handle}
    (starts : List.Forall₂ (Handle.Match pairing) roots others) {image : Handle}
    (reached : Reaches other.references others image) :
    ∃ handle, handle.Match pairing image ∧ Reaches heap.references roots handle := by
  induction reached with
  | root mem =>
      obtain ⟨handle, mem', paired⟩ := exists_left_of_mem starts mem
      exact ⟨handle, paired, .root mem'⟩
  | step _ edge ih =>
      obtain ⟨handle, paired, reached⟩ := ih
      obtain ⟨next, edge', paired'⟩ := exists_left_of_mem (matched.references paired) edge
      exact ⟨next, paired', .step reached edge'⟩

theorem handles_of_roots {roots others : List Atom}
    (starts : List.Forall₂ (Atom.Match pairing) roots others) :
    List.Forall₂ (Handle.Match pairing) (roots.flatMap (Atom.handles fun _ => false))
      (others.flatMap (Atom.handles fun _ => false)) := by
  induction starts with
  | nil => exact .nil
  | cons first _ ih => exact List.rel_append (first.handles _) ih

/-! ## Pairs that can be reached -/

theorem starts_restrict {roots others : List Atom} {keep : Handle → Prop}
    (starts : List.Forall₂ (Atom.Match pairing) roots others)
    (kept : ∀ root ∈ roots, ∀ handle ∈ root.handles (fun _ => false), keep handle) :
    List.Forall₂ (Atom.Match (pairing.restrict keep)) roots others := by
  induction starts with
  | nil => exact .nil
  | cons first _ ih =>
      obtain ⟨keptFirst, keptOthers⟩ := List.forall_mem_cons.mp kept
      exact .cons (first.restrict keptFirst) (ih keptOthers)

/-- Heaps match under the pairs with a property that references keep. -/
theorem Match.restrict (matched : heap.Match pairing other) {keep : Handle → Prop}
    (along : ∀ handle, keep handle → ∀ next ∈ heap.references handle, keep next) :
    heap.Match (pairing.restrict keep) other := by
  refine ⟨fun paired => matched.hasRecord paired.1, fun paired => matched.hasClosure paired.1,
    fun {id image} paired => ?_, fun {id image} paired => ?_, ?_⟩
  · have contents := matched.record paired.1
    refine ⟨contents.fields.restrict fun name value field handle mem => ?_, ?_, contents.literal⟩
    · exact along _ paired.2 _ (mem_references_value field mem)
    · have parents := contents.parent
      cases isParent : (heap.record id).parent with
      | none =>
          rw [isParent] at parents
          generalize (other.record image).parent = parent' at parents
          cases parents
          exact .none
      | some parent =>
          have kept := along _ paired.2 _ (mem_references_parent isParent)
          rw [isParent] at parents
          generalize (other.record image).parent = parent' at parents
          cases parents with
          | some pairedParent => exact .some ⟨pairedParent, kept⟩
  · have contents := matched.closure paired.1
    refine ⟨contents.signature, contents.body.restrict fun handle mem => ?_, contents.scope, ?_⟩
    · exact along _ paired.2 _ (List.mem_cons_of_mem _ mem)
    · exact along _ paired.2 _ List.mem_cons_self
  · obtain ⟨rank, layered⟩ := matched.layered
    exact ⟨rank, fun paired => layered paired.1⟩

/-- Matching atoms of matching heaps lead to the same graph. -/
theorem Match.identifies (matched : heap.Match pairing other) {roots others : List Atom}
    (starts : List.Forall₂ (Atom.Match pairing) roots others) :
    (pairing.restrict (heap.Leads roots)).Identifies heap roots other others := by
  have within : heap.Match (pairing.restrict (heap.Leads roots)) other :=
    matched.restrict fun _ reached _ edge => .step reached edge
  refine ⟨?_, fun handle => ⟨fun leads => ?_, ?_⟩, fun image => ⟨fun leads => ?_, ?_⟩,
    within.record, within.closure⟩
  · exact starts_restrict starts fun root mem handle inside =>
      .root (List.mem_flatMap.mpr ⟨root, mem, inside⟩)
  · obtain ⟨image, paired, _⟩ := matched.reaches (handles_of_roots starts) leads
    exact ⟨image, Handle.match_restrict_iff.mpr ⟨paired, leads⟩⟩
  · rintro ⟨image, paired⟩
    exact (Handle.match_restrict_iff.mp paired).2
  · obtain ⟨handle, paired, leads⟩ := matched.reachesBack (handles_of_roots starts) leads
    exact ⟨handle, Handle.match_restrict_iff.mpr ⟨paired, leads⟩⟩
  · rintro ⟨handle, paired⟩
    obtain ⟨paired, leads⟩ := Handle.match_restrict_iff.mp paired
    obtain ⟨image', paired', leads'⟩ := matched.reaches (handles_of_roots starts) leads
    rwa [(paired.unique paired').mp rfl]

/-! ## Collection -/

/-- A slot that no step touches stays as it is. -/
theorem getElem?_foldl_of_kept {α β : Type} {step : Array α → β → Array α} {items : List β}
    {slot : Nat} (kept : ∀ item ∈ items, ∀ slots, (step slots item)[slot]? = slots[slot]?)
    (slots : Array α) : (items.foldl step slots)[slot]? = slots[slot]? := by
  induction items generalizing slots with
  | nil => rfl
  | cons item items ih =>
      obtain ⟨first, others⟩ := List.forall_mem_cons.mp kept
      exact (ih others _).trans (first slots)

/-- A record that was met keeps its contents. -/
theorem record_freeLostRecords {live : Visited} {id : RecordId}
    (kept : id ∉ heap.lostRecords live) :
    (heap.freeLostRecords live).record id = heap.record id := by
  have slots : ((heap.lostRecords live).foldl
      (fun slots id => slots.setIfInBounds id.index .empty) heap.records)[id.index]? =
        heap.records[id.index]? := by
    refine getElem?_foldl_of_kept (fun lost mem slots => ?_) _
    refine Array.getElem?_setIfInBounds_ne fun same => kept ?_
    exact RecordId.ext same ▸ mem
  unfold Heap.record freeLostRecords
  rw [slots]

theorem closure_freeLostClosures {live : Visited} {id : FunctionId}
    (kept : id ∉ heap.lostClosures live) :
    (heap.freeLostClosures live).closure id = heap.closure id := by
  have slots : ((heap.lostClosures live).foldl
      (fun slots id => slots.modify id.index Closure.cleared) heap.closures)[id.index]? =
        heap.closures[id.index]? := by
    refine getElem?_foldl_of_kept (fun lost mem slots => ?_) _
    have different : lost.index ≠ id.index := by
      intro same
      have equal : lost = id := FunctionId.ext same
      exact kept (equal ▸ mem)
    rw [Array.getElem?_modify, if_neg different]
  unfold Heap.closure freeLostClosures
  rw [slots]

theorem hasRecord_freeLostRecords {live : Visited} {id : RecordId} (used : heap.HasRecord id)
    (kept : id ∉ heap.lostRecords live) : (heap.freeLostRecords live).HasRecord id := by
  refine ⟨?_, fun mem => ?_⟩
  · unfold freeLostRecords
    rw [freeLostRecords.size_clear]
    exact used.1
  · rcases List.mem_append.mp mem with lost | free
    · exact kept (List.mem_reverse.mp lost)
    · exact used.2 free

theorem hasClosure_freeLostClosures {live : Visited} {id : FunctionId} (used : heap.HasClosure id)
    (kept : id ∉ heap.lostClosures live) : (heap.freeLostClosures live).HasClosure id := by
  refine ⟨?_, fun mem => ?_⟩
  · unfold freeLostClosures
    rw [freeLostClosures.size_clear]
    exact used.1
  · rcases List.mem_append.mp mem with lost | free
    · exact kept (List.mem_reverse.mp lost)
    · exact used.2 free

/-- What matching atoms lead to has slots. -/
theorem Match.hasSlot (matched : heap.Match pairing other) {roots others : List Atom}
    (starts : List.Forall₂ (Atom.Match pairing) roots others) {handle : Handle}
    (leads : heap.Leads roots handle) : heap.HasSlot handle := by
  obtain ⟨image, paired, _⟩ := matched.reaches (handles_of_roots starts) leads
  cases paired with
  | record paired => exact (matched.hasRecord paired).1.1
  | function paired => exact (matched.hasClosure paired).1.1

/-- A search notes what the roots lead to. -/
theorem Match.contains_reachable (matched : heap.Match pairing other) {roots others : List Atom}
    (starts : List.Forall₂ (Atom.Match pairing) roots others) {handle : Handle}
    (leads : heap.Leads roots handle) : (heap.reachable roots).contains handle = true := by
  have slots : ∀ handle, heap.Leads roots handle → heap.HasSlot handle := fun _ =>
    matched.hasSlot starts
  exact ((wellFormed_explore slots).contains_iff handle).mpr
    ((mem_order_explore_iff slots handle).mpr leads)

/-- After a collection on one side the heaps match under the pairs that the roots lead to. -/
theorem Match.collect (matched : heap.Match pairing other) {roots others : List Atom}
    (starts : List.Forall₂ (Atom.Match pairing) roots others) :
    (heap.collect roots).2.Match (pairing.restrict (heap.Leads roots)) other := by
  let live := heap.reachable roots
  have keptRecord {id : RecordId} (leads : heap.Leads roots (.record id)) :
      id ∉ heap.lostRecords live := by
    intro lost
    have missed := (mem_lostRecords_iff.mp lost).2.2
    rw [matched.contains_reachable starts leads] at missed
    cases missed
  have keptClosure {id : FunctionId} (leads : heap.Leads roots (.function id)) :
      id ∉ (heap.freeLostRecords live).lostClosures live := by
    intro lost
    have missed := (mem_lostClosures_iff.mp lost).2.2
    rw [matched.contains_reachable starts leads] at missed
    cases missed
  have within : heap.Match (pairing.restrict (heap.Leads roots)) other :=
    matched.restrict fun _ reached _ edge => .step reached edge
  have sameClosure {id : FunctionId} (leads : heap.Leads roots (.function id)) :
      (heap.collect roots).2.closure id = heap.closure id :=
    closure_freeLostClosures (keptClosure leads)
  refine ⟨fun paired => ?_, fun paired => ?_, fun {id image} paired => ?_,
    fun {id image} paired => ?_, ?_⟩
  · obtain ⟨used, usedImage⟩ := within.hasRecord paired
    exact ⟨hasRecord_freeLostRecords used (keptRecord paired.2), usedImage⟩
  · obtain ⟨used, usedImage⟩ := within.hasClosure paired
    exact ⟨hasClosure_freeLostClosures used (keptClosure paired.2), usedImage⟩
  · have same : (heap.collect roots).2.record id = heap.record id :=
      record_freeLostRecords (keptRecord paired.2)
    rw [same]
    exact within.record paired
  · rw [sameClosure paired.2]
    exact within.closure paired
  · obtain ⟨rank, layered⟩ := within.layered
    exact ⟨rank, fun paired inner mem => layered paired inner (sameClosure paired.2 ▸ mem)⟩

end Heap

end RecordLisp
