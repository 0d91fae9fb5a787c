import RecordLisp.Image
import RecordLisp.Proofs.Heap.Collection
import RecordLisp.Proofs.Heap.Printing
import RecordLisp.Proofs.Image.Matching

/-!
# Loops over the heap end before their bounds

Parents, printed objects and saved objects are followed through graphs that may hold cycles, with
bounds that only depend on the number of slots. `LoopsEnd` says of what some atoms lead to that no
such loop is ever cut short: each ends on its own, and a larger bound would make no difference.
Everything that matches objects of another heap has slots and layered function bodies, which is all
it takes.
-/

namespace RecordLisp

namespace Atom

variable {pairing : Pairing}

mutual

/-- An atom whose handles are all paired matches some atom. -/
theorem exists_match : ∀ atom : Atom,
    (∀ handle ∈ atom.handles (fun _ => false), ∃ image, handle.Match pairing image) →
      ∃ image, atom.Match pairing image
  | .leaf modifier value, paired => by
      cases value with
      | record id =>
          obtain ⟨_, same⟩ := paired (.record id) (List.mem_singleton_self _)
          cases same with
          | record same => exact ⟨_, .leaf (.record same)⟩
      | function id =>
          obtain ⟨_, same⟩ := paired (.function id) (List.mem_singleton_self _)
          cases same with
          | function same => exact ⟨_, .leaf (.function same)⟩
      | nil | integer | decimal | string | token => exact ⟨_, .leaf (.same rfl)⟩
  | .list modifier items, paired => by
      obtain ⟨others, same⟩ := exists_matchAll items (by simpa [handles] using paired)
      exact ⟨_, .list same⟩
  | .member modifier target field, paired => by
      simp only [handles, List.mem_append, or_imp, forall_and] at paired
      obtain ⟨target', targets⟩ := exists_match target paired.1
      obtain ⟨field', fields⟩ := exists_match field paired.2
      exact ⟨_, .member targets fields⟩

theorem exists_matchAll : ∀ items : List Atom,
    (∀ handle ∈ handlesOfList (fun _ => false) items, ∃ image, handle.Match pairing image) →
      ∃ others, List.Forall₂ (Match pairing) items others
  | [], _ => ⟨[], .nil⟩
  | item :: items, paired => by
      simp only [handlesOfList, List.mem_append, or_imp, forall_and] at paired
      obtain ⟨other, first⟩ := exists_match item paired.1
      obtain ⟨others, rest⟩ := exists_matchAll items paired.2
      exact ⟨other :: others, .cons first rest⟩

end

end Atom

namespace Heap

/-- A literal record with another literal record among its values or inside them. -/
def Holds (heap : Heap) (outer inner : RecordId) : Prop :=
  (heap.record outer).literal = true ∧ (heap.record inner).literal = true ∧
    .record inner ∈ (heap.record outer).values.flatMap (Atom.handles fun _ => false)

/-- Whether the loops over what some atoms lead to end before their bounds. -/
structure LoopsEnd (heap : Heap) (roots : List Atom) : Prop where
  /-- an atom can be printed -/
  prints : ∀ atom : Atom, (∀ handle ∈ atom.handles (fun _ => false), heap.Leads roots handle) →
    ((heap.printIn atom).run []).isSome
  /-- a search for what is saved ends with nothing pending -/
  searches : ∀ id more, heap.Leads roots (.record id) →
    Numbering.empty.explore heap.savedReferences (heap.slotCount + 1 + more) [.record id] =
      heap.numbering id
  /-- literal records inside one another, none of which contains itself, are no more than slots -/
  nests : ∀ chain : List RecordId, chain.IsChain heap.Holds →
    (∀ id ∈ chain, heap.Leads roots (.record id) ∧ ¬ Relation.TransGen heap.Holds id id) →
      chain.length ≤ heap.records.size

/-! ## Parents -/

variable {heap : Heap}

variable {pairing : Pairing} {other : Heap} {roots others : List Atom}

theorem Match.exists_match (matched : heap.Match pairing other)
    (starts : List.Forall₂ (Atom.Match pairing) roots others) {atom : Atom}
    (led : ∀ handle ∈ atom.handles (fun _ => false), heap.Leads roots handle) :
    ∃ image, atom.Match pairing image :=
  Atom.exists_match atom fun handle mem =>
    have ⟨image, paired, _⟩ := matched.reaches (handles_of_roots starts) (led handle mem)
    ⟨image, paired⟩

/-- Loops over what matches objects of another heap end before their bounds. -/
theorem Match.loopsEnd (matched : heap.Match pairing other)
    (starts : List.Forall₂ (Atom.Match pairing) roots others) : heap.LoopsEnd roots := by
  refine ⟨fun atom led => ?_, fun id more leads => ?_, fun chain linked inside => ?_⟩
  · obtain ⟨image, same⟩ := matched.exists_match starts led
    exact matched.isSome_printIn same
  · obtain ⟨image, paired, _⟩ := matched.reaches (handles_of_roots starts) leads
    cases paired with
    | record paired =>
        exact explore_add_numbering (matched.parallel.hasSlot_of_saved paired).1 more
  · refine length_le_of_inRange ?_ fun id mem => matched.hasSlot starts (inside id mem).1
    have generated : chain.IsChain (Relation.TransGen heap.Holds) :=
      linked.imp fun _ _ holds => .single holds
    have : Trans (Relation.TransGen heap.Holds) (Relation.TransGen heap.Holds)
      (Relation.TransGen heap.Holds) := ⟨.trans⟩
    refine (List.isChain_iff_pairwise.mp generated).imp_of_mem
      fun {outer inner} mem _ holds same => ?_
    exact (inside outer mem).2 (same ▸ holds)

end Heap

end RecordLisp
