import RecordLisp.Proofs.Session.Collection

/-!
# Saved text is canonical

What a record is saved as depends on the graph that the record leads to and on nothing else: not on
the handles of its objects, not on the slots that stand free, not on other objects and not on the
order in which objects were made.

An isomorphism pairs the objects of the two graphs. A search numbers paired objects alike, and each
line of a program is made of such numbers and of printed atoms. Printed atoms match, so their texts
are equal whichever bound each heap prints with.
-/

namespace RecordLisp

/-- Heaps with isomorphic graphs of existing objects are parallel. -/
theorem Pairing.Identifies.parallel {pairing : Pairing} {heap other : Heap}
    {roots others : List Atom} (identifies : pairing.Identifies heap roots other others)
    (slots : ∀ handle, heap.Leads roots handle → heap.HasSlot handle)
    (slots' : ∀ image, other.Leads others image → other.HasSlot image) :
    heap.Parallel pairing other := by
  have both {handle image : Handle} (paired : handle.Match pairing image) :
      heap.HasSlot handle ∧ other.HasSlot image :=
    ⟨slots handle ((identifies.leads handle).mpr ⟨image, paired⟩),
      slots' image ((identifies.leadsImage image).mpr ⟨handle, paired⟩)⟩
  exact ⟨fun paired => both (.record paired), fun paired => both (.function paired),
    identifies.record, identifies.closure⟩

namespace Heap

/-- Records that lead to isomorphic graphs are saved as the same text, or fail with the same error.
It makes no difference what the graphs hold, so long as all their objects exist. -/
theorem save_canonical {heap other : Heap} {root root' : RecordId}
    (slots : ∀ handle, heap.Leads [.record root] handle → heap.HasSlot handle)
    (slots' : ∀ image, other.Leads [.record root'] image → other.HasSlot image)
    (isomorphic : ∃ pairing : Pairing,
      pairing.Identifies heap [.record root] other [.record root']) :
    heap.save root = other.save root' := by
  obtain ⟨pairing, identifies⟩ := isomorphic
  have parallel := identifies.parallel slots slots'
  obtain ⟨starts, _⟩ := List.forall₂_cons.mp identifies.starts
  cases starts with
  | leaf value =>
      cases value with
      | same noHandle => cases noHandle
      | record paired => exact parallel.save_eq paired

/-- A session that frees what cannot be reached and one that never does give other handles to what
the last call made, and the same text. -/
theorem save_canonical_reused :
    let texts :=
      ["(set @ pair (func (x) [(first x) (whole @)]))", "(pair 1)", "(set @ kept (pair '(a.b 2)))"]
    ∃ session, Session.create .standard [] .empty .least = .ok session ∧
      let tidy := session.after SessionM.runText texts
      let untidy := session.after SessionM.runTextKeeping texts
      tidy.heap.records.size < untidy.heap.records.size ∧
      (∀ handle, tidy.heap.Leads [.record tidy.global] handle → tidy.heap.HasSlot handle) ∧
      (∀ image, untidy.heap.Leads [.record untidy.global] image → untidy.heap.HasSlot image) ∧
      (∃ pairing : Pairing,
        pairing.Identifies tidy.heap [.record tidy.global] untidy.heap [.record untidy.global]) ∧
      tidy.heap.save tidy.global = untidy.heap.save untidy.global := by
  intro texts
  have sizes : (match Session.create .standard [] .empty .least with
      | .ok session => decide ((session.after SessionM.runText texts).heap.records.size <
          (session.after SessionM.runTextKeeping texts).heap.records.size)
      | .error _ => false) = true := by
    decide +kernel
  cases created : Session.create .standard [] .empty .least with
  | error error =>
      rw [created] at sizes
      cases sizes
  | ok session =>
      rw [created] at sizes
      have alike := (Session.drawnFrom_create (by simp) created).alike
      obtain ⟨pairing, start⟩ := Session.exists_match_create created
      obtain ⟨later, matched⟩ := start.after alike texts
      have roots : List.Forall₂ (Atom.Match later)
          [.record (session.after SessionM.runText texts).global]
          [.record (session.after SessionM.runTextKeeping texts).global] :=
        .cons (.leaf (.record matched.global)) .nil
      have identifies := matched.machine.heap.identifies roots
      have slots : ∀ handle, _ → Heap.HasSlot _ handle :=
        fun _ => matched.machine.heap.hasSlot roots
      have slots' : ∀ image, _ → Heap.HasSlot _ image := fun image leads => by
        obtain ⟨_, paired, _⟩ := matched.machine.heap.reachesBack (handles_of_roots roots) leads
        exact (matched.machine.heap.parallel.slots paired).2
      exact ⟨session, rfl, of_decide_eq_true sizes, slots, slots', ⟨_, identifies⟩,
        save_canonical slots slots' ⟨_, identifies⟩⟩

end Heap

end RecordLisp
