import RecordLisp.Proofs.Image.Restore
import RecordLisp.Session

/-!
# The check of what is written as it prints

`Image.verbatim` decides from the leaves of an atom, one by one, whether the atom is written as it
prints. An atom that it accepts unfolds into a finite tree, and its text is read as this tree, when
modifiers and chains stand in it as source text can have them and no literal record stands in it
twice. The check looks at neither: an integer at the end of a chain takes the next number for its
fraction, and a record that is printed again is a placeholder. `Image.isSourceShaped` is the first
of the two conditions.

Parents are not printed, so the tree of an atom is its tree in the heap without parents.
-/

namespace RecordLisp

namespace Atom

/-- Whether the last segment of a chain is an integer, which would take a fraction behind it. -/
def endsInInteger : Atom → Bool
  | .leaf _ (.integer _) => true
  | .member _ _ field => field.endsInInteger
  | _ => false

/-- Whether an unmarked segment prints with a digit in front: a number without a sign. -/
def startsWithDigit : Atom → Bool
  | .leaf _ (.integer value) => 0 ≤ value.val
  | .leaf _ (.decimal (.finite negative _)) => !negative
  | _ => false

mutual

/-- Whether modifiers and chains stand in an atom as source text can have them, with `record` for
its records. Numbers, texts and records take no modifier. A chain leans left and the modifier in
front of it is its own, no field is marked to be expanded, and none that starts with a digit follows
an integer. -/
def isShapedWith (record : RecordId → Bool) : Atom → Bool
  | .leaf modifier value =>
      (modifier == .plain || takesModifier (.leaf modifier value)) &&
        match value with
        | .record id => record id
        | _ => true
  | .list _ items => areShapedWith record items
  | .member modifier target field =>
      target.isShapedWith record && target.modifier == .plain &&
      field.isShapedWith record && !field.isMember &&
      !(target.endsInInteger && field.startsWithDigit) && field.modifier != .expand &&
      (modifier == .plain || target.leftmost.takesModifier)

/-- Whether modifiers and chains stand in the items of a list as source text can have them. -/
def areShapedWith (record : RecordId → Bool) : List Atom → Bool
  | [] => true
  | item :: items => item.isShapedWith record && areShapedWith record items

end

end Atom

/-- Whether modifiers and chains stand in the values of a record as source text can have them. At
most `fuel` records may stand inside one another. -/
def Image.recordIsShaped (heap : Heap) : Nat → RecordId → Bool
  | 0, _ => false
  | fuel + 1, id =>
      (heap.record id).fields.all fun (_, value) => value.isShapedWith (recordIsShaped heap fuel)

/-- Whether modifiers and chains stand in an atom, and in the records in it, as source text can have
them. -/
def Image.isSourceShaped (image : Image) (atom : Atom) : Bool :=
  atom.isShapedWith (recordIsShaped image.heap (image.heap.records.size + 1))

/-! ## Heaps without parents -/

/-- The record without its parent. -/
def Record.orphaned (record : Record) : Record := { record with parent := none }

namespace Heap

/-- The heap with all records taken from their parents. -/
def orphaned (heap : Heap) : Heap :=
  { heap with
    records := heap.records.map Record.orphaned
    freeRecords_inRange := by simpa using heap.freeRecords_inRange }

variable {heap : Heap}

theorem record_orphaned (heap : Heap) (id : RecordId) :
    heap.orphaned.record id = (heap.record id).orphaned := by
  simp only [record, orphaned, Array.getElem?_map]
  cases heap.records[id.index]? <;> rfl

theorem printObject_orphaned (heap : Heap) (fuel : Nat) :
    heap.orphaned.printObject fuel = heap.printObject fuel := by
  induction fuel with
  | zero =>
      funext handle
      rfl
  | succ fuel ih =>
      funext handle
      cases handle with
      | record id =>
          simp only [printObject, ih, record_orphaned]
          rfl
      | function id =>
          simp only [printObject, ih]
          rfl

/-- Atoms print alike without parents. -/
theorem print_orphaned (heap : Heap) (atom : Atom) :
    heap.orphaned.print atom = heap.print atom := by
  have depth : heap.orphaned.printDepth = heap.printDepth := by simp [printDepth, orphaned]
  unfold print printIn
  rw [depth, printObject_orphaned]

/-! ## Trees of accepted atoms -/

variable {atom : Atom} {tree : Tree} {ids : List RecordId}

theorem Unfolds.isMember_eq (unfolds : heap.Unfolds atom tree ids) :
    tree.isMember = atom.isMember := by
  cases unfolds <;> rfl

theorem Unfolds.takesModifier_eq : ∀ {atom : Atom} {tree : Tree} {ids : List RecordId},
    heap.Unfolds atom tree ids → tree.leftmost.takesModifier = atom.leftmost.takesModifier
  | _, _, _, @Unfolds.leaf _ _ value _ => by cases value <;> rfl
  | _, _, _, .list _ => rfl
  | _, _, _, .member target _ => target.takesModifier_eq
  | _, _, _, .record _ _ _ => rfl

theorem Unfolds.endsInInteger_eq : ∀ {atom : Atom} {tree : Tree} {ids : List RecordId},
    heap.Unfolds atom tree ids → tree.endsInInteger = atom.endsInInteger
  | _, _, _, @Unfolds.leaf _ _ value _ => by cases value <;> rfl
  | _, _, _, .list _ => rfl
  | _, _, _, .member _ field => field.endsInInteger_eq
  | _, _, _, .record _ _ _ => rfl

theorem Unfolds.startsWithDigit_eq (unfolds : heap.Unfolds atom tree ids) :
    tree.startsWithDigit = atom.startsWithDigit := by
  cases unfolds with
  | @leaf _ value =>
      cases value with
      | decimal value => cases value <;> rfl
      | nil | integer | string | token | record | function => rfl
  | list | member | record => rfl

/-- Whether an atom, parents aside, unfolds into a tree that is read back. -/
def Readable (heap : Heap) (atom : Atom) : Prop :=
  ∃ tree ids, heap.orphaned.Unfolds atom tree ids ∧ tree.isReadable = true

variable {accepted shaped : RecordId → Bool}

theorem readable_leaf {modifier : Modifier} {value : Leaf} (noHandle : value.handle? = none)
    (verbatim : Image.verbatimWith accepted (.leaf modifier value) = true)
    (isShaped : (Atom.leaf modifier value).isShapedWith shaped = true) :
    heap.Readable (.leaf modifier value) := by
  refine ⟨.leaf modifier value, [], .leaf noHandle, ?_⟩
  have allowed := (Bool.and_eq_true_iff.mp isShaped).1
  cases value with
  | record | function => cases noHandle
  | nil => rfl
  | token => exact verbatim
  | integer | decimal | string =>
      simp_all [Atom.takesModifier, Tree.isReadable, Leaf.isPrintable, Image.verbatimWith]

-- One case for each constructor of an atom. What is asked of records is known of those inside.
mutual

theorem readable_of_verbatim
    (inside : ∀ id, accepted id = true → shaped id = true → heap.Readable (.record id)) :
    ∀ atom : Atom, Image.verbatimWith accepted atom = true → atom.isShapedWith shaped = true →
      heap.Readable atom
  | .leaf modifier value, verbatim, isShaped => by
      cases handle : value.handle? with
      | none => exact readable_leaf handle verbatim isShaped
      | some =>
          cases value with
          | record id =>
              have parts := Bool.and_eq_true_iff.mp isShaped
              have plain : modifier = .plain := by simpa [Atom.takesModifier] using parts.1
              rw [plain]
              exact inside id verbatim parts.2
          | function => cases verbatim
          | nil | integer | decimal | string | token => cases handle
  | .list modifier items, verbatim, isShaped => by
      obtain ⟨trees, ids, unfolds, readable⟩ :=
        readableItems_of_verbatim inside items verbatim isShaped
      exact ⟨.list modifier trees, ids, .list unfolds, readable⟩
  | .member modifier target field, verbatim, isShaped => by
      simp only [Image.verbatimWith, Bool.and_eq_true] at verbatim
      simp only [Atom.isShapedWith, Bool.and_eq_true] at isShaped
      obtain ⟨⟨⟨⟨⟨⟨shapedTarget, unmarked⟩, shapedField⟩, single⟩, noFraction⟩, noExpand⟩, front⟩ :=
        isShaped
      obtain ⟨targetTree, _, isTarget, readTarget⟩ :=
        readable_of_verbatim inside target verbatim.1 shapedTarget
      obtain ⟨fieldTree, _, isField, readField⟩ :=
        readable_of_verbatim inside field verbatim.2 shapedField
      refine ⟨.member modifier targetTree fieldTree, _, .member isTarget isField, ?_⟩
      rw [isTarget.modifier_eq] at unmarked
      rw [← isField.isMember_eq] at single
      rw [← isTarget.endsInInteger_eq, ← isField.startsWithDigit_eq] at noFraction
      rw [isField.modifier_eq] at noExpand
      rw [← isTarget.takesModifier_eq] at front
      simp only [Tree.isReadable, readTarget, readField, unmarked, single, noFraction, noExpand,
        front, Bool.and_self]

theorem readableItems_of_verbatim
    (inside : ∀ id, accepted id = true → shaped id = true → heap.Readable (.record id)) :
    ∀ items : List Atom, Image.verbatimItems accepted items = true →
      Atom.areShapedWith shaped items = true →
      ∃ trees ids, heap.orphaned.UnfoldsItems items trees ids ∧ Tree.areReadable trees = true
  | [], _, _ => ⟨[], [], .nil, rfl⟩
  | item :: items, verbatim, areShaped => by
      have verbatim := Bool.and_eq_true_iff.mp verbatim
      have areShaped := Bool.and_eq_true_iff.mp areShaped
      obtain ⟨tree, _, unfolds, readable⟩ := readable_of_verbatim inside item verbatim.1 areShaped.1
      obtain ⟨trees, _, unfoldsAll, readableAll⟩ :=
        readableItems_of_verbatim inside items verbatim.2 areShaped.2
      refine ⟨tree :: trees, _, .cons unfolds unfoldsAll, ?_⟩
      rw [Tree.areReadable, readable, readableAll]
      rfl

end

theorem readableFields_of_verbatim {fields : Fields}
    (inside : ∀ id, accepted id = true → shaped id = true → heap.Readable (.record id))
    (verbatim : ∀ name value, (name, value) ∈ fields →
      lexesAsToken name = true ∧ Image.verbatimWith accepted value = true)
    (areShaped : ∀ name value, (name, value) ∈ fields → value.isShapedWith shaped = true) :
    ∃ trees ids, heap.orphaned.UnfoldsFields fields trees ids ∧
      Tree.fieldsReadable trees = true := by
  induction fields with
  | nil => exact ⟨[], [], .nil, rfl⟩
  | cons field fields ih =>
      obtain ⟨name, value⟩ := field
      obtain ⟨lexes, readBack⟩ := verbatim name value List.mem_cons_self
      obtain ⟨tree, _, unfolds, readable⟩ :=
        readable_of_verbatim inside value readBack (areShaped name value List.mem_cons_self)
      obtain ⟨trees, _, unfoldsAll, readableAll⟩ :=
        ih (fun name value mem => verbatim name value (List.mem_cons_of_mem _ mem))
          fun name value mem => areShaped name value (List.mem_cons_of_mem _ mem)
      refine ⟨(name, tree) :: trees, _, .cons unfolds unfoldsAll, ?_⟩
      rw [Tree.fieldsReadable, lexes, readable, readableAll]
      rfl

/-- A literal record that is accepted and shaped like source text unfolds. -/
theorem readable_of_verbatimRecord (fuel : Nat) : ∀ id, Image.verbatimRecord heap fuel id = true →
    Image.recordIsShaped heap fuel id = true → heap.Readable (.record id) := by
  induction fuel with
  | zero => exact fun _ verbatim => by cases verbatim
  | succ fuel ih =>
      intro id verbatim areShaped
      simp only [Image.verbatimRecord, Bool.and_eq_true, List.all_eq_true] at verbatim
      simp only [Image.recordIsShaped, List.all_eq_true] at areShaped
      obtain ⟨trees, ids, unfolds, readable⟩ := readableFields_of_verbatim ih
        (fun name value mem => verbatim.2 (name, value) mem)
        fun name value mem => areShaped (name, value) mem
      have same := record_orphaned heap id
      refine ⟨.record trees, id :: ids, .record ?_ ?_ ?_, readable⟩
      · rw [same]
        exact verbatim.1
      · rw [same]
        rfl
      · rw [same]
        exact unfolds

end Heap

/-! ## Reading accepted atoms -/

/-- An atom that is accepted and shaped like source text unfolds into a tree. If no literal record
stands in it twice, reading its text succeeds in any heap and gives an atom with the same tree: the
same leaves, modifiers, lists and chains, and new literal records with the same names in the same
order and the same values. -/
theorem Image.read_verbatim (image : Image) (target : Heap) (name : String) {atom : Atom}
    (verbatim : image.verbatim atom = true) (isShaped : image.isSourceShaped atom = true) :
    ∃ tree ids, image.heap.orphaned.Unfolds atom tree ids ∧
      (ids.Nodup → ∃ copy after added,
        (Source.mk name (image.heap.print atom)).read target = (.ok copy, after) ∧
          after.Unfolds copy tree added ∧ target.Adds after added) := by
  obtain ⟨tree, ids, unfolds, readable⟩ := Heap.readable_of_verbatim
    (Heap.readable_of_verbatimRecord _) atom verbatim isShaped
  refine ⟨tree, ids, unfolds, fun once => ?_⟩
  obtain ⟨added, unfolds', adds⟩ := unfolds.rebuilt target
  have isProgram : Grammar.Program (image.heap.print atom).toList tree := by
    rw [← Heap.print_orphaned, unfolds.toList_print once]
    exact Grammar.program_spelling readable
  exact ⟨_, _, added, Source.read_of_program isProgram, unfolds', adds⟩

/-- A list of a marked chain with a number in it and a literal record that has a parent. -/
theorem Image.read_verbatim_chain :
    let record : Record := { Record.emptyLiteral.insert "x" (.string "a") with parent := some ⟨0⟩ }
    let image : Image :=
      ⟨.empty, (Heap.empty.allocRecord record).2, Numbering.coherent_empty⟩
    let atom : Atom := .ofList [.member .quote (.token "a") (.integer .one), .record ⟨0⟩]
    image.verbatim atom = true ∧ image.isSourceShaped atom = true ∧
      ∃ copy after tree ids added, image.heap.orphaned.Unfolds atom tree ids ∧
        (Source.mk "text" (image.heap.print atom)).read .empty = (.ok copy, after) ∧
          after.Unfolds copy tree added ∧ Heap.empty.Adds after added := by
  intro record image atom
  have verbatim : image.verbatim atom = true := by decide +kernel
  have isShaped : image.isSourceShaped atom = true := by decide +kernel
  obtain ⟨tree, ids, unfolds, reads⟩ := Image.read_verbatim image .empty "text" verbatim isShaped
  have once : ids.Nodup := by
    have stored : (image.heap.orphaned.record ⟨0⟩).fields = [("x", .string "a")] := by
      rw [Heap.record_orphaned]
      rfl
    dsimp only [atom, Atom.ofList] at unfolds
    rcases unfolds with _ | ⟨_ | ⟨chain, _ | ⟨literal, _ | _⟩⟩⟩
    rcases chain with _ | _ | ⟨_ | _, _ | _⟩
    rcases literal with ⟨noHandle⟩ | _ | _ | ⟨_, _, fields⟩
    · cases noHandle
    · rw [stored] at fields
      rcases fields with _ | ⟨_ | _, _ | _⟩
      simp
  obtain ⟨copy, after, added, read, unfolds', adds⟩ := reads once
  exact ⟨verbatim, isShaped, copy, after, tree, ids, added, unfolds, read, unfolds', adds⟩

/-- A program can write two numbers in a chain, with a blank between them. The chain is accepted and
prints without the blank, so that the two numbers are read as one. -/
theorem Session.verbatim_misread :
    ∃ session, Session.create .standard [] .empty .least = .ok session ∧
      let after := (session.perform (SessionM.runText "(set @ l '(a.5 .6))")).2
      ∃ atom copy later, after.global? "l" = some atom ∧ atom.modifier = .plain ∧
        (Image.ofRoot after.heap after.global).verbatim atom = true ∧
        (Source.anonymous (after.heap.print atom)).read after.heap = (.ok copy, later) ∧
        copy.same atom = false := by
  have misread : ((Session.create .standard [] .empty .least).toOption.bind fun session =>
      let after := (session.perform (SessionM.runText "(set @ l '(a.5 .6))")).2
      (after.global? "l").bind fun atom =>
        ((Source.anonymous (after.heap.print atom)).read after.heap).1.toOption.map fun copy =>
          (atom.modifier, (Image.ofRoot after.heap after.global).verbatim atom, copy.same atom)) =
      some (.plain, true, false) := by
    decide +kernel
  obtain ⟨session, created, misread⟩ := Option.bind_eq_some_iff.mp misread
  obtain ⟨atom, found, misread⟩ := Option.bind_eq_some_iff.mp misread
  obtain ⟨copy, isCopy, result⟩ := Option.map_eq_some_iff.mp misread
  obtain ⟨plain, verbatim, differs⟩ := Prod.mk.inj result |>.imp_right Prod.mk.inj
  exact ⟨session, eq_ok_of_toOption created, atom, copy, _, found, plain, verbatim,
    Prod.ext (eq_ok_of_toOption isCopy) rfl, differs⟩

end RecordLisp
