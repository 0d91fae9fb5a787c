import RecordLisp.Proofs.Heap.Printing
import RecordLisp.Proofs.Image.Numbering

/-!
# Matching records have the same image

An image names objects by the order in which a search meets them, never by handle. The searches of
parallel heaps from paired records run in lockstep, so paired objects get the same number and every
line of the two programs is the same.

The test whether a literal is read back as printed is bounded by the number of slots, which differs
between the heaps. The bound does not matter: a record whose answer changes at some bound stands on
top of as many different records inside one another.
-/

namespace RecordLisp

/-! ## Searches in lockstep -/

section Lists

variable {α β γ : Type} {relation : α → β → Prop} {items : List α} {others : List β}

theorem map_eq_of_related (related : List.Forall₂ relation items others) {work : α → γ}
    {work' : β → γ} (same : ∀ item other, relation item other → work item = work' other) :
    items.map work = others.map work' := by
  induction related with
  | nil => rfl
  | cons first _ ih => rw [List.map_cons, List.map_cons, same _ _ first, ih]

theorem mapIdx_eq_of_related (related : List.Forall₂ relation items others) {work : Nat → α → γ}
    {work' : Nat → β → γ}
    (same : ∀ item other index, relation item other → work index item = work' index other) :
    items.mapIdx work = others.mapIdx work' := by
  induction related generalizing work work' with
  | nil => rfl
  | cons first _ ih =>
      rw [List.mapIdx_cons, List.mapIdx_cons, same _ _ 0 first,
        ih fun item other index => same item other (index + 1)]

theorem forall₂_dropWhile {test : α → Bool} {test' : β → Bool}
    (same : ∀ item other, relation item other → test item = test' other)
    (related : List.Forall₂ relation items others) :
    List.Forall₂ relation (items.dropWhile test) (others.dropWhile test') := by
  induction related with
  | nil => exact .nil
  | cons first others ih =>
      rw [List.dropWhile_cons, List.dropWhile_cons, same _ _ first]
      split
      · exact ih
      · exact .cons first others

end Lists

section Search

variable {pairing : Pairing} {heap other : Heap} {edges edges' : Handle → List Handle}

theorem Handle.biUnique_match : Relator.BiUnique (Handle.Match pairing) :=
  ⟨fun _ _ _ first second => (first.unique second).mpr rfl,
    fun _ _ _ first second => (first.unique second).mp rfl⟩

theorem Heap.Parallel.slots (parallel : heap.Parallel pairing other) {handle image : Handle}
    (paired : handle.Match pairing image) : heap.HasSlot handle ∧ other.HasSlot image := by
  cases paired with
  | record paired => exact parallel.recordSlots paired
  | function paired => exact parallel.closureSlots paired

/-- What is reached along related edges is related to something. -/
theorem Reaches.exists_related (relation : Handle → Handle → Prop) {roots roots' : List Handle}
    (along : ∀ handle image, relation handle image →
      List.Forall₂ relation (edges handle) (edges' image))
    (starts : List.Forall₂ relation roots roots') {handle : Handle}
    (reaches : Reaches edges roots handle) : ∃ image, relation handle image := by
  induction reaches with
  | root mem =>
      obtain ⟨image, _, paired⟩ := exists_right_of_mem starts mem
      exact ⟨image, paired⟩
  | step _ edge ih =>
      obtain ⟨_, paired⟩ := ih
      obtain ⟨next, _, paired⟩ := exists_right_of_mem (along _ _ paired) edge
      exact ⟨next, paired⟩

/-- Searches along matching edges meet paired objects in the same order. -/
theorem Heap.Parallel.order_explore (parallel : heap.Parallel pairing other)
    (along : ∀ handle image, handle.Match pairing image →
      List.Forall₂ (Handle.Match pairing) (edges handle) (edges' image))
    {rounds rounds' : Nat} {visited visited' : Visited} {pending pending' : List Handle}
    (wellFormed : visited.WellFormed heap) (wellFormed' : visited'.WellFormed other)
    (met : List.Forall₂ (Handle.Match pairing) visited.order visited'.order)
    (left : List.Forall₂ (Handle.Match pairing) pending pending')
    (enough : heap.slotCount < rounds + visited.order.length)
    (enough' : other.slotCount < rounds' + visited'.order.length) :
    List.Forall₂ (Handle.Match pairing) (explore edges rounds visited pending).order
      (explore edges' rounds' visited' pending').order := by
  induction rounds generalizing rounds' visited visited' pending pending' with
  | zero =>
      have few := Heap.length_le_slotCount wellFormed.once wellFormed.slots
      omega
  | succ rounds ih =>
      cases rounds' with
      | zero =>
          have few := Heap.length_le_slotCount wellFormed'.once wellFormed'.slots
          omega
      | succ rounds' =>
          have same : ∀ handle image, handle.Match pairing image →
              visited.contains handle = visited'.contains image := by
            intro handle image paired
            rw [Bool.eq_iff_iff, wellFormed.contains_iff, wellFormed'.contains_iff]
            exact List.rel_mem Handle.biUnique_match paired met
          have next := forall₂_dropWhile same left
          rw [explore, explore]
          generalize passed : pending.dropWhile visited.contains = rest,
            passed' : pending'.dropWhile visited'.contains = rest' at next
          cases next with
          | nil => exact met
          | @cons handle image _ _ paired later =>
              obtain ⟨slot, slot'⟩ := parallel.slots paired
              have new := eq_false_of_dropWhile_eq_cons passed
              have new' := eq_false_of_dropWhile_eq_cons passed'
              refine ih (wellFormed.insert slot new) (wellFormed'.insert slot' new') ?_
                (List.rel_append (along handle image paired) later) ?_ ?_
              · rw [Visited.order_insert, Visited.order_insert]
                exact .cons paired met
              · rw [Visited.order_insert, List.length_cons]
                omega
              · rw [Visited.order_insert, List.length_cons]
                omega

end Search

namespace Heap

variable {pairing : Pairing} {heap other : Heap}

theorem Parallel.isNumbered_eq (parallel : heap.Parallel pairing other) {handle image : Handle}
    (paired : handle.Match pairing image) : heap.isNumbered handle = other.isNumbered image := by
  cases paired with
  | record paired => simp only [isNumbered, (parallel.record paired).literal]
  | function => rfl

theorem Parallel.savedReferences (parallel : heap.Parallel pairing other) {handle image : Handle}
    (paired : handle.Match pairing image) :
    List.Forall₂ (Handle.Match pairing) (heap.savedReferences handle)
      (other.savedReferences image) := by
  refine List.rel_filter (fun _ _ paired => by simp only [parallel.isNumbered_eq paired]) ?_
  cases paired with
  | record paired =>
      have contents := parallel.record paired
      exact List.rel_append (contents.valueHandles _) contents.parentHandles
  | function paired =>
      have contents := parallel.closure paired
      exact .cons (.record contents.scope) (contents.body.handles _)

/-- What paired records lead to has slots. -/
theorem Parallel.hasSlot_of_saved (parallel : heap.Parallel pairing other) {root root' : RecordId}
    (paired : pairing.record root root') :
    (∀ handle, Reaches heap.savedReferences [.record root] handle → heap.HasSlot handle) ∧
      ∀ handle, Reaches other.savedReferences [.record root'] handle → other.HasSlot handle := by
  constructor
  · intro handle reaches
    obtain ⟨_, paired⟩ := reaches.exists_related (Handle.Match pairing)
      (fun _ _ => parallel.savedReferences) (.cons (.record paired) .nil)
    exact (parallel.slots paired).1
  · intro image reaches
    obtain ⟨_, paired⟩ := reaches.exists_related (flip (Handle.Match pairing))
      (fun _ _ paired => (parallel.savedReferences paired).flip) (.cons (.record paired) .nil)
    exact (parallel.slots paired).2

theorem Parallel.savedObjects (parallel : heap.Parallel pairing other) {root root' : RecordId}
    (paired : pairing.record root root') :
    List.Forall₂ (Handle.Match pairing) (heap.savedObjects root).toList
      (other.savedObjects root').toList := by
  refine List.rel_reverse ?_
  exact parallel.order_explore (fun _ _ => parallel.savedReferences) (Visited.wellFormed_none heap)
    (Visited.wellFormed_none other) .nil (.cons (.record paired) .nil) (Nat.lt_succ_self _)
    (Nat.lt_succ_self _)

end Heap

namespace Image

variable {pairing : Pairing} {heap other : Heap}

/-! ## Literals that are read back -/

section Verbatim

variable {record record' : RecordId → Bool}

mutual

theorem verbatimWith_imp (implies : ∀ id, record id = true → record' id = true) :
    ∀ atom : Atom, verbatimWith record atom = true → verbatimWith record' atom = true
  | .leaf _ (.record id), holds => implies id holds
  | .leaf _ .nil, holds | .leaf _ (.integer _), holds | .leaf _ (.decimal _), holds
  | .leaf _ (.string _), holds | .leaf _ (.token _), holds | .leaf _ (.function _), holds => holds
  | .list _ items, holds => verbatimItems_imp implies items holds
  | .member _ target field, holds => by
      simp only [verbatimWith, Bool.and_eq_true] at holds ⊢
      exact holds.imp (verbatimWith_imp implies target) (verbatimWith_imp implies field)

theorem verbatimItems_imp (implies : ∀ id, record id = true → record' id = true) :
    ∀ items : List Atom, verbatimItems record items = true → verbatimItems record' items = true
  | [], holds => holds
  | item :: items, holds => by
      simp only [verbatimItems, Bool.and_eq_true] at holds ⊢
      exact holds.imp (verbatimWith_imp implies item) (verbatimItems_imp implies items)

end

mutual

theorem verbatimWith_eq (same : ∀ {id image}, pairing.record id image → record id = record' image) :
    ∀ {atom copy : Atom}, atom.Match pairing copy →
      verbatimWith record atom = verbatimWith record' copy
  | .leaf _ _, _, .leaf (.record paired) => same paired
  | .leaf _ _, _, .leaf (.function _) => rfl
  | .leaf _ value, _, .leaf (.same noHandle) => by
      cases value with
      | record => cases noHandle
      | nil | integer | decimal | string | token | function => rfl
  | .list _ _, _, .list items => verbatimItems_eq same items
  | .member _ _ _, _, .member target field => by
      simp only [verbatimWith, verbatimWith_eq same target, verbatimWith_eq same field]

theorem verbatimItems_eq
    (same : ∀ {id image}, pairing.record id image → record id = record' image) :
    ∀ {items copies : List Atom}, List.Forall₂ (Atom.Match pairing) items copies →
      verbatimItems record items = verbatimItems record' copies
  | [], _, .nil => rfl
  | _ :: _, _, .cons item items => by
      simp only [verbatimItems, verbatimWith_eq same item, verbatimItems_eq same items]

end

end Verbatim

theorem verbatimRecord_imp {fuel fuel' : Nat}
    (implies : ∀ id, verbatimRecord heap fuel id = true → verbatimRecord heap fuel' id = true)
    (id : RecordId) (holds : verbatimRecord heap (fuel + 1) id = true) :
    verbatimRecord heap (fuel' + 1) id = true := by
  simp only [verbatimRecord, Bool.and_eq_true, List.all_eq_true] at holds ⊢
  refine ⟨holds.1, fun field mem => ?_⟩
  exact (holds.2 field mem).imp_right (verbatimWith_imp implies field.2)

theorem verbatimRecord_succ (fuel : Nat) (id : RecordId)
    (holds : verbatimRecord heap fuel id = true) : verbatimRecord heap (fuel + 1) id = true := by
  induction fuel generalizing id with
  | zero => cases holds
  | succ fuel ih => exact verbatimRecord_imp ih id holds

/-- A literal record stands in a slot. -/
theorem inRange_of_verbatimRecord {fuel : Nat} {id : RecordId}
    (holds : verbatimRecord heap fuel id = true) : id.index < heap.records.size := by
  cases fuel with
  | zero => cases holds
  | succ fuel =>
      refine Heap.inRange_of_record_ne_empty fun isEmpty => ?_
      simp only [verbatimRecord, isEmpty, Bool.and_eq_true] at holds
      cases holds.1

/-- A record whose answer changes at a bound has as many different records inside one another. The
record itself is not among those found below it, whose answer was yes before. -/
theorem exists_nested {fuel : Nat} {id : RecordId}
    (holds : verbatimRecord heap (fuel + 1) id = true)
    (fails : verbatimRecord heap fuel id = false) :
    ∃ nested : List RecordId, nested.length = fuel + 1 ∧ nested.Nodup ∧
      ∀ inner ∈ nested, verbatimRecord heap (fuel + 1) inner = true := by
  induction fuel generalizing id with
  | zero => exact ⟨[id], rfl, by simp, by simpa using holds⟩
  | succ fuel ih =>
      have changes : ∃ inner, verbatimRecord heap (fuel + 1) inner = true ∧
          verbatimRecord heap fuel inner = false := by
        by_contra none
        have implies : ∀ inner, verbatimRecord heap (fuel + 1) inner = true →
            verbatimRecord heap fuel inner = true := fun inner here =>
          Bool.not_eq_false _ |>.mp fun there => none ⟨inner, here, there⟩
        rw [verbatimRecord_imp implies id holds] at fails
        cases fails
      obtain ⟨inner, here, there⟩ := changes
      obtain ⟨nested, long, once, all⟩ := ih here there
      refine ⟨id :: nested, by rw [List.length_cons, long], List.nodup_cons.mpr ⟨?_, once⟩, ?_⟩
      · intro mem
        rw [all id mem] at fails
        cases fails
      · rintro other (_ | ⟨_, mem⟩)
        · exact holds
        · exact verbatimRecord_succ _ other (all other mem)

/-- A bound above the number of slots makes no difference. -/
theorem verbatimRecord_add (heap : Heap) (more : Nat) (id : RecordId) :
    verbatimRecord heap (heap.records.size + 1 + more) id =
      verbatimRecord heap (heap.records.size + 1) id := by
  induction more with
  | zero => rfl
  | succ more ih =>
      rw [← ih, ← Nat.add_assoc]
      cases before : verbatimRecord heap (heap.records.size + 1 + more) id with
      | true => exact verbatimRecord_succ _ id before
      | false =>
          refine Bool.eq_false_iff.mpr fun holds => ?_
          obtain ⟨nested, long, once, all⟩ := exists_nested holds before
          have few := Heap.length_le_of_inRange once fun inner mem =>
            inRange_of_verbatimRecord (all inner mem)
          omega

theorem verbatimRecord_eq_of_fuel (parallel : heap.Parallel pairing other) (fuel : Nat)
    {id image : RecordId} (paired : pairing.record id image) :
    verbatimRecord heap fuel id = verbatimRecord other fuel image := by
  induction fuel generalizing id image with
  | zero => rfl
  | succ fuel ih =>
      have contents := parallel.record paired
      simp only [verbatimRecord, contents.literal]
      congr 1
      have fields := contents.fields
      generalize (heap.record id).fields = fields', (other.record image).fields = others at fields
      induction fields with
      | nil => rfl
      | cons field _ rest =>
          simp only [List.all_cons, field.1, verbatimWith_eq ih field.2, rest]

theorem verbatimRecord_eq (parallel : heap.Parallel pairing other) {id image : RecordId}
    (paired : pairing.record id image) :
    verbatimRecord heap (heap.records.size + 1) id =
      verbatimRecord other (other.records.size + 1) image :=
  calc verbatimRecord heap (heap.records.size + 1) id
      = verbatimRecord heap (heap.records.size + 1 + other.records.size) id :=
        (verbatimRecord_add heap _ id).symm
    _ = verbatimRecord other (heap.records.size + 1 + other.records.size) image :=
        verbatimRecord_eq_of_fuel parallel _ paired
    _ = verbatimRecord other (other.records.size + 1 + heap.records.size) image := by
        congr 1
        omega
    _ = verbatimRecord other (other.records.size + 1) image := verbatimRecord_add other _ image

/-! ## Programs -/

/-- Images of parallel heaps that number paired objects alike. -/
structure Match (pairing : Pairing) (image copy : Image) : Prop where
  heap : image.heap.Parallel pairing copy.heap
  records : List.Forall₂ pairing.record image.records copy.records
  functions : List.Forall₂ pairing.function image.functions copy.functions

theorem match_ofRoot (parallel : heap.Parallel pairing other) {root root' : RecordId}
    (paired : pairing.record root root') :
    (ofRoot heap root).Match pairing (ofRoot other root') := by
  have objects := parallel.savedObjects paired
  obtain ⟨slots, slots'⟩ := parallel.hasSlot_of_saved paired
  have follows := Heap.follows_savedObjects slots
  have follows' := Heap.follows_savedObjects slots'
  refine ⟨parallel, ?_, ?_⟩
  · change List.Forall₂ pairing.record (heap.numbering root).records (other.numbering root').records
    rw [follows.records, follows'.records]
    refine List.rel_filterMap ?_ objects
    rintro _ _ (paired | paired)
    · exact .some paired
    · exact .none
  · change List.Forall₂ pairing.function (heap.numbering root).functions
      (other.numbering root').functions
    rw [follows.functions, follows'.functions]
    refine List.rel_filterMap ?_ objects
    rintro _ _ (paired | paired)
    · exact .none
    · exact .some paired

section Program

variable {image copy : Image}

theorem Match.recordNumber?_eq (matched : image.Match pairing copy) {id id' : RecordId}
    (paired : pairing.record id id') :
    image.recordNumber? id = copy.recordNumber? id' :=
  find?_eq_of_related Pairing.biUnique_record matched.records image.coherent.records
    copy.coherent.records paired

theorem Match.functionNumber?_eq (matched : image.Match pairing copy) {id id' : FunctionId}
    (paired : pairing.function id id') :
    image.functionNumber? id = copy.functionNumber? id' :=
  find?_eq_of_related Pairing.biUnique_function matched.functions image.coherent.functions
    copy.coherent.functions paired

theorem Match.verbatim_eq (matched : image.Match pairing copy) {atom atom' : Atom}
    (same : atom.Match pairing atom') :
    image.verbatim atom = copy.verbatim atom' :=
  verbatimWith_eq (verbatimRecord_eq matched.heap) same

mutual

theorem Match.holdsNumbered_eq (matched : image.Match pairing copy) :
    ∀ {atom atom' : Atom}, atom.Match pairing atom' →
      image.holdsNumbered atom = copy.holdsNumbered atom'
  | .leaf _ _, _, .leaf (.record paired) => by
      simp only [holdsNumbered, matched.recordNumber?_eq paired]
  | .leaf _ _, _, .leaf (.function _) => rfl
  | .leaf _ value, _, .leaf (.same noHandle) => by
      cases value with
      | record => cases noHandle
      | nil | integer | decimal | string | token | function => rfl
  | .list _ _, _, .list items => Match.anyHoldsNumbered_eq matched items
  | .member _ _ _, _, .member target field => by
      simp only [holdsNumbered, Match.holdsNumbered_eq matched target,
        Match.holdsNumbered_eq matched field]

theorem Match.anyHoldsNumbered_eq (matched : image.Match pairing copy) :
    ∀ {items items' : List Atom}, List.Forall₂ (Atom.Match pairing) items items' →
      image.anyHoldsNumbered items = copy.anyHoldsNumbered items'
  | [], _, .nil => rfl
  | _ :: _, _, .cons item items => by
      simp only [anyHoldsNumbered, Match.holdsNumbered_eq matched item,
        Match.anyHoldsNumbered_eq matched items]

end

theorem Match.leafExpression_eq (matched : image.Match pairing copy) {value value' : Leaf}
    (same : value.Match pairing value') :
    image.leafExpression value = copy.leafExpression value' := by
  cases same with
  | same noHandle =>
      cases value with
      | record | function => cases noHandle
      | nil | integer | decimal | string | token => rfl
  | record paired =>
      have atoms : (Atom.record _).Match pairing (Atom.record _) := .leaf (.record paired)
      simp only [leafExpression, matched.recordNumber?_eq paired, matched.verbatim_eq atoms,
        matched.heap.print_eq atoms]
  | function paired => simp only [leafExpression, matched.functionNumber?_eq paired]

mutual

theorem Match.expression_eq (matched : image.Match pairing copy) :
    ∀ {atom atom' : Atom}, atom.Match pairing atom' → image.expression atom = copy.expression atom'
  | .leaf _ _, _, .leaf value => by
      rw [expression, expression, matched.leafExpression_eq value]
  | .list _ _, _, .list items => by
      have lists : (Atom.ofList _).Match pairing (Atom.ofList _) := .list items
      simp only [expression, matched.anyHoldsNumbered_eq items, matched.verbatim_eq lists,
        matched.heap.print_eq lists, Match.expressions_eq matched items]
  | .member _ _ _, _, .member target field => by
      have chains : (Atom.member .plain _ _).Match pairing (.member .plain _ _) :=
        .member target field
      simp only [expression, matched.verbatim_eq chains, matched.heap.print_eq chains]

theorem Match.expressions_eq (matched : image.Match pairing copy) :
    ∀ {items items' : List Atom}, List.Forall₂ (Atom.Match pairing) items items' →
      image.expressions items = copy.expressions items'
  | [], _, .nil => rfl
  | _ :: _, _, .cons item items => by
      simp only [expressions, Match.expression_eq matched item, Match.expressions_eq matched items]

end

theorem Match.functionLine_eq (matched : image.Match pairing copy) {id id' : FunctionId}
    (paired : pairing.function id id') :
    image.functionLine id = copy.functionLine id' := by
  have contents := matched.heap.closure paired
  have selves : List.Forall₂ (Atom.Match pairing) _ _ :=
    Atom.matchAll_self _ (copy.heap.closure id').signature.handles_toAtoms
  have formals := map_eq_of_related selves fun _ _ => matched.heap.print_eq
  simp only [functionLine, contents.signature, formals, matched.heap.print_eq contents.body]

theorem Match.scopeLine_eq (matched : image.Match pairing copy) (number : Nat) {id id' : FunctionId}
    (paired : pairing.function id id') :
    image.scopeLine number id = copy.scopeLine number id' := by
  simp only [scopeLine, matched.recordNumber?_eq (matched.heap.closure paired).scope]

theorem Match.fieldPairs_eq (matched : image.Match pairing copy) {fields fields' : Fields}
    (same : fields.Match pairing fields') :
    image.fieldPairs fields = copy.fieldPairs fields' := by
  induction same with
  | nil => rfl
  | @cons field field' _ _ same _ ih =>
      obtain ⟨name, value⟩ := field
      obtain ⟨name', value'⟩ := field'
      obtain ⟨rfl, values⟩ := same
      simp only [fieldPairs, matched.expression_eq values, ih]

theorem Match.recordLines_eq (matched : image.Match pairing copy) (number : Nat) {id id' : RecordId}
    (paired : pairing.record id id') :
    image.recordLines number id = copy.recordLines number id' := by
  have contents := matched.heap.record paired
  have parents : (image.heap.record id).parent.bind image.recordNumber? =
      (copy.heap.record id').parent.bind copy.recordNumber? := by
    have parents := contents.parent
    generalize (image.heap.record id).parent = parent,
      (copy.heap.record id').parent = parent' at parents
    cases parents with
    | none => rfl
    | some paired => exact matched.recordNumber?_eq paired
  simp only [recordLines, matched.fieldPairs_eq contents.fields, parents]

theorem Match.allRecordLines_eq (matched : image.Match pairing copy) (first : Nat)
    {ids ids' : List RecordId} (paired : List.Forall₂ pairing.record ids ids') :
    image.allRecordLines first ids = copy.allRecordLines first ids' := by
  induction paired generalizing first with
  | nil => rfl
  | cons paired _ ih => simp only [allRecordLines, matched.recordLines_eq first paired, ih]

theorem Match.program_eq (matched : image.Match pairing copy) : image.program = copy.program := by
  have functionLines := map_eq_of_related matched.functions fun _ _ => matched.functionLine_eq
  have scopeLines := mapIdx_eq_of_related matched.functions fun _ _ number =>
    matched.scopeLine_eq number
  simp only [program, allScopeLines, matched.allRecordLines_eq 0 matched.records,
    matched.records.length_eq, functionLines, scopeLines]

end Program

end Image

/-- Paired records of parallel heaps are saved as the same program, or fail alike. -/
theorem Heap.Parallel.save_eq {pairing : Pairing} {heap other : Heap}
    (parallel : heap.Parallel pairing other) {root root' : RecordId}
    (paired : pairing.record root root') : heap.save root = other.save root' := by
  unfold Heap.save
  rw [(parallel.record paired).literal, (Image.match_ofRoot parallel paired).program_eq]

end RecordLisp
