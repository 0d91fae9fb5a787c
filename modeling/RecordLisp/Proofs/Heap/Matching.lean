import RecordLisp.Heap.Ancestry
import RecordLisp.Proofs.Heap.Pairing

/-!
# Heaps that hold the same data

Two heaps are parallel under a pairing when paired objects have slots and matching contents. Objects
that are not paired do not count, so the one heap may hold garbage that the other has freed. They
match when moreover the paired objects are in use. Every operation on heaps keeps matching heaps
matching, and an allocation on both sides adds a pair.

The body of a function is fixed when the function is made, so bodies cannot form a cycle: functions
have ranks, and the functions in a body have a lower rank than the function itself.
-/

namespace RecordLisp

/-- Closures with the same formals, matching bodies and paired scopes. -/
structure Closure.Match (pairing : Pairing) (closure other : Closure) : Prop where
  signature : closure.signature = other.signature
  body : closure.body.Match pairing other.body
  scope : pairing.record closure.scope other.scope

theorem Closure.Match.mono {pairing later : Pairing} {closure other : Closure}
    (within : pairing.Within later) (matched : closure.Match pairing other) :
    closure.Match later other :=
  ⟨matched.signature, matched.body.mono within, within.record matched.scope⟩

/-! ## Fields -/

namespace Fields

variable {pairing : Pairing} {fields others : Fields}

theorem Match.get? (matched : fields.Match pairing others) (name : String) :
    Option.Rel (Atom.Match pairing) (fields.get? name) (others.get? name) := by
  induction matched with
  | nil => exact .none
  | @cons field other _ _ same _ ih =>
      rw [Fields.get?, Fields.get?, same.1]
      split
      · exact .some same.2
      · exact ih

theorem Match.put (matched : fields.Match pairing others) (name : String) {value value' : Atom}
    (values : value.Match pairing value') :
    (fields.put name value).Match pairing (others.put name value') := by
  induction matched with
  | nil => exact .cons ⟨rfl, values⟩ .nil
  | @cons field other _ _ same rest ih =>
      rw [Fields.put, Fields.put, same.1]
      split
      · exact .cons ⟨rfl, values⟩ rest
      · exact .cons ⟨rfl, same.2⟩ ih

theorem Match.drop (matched : fields.Match pairing others) (name : String) :
    (fields.drop name).Match pairing (others.drop name) := by
  induction matched with
  | nil => exact .nil
  | @cons field other _ _ same rest ih =>
      rw [Fields.drop, Fields.drop, same.1]
      split
      · exact rest
      · exact .cons ⟨rfl, same.2⟩ ih

end Fields

namespace Record

variable {pairing : Pairing} {record other : Record}

theorem Match.get? (matched : record.Match pairing other) (name : String) :
    Option.Rel (Atom.Match pairing) (record.get? name) (other.get? name) := by
  rw [get?_eq, get?_eq]
  exact matched.fields.get? name

theorem Match.insert (matched : record.Match pairing other) (name : String) {value value' : Atom}
    (values : value.Match pairing value') :
    (record.insert name value).Match pairing (other.insert name value') where
  fields := by
    rw [fields_insert, fields_insert]
    exact matched.fields.put name values
  parent := matched.parent
  literal := matched.literal

theorem Match.insertAll (matched : record.Match pairing other) {fields others : Fields}
    (all : fields.Match pairing others) :
    (record.insertAll fields).Match pairing (other.insertAll others) := by
  induction all generalizing record other with
  | nil => exact matched
  | @cons field field' _ _ same _ ih =>
      obtain ⟨name, value⟩ := field
      obtain ⟨name', value'⟩ := field'
      obtain ⟨rfl, values⟩ := same
      exact ih (matched.insert name values)

theorem Match.erase (matched : record.Match pairing other) (name : String) :
    (record.erase name).Match pairing (other.erase name) where
  fields := by
    rw [fields_erase, fields_erase]
    exact matched.fields.drop name
  parent := matched.parent
  literal := matched.literal

theorem Match.detached (matched : record.Match pairing other) :
    record.detached.Match pairing other.detached :=
  ⟨matched.fields, .none, rfl⟩

/-- The values of matching records refer to paired objects. -/
theorem Match.valueHandles (matched : record.Match pairing other) (inert : Modifier → Bool) :
    List.Forall₂ (Handle.Match pairing) (record.values.flatMap (Atom.handles inert))
      (other.values.flatMap (Atom.handles inert)) := by
  have fields := matched.fields
  unfold Record.values
  generalize record.fields = fields', other.fields = others at fields
  induction fields with
  | nil => exact .nil
  | cons field _ ih => exact List.rel_append (field.2.handles inert) ih

theorem Match.parentHandles (matched : record.Match pairing other) :
    List.Forall₂ (Handle.Match pairing) (record.parent.map .record).toList
      (other.parent.map .record).toList := by
  have parents := matched.parent
  generalize record.parent = parent, other.parent = parent' at parents
  cases parents with
  | none => exact .nil
  | some paired => exact .cons (.record paired) .nil

theorem match_empty : empty.Match pairing empty := ⟨.nil, .none, rfl⟩

theorem match_emptyLiteral : emptyLiteral.Match pairing emptyLiteral := ⟨.nil, .none, rfl⟩

theorem match_childOf {id image : RecordId} (paired : pairing.record id image) :
    (childOf id).Match pairing (childOf image) :=
  ⟨.nil, .some paired, rfl⟩

end Record

namespace Heap

/-- Paired objects have slots on both sides and matching contents. -/
structure Parallel (pairing : Pairing) (heap other : Heap) : Prop where
  recordSlots : ∀ {id image}, pairing.record id image →
    id.index < heap.records.size ∧ image.index < other.records.size
  closureSlots : ∀ {id image}, pairing.function id image →
    id.index < heap.closures.size ∧ image.index < other.closures.size
  record : ∀ {id image}, pairing.record id image →
    (heap.record id).Match pairing (other.record image)
  closure : ∀ {id image}, pairing.function id image →
    (heap.closure id).Match pairing (other.closure image)

/-- Paired objects are in use on both sides and have matching contents, and no body leads back to
its own function through bodies alone. -/
structure Match (pairing : Pairing) (heap other : Heap) : Prop where
  hasRecord : ∀ {id image}, pairing.record id image → heap.HasRecord id ∧ other.HasRecord image
  hasClosure : ∀ {id image}, pairing.function id image → heap.HasClosure id ∧ other.HasClosure image
  record : ∀ {id image}, pairing.record id image →
    (heap.record id).Match pairing (other.record image)
  closure : ∀ {id image}, pairing.function id image →
    (heap.closure id).Match pairing (other.closure image)
  layered : ∃ rank : FunctionId → Nat, ∀ {id image}, pairing.function id image →
    ∀ inner, .function inner ∈ (heap.closure id).body.handles (fun _ => false) →
      rank inner < rank id

theorem Match.parallel {pairing : Pairing} {heap other : Heap}
    (matched : heap.Match pairing other) :
    heap.Parallel pairing other :=
  ⟨fun paired => (matched.hasRecord paired).imp And.left And.left,
    fun paired => (matched.hasClosure paired).imp And.left And.left, matched.record,
    matched.closure⟩

end Heap

/-! ## New pairs -/

namespace Pairing

/-- No pairs. -/
def empty : Pairing where
  record _ _ := False
  function _ _ := False
  record_unique paired := paired.elim
  function_unique paired := paired.elim

/-- One more pair of records, neither of which is paired. -/
def addRecord (pairing : Pairing) (id image : RecordId) (new : ∀ other, ¬ pairing.record id other)
    (newImage : ∀ other, ¬ pairing.record other image) : Pairing where
  record a b := (a = id ∧ b = image) ∨ pairing.record a b
  function := pairing.function
  record_unique := by
    rintro a b a' b' (⟨rfl, rfl⟩ | paired) (⟨rfl, rfl⟩ | paired')
    · simp
    · exact ⟨fun same => absurd paired' (same ▸ new b'),
        fun same => absurd paired' (same ▸ newImage a')⟩
    · exact ⟨fun same => absurd paired (same ▸ new b),
        fun same => absurd paired (same ▸ newImage a)⟩
    · exact pairing.record_unique paired paired'
  function_unique := pairing.function_unique

/-- One more pair of functions, neither of which is paired. -/
def addFunction (pairing : Pairing) (id image : FunctionId)
    (new : ∀ other, ¬ pairing.function id other)
    (newImage : ∀ other, ¬ pairing.function other image) : Pairing where
  record := pairing.record
  function a b := (a = id ∧ b = image) ∨ pairing.function a b
  record_unique := pairing.record_unique
  function_unique := by
    rintro a b a' b' (⟨rfl, rfl⟩ | paired) (⟨rfl, rfl⟩ | paired')
    · simp
    · exact ⟨fun same => absurd paired' (same ▸ new b'),
        fun same => absurd paired' (same ▸ newImage a')⟩
    · exact ⟨fun same => absurd paired (same ▸ new b),
        fun same => absurd paired (same ▸ newImage a)⟩
    · exact pairing.function_unique paired paired'

end Pairing

namespace Heap

variable {pairing : Pairing} {heap other : Heap}

theorem match_empty (heap other : Heap) : heap.Match .empty other :=
  ⟨fun paired => paired.elim, fun paired => paired.elim, fun paired => paired.elim,
    fun paired => paired.elim, fun _ => 0, fun paired => paired.elim⟩

/-- Matching records in new slots are a new pair. -/
theorem Match.allocRecord (matched : heap.Match pairing other) {record copy : Record}
    (same : record.Match pairing copy) :
    ∃ later, pairing.Within later ∧
      later.record (heap.allocRecord record).1 (other.allocRecord copy).1 ∧
      (heap.allocRecord record).2.Match later (other.allocRecord copy).2 := by
  have new : ∀ image, ¬ pairing.record (heap.allocRecord record).1 image := fun image paired =>
    not_hasRecord_allocRecord heap record (matched.hasRecord paired).1
  have newImage : ∀ id, ¬ pairing.record id (other.allocRecord copy).1 := fun id paired =>
    not_hasRecord_allocRecord other copy (matched.hasRecord paired).2
  let later := pairing.addRecord _ _ new newImage
  have within : pairing.Within later := ⟨.inr, fun paired => paired⟩
  refine ⟨later, within, .inl ⟨rfl, rfl⟩, ?_, ?_, ?_, ?_, ?_⟩
  · rintro id image (⟨rfl, rfl⟩ | paired)
    · exact ⟨hasRecord_allocRecord_iff.mpr (.inl rfl), hasRecord_allocRecord_iff.mpr (.inl rfl)⟩
    · obtain ⟨used, usedImage⟩ := matched.hasRecord paired
      exact ⟨hasRecord_allocRecord_iff.mpr (.inr used),
        hasRecord_allocRecord_iff.mpr (.inr usedImage)⟩
  · intro id image paired
    exact (matched.hasClosure paired).imp hasClosure_allocRecord_iff.mpr
      hasClosure_allocRecord_iff.mpr
  · rintro id image (⟨rfl, rfl⟩ | paired)
    · rw [record_allocRecord_self, record_allocRecord_self]
      exact same.mono within
    · obtain ⟨used, usedImage⟩ := matched.hasRecord paired
      rw [record_allocRecord_of_hasRecord used, record_allocRecord_of_hasRecord usedImage]
      exact (matched.record paired).mono within
  · intro id image paired
    rw [closure_allocRecord, closure_allocRecord]
    exact (matched.closure paired).mono within
  · obtain ⟨rank, layered⟩ := matched.layered
    refine ⟨rank, fun paired inner mem => layered paired inner ?_⟩
    rwa [closure_allocRecord] at mem

theorem exists_top (rank : FunctionId → Nat) (handles : List Handle) :
    ∃ top, ∀ inner, .function inner ∈ handles → rank inner < top := by
  induction handles with
  | nil => exact ⟨0, by simp⟩
  | cons handle handles ih =>
      obtain ⟨top, above⟩ := ih
      cases handle with
      | record id => exact ⟨top, by simpa using above⟩
      | function id =>
          refine ⟨max top (rank id + 1), fun inner mem => ?_⟩
          rcases List.mem_cons.mp mem with same | later
          · cases same
            omega
          · have := above inner later
            omega

/-- A matching closure in a new slot gets a rank above the functions in its body. -/
theorem Match.allocClosure (matched : heap.Match pairing other) {closure copy : Closure}
    (same : closure.Match pairing copy) :
    ∃ later, pairing.Within later ∧
      later.function (heap.allocClosure closure).1 (other.allocClosure copy).1 ∧
      (heap.allocClosure closure).2.Match later (other.allocClosure copy).2 := by
  have new : ∀ image, ¬ pairing.function (heap.allocClosure closure).1 image := fun image paired =>
    not_hasClosure_allocClosure heap closure (matched.hasClosure paired).1
  have newImage : ∀ id, ¬ pairing.function id (other.allocClosure copy).1 := fun id paired =>
    not_hasClosure_allocClosure other copy (matched.hasClosure paired).2
  let later := pairing.addFunction _ _ new newImage
  have within : pairing.Within later := ⟨fun paired => paired, .inr⟩
  refine ⟨later, within, .inl ⟨rfl, rfl⟩, ?_, ?_, ?_, ?_, ?_⟩
  · intro id image paired
    exact (matched.hasRecord paired).imp hasRecord_allocClosure_iff.mpr
      hasRecord_allocClosure_iff.mpr
  · rintro id image (⟨rfl, rfl⟩ | paired)
    · exact ⟨hasClosure_allocClosure_iff.mpr (.inl rfl), hasClosure_allocClosure_iff.mpr (.inl rfl)⟩
    · obtain ⟨used, usedImage⟩ := matched.hasClosure paired
      exact ⟨hasClosure_allocClosure_iff.mpr (.inr used),
        hasClosure_allocClosure_iff.mpr (.inr usedImage)⟩
  · intro id image paired
    rw [record_allocClosure, record_allocClosure]
    exact (matched.record paired).mono within
  · rintro id image (⟨rfl, rfl⟩ | paired)
    · rw [closure_allocClosure_self, closure_allocClosure_self]
      exact same.mono within
    · obtain ⟨used, usedImage⟩ := matched.hasClosure paired
      rw [closure_allocClosure_of_hasClosure used, closure_allocClosure_of_hasClosure usedImage]
      exact (matched.closure paired).mono within
  · obtain ⟨rank, layered⟩ := matched.layered
    obtain ⟨top, above⟩ := exists_top rank (closure.body.handles fun _ => false)
    refine ⟨fun id => if id = (heap.allocClosure closure).1 then top else rank id, ?_⟩
    -- A function that a body names was paired before, so it is not the new one.
    have old {body copy : Atom} (bodies : body.Match pairing copy) {inner : FunctionId}
        (mem : .function inner ∈ body.handles fun _ => false) :
        inner ≠ (heap.allocClosure closure).1 := by
      rintro rfl
      obtain ⟨_, _, paired⟩ := exists_right_of_mem (bodies.handles _) mem
      cases paired with
      | function paired => exact new _ paired
    rintro id image (⟨rfl, rfl⟩ | paired) inner mem
    · rw [closure_allocClosure_self] at mem
      simp only [if_neg (old same.body mem), if_pos]
      exact above inner mem
    · have used := (matched.hasClosure paired).1
      have different : id ≠ (heap.allocClosure closure).1 := fun equal => new image (equal ▸ paired)
      rw [closure_allocClosure_of_hasClosure used] at mem
      simp only [if_neg (old (matched.closure paired).body mem), if_neg different]
      exact layered paired inner mem

/-! ## Changes of paired objects -/

theorem Match.modifyRecord (matched : heap.Match pairing other) {id image : RecordId}
    (paired : pairing.record id image) {change change' : Record → Record}
    (same : (change (heap.record id)).Match pairing (change' (other.record image))) :
    (heap.modifyRecord id change).Match pairing (other.modifyRecord image change') := by
  obtain ⟨used, usedImage⟩ := matched.hasRecord paired
  refine ⟨fun paired' => ?_, fun paired' => ?_, fun {id' image'} paired' => ?_, matched.closure,
    matched.layered⟩
  · exact (matched.hasRecord paired').imp hasRecord_modifyRecord_iff.mpr
      hasRecord_modifyRecord_iff.mpr
  · exact matched.hasClosure paired'
  · by_cases here : id' = id
    · have there := (pairing.record_unique paired' paired).mp here
      subst here there
      rw [record_modifyRecord_self _ _ used.1, record_modifyRecord_self _ _ usedImage.1]
      exact same
    · have there : image' ≠ image := fun equal =>
        here ((pairing.record_unique paired' paired).mpr equal)
      rw [record_modifyRecord_of_ne _ _ here, record_modifyRecord_of_ne _ _ there]
      exact matched.record paired'

/-- A function in another scope. -/
theorem Match.setScope (matched : heap.Match pairing other) {id image : FunctionId}
    (paired : pairing.function id image) {scope scope' : RecordId}
    (scopes : pairing.record scope scope') :
    (heap.modifyClosure id fun closure => { closure with scope }).Match pairing
      (other.modifyClosure image fun closure => { closure with scope := scope' }) := by
  obtain ⟨used, usedImage⟩ := matched.hasClosure paired
  have body (id' : FunctionId) :
      ((heap.modifyClosure id fun closure => { closure with scope }).closure id').body =
        (heap.closure id').body := by
    by_cases here : id' = id
    · subst here
      rw [closure_modifyClosure_self _ used.1]
    · rw [closure_modifyClosure_of_ne _ here]
  refine ⟨matched.hasRecord, fun paired' => ?_, matched.record, fun {id' image'} paired' => ?_, ?_⟩
  · exact (matched.hasClosure paired').imp hasClosure_modifyClosure_iff.mpr
      hasClosure_modifyClosure_iff.mpr
  · by_cases here : id' = id
    · have there := (pairing.function_unique paired' paired).mp here
      subst here there
      rw [closure_modifyClosure_self _ used.1, closure_modifyClosure_self _ usedImage.1]
      exact ⟨(matched.closure paired').signature, (matched.closure paired').body, scopes⟩
    · have there : image' ≠ image := fun equal =>
        here ((pairing.function_unique paired' paired).mpr equal)
      rw [closure_modifyClosure_of_ne _ here, closure_modifyClosure_of_ne _ there]
      exact matched.closure paired'
  · obtain ⟨rank, layered⟩ := matched.layered
    exact ⟨rank, fun paired' inner mem => layered paired' inner (body _ ▸ mem)⟩

/-! ## Lookups -/

/-- There are no more different paired records than slots on either side. -/
theorem Parallel.length_le (parallel : heap.Parallel pairing other) {ids images : List RecordId}
    (all : List.Forall₂ pairing.record ids images) (once : ids.Nodup) :
    ids.length ≤ heap.records.size ∧ images.length ≤ other.records.size := by
  constructor
  · refine length_le_of_inRange once fun id mem => ?_
    obtain ⟨_, _, paired⟩ := exists_right_of_mem all mem
    exact (parallel.recordSlots paired).1
  · refine length_le_of_inRange ((List.rel_nodup Pairing.biUnique_record all).mp once)
      fun id mem => ?_
    obtain ⟨_, _, paired⟩ := exists_left_of_mem all mem
    exact (parallel.recordSlots paired).2

theorem Parallel.functions_le (parallel : heap.Parallel pairing other)
    {ids images : List FunctionId} (all : List.Forall₂ pairing.function ids images)
    (once : ids.Nodup) :
    ids.length ≤ heap.closures.size ∧ images.length ≤ other.closures.size := by
  constructor
  · refine functions_le_of_inRange once fun id mem => ?_
    obtain ⟨_, _, paired⟩ := exists_right_of_mem all mem
    exact (parallel.closureSlots paired).1
  · refine functions_le_of_inRange ((List.rel_nodup Pairing.biUnique_function all).mp once)
      fun id mem => ?_
    obtain ⟨_, _, paired⟩ := exists_left_of_mem all mem
    exact (parallel.closureSlots paired).2

-- The two bounds differ, but no chain of different records is long enough to meet either.
theorem Match.ancestorsFrom (matched : heap.Match pairing other) {fuel fuel' : Nat}
    {seen seen' : List RecordId} (all : List.Forall₂ pairing.record seen seen') (once : seen.Nodup)
    (enough : heap.records.size < fuel + seen.length)
    (enough' : other.records.size < fuel' + seen'.length) {next next' : Option RecordId}
    (starts : Option.Rel pairing.record next next') :
    List.Forall₂ pairing.record (heap.ancestorsFrom fuel seen next)
      (other.ancestorsFrom fuel' seen' next') := by
  induction fuel generalizing fuel' seen seen' next next' with
  | zero =>
      have few := (matched.parallel.length_le all once).1
      omega
  | succ fuel ih =>
      cases fuel' with
      | zero =>
          have few := (matched.parallel.length_le all once).2
          omega
      | succ fuel' =>
          cases starts with
          | none => exact .nil
          | @some id image paired =>
              have same := contains_eq_of_related Pairing.biUnique_record all paired
              rw [Heap.ancestorsFrom, Heap.ancestorsFrom, same]
              split
              · exact .nil
              · rename_i unseen
                have fresh : id ∉ seen := by
                  rw [← same] at unseen
                  simpa using unseen
                refine .cons paired (ih (.cons paired all) (List.nodup_cons.mpr ⟨fresh, once⟩) ?_ ?_
                  (matched.record paired).parent)
                · rw [List.length_cons]
                  omega
                · rw [List.length_cons]
                  omega

theorem Match.ancestors (matched : heap.Match pairing other) {start start' : RecordId}
    (paired : pairing.record start start') :
    List.Forall₂ pairing.record (heap.ancestors start) (other.ancestors start') :=
  matched.ancestorsFrom .nil List.nodup_nil (by simp) (by simp) (.some paired)

theorem Match.lookup? (matched : heap.Match pairing other) {start start' : RecordId}
    (paired : pairing.record start start') (name : String) :
    Option.Rel (Atom.Match pairing) (heap.lookup? start name) (other.lookup? start' name) := by
  unfold Heap.lookup?
  have chains := matched.ancestors paired
  generalize heap.ancestors start = chain, other.ancestors start' = chain' at chains
  induction chains with
  | nil => exact .none
  | cons first _ ih =>
      have found := (matched.record first).get? name
      rw [List.findSome?_cons, List.findSome?_cons]
      generalize (heap.record _).get? name = value, (other.record _).get? name = value' at found
      cases found with
      | none => exact ih
      | some values => exact .some values

theorem Match.declaring? (matched : heap.Match pairing other) {start start' : RecordId}
    (paired : pairing.record start start') (name : String) :
    Option.Rel pairing.record (heap.declaring? start name) (other.declaring? start' name) := by
  unfold Heap.declaring?
  have chains := matched.ancestors paired
  generalize heap.ancestors start = chain, other.ancestors start' = chain' at chains
  induction chains with
  | nil => exact .none
  | @cons id image _ _ first _ ih =>
      have found := (matched.record first).get? name
      have same : (heap.record id).contains name = (other.record image).contains name := by
        rw [Record.contains_eq, Record.contains_eq]
        generalize (heap.record id).get? name = value,
          (other.record image).get? name = value' at found
        cases found <;> rfl
      rw [List.find?_cons, List.find?_cons, same]
      cases (other.record image).contains name with
      | true => exact .some first
      | false => exact ih

end Heap

end RecordLisp
