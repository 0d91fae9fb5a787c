import RecordLisp.Proofs.Image.Function

/-!
# Restoring a saved record

Everything that a savable record leads to has a program, and evaluating this program in any machine
that knows the core builtins and has gas enough gives a record that leads to a mirror of it. Whether
or not there is gas enough, what was in use before is kept: the program changes new objects only. It
first makes empty records and functions without their scopes, then links the functions and
fills the records by number. As long as an object is not filled nothing reads it, so every order of
numbers works, and cycles need no care.
-/

namespace RecordLisp

open EvalM

/-! ## Mirrored graphs -/

/-- Two records that lead to the same graph: a pairing of all that the one leads to with all that
the other leads to, under which records have the same names in the same order, matching values and
paired parents, and functions have the same formals, copies of the same body and paired scopes. -/
structure Pairing.Mirrors (pairing : Pairing) (heap : Heap) (root : RecordId) (other : Heap)
    (copy : RecordId) : Prop where
  rooted : pairing.record root copy
  saved : ∀ handle, heap.Saved root handle ↔ ∃ image, handle.Match pairing image
  savedCopy : ∀ handle, other.Saved copy handle ↔ ∃ original : Handle, original.Match pairing handle
  records : ∀ {id image}, pairing.record id image →
    (heap.record id).Match pairing (other.record image)
  signatures : ∀ {id image}, pairing.function id image →
    (other.closure image).signature = (heap.closure id).signature
  bodies : ∀ {id image}, pairing.function id image →
    heap.Copied (heap.closure id).body other (other.closure image).body
  scopes : ∀ {id image}, pairing.function id image →
    pairing.record (heap.closure id).scope (other.closure image).scope

section Saved

variable {pairing : Pairing} {heap other : Heap} {root copy : RecordId}

/-- A value of a record and the value of the paired record under the same name. -/
theorem Record.Match.exists_value {record image : Record} (matched : record.Match pairing image)
    {name : String} {value : Atom} (mem : (name, value) ∈ record.fields) :
    ∃ value', (name, value') ∈ image.fields ∧ value.Match pairing value' := by
  obtain ⟨⟨_, value'⟩, mem', rfl, matched⟩ := exists_right_of_mem matched.fields mem
  exact ⟨value', mem', matched⟩

theorem Record.Match.exists_original {record image : Record} (matched : record.Match pairing image)
    {name : String} {value' : Atom} (mem : (name, value') ∈ image.fields) :
    ∃ value, (name, value) ∈ record.fields ∧ value.Match pairing value' := by
  obtain ⟨⟨_, value⟩, mem', rfl, matched⟩ := exists_left_of_mem matched.fields mem
  exact ⟨value, mem', matched⟩

theorem Record.Match.exists_parent {record image : Record} (matched : record.Match pairing image)
    {parent : RecordId} (isParent : record.parent = some parent) :
    ∃ parent', image.parent = some parent' ∧ pairing.record parent parent' := by
  have parents := matched.parent
  rw [isParent] at parents
  cases other : image.parent with
  | none =>
      rw [other] at parents
      cases parents
  | some parent' =>
      rw [other] at parents
      cases parents with
      | some paired => exact ⟨parent', rfl, paired⟩

theorem Record.Match.exists_parentOriginal {record image : Record}
    (matched : record.Match pairing image) {parent' : RecordId}
    (isParent : image.parent = some parent') :
    ∃ parent, record.parent = some parent ∧ pairing.record parent parent' := by
  have parents := matched.parent
  rw [isParent] at parents
  cases other : record.parent with
  | none =>
      rw [other] at parents
      cases parents
  | some parent =>
      rw [other] at parents
      cases parents with
      | some paired => exact ⟨parent, rfl, paired⟩

/-- Whatever a copy leads to has an original. -/
theorem exists_original_of_saved (rooted : pairing.record root copy)
    (records : ∀ {id image}, pairing.record id image →
      (heap.record id).Match pairing (other.record image))
    (scopes : ∀ {id image}, pairing.function id image →
      pairing.record (heap.closure id).scope (other.closure image).scope)
    {handle : Handle} (saved : other.Saved copy handle) :
    ∃ original : Handle, original.Match pairing handle := by
  induction saved with
  | root => exact ⟨_, .record rooted⟩
  | value _ field mem ih =>
      obtain ⟨_, paired⟩ := ih
      cases paired with
      | record paired =>
          obtain ⟨value, _, matched⟩ := (records paired).exists_original field
          obtain ⟨original, _, found⟩ := exists_left_of_mem (matched.handles _) mem
          exact ⟨original, found⟩
  | parent _ isParent ih =>
      obtain ⟨_, paired⟩ := ih
      cases paired with
      | record paired =>
          obtain ⟨parent, _, paired⟩ := (records paired).exists_parentOriginal isParent
          exact ⟨_, .record paired⟩
  | scope _ ih =>
      obtain ⟨_, paired⟩ := ih
      cases paired with
      | function paired => exact ⟨_, .record (scopes paired)⟩

/-- Whatever stands for something saved is saved. -/
theorem saved_of_match (rooted : pairing.record root copy)
    (total : ∀ handle, heap.Saved root handle → ∃ image, handle.Match pairing image)
    (records : ∀ {id image}, pairing.record id image →
      (heap.record id).Match pairing (other.record image))
    (scopes : ∀ {id image}, pairing.function id image →
      pairing.record (heap.closure id).scope (other.closure image).scope)
    {handle image : Handle} (saved : heap.Saved root handle)
    (matched : handle.Match pairing image) :
    other.Saved copy image := by
  induction saved generalizing image with
  | root =>
      cases (matched.unique (.record rooted)).mp rfl
      exact .root
  | value saved field mem ih =>
      obtain ⟨_, paired⟩ := total _ saved
      have savedCopy := ih paired
      cases paired with
      | record paired =>
          obtain ⟨value', field', values⟩ := (records paired).exists_value field
          obtain ⟨image', mem', found⟩ := exists_right_of_mem (values.handles _) mem
          cases (matched.unique found).mp rfl
          exact .value savedCopy field' mem'
  | parent saved isParent ih =>
      obtain ⟨_, paired⟩ := total _ saved
      have savedCopy := ih paired
      cases paired with
      | record paired =>
          obtain ⟨parent', isParent', paired'⟩ := (records paired).exists_parent isParent
          cases (matched.unique (.record paired')).mp rfl
          exact .parent savedCopy isParent'
  | scope saved ih =>
      obtain ⟨_, paired⟩ := total _ saved
      have savedCopy := ih paired
      cases paired with
      | function paired =>
          cases (matched.unique (.record (scopes paired))).mp rfl
          exact .scope savedCopy

end Saved

namespace Image

/-! ## The text of the program -/

/-- A token on its own in a tree. -/
def tokenTree (name : String) : Tree := .leaf .plain (.token name)

/-- The tree of the whole program. -/
def programTree (count : Integer) (functions statements : List Tree) : Tree :=
  .list .plain [tokenTree "using",
    .list .plain [tokenTree "atoms",
      .list .plain [tokenTree "array", .leaf .plain (.integer count), .record []]],
    .list .plain [tokenTree "funcs", .list .plain (tokenTree "list" :: functions)],
    .list .plain (tokenTree "last" :: statements)]

theorem separates_line : ∀ ch ∈ ['\n'], isSeparator ch = true := List.all_eq_true.mp rfl

theorem separates_deep : ∀ ch ∈ ['\n', ' ', ' '], isSeparator ch = true := List.all_eq_true.mp rfl

theorem phrase_array {count : Nat} (small : count < 2147483648) :
    Grammar.Phrase ('(' :: ("array".toList ++ ([' '] ++
        (count.repr.toList ++ ([' '] ++ ['[', ']'])))) ++ [')'])
      (.list .plain [tokenTree "array", .leaf .plain (.integer (numberInteger count small)),
        .record []]) := by
  have literal : Grammar.Phrase ['[', ']'] (.record []) :=
    @Grammar.phrase_spelling (.record []) rfl
  exact ((literal.single.spaced (phrase_number small) Grammar.separates_blank (by simp)).spaced
    (@phrase_token "array" (by decide)) Grammar.separates_blank (by simp)).list

theorem program_of_parts {count : Nat} (small : count < 2147483648)
    {functions statements reference : String} {functionTrees statementTrees : List Tree}
    {referenceTree : Tree} (functionLines : Grammar.Lines functions.toList functionTrees)
    (statementLines : Grammar.Lines statements.toList statementTrees)
    (last : Grammar.Phrase reference.toList referenceTree) :
    Grammar.Program ("(using\n  (atoms (array " ++ count.repr ++ " []))\n  (funcs (list\n" ++
        functions ++ "  ))\n  (last\n" ++ statements ++ "    " ++ reference ++ "\n  )\n)").toList
      (programTree (numberInteger count small) functionTrees
        (statementTrees ++ [referenceTree])) := by
  have atoms := ((phrase_array small).single.spaced (@phrase_token "atoms" (by decide))
    Grammar.separates_blank (by simp)).list
  have funcs := (((functionLines.sequence (@Grammar.sequence_blank [' ', ' ']
    (List.all_eq_true.mp rfl))).spaced
    (@phrase_token "list" (by decide)) separates_line (by simp)).list.single.spaced
      (@phrase_token "funcs" (by decide)) Grammar.separates_blank (by simp)).list
  have ending := (@Grammar.sequence_blank [] (by simp)).spaced last separates_deep (by simp)
  have indented := @Grammar.Sequence.blank Grammar.indent _ _ ending (List.all_eq_true.mp rfl)
  have body := ((statementLines.sequence indented).spaced (@phrase_token "last" (by decide))
    separates_line (by simp)).list
  have whole := ((((@Grammar.sequence_blank [] (by simp)).spaced body separates_line
    (by simp)).spaced funcs separates_deep (by simp)).spaced atoms separates_deep
      (by simp)).spaced (@phrase_token "using" (by decide)) separates_deep (by simp)
  have start : "(using\n  (atoms (array ".toList = '(' :: ("using".toList ++ '\n' :: ' ' :: ' ' ::
      '(' :: ("atoms".toList ++ ' ' :: '(' :: ("array".toList ++ [' ']))) := by decide
  have middle : " []))\n  (funcs (list\n".toList = ' ' :: '[' :: ']' :: ')' :: ')' :: '\n' :: ' ' ::
      ' ' :: '(' :: ("funcs".toList ++ ' ' :: '(' :: ("list".toList ++ ['\n'])) := by decide
  have later : "  ))\n  (last\n".toList = ' ' :: ' ' :: ')' :: ')' :: '\n' :: ' ' :: ' ' :: '(' ::
      ("last".toList ++ ['\n']) := by decide
  have blanks : "    ".toList = Grammar.indent := by decide
  have finish : "\n  )\n)".toList = ['\n', ' ', ' ', ')', '\n', ')'] := by decide
  have program := whole.list.program
  simp only [String.toList_append, start, middle, later, blanks, finish, List.append_assoc,
    List.cons_append, List.nil_append, List.append_nil] at program ⊢
  exact program

/-! ## The value of the program -/

variable {image : Image} {registry : Registry} {base : Heap} {fuel : Nat} {scope : RecordId}

/-- A record literal without fields that is evaluated some times gives as many new empty records. -/
theorem does_evaluateTimes {rounds : Nat} {literal : RecordId} (count : Nat) {heap : Heap}
    (used : heap.HasRecord literal) (noFields : (heap.record literal).fields = [])
    (values : List Atom) :
    ∃ made after,
      Does base (Builtin.evaluateTimes ⟨registry.eval (fuel + 1), rounds⟩ (.record literal)
        count values) scope heap (values.reverse ++ made.map .record) after ∧
      heap.Adds after made ∧ made.length = count ∧ ∀ id ∈ made, after.record id = .empty := by
  induction count generalizing heap values with
  | zero =>
      refine ⟨[], heap, ?_, .none heap, rfl, by simp⟩
      rw [List.map_nil, List.append_nil]
      exact does_pure values.reverse
  | succ count ih =>
      have first := (Heap.Adds.none heap).allocRecord Record.empty
      have kept := first.keeps.record literal used
      obtain ⟨made, after, does, adds, length, empty⟩ := ih (first.keeps.hasRecord literal used)
        (kept ▸ noFields) (.record (heap.allocRecord .empty).1 :: values)
      refine ⟨(heap.allocRecord .empty).1 :: made, after, ?_, first.append adds, by simp [length],
        List.forall_mem_cons.mpr ⟨?_, empty⟩⟩
      · rw [List.reverse_cons, List.append_assoc] at does
        exact (Registry.evaluates_emptyRecord noFields).bind does
      · rw [adds.keeps.record _ (first.used _ (by simp)), Heap.record_allocRecord_self]

/-- The code of the whole program. -/
def programCode (count : Integer) (literal : RecordId) (functions statements : List Atom) : Atom :=
  .ofList [.token "using",
    .ofList [.token "atoms", .ofList [.token "array", .integer count, .record literal]],
    .ofList [.token "funcs", .ofList (.token "list" :: functions)],
    .ofList (.token "last" :: statements)]

theorem build_programTree {count : Integer} {functions statements : List Tree} {codes : List Atom}
    (built : ∀ heap, Tree.buildItems statements heap = (codes, heap)) (target : Heap) :
    (programTree count functions statements).build target =
      (programCode count (target.allocRecord .emptyLiteral).1
          (Tree.buildItems functions (target.allocRecord .emptyLiteral).2).1 codes,
        (Tree.buildItems functions (target.allocRecord .emptyLiteral).2).2) := by
  simp only [programTree, tokenTree, Tree.build, Tree.buildItems, Tree.buildFields, built]
  rfl

/-- What the two bindings of the program leave behind: new empty records and new functions, and
nothing that was there changed. -/
structure Prepared (image : Image) (copies : Copies image) (before after : Heap) : Prop where
  new : copies.NewTo before
  kept : ∀ id, before.HasRecord id → after.HasRecord id ∧ after.record id = before.record id
  empty : ∀ id ∈ copies.records, after.record id = .empty
  remade : List.Forall₂ (fun id other => image.Remade before id (after.closure other))
    image.functions copies.functions

namespace Copies

/-- The fields by which the body of the program refers to the new objects. -/
def bindings (copies : Copies image) : Fields :=
  [("atoms", .ofList (copies.records.map .record)),
    ("funcs", .ofList (copies.functions.map .function))]

/-- The scope in which the body of the program is evaluated, and the heap with this scope. -/
def frame (copies : Copies image) (scope : RecordId) (heap : Heap) : RecordId × Heap :=
  heap.allocRecord ((Record.childOf scope).insertAll copies.bindings)

variable {copies : Copies image} {heap second third : Heap}

theorem ready_frame (scope : RecordId) (records : ∀ id ∈ copies.records, heap.HasRecord id)
    (functions : ∀ id ∈ copies.functions, heap.HasClosure id) :
    copies.Ready (copies.frame scope heap).1 (copies.frame scope heap).2 where
  atoms := by
    rw [frame, Heap.record_allocRecord_self]
    rfl
  funcs := by
    rw [frame, Heap.record_allocRecord_self]
    rfl
  apart := fun mem => Heap.not_hasRecord_allocRecord heap _ (records _ mem)
  records := fun id mem => Heap.hasRecord_allocRecord_iff.mpr (.inr (records id mem))
  functions := fun id mem => Heap.hasClosure_allocRecord_iff.mpr (functions id mem)

theorem prepared_frame (scope : RecordId) (adds : heap.Adds second copies.records)
    (empty : ∀ id ∈ copies.records, second.record id = .empty)
    (addsFunctions : second.AddsClosures third copies.functions)
    (remade : List.Forall₂ (fun id other => image.Remade heap id (third.closure other))
      image.functions copies.functions) :
    Prepared image copies heap (copies.frame scope third).2 := by
  have later : ∀ id, second.HasRecord id → (copies.frame scope third).2.HasRecord id ∧
      (copies.frame scope third).2.record id = second.record id := by
    intro id used
    have used := (addsFunctions.hasRecord id).mpr used
    refine ⟨Heap.hasRecord_allocRecord_iff.mpr (.inr used), ?_⟩
    rw [frame, Heap.record_allocRecord_of_hasRecord used, addsFunctions.record id]
  refine ⟨⟨adds.new, fun id mem used => ?_⟩, fun id used => ?_, fun id mem => ?_, ?_⟩
  · exact addsFunctions.new id mem (adds.keeps.keeps.hasClosure id used)
  · obtain ⟨usedLater, same⟩ := later id (adds.keeps.hasRecord id used)
    exact ⟨usedLater, same.trans (adds.keeps.record id used)⟩
  · rw [(later id (adds.used id mem)).2, empty id mem]
  · simpa only [frame, Heap.closure_allocRecord] using remade

end Copies

/-- The program evaluates its body when the new records and functions are made. -/
theorem does_programCode (core : registry.Has Pack.core) {copies : Copies image}
    {heap second third after : Heap} {literal : RecordId} {functions statements : List Atom}
    {value : Atom} (small : image.records.length < 2147483648)
    (makes : Does base (Builtin.evaluateTimes ⟨registry.eval (fuel + 1), fuel + 1⟩ (.record literal)
      image.records.length []) scope heap (copies.records.map .record) second)
    (plain : ∀ code ∈ functions, code.modifier ≠ .expand)
    (makesFunctions : Does base (functions.mapM (registry.eval (fuel + 1))) scope second
      (copies.functions.map .function) third)
    (gives : Does base (registry.eval (fuel + 2) (.ofList (.token "last" :: statements)))
      (copies.frame scope third).1 (copies.frame scope third).2 value after) :
    Does base (registry.eval (fuel + 3) (programCode (numberInteger image.records.length small)
      literal functions statements)) scope heap value after := by
  have array := Registry.evaluates_array core ⟨by simp [Atom.modifier], by simp [Atom.modifier]⟩
    (@Registry.evaluates_leaf registry base fuel scope heap
      (.integer (numberInteger image.records.length small)) (by simp) (by simp)) makes
  have list := Registry.evaluates_list core plain makesFunctions
  refine @Registry.evaluates_using registry base (fuel + 2) scope heap third after core
    [.ofList [.token "atoms", .ofList [.token "array",
        .integer (numberInteger image.records.length small), .record literal]],
      .ofList [.token "funcs", .ofList (.token "list" :: functions)]]
    (.ofList (.token "last" :: statements)) value _ copies.bindings (by simp [Atom.modifier]) rfl ?_
    gives
  exact does_mapM_cons (array.map _) (does_mapM_cons (list.map _) (does_mapM_nil _))

/-- The program evaluates its body in a scope that binds the new objects. -/
theorem evaluates_program (core : registry.Has Pack.core) {heap : Heap} {literal : RecordId}
    (used : heap.HasRecord literal) (noFields : (heap.record literal).fields = [])
    (distinct : image.records.Nodup ∧ image.functions.Nodup)
    (small : image.records.length < 2147483648) {functions statements : List Atom}
    (areCodes : List.Forall₂ (image.FunctionCode heap) image.functions functions) :
    ∃ copies frame middle, Prepared image copies heap middle ∧ copies.Ready frame middle ∧
      ∀ value after, Does base (registry.eval (fuel + 2) (.ofList (.token "last" :: statements)))
          frame middle value after →
        Does base (registry.eval (fuel + 3) (programCode (numberInteger image.records.length small)
          literal functions statements)) scope heap value after := by
  obtain ⟨records, second, makes, adds, length, empty⟩ :=
    @does_evaluateTimes registry base fuel scope (fuel + 1) literal image.records.length heap used
      noFields []
  obtain ⟨made, third, makesFunctions, addsFunctions, remade⟩ :=
    @does_functionCodes image registry core base fuel scope heap _ _ areCodes second
  let copies : Copies image :=
    ⟨records, made, length, remade.length_eq.symm, ⟨distinct.1, adds.once⟩,
      ⟨distinct.2, addsFunctions.once⟩⟩
  have plain : ∀ code ∈ functions, code.modifier ≠ .expand := by
    intro code mem
    obtain ⟨_, _, _, rfl, _⟩ := exists_left_of_mem areCodes mem
    simp [Atom.modifier]
  have prepared : Prepared image copies heap (copies.frame scope third).2 :=
    Copies.prepared_frame scope adds empty addsFunctions remade
  have ready : copies.Ready (copies.frame scope third).1 (copies.frame scope third).2 :=
    Copies.ready_frame scope (fun id mem => (addsFunctions.hasRecord id).mpr (adds.used id mem))
      addsFunctions.used
  refine ⟨copies, _, _, prepared, ready, fun value after gives => ?_⟩
  exact @does_programCode image registry base fuel scope core copies _ _ _ _ _ _ _ _ small makes
    plain makesFunctions gives

/-! ## The graph that the program leaves -/

theorem Aligned.mem_left {α : Type} {items others : List α} {item other : α}
    (aligned : Aligned items others item other) : item ∈ items := by
  obtain ⟨number, found, _⟩ := aligned
  exact List.mem_of_getElem? found

theorem exists_aligned {α : Type} {items others : List α} (same : others.length = items.length)
    {item : α} (mem : item ∈ items) : ∃ other, Aligned items others item other := by
  obtain ⟨number, inRange, found⟩ := List.mem_iff_getElem.mp mem
  refine ⟨others[number], number, ?_, List.getElem?_eq_getElem (same ▸ inRange)⟩
  rw [List.getElem?_eq_getElem inRange, found]

/-- Items at the same place of related lists are related. -/
theorem Aligned.related {α : Type} {items others : List α} {item other : α}
    {relation : α → α → Prop} (aligned : Aligned items others item other)
    (all : List.Forall₂ relation items others) : relation item other := by
  obtain ⟨number, found, found'⟩ := aligned
  obtain ⟨inRange, rfl⟩ := List.getElem?_eq_some_iff.mp found
  obtain ⟨inRange', rfl⟩ := List.getElem?_eq_some_iff.mp found'
  exact all.get inRange inRange'

theorem nodup_keys {α β γ : Type} {relation : α → β → Prop} {key : β → γ} {items : List α}
    {others : List β} (related : List.Forall₂ relation items others) (distinct : items.Nodup)
    (unique : ∀ {a b a' b'}, relation a b → relation a' b' → key b = key b' → a = a') :
    (others.map key).Nodup := by
  induction related with
  | nil => exact List.nodup_nil
  | cons first others ih =>
      obtain ⟨new, distinct⟩ := List.nodup_cons.mp distinct
      refine List.nodup_cons.mpr ⟨fun mem => ?_, ih distinct⟩
      obtain ⟨other, mem, same⟩ := List.mem_map.mp mem
      obtain ⟨item, earlier, here⟩ := exists_left_of_mem others mem
      exact new (unique here first same ▸ earlier)

section Mirror

variable {copies : Copies image} {before middle : Heap} {frame : RecordId}
  {links : List (FunctionId × RecordId)} {fills : List (RecordId × (Record → Record))}

theorem nodup_links (areLinks : List.Forall₂ (Links copies) image.functions links) :
    (links.map Prod.fst).Nodup :=
  nodup_keys areLinks copies.nodup_functions.1 fun first second same =>
    (copies.pairing.function_unique first.1 second.1).mpr same

theorem nodup_fills (areFills : List.Forall₂ (Fills copies) image.records fills) :
    (fills.map Prod.fst).Nodup :=
  nodup_keys areFills copies.nodup_records.1 fun first second same =>
    (copies.pairing.record_unique first.1 second.1).mpr same

/-- In the end every new record is a copy of the one it stands for. -/
theorem record_match_of_fills (ready : copies.Ready frame middle)
    (prepared : Prepared image copies before middle)
    (areFills : List.Forall₂ (Fills copies) image.records fills) {id target : RecordId}
    (paired : copies.pairing.record id target) :
    (image.heap.record id).Match copies.pairing
      (((middle.linkScopes links).modifyRecords fills).record target) := by
  obtain ⟨⟨target', change⟩, mem, paired', matched⟩ := exists_right_of_mem areFills paired.mem_left
  obtain rfl : target = target' := (copies.pairing.record_unique paired paired').mp rfl
  have inRange : target.index < (middle.linkScopes links).records.size := by
    rw [Heap.records_linkScopes]
    exact (ready.records target paired.mem_right).1
  rw [Heap.record_modifyRecords_of_mem (nodup_fills areFills) mem inRange, Heap.record_linkScopes,
    prepared.empty target paired.mem_right]
  exact matched

/-- In the end every new function is a copy of the one it stands for, in the copy of its scope. -/
theorem exists_closure_of_links (ready : copies.Ready frame middle)
    (prepared : Prepared image copies before middle)
    (areLinks : List.Forall₂ (Links copies) image.functions links) {id target : FunctionId}
    (paired : copies.pairing.function id target) :
    ∃ scope, copies.pairing.record (image.heap.closure id).scope scope ∧
      ((middle.linkScopes links).modifyRecords fills).closure target =
        { middle.closure target with scope } ∧
      image.Remade before id (middle.closure target) := by
  obtain ⟨⟨target', scope⟩, mem, paired', pairedScope⟩ :=
    exists_right_of_mem areLinks paired.mem_left
  obtain rfl : target = target' := (copies.pairing.function_unique paired paired').mp rfl
  refine ⟨scope, pairedScope, ?_, paired.related prepared.remade⟩
  rw [Heap.closure_modifyRecords]
  exact Heap.closure_linkScopes_of_mem (nodup_links areLinks) mem
    (ready.functions target paired.mem_right).1

/-- What was read before the new records were made stays as it is. -/
theorem kept_of_prepared (prepared : Prepared image copies before middle)
    (areFills : List.Forall₂ (Fills copies) image.records fills) {id : RecordId}
    (used : before.HasRecord id) :
    ((middle.linkScopes links).modifyRecords fills).HasRecord id ∧
      ((middle.linkScopes links).modifyRecords fills).record id = before.record id := by
  have other : id ∉ fills.map Prod.fst := by
    intro changed
    obtain ⟨fill, mem, rfl⟩ := List.mem_map.mp changed
    obtain ⟨_, _, paired, _⟩ := exists_left_of_mem areFills mem
    exact prepared.new.records _ paired.mem_right used
  obtain ⟨usedLater, same⟩ := prepared.kept id used
  refine ⟨Heap.hasRecord_modifyRecords_iff.mpr (Heap.hasRecord_linkScopes_iff.mpr usedLater), ?_⟩
  rw [Heap.record_modifyRecords_of_not_mem other, Heap.record_linkScopes, same]

end Mirror

/-! ## Saved records and what they lead to -/

section Savable

variable {heap : Heap} {root : RecordId}

theorem writable_of_savable (savable : heap.Savable root) {id : RecordId}
    (mem : id ∈ (ofRoot heap root).records) : (ofRoot heap root).Writable id := by
  have saved := (mem_records_iff savable id).mp mem
  refine ⟨savable.notLiteral id saved, fun name value field => ?_, fun parent isParent => ?_⟩
  · obtain ⟨writable, plain⟩ := savable.fields id saved name value field
    exact ⟨writable, plain,
      fun handle inside => (numbers_iff savable handle).mpr (.value saved field inside)⟩
  · exact (mem_records_iff savable parent).mpr (.parent saved isParent)

theorem rewritable_of_savable (savable : heap.Savable root) {id : FunctionId}
    (mem : id ∈ (ofRoot heap root).functions) : (ofRoot heap root).Rewritable id := by
  have saved := (mem_functions_iff savable id).mp mem
  exact ⟨savable.formals id saved, savable.body id saved, savable.notExpanded id saved⟩

/-- The statements of the program link all functions and fill all records. -/
theorem exists_statements (savable : heap.Savable root) :
    ∃ lines, (ofRoot heap root).allRecordLines 0 (ofRoot heap root).records = .ok lines ∧
      (ofRoot heap root).Performs ((ofRoot heap root).allScopeLines ++ lines) fun copies change =>
        ∃ links fills, List.Forall₂ (Links copies) (ofRoot heap root).functions links ∧
          List.Forall₂ (Fills copies) (ofRoot heap root).records fills ∧
          change = fun heap => (heap.linkScopes links).modifyRecords fills := by
  have few := length_records_lt savable
  have fewFunctions := length_functions_lt savable
  have scopes := performs_scopeLines few fewFunctions 0 (by simp) fun id mem =>
    (mem_records_iff savable _).mpr (.scope ((mem_functions_iff savable id).mp mem))
  obtain ⟨lines, written, fills⟩ :=
    performs_allRecordLines few fewFunctions 0 (by simp) fun id mem =>
      writable_of_savable savable mem
  simp only [Nat.zero_add] at scopes
  refine ⟨lines, written, (scopes.append fills).imp ?_⟩
  rintro copies change ⟨_, _, ⟨links, areLinks, rfl⟩, ⟨fills, areFills, rfl⟩, rfl⟩
  exact ⟨links, fills, areLinks, areFills, rfl⟩

theorem saved_iff_match (savable : heap.Savable root) (copies : Copies (ofRoot heap root))
    (handle : Handle) : heap.Saved root handle ↔ ∃ other, handle.Match copies.pairing other := by
  constructor
  · intro saved
    cases handle with
    | record id =>
        obtain ⟨other, aligned⟩ := exists_aligned copies.length_records
          ((mem_records_iff savable id).mpr saved)
        exact ⟨.record other, .record aligned⟩
    | function id =>
        obtain ⟨other, aligned⟩ := exists_aligned copies.length_functions
          ((mem_functions_iff savable id).mpr saved)
        exact ⟨.function other, .function aligned⟩
  · rintro ⟨other, matched⟩
    cases matched with
    | record aligned => exact (mem_records_iff savable _).mp aligned.mem_left
    | function aligned => exact (mem_functions_iff savable _).mp aligned.mem_left

/-- The new objects mirror the saved ones once the program has linked and filled them. -/
theorem mirrors_of_prepared (savable : heap.Savable root) {copies : Copies (ofRoot heap root)}
    {before middle : Heap} {frame copy : RecordId} {links : List (FunctionId × RecordId)}
    {fills : List (RecordId × (Record → Record))} (ready : copies.Ready frame middle)
    (prepared : Prepared (ofRoot heap root) copies before middle)
    (areLinks : List.Forall₂ (Links copies) (ofRoot heap root).functions links)
    (areFills : List.Forall₂ (Fills copies) (ofRoot heap root).records fills)
    (rooted : copies.pairing.record root copy) :
    copies.pairing.Mirrors heap root ((middle.linkScopes links).modifyRecords fills) copy := by
  have records {id target : RecordId} (paired : copies.pairing.record id target) :
      (heap.record id).Match copies.pairing
        (((middle.linkScopes links).modifyRecords fills).record target) :=
    record_match_of_fills ready prepared areFills paired
  have scopes {id target : FunctionId} (paired : copies.pairing.function id target) :
      copies.pairing.record (heap.closure id).scope
        (((middle.linkScopes links).modifyRecords fills).closure target).scope := by
    obtain ⟨scope, pairedScope, same, -⟩ :=
      @exists_closure_of_links _ copies before middle frame links fills ready prepared areLinks _ _
        paired
    rw [same]
    exact pairedScope
  refine ⟨rooted, saved_iff_match savable copies, fun handle => ⟨?_, ?_⟩, records, ?_, ?_, scopes⟩
  · exact exists_original_of_saved rooted records scopes
  · rintro ⟨original, matched⟩
    have saved := (saved_iff_match savable copies original).mpr ⟨handle, matched⟩
    exact saved_of_match rooted (fun other => (saved_iff_match savable copies other).mp)
      records scopes saved matched
  · intro id target paired
    obtain ⟨_, _, same, remade⟩ :=
      @exists_closure_of_links _ copies before middle frame links fills ready prepared areLinks _ _
        paired
    rw [same]
    exact remade.1
  · intro id target paired
    obtain ⟨_, _, same, remade⟩ :=
      @exists_closure_of_links _ copies before middle frame links fills ready prepared areLinks _ _
        paired
    rw [same]
    exact remade.2.later fun other used => kept_of_prepared prepared areFills used

end Savable

/-- The program of a saved record is read and evaluated to a mirror of what the record leads to,
unless it runs out of gas. What was in use before it was read is kept, and so is what it was read
into. -/
theorem exists_does_program {heap : Heap} {root : RecordId} (savable : heap.Savable root) :
    ∃ text tree, heap.save root = .ok text ∧ Grammar.Program text.toList tree ∧
      ∀ registry : Registry, registry.Has Pack.core → ∀ fuel scope target, tree.depth < fuel →
        target.Keeps (tree.build target).2 ∧
        ∃ copy after, Does (tree.build target).2 (registry.eval fuel (tree.build target).1) scope
            (tree.build target).2 (.record copy) after ∧
          ∃ pairing : Pairing, pairing.Mirrors heap root after copy ∧
            (∀ id image, pairing.record id image → after.HasRecord image) ∧
            ∀ id image, pairing.function id image → after.HasClosure image := by
  have few := length_records_lt savable
  obtain ⟨lines, written, statements, ⟨trees, statementLines, built⟩, plain, works⟩ :=
    exists_statements savable
  obtain ⟨functionTrees, functionLines, areTrees⟩ := exists_functionLines fun id mem =>
    rewritable_of_savable savable mem
  have first : (ofRoot heap root).records[0]? = some root := by
    rw [← List.head?_eq_getElem?, head?_records]
  obtain ⟨reference, ⟨referenceTree, phrase, builtReference⟩, plainReference, gives⟩ :=
    denotes_recordReference few first
  refine ⟨_, _, ?_, program_of_parts few functionLines statementLines phrase, ?_⟩
  · rw [Heap.save, savable.notLiteral root .root, if_neg Bool.false_ne_true, program, written]
    simp only [String.append_assoc]
    rfl
  intro registry core fuel scope target deep
  have builtAll : ∀ heap, Tree.buildItems (trees ++ [referenceTree]) heap =
      (statements ++ [reference], heap) := by
    intro heap
    simp only [Tree.buildItems_append, built, Tree.buildItems, builtReference]
  rw [← Tree.depth_build _ target] at deep
  rw [build_programTree builtAll] at deep ⊢
  let begun := target.allocRecord .emptyLiteral
  obtain ⟨added, adds, areCodes⟩ := build_functionTrees areTrees begun.2
  have used : begun.2.HasRecord begun.1 := Heap.hasRecord_allocRecord_iff.mpr (.inl rfl)
  have noFields : ((Tree.buildItems functionTrees begun.2).2.record begun.1).fields = [] := by
    rw [adds.keeps.record _ used, Heap.record_allocRecord_self]
    rfl
  simp only [programCode, Atom.depth, Atom.itemsDepth] at deep
  obtain ⟨fuel, rfl⟩ : ∃ less, fuel = less + 3 := ⟨fuel - 3, by omega⟩
  have kept := (target.keeps_allocRecord .emptyLiteral).trans adds.keeps.keeps
  obtain ⟨copies, frame, middle, prepared, ready, evaluates⟩ :=
    @evaluates_program (ofRoot heap root) registry (Tree.buildItems functionTrees begun.2).2 fuel
      scope core _ _ (adds.keeps.hasRecord _ used) noFields (ofRoot heap root).nodup few _
      (statements ++ [reference]) areCodes
  obtain ⟨change, ⟨links, fills, areLinks, areFills, rfl⟩, performs⟩ := works copies
  obtain ⟨readyAfter, does⟩ := performs frame middle ready
  rw [itemsDepth_append, Atom.itemsDepth, Atom.itemsDepth] at deep
  obtain ⟨values, doesStatements⟩ := does registry core _ prepared.new (fuel + 1) (by omega)
  obtain ⟨_, matched, doesReference⟩ := gives copies
  obtain ⟨copy, rfl, rooted⟩ := matched.of_record
  have result := doesReference registry core (Tree.buildItems functionTrees begun.2).2 (fuel + 1)
    frame _ (by omega) readyAfter.bound
  have body := Registry.evaluates_last core (by simp)
    (List.forall_mem_append.mpr ⟨plain, by simpa using plainReference⟩)
    (does_mapM_append doesStatements (does_mapM_cons result (does_mapM_nil _)))
    (show _ = Atom.record copy by simp)
  exact ⟨kept, copy, _, evaluates _ _ body, copies.pairing,
    mirrors_of_prepared savable ready prepared areLinks areFills rooted,
    fun id image paired => readyAfter.records image paired.mem_right,
    fun id image paired => readyAfter.functions image paired.mem_right⟩

/-- Without a limit on gas the program succeeds. -/
theorem exists_program {heap : Heap} {root : RecordId} (savable : heap.Savable root) :
    ∃ text tree, heap.save root = .ok text ∧ Grammar.Program text.toList tree ∧
      ∀ registry : Registry, registry.Has Pack.core → ∀ fuel scope target, tree.depth < fuel →
        ∃ copy after, Succeeds (registry.eval fuel (tree.build target).1) scope
            (tree.build target).2 (.record copy) after ∧
          ∃ pairing : Pairing, pairing.Mirrors heap root after copy := by
  obtain ⟨text, tree, saved, isProgram, works⟩ := exists_does_program savable
  refine ⟨text, tree, saved, isProgram, fun registry core fuel scope target deep => ?_⟩
  obtain ⟨_, copy, after, does, pairing, mirrors, _⟩ := works registry core fuel scope target deep
  exact ⟨copy, after, does.succeeds (.refl _), pairing, mirrors⟩

end Image

namespace Heap

/-- A savable record has a program, and on any machine without a gas limit that knows the core
builtins this program is read and evaluated without an error. Its value is a record that leads to
the same graph: there is a pairing of all records and functions that the two lead to, under which
they have the same contents. A bound on nesting that is at least the length of the program is never
met. -/
theorem restore_save {heap : Heap} {root : RecordId} (savable : heap.Savable root) :
    ∃ text, heap.save root = .ok text ∧
      ∀ registry : Registry, registry.Has Pack.core →
        ∀ machine : Machine, machine.gasLimit = none →
        ∀ (name : String) (fuel : Nat), text.length ≤ fuel →
        ∃ code read copy after steps,
          (Source.mk name text).read machine.heap = (.ok code, read) ∧
          (registry.eval fuel code).run.run { machine with heap := read } =
            (.ok (.record copy), { machine with heap := after, steps }) ∧
          ∃ pairing : Pairing, pairing.Mirrors heap root after copy := by
  obtain ⟨text, tree, saved, isProgram, evaluates⟩ := Image.exists_program savable
  refine ⟨text, saved, fun registry core machine unlimited name fuel enough => ?_⟩
  have deep : tree.depth < fuel := by
    have short := isProgram.depth_lt
    rw [String.length_toList] at short
    omega
  obtain ⟨copy, after, does, mirrored⟩ :=
    evaluates registry core fuel machine.scope machine.heap deep
  obtain ⟨steps, given⟩ :=
    does { machine with heap := (tree.build machine.heap).2 } unlimited rfl rfl
  exact ⟨_, _, copy, after, steps, Source.read_of_program isProgram, given, mirrored⟩

/-- A record that holds itself and a list with a function, whose scope it is. -/
theorem restore_save_cyclic :
    let closure : Closure := ⟨.empty, .ofList [.token "f", .integer .one], ⟨0⟩⟩
    let heap := ((Heap.empty.allocRecord .empty).2.allocClosure closure).2.modifyRecord ⟨0⟩
      fun record => (record.insert "self" (.record ⟨0⟩)).insert "a b" (.ofList [.function ⟨0⟩])
    let registry := (Registry.empty.registerAll Pack.core).2
    let machine := Machine.fresh none .empty .least
    heap.Savable ⟨0⟩ ∧ registry.Has Pack.core ∧
      ∃ text, heap.save ⟨0⟩ = .ok text ∧
        ∃ code read copy after steps,
          (Source.mk "saved" text).read machine.heap = (.ok code, read) ∧
          (registry.eval text.length code).run.run { machine with heap := read } =
            (.ok (.record copy), { machine with heap := after, steps }) ∧
          ∃ pairing : Pairing, pairing.Mirrors heap ⟨0⟩ after copy := by
  intro closure heap registry machine
  have saved : ∀ handle, heap.Saved ⟨0⟩ handle → handle = .record ⟨0⟩ ∨ handle = .function ⟨0⟩ := by
    intro handle isSaved
    induction isSaved with
    | root => exact .inl rfl
    | value _ field mem ih =>
        obtain same | same := ih
        · cases same
          have fields : (heap.record ⟨0⟩).fields =
              [("self", .record ⟨0⟩), ("a b", .ofList [.function ⟨0⟩])] := rfl
          rw [fields] at field
          simp only [List.mem_cons, Prod.mk.injEq, List.not_mem_nil, or_false] at field
          obtain ⟨_, rfl⟩ | ⟨_, rfl⟩ := field
          · exact .inl (List.mem_singleton.mp mem)
          · exact .inr (List.mem_singleton.mp mem)
        · cases same
    | parent _ isParent ih =>
        obtain same | same := ih
        · cases same
          cases isParent
        · cases same
    | scope _ ih =>
        obtain same | same := ih
        · cases same
        · cases same
          exact .inl rfl
  have onlyRecord : ∀ id, heap.Saved ⟨0⟩ (.record id) → id = ⟨0⟩ := by
    intro id isSaved
    simpa using saved _ isSaved
  have onlyFunction : ∀ id, heap.Saved ⟨0⟩ (.function id) → id = ⟨0⟩ := by
    intro id isSaved
    simpa using saved _ isSaved
  have savable : heap.Savable ⟨0⟩ := by
    refine ⟨fun handle isSaved => ?_, fun id isSaved => ?_, fun id isSaved name value field => ?_,
      fun id isSaved param mem => ?_, fun id isSaved => ?_, fun id isSaved => ?_,
      fun handles once all => ?_⟩
    · obtain rfl | rfl := saved handle isSaved
      · exact Nat.one_pos
      · exact Nat.one_pos
    · cases onlyRecord id isSaved
      rfl
    · cases onlyRecord id isSaved
      have fields : (heap.record ⟨0⟩).fields =
          [("self", .record ⟨0⟩), ("a b", .ofList [.function ⟨0⟩])] := rfl
      rw [fields] at field
      simp only [List.mem_cons, Prod.mk.injEq, List.not_mem_nil, or_false] at field
      obtain ⟨rfl, rfl⟩ | ⟨rfl, rfl⟩ := field
      · exact ⟨.inl (by decide), rfl⟩
      · exact ⟨.inr (by decide), rfl⟩
    · cases onlyFunction id isSaved
      cases mem
    · cases onlyFunction id isSaved
      exact ⟨.list .plain [.leaf .plain (.token "f"), .leaf .plain (.integer .one)], [],
        .list (.cons (.leaf rfl) (.cons (.leaf rfl) .nil)), List.nodup_nil, by decide⟩
    · cases onlyFunction id isSaved
      exact Modifier.noConfusion
    · have few : handles.length ≤ [Handle.record ⟨0⟩, .function ⟨0⟩].length :=
        once.length_le_of_subset fun handle mem => by simpa using saved handle (all handle mem)
      simp only [List.length_cons, List.length_nil] at few
      omega
  have core : registry.Has Pack.core := Registry.has_registerAll (by decide +kernel)
  obtain ⟨text, written, restores⟩ := restore_save savable
  exact ⟨savable, core, text, written,
    restores registry core machine rfl "saved" text.length (Nat.le_refl _)⟩

end Heap

end RecordLisp
