import RecordLisp.Proofs.Image.Expression

/-!
# Statements of an image

The program of an image fills new objects by statements, one on a line. Every statement changes one
of the new objects and leaves alone the scope in which the program binds them, so statements can be
taken one after the other: what a text of statements does is a change of the heap that depends on
nothing but the new objects.
-/

namespace RecordLisp

open EvalM

namespace Grammar

/-- The blanks in front of a line. -/
def indent : List Char := [' ', ' ', ' ', ' ']

theorem Phrase.single {text : List Char} {tree : Tree} (phrase : Phrase text tree) :
    Sequence text [tree] := by
  have none : Sequence [] [] := sequence_blank (by simp)
  have alone := none.cons phrase (by simp)
  rwa [List.append_nil] at alone

theorem separates_blank : ∀ ch ∈ [' '], isSeparator ch = true := List.all_eq_true.mp rfl

/-- One more item in front, with blanks behind it. -/
theorem Sequence.spaced {text blank more : List Char} {tree : Tree} {trees : List Tree}
    (sequence : Sequence more trees) (phrase : Phrase text tree)
    (separates : ∀ ch ∈ blank, isSeparator ch = true) (some : blank ≠ []) :
    Sequence (text ++ (blank ++ more)) (tree :: trees) := by
  refine (sequence.blank separates).cons phrase fun ch first => ?_
  cases blank with
  | nil => exact absurd rfl some
  | cons other blank =>
      cases first
      exact separates _ List.mem_cons_self

/-- Indented lines of one phrase each. -/
inductive Lines : List Char → List Tree → Prop where
  | nil : Lines [] []
  | cons {text more : List Char} {tree : Tree} {trees : List Tree} :
      Phrase text tree → Lines more trees →
      Lines (indent ++ (text ++ '\n' :: more)) (tree :: trees)

theorem Lines.append {text more : List Char} {trees others : List Tree} (first : Lines text trees)
    (second : Lines more others) : Lines (text ++ more) (trees ++ others) := by
  induction first with
  | nil => exact second
  | cons phrase _ ih =>
      have longer := Lines.cons phrase ih
      simpa only [List.append_assoc, List.cons_append] using longer

/-- Lines in front of a sequence are further items of it. -/
theorem Lines.sequence {text more : List Char} {trees others : List Tree} (lines : Lines text trees)
    (sequence : Sequence more others) : Sequence (text ++ more) (trees ++ others) := by
  induction lines with
  | nil => exact sequence
  | @cons text _ tree _ phrase _ ih =>
      have broken := @Sequence.blank ['\n'] _ _ ih (List.all_eq_true.mp rfl)
      have longer := broken.cons phrase (by simp [isSeparator])
      have indented := @Sequence.blank indent _ _ longer (List.all_eq_true.mp rfl)
      simpa only [List.append_assoc, List.cons_append, List.nil_append] using indented

end Grammar

theorem Tree.buildItems_append (trees others : List Tree) (heap : Heap) :
    buildItems (trees ++ others) heap =
      ((buildItems trees heap).1 ++ (buildItems others (buildItems trees heap).2).1,
        (buildItems others (buildItems trees heap).2).2) := by
  induction trees generalizing heap with
  | nil => rfl
  | cons tree trees ih => simp only [List.cons_append, buildItems, ih]

/-- Indented lines that are read as atoms without changing the heap. -/
def SpellsLines (text : List Char) (codes : List Atom) : Prop :=
  ∃ trees, Grammar.Lines text trees ∧ ∀ heap, Tree.buildItems trees heap = (codes, heap)

theorem Spells.line {text : List Char} {code : Atom} (spelled : Spells text code) :
    SpellsLines (Grammar.indent ++ (text ++ ['\n'])) [code] := by
  obtain ⟨tree, phrase, built⟩ := spelled
  refine ⟨[tree], .cons phrase .nil, fun heap => ?_⟩
  simp only [Tree.buildItems, built]

theorem SpellsLines.append {text more : List Char} {codes others : List Atom}
    (first : SpellsLines text codes) (second : SpellsLines more others) :
    SpellsLines (text ++ more) (codes ++ others) := by
  obtain ⟨trees, lines, built⟩ := first
  obtain ⟨trees', lines', built'⟩ := second
  refine ⟨trees ++ trees', lines.append lines', fun heap => ?_⟩
  simp only [Tree.buildItems_append, built, built']

/-! ## Changes of several objects -/

namespace Heap

theorem modifyRecord_modifyRecord (heap : Heap) (id : RecordId) (first second : Record → Record) :
    (heap.modifyRecord id first).modifyRecord id second =
      heap.modifyRecord id fun record => second (first record) := by
  have slots : (heap.records.modify id.index first).modify id.index second =
      heap.records.modify id.index fun record => second (first record) := by
    rw [← Array.toList_inj]
    simp only [Array.toList_modify, List.modify_modify_eq]
    rfl
  simp only [modifyRecord, slots]

theorem modifyRecord_self (heap : Heap) (id : RecordId) :
    (heap.modifyRecord id fun record => record) = heap := by
  have slots : (heap.records.modify id.index fun record => record) = heap.records := by
    rw [← Array.toList_inj, Array.toList_modify]
    exact List.modify_id id.index heap.records.toList
  simp only [modifyRecord, slots]

/-- Changes several records, one after the other. -/
def modifyRecords (heap : Heap) (changes : List (RecordId × (Record → Record))) : Heap :=
  changes.foldl (fun heap change => heap.modifyRecord change.1 change.2) heap

/-- Gives several functions other scopes, one after the other. -/
def linkScopes (heap : Heap) (links : List (FunctionId × RecordId)) : Heap :=
  links.foldl (fun heap link =>
    heap.modifyClosure link.1 fun closure => { closure with scope := link.2 }) heap

theorem record_modifyRecords_of_not_mem {heap : Heap} {id : RecordId}
    {changes : List (RecordId × (Record → Record))} (other : id ∉ changes.map Prod.fst) :
    (heap.modifyRecords changes).record id = heap.record id := by
  induction changes generalizing heap with
  | nil => rfl
  | cons change changes ih =>
      simp only [List.map_cons, List.mem_cons, not_or] at other
      exact (ih other.2).trans (heap.record_modifyRecord_of_ne _ other.1)

/-- Each of several records is changed once. -/
theorem record_modifyRecords_of_mem {heap : Heap} {id : RecordId} {change : Record → Record}
    {changes : List (RecordId × (Record → Record))} (once : (changes.map Prod.fst).Nodup)
    (mem : (id, change) ∈ changes) (inRange : id.index < heap.records.size) :
    (heap.modifyRecords changes).record id = change (heap.record id) := by
  induction changes generalizing heap with
  | nil => cases mem
  | cons first changes ih =>
      obtain ⟨new, once⟩ := List.nodup_cons.mp once
      rcases List.mem_cons.mp mem with rfl | later
      · exact (record_modifyRecords_of_not_mem new).trans
          (heap.record_modifyRecord_self _ inRange)
      · have different : id ≠ first.1 := by
          rintro rfl
          exact new (List.mem_map.mpr ⟨_, later, rfl⟩)
        have changed := @ih (heap.modifyRecord first.1 first.2) once later
          (by simpa [modifyRecord] using inRange)
        rwa [heap.record_modifyRecord_of_ne _ different] at changed

@[simp] theorem closure_modifyRecords (heap : Heap) (changes : List (RecordId × (Record → Record)))
    (id : FunctionId) : (heap.modifyRecords changes).closure id = heap.closure id := by
  induction changes generalizing heap with
  | nil => rfl
  | cons change changes ih => exact ih _

theorem closure_linkScopes_of_not_mem {heap : Heap} {id : FunctionId}
    {links : List (FunctionId × RecordId)} (other : id ∉ links.map Prod.fst) :
    (heap.linkScopes links).closure id = heap.closure id := by
  induction links generalizing heap with
  | nil => rfl
  | cons link links ih =>
      simp only [List.map_cons, List.mem_cons, not_or] at other
      exact (ih other.2).trans (closure_modifyClosure_of_ne _ other.1)

theorem closure_linkScopes_of_mem {heap : Heap} {id : FunctionId} {scope : RecordId}
    {links : List (FunctionId × RecordId)} (once : (links.map Prod.fst).Nodup)
    (mem : (id, scope) ∈ links) (inRange : id.index < heap.closures.size) :
    (heap.linkScopes links).closure id = { heap.closure id with scope } := by
  induction links generalizing heap with
  | nil => cases mem
  | cons first links ih =>
      obtain ⟨new, once⟩ := List.nodup_cons.mp once
      rcases List.mem_cons.mp mem with rfl | later
      · exact (closure_linkScopes_of_not_mem new).trans (closure_modifyClosure_self _ inRange)
      · have different : id ≠ first.1 := by
          rintro rfl
          exact new (List.mem_map.mpr ⟨_, later, rfl⟩)
        have changed := @ih
          (heap.modifyClosure first.1 fun closure => { closure with scope := first.2 }) once later
          (by simpa [modifyClosure] using inRange)
        rwa [closure_modifyClosure_of_ne _ different] at changed

@[simp] theorem hasRecord_modifyRecords_iff {heap : Heap}
    {changes : List (RecordId × (Record → Record))} {id : RecordId} :
    (heap.modifyRecords changes).HasRecord id ↔ heap.HasRecord id := by
  induction changes generalizing heap with
  | nil => exact Iff.rfl
  | cons change changes ih => exact ih.trans hasRecord_modifyRecord_iff

theorem records_linkScopes (heap : Heap) (links : List (FunctionId × RecordId)) :
    (heap.linkScopes links).records = heap.records := by
  induction links generalizing heap with
  | nil => rfl
  | cons link links ih => exact ih _

@[simp] theorem hasRecord_linkScopes_iff {heap : Heap} {links : List (FunctionId × RecordId)}
    {id : RecordId} : (heap.linkScopes links).HasRecord id ↔ heap.HasRecord id := by
  induction links generalizing heap with
  | nil => exact Iff.rfl
  | cons link links ih => exact ih.trans Iff.rfl

@[simp] theorem record_linkScopes (heap : Heap) (links : List (FunctionId × RecordId))
    (id : RecordId) : (heap.linkScopes links).record id = heap.record id := by
  induction links generalizing heap with
  | nil => rfl
  | cons link links ih => exact ih _

end Heap

namespace Heap

/-- A scope finds the names that it binds itself. -/
theorem lookup?_of_get? {heap : Heap} {scope : RecordId} {name : String} {value : Atom}
    (found : (heap.record scope).get? name = some value) :
    heap.lookup? scope name = some value := by
  simp [lookup?, ancestors, ancestorsFrom, found]

end Heap

namespace Image

variable {image : Image}

/-- A scope that binds the names of an image itself and is none of the new records, all of which are
in use. -/
structure Copies.Ready (copies : Copies image) (scope : RecordId) (heap : Heap) : Prop where
  atoms : (heap.record scope).get? "atoms" = some (.ofList (copies.records.map .record))
  funcs : (heap.record scope).get? "funcs" = some (.ofList (copies.functions.map .function))
  apart : scope ∉ copies.records
  records : ∀ id ∈ copies.records, heap.HasRecord id
  functions : ∀ id ∈ copies.functions, heap.HasClosure id

namespace Copies.Ready

variable {copies : Copies image} {scope : RecordId} {heap : Heap}

theorem bound (ready : copies.Ready scope heap) : copies.Bound scope heap :=
  ⟨Heap.lookup?_of_get? ready.atoms, Heap.lookup?_of_get? ready.funcs⟩

theorem modifyRecord (ready : copies.Ready scope heap) {id : RecordId} (mem : id ∈ copies.records)
    (change : Record → Record) : copies.Ready scope (heap.modifyRecord id change) := by
  have different : scope ≠ id := fun equal => ready.apart (equal ▸ mem)
  have same := heap.record_modifyRecord_of_ne change different
  refine ⟨same ▸ ready.atoms, same ▸ ready.funcs, ready.apart, ?_, ready.functions⟩
  exact fun other used => Heap.hasRecord_modifyRecord_iff.mpr (ready.records other used)

theorem modifyClosure (ready : copies.Ready scope heap) (id : FunctionId)
    (change : Closure → Closure) : copies.Ready scope (heap.modifyClosure id change) := by
  refine ⟨ready.atoms, ready.funcs, ready.apart, ready.records, ?_⟩
  exact fun other used => Heap.hasClosure_modifyClosure_iff.mpr (ready.functions other used)

end Copies.Ready

theorem Aligned.mem_right {α : Type} {items others : List α} {item other : α}
    (aligned : Aligned items others item other) : other ∈ others := by
  obtain ⟨number, _, found⟩ := aligned
  exact List.mem_of_getElem? found

/-- Whether none of the new objects is in use in a heap. -/
structure Copies.NewTo (copies : Copies image) (base : Heap) : Prop where
  records : ∀ id ∈ copies.records, ¬ base.HasRecord id
  functions : ∀ id ∈ copies.functions, ¬ base.HasClosure id

/-- A text of statements with an effect on the heap that depends on the new objects alone. -/
def Performs (image : Image) (text : String) (effect : Copies image → (Heap → Heap) → Prop) :
    Prop :=
  ∃ codes, SpellsLines text.toList codes ∧ (∀ code ∈ codes, code.modifier ≠ .expand) ∧
    ∀ copies : Copies image, ∃ change, effect copies change ∧
      ∀ scope heap, copies.Ready scope heap → copies.Ready scope (change heap) ∧
        ∀ registry : Registry, registry.Has Pack.core → ∀ base, copies.NewTo base →
          ∀ fuel, Atom.itemsDepth codes < fuel →
            ∃ values, Does base (codes.mapM (registry.eval fuel)) scope heap values (change heap)

theorem performs_nil : image.Performs "" fun _ change => change = id :=
  ⟨[], ⟨[], .nil, fun _ => rfl⟩, by simp, fun _ => ⟨id, rfl, fun _ _ ready =>
    ⟨ready, fun _ _ _ _ _ _ => ⟨[], does_mapM_nil _⟩⟩⟩⟩

/-- A statement on a line. -/
theorem performs_line {text : String} {line : List Char}
    {effect : Copies image → (Heap → Heap) → Prop} {code : Atom} (spelled : Spells line code)
    (written : text.toList = Grammar.indent ++ (line ++ ['\n']))
    (noExpand : code.modifier ≠ .expand)
    (works : ∀ copies : Copies image, ∃ change, effect copies change ∧
      ∀ scope heap, copies.Ready scope heap → copies.Ready scope (change heap) ∧
        ∀ registry : Registry, registry.Has Pack.core → ∀ base, copies.NewTo base →
          ∀ fuel, code.depth < fuel →
            ∃ value, Does base (registry.eval fuel code) scope heap value (change heap)) :
    image.Performs text effect := by
  refine ⟨[code], written ▸ spelled.line, by simpa using noExpand, fun copies => ?_⟩
  obtain ⟨change, isEffect, ready⟩ := works copies
  refine ⟨change, isEffect, fun scope heap before => ⟨(ready scope heap before).1, ?_⟩⟩
  intro registry core base new fuel deep
  obtain ⟨value, does⟩ := (ready scope heap before).2 registry core base new fuel
    (by simpa [Atom.itemsDepth] using deep)
  exact ⟨[value], does_mapM_cons does (does_mapM_nil _)⟩

theorem does_mapM_append {α β : Type} {step : α → EvalM β} {items others : List α}
    {values more : List β} {base : Heap} {scope : RecordId} {heap middle after : Heap}
    (first : Does base (items.mapM step) scope heap values middle)
    (second : Does base (others.mapM step) scope middle more after) :
    Does base ((items ++ others).mapM step) scope heap (values ++ more) after := by
  rw [List.mapM_append]
  exact first.bind (second.map _)

theorem itemsDepth_append (items others : List Atom) :
    Atom.itemsDepth (items ++ others) = max (Atom.itemsDepth items) (Atom.itemsDepth others) := by
  induction items with
  | nil => simp [Atom.itemsDepth]
  | cons item items ih => simp [Atom.itemsDepth, ih, Nat.max_assoc]

/-- Statements one after the other. -/
theorem Performs.append {first second : String}
    {effect effect' : Copies image → (Heap → Heap) → Prop} (begins : image.Performs first effect)
    (goesOn : image.Performs second effect') :
    image.Performs (first ++ second) fun copies change =>
      ∃ early late, effect copies early ∧ effect' copies late ∧ change = late ∘ early := by
  obtain ⟨codes, spelled, noExpand, works⟩ := begins
  obtain ⟨codes', spelled', noExpand', works'⟩ := goesOn
  refine ⟨codes ++ codes', ?_, List.forall_mem_append.mpr ⟨noExpand, noExpand'⟩, fun copies => ?_⟩
  · rw [String.toList_append]
    exact spelled.append spelled'
  · obtain ⟨early, isEffect, ready⟩ := works copies
    obtain ⟨late, isEffect', ready'⟩ := works' copies
    refine ⟨late ∘ early, ⟨early, late, isEffect, isEffect', rfl⟩, fun scope heap before => ?_⟩
    obtain ⟨between, does⟩ := ready scope heap before
    obtain ⟨behind, does'⟩ := ready' scope (early heap) between
    refine ⟨behind, fun registry core base new fuel deep => ?_⟩
    obtain ⟨deepFirst, deepSecond⟩ := Nat.max_lt.mp (itemsDepth_append codes codes' ▸ deep)
    obtain ⟨values, given⟩ := does registry core base new fuel deepFirst
    obtain ⟨values', given'⟩ := does' registry core base new fuel deepSecond
    exact ⟨values ++ values', does_mapM_append given given'⟩

/-- An effect may be described in other words. -/
theorem Performs.imp {text : String} {effect effect' : Copies image → (Heap → Heap) → Prop}
    (performs : image.Performs text effect)
    (weaker : ∀ copies change, effect copies change → effect' copies change) :
    image.Performs text effect' := by
  obtain ⟨codes, spelled, noExpand, works⟩ := performs
  refine ⟨codes, spelled, noExpand, fun copies => ?_⟩
  obtain ⟨change, isEffect, ready⟩ := works copies
  exact ⟨change, weaker copies change isEffect, ready⟩

/-! ## Scopes of functions -/

/-- A new function and its new scope, for a function of an image. -/
def Links (copies : Copies image) (id : FunctionId) (link : FunctionId × RecordId) : Prop :=
  copies.pairing.function id link.1 ∧
    copies.pairing.record (image.heap.closure id).scope link.2

theorem toList_lineEnd : ")\n".toList = [')', '\n'] := by decide

theorem performs_scopeLine (few : image.records.length < 2147483648)
    (fewFunctions : image.functions.length < 2147483648) {number : Nat} {id : FunctionId}
    (found : image.functions[number]? = some id)
    (numbered : (image.heap.closure id).scope ∈ image.records) :
    image.Performs (image.scopeLine number id) fun copies change =>
      ∃ link, Links copies id link ∧ change = fun heap => heap.linkScopes [link] := by
  obtain ⟨scopeNumber, isNumber, foundScope⟩ := exists_recordNumber numbered
  obtain ⟨function, spelledFunction, plainFunction, givesFunction⟩ :=
    denotes_functionReference fewFunctions found
  obtain ⟨record, spelledRecord, plainRecord, givesRecord⟩ := denotes_recordReference few foundScope
  refine performs_line
    ((spelledRecord.single.next spelledFunction).next (@spells_token "set-decl-scope"
      (by decide))).list ?_ (by simp [Atom.modifier]) fun copies => ?_
  · have start : "    (set-decl-scope ".toList =
        Grammar.indent ++ '(' :: ("set-decl-scope".toList ++ [' ']) := by decide
    have blank : " ".toList = [' '] := by decide
    have line : image.scopeLine number id = "    (set-decl-scope " ++ functionReference number ++
        " " ++ recordReference scopeNumber ++ ")\n" := by
      simp only [scopeLine, isNumber]
    simp only [line, String.toList_append, start, blank, toList_lineEnd, List.append_assoc,
      List.cons_append, List.nil_append]
  · obtain ⟨copy, matched, does⟩ := givesFunction copies
    obtain ⟨scopeCopy, matchedScope, doesScope⟩ := givesRecord copies
    obtain ⟨target, rfl, paired⟩ := matched.of_function
    obtain ⟨targetScope, rfl, pairedScope⟩ := matchedScope.of_record
    refine ⟨_, ⟨(target, targetScope), ⟨paired, pairedScope⟩, rfl⟩, fun scope heap ready => ?_⟩
    refine ⟨ready.modifyClosure target _, fun registry core base new fuel deep => ?_⟩
    obtain ⟨fuel, rfl⟩ := Nat.exists_eq_add_one.mpr (Nat.zero_lt_of_lt deep)
    simp only [Atom.depth, Atom.itemsDepth] at deep
    exact ⟨_, Registry.evaluates_setScope core (new.functions target paired.mem_right)
      ⟨plainFunction, plainRecord⟩
      (does registry core base fuel scope heap (by omega) ready.bound)
      (doesScope registry core base fuel scope heap (by omega) ready.bound)⟩

/-- The lines of functions with numbers from `first` on. -/
theorem performs_scopeLines (few : image.records.length < 2147483648)
    (fewFunctions : image.functions.length < 2147483648) {ids : List FunctionId} (first : Nat)
    (found : ∀ (place : Nat) (id : FunctionId), ids[place]? = some id →
      image.functions[first + place]? = some id)
    (numbered : ∀ id ∈ ids, (image.heap.closure id).scope ∈ image.records) :
    image.Performs (String.join (ids.mapIdx fun place => image.scopeLine (first + place)))
      fun copies change => ∃ links, List.Forall₂ (Links copies) ids links ∧
        change = fun heap => heap.linkScopes links := by
  induction ids generalizing first with
  | nil => exact performs_nil.imp fun _ _ same => ⟨[], .nil, same⟩
  | cons id ids ih =>
      have line := performs_scopeLine few fewFunctions (found 0 id rfl)
        (numbered id List.mem_cons_self)
      have lines := ih (first + 1) (fun place other here => by
        rw [Nat.add_assoc, Nat.add_comm 1]
        exact found (place + 1) other here) fun other mem =>
          numbered other (List.mem_cons_of_mem _ mem)
      have places : (fun place => image.scopeLine (first + (place + 1))) =
          fun place => image.scopeLine (first + 1 + place) := by
        funext place
        rw [Nat.add_right_comm, Nat.add_assoc]
      rw [List.mapIdx_cons, String.join_cons, places]
      refine (line.append lines).imp ?_
      rintro copies change ⟨_, _, ⟨link, isLink, rfl⟩, ⟨links, areLinks, rfl⟩, rfl⟩
      exact ⟨link :: links, .cons isLink areLinks, rfl⟩

/-! ## Fields and parents of records -/

/-- The code of a pair of a name and an expression. -/
def PairCode (pair : Atom) (binding : String × Atom) : Prop :=
  ∃ leaf : Leaf, (leaf = .token binding.1 ∨ leaf = .string binding.1) ∧
    pair = .ofList [.leaf .plain leaf, binding.2]

theorem bindingPairsFrom_of_pairCodes {function : String} {pairs : List Atom} {bindings : Fields}
    (codes : List.Forall₂ PairCode pairs bindings) (position : Nat) :
    bindingPairsFrom function position pairs = .ok bindings := by
  induction codes generalizing position with
  | nil => rfl
  | cons code _ ih =>
      obtain ⟨leaf, rfl | rfl, rfl⟩ := code
      all_goals
        rw [bindingPairsFrom, ih]
        rfl

/-- A list of pairs is never taken for one pair. -/
theorem bindingPairs_of_pairCodes {function : String} {pairs : List Atom} {bindings : Fields}
    (codes : List.Forall₂ PairCode pairs bindings) :
    bindingPairs function pairs = .ok bindings := by
  have alone : groupedPairs pairs = pairs := by
    cases codes with
    | nil => rfl
    | cons code others =>
        obtain ⟨leaf, _, rfl⟩ := code
        cases others <;> rfl
  rw [bindingPairs, alone]
  exact bindingPairsFrom_of_pairCodes codes 1

/-- A text of pairs whose values are copies of those of some fields. -/
def DenotesFields (image : Image) (text : String) (fields : Fields) : Prop :=
  ∃ pairs bindings, SpellsAll text.toList pairs ∧
    (∀ ch ∈ text.toList.head?, isSeparator ch = true) ∧ List.Forall₂ PairCode pairs bindings ∧
    ∀ copies : Copies image, ∃ others, Fields.Match copies.pairing fields others ∧
      ∀ registry : Registry, registry.Has Pack.core → ∀ base, copies.NewTo base →
        ∀ fuel scope heap, Atom.itemsDepth pairs < fuel → copies.Ready scope heap →
        ∀ id ∈ copies.records,
          Does base (Builtin.storeBindings ⟨registry.eval fuel, fuel⟩ id bindings) scope heap ()
            (heap.modifyRecord id (·.insertAll others))

theorem denotesFields_nil : image.DenotesFields "" [] := by
  refine ⟨[], [], spellsAll_nil, by simp, .nil, fun copies => ⟨[], .nil, ?_⟩⟩
  intro registry _ base _ fuel scope heap _ _ id _
  change Does base (pure ()) scope heap () (heap.modifyRecord id fun record => record)
  rw [Heap.modifyRecord_self]
  exact does_pure ()

theorem exists_fieldName {name : String}
    (writable : lexesAsToken name = true ∨ Text.holdsQuote name = false) :
    ∃ text leaf, fieldName name = .ok text ∧ Spells text.toList (.leaf .plain leaf) ∧
      (leaf = .token name ∨ leaf = .string name) := by
  cases lexes : lexesAsToken name with
  | true => exact ⟨name, .token name, by simp [fieldName, lexes], spells_token lexes, .inl rfl⟩
  | false =>
      have noQuote : Text.holdsQuote name = false := by simpa [lexes] using writable
      exact ⟨Text.quoted name, .string name, by simp [fieldName, stringLiteral, lexes, noQuote],
        spells_string noQuote, .inr rfl⟩

theorem DenotesFields.cons {name nameText text more : String} {leaf : Leaf} {value : Atom}
    {fields : Fields} (others : image.DenotesFields more fields)
    (spelledName : Spells nameText.toList (.leaf .plain leaf))
    (isName : leaf = .token name ∨ leaf = .string name) (first : image.Denotes text value) :
    image.DenotesFields (" (" ++ nameText ++ " " ++ text ++ ")" ++ more)
      ((name, value) :: fields) := by
  obtain ⟨pairs, bindings, spelledAll, gap, codes, storesAll⟩ := others
  obtain ⟨code, spelled, noExpand, gives⟩ := first
  have written : (" (" ++ nameText ++ " " ++ text ++ ")" ++ more).toList =
      ' ' :: ('(' :: (nameText.toList ++ ' ' :: text.toList) ++ [')'] ++ more.toList) := by
    have start : " (".toList = [' ', '('] := by decide
    have blank : " ".toList = [' '] := by decide
    simp only [String.toList_append, start, blank, toList_closing, List.append_assoc,
      List.cons_append, List.nil_append]
  refine ⟨.ofList [.leaf .plain leaf, code] :: pairs, (name, code) :: bindings, ?_, ?_,
    .cons ⟨leaf, isName, rfl⟩ codes, fun copies => ?_⟩
  · rw [written]
    exact (spelledAll.cons (spelled.single.next spelledName).list gap).blank
  · rw [written]
    simp [isSeparator]
  · obtain ⟨copy, matched, does⟩ := gives copies
    obtain ⟨copyAll, matchedAll, stores⟩ := storesAll copies
    refine ⟨(name, copy) :: copyAll, .cons ⟨rfl, matched⟩ matchedAll, ?_⟩
    intro registry core base new fuel scope heap deep ready id mem
    obtain ⟨deepFirst, deepOthers⟩ := Nat.max_lt.mp deep
    simp only [Atom.depth, Atom.itemsDepth] at deepFirst
    have found := does registry core base fuel scope heap (by omega) ready.bound
    have stored := stores registry core base new fuel scope _ deepOthers
      (ready.modifyRecord mem (·.insert name copy)) id mem
    rw [Heap.modifyRecord_modifyRecord] at stored
    exact (found.bind (does_define (new.records id mem) name copy)).bind stored

/-- Writable fields have pairs that fill a record with copies of them. -/
theorem exists_fieldPairs (few : image.records.length < 2147483648)
    (fewFunctions : image.functions.length < 2147483648) {fields : Fields}
    (writable : ∀ name value, (name, value) ∈ fields →
      (lexesAsToken name = true ∨ Text.holdsQuote name = false) ∧ value.isSavable = true ∧
        ∀ handle ∈ value.handles (fun _ => false), image.Numbers handle) :
    ∃ text, image.fieldPairs fields = .ok text ∧ image.DenotesFields text fields := by
  induction fields with
  | nil => exact ⟨"", rfl, denotesFields_nil⟩
  | cons field fields ih =>
      obtain ⟨name, value⟩ := field
      obtain ⟨isWritable, savable, numbered⟩ := writable name value List.mem_cons_self
      obtain ⟨nameText, leaf, writtenName, spelledName, isName⟩ := exists_fieldName isWritable
      obtain ⟨text, written, denotes⟩ := exists_expression few fewFunctions value savable numbered
      obtain ⟨more, writtenAll, denotesAll⟩ := ih fun name value mem =>
        writable name value (List.mem_cons_of_mem _ mem)
      refine ⟨_, ?_, denotesAll.cons spelledName isName denotes⟩
      rw [fieldPairs, writtenName, written, writtenAll]
      rfl

/-- A new record and a change of it, for a record of an image: the change of an empty record gives a
copy. -/
def Fills (copies : Copies image) (id : RecordId) (fill : RecordId × (Record → Record)) : Prop :=
  copies.pairing.record id fill.1 ∧ (image.heap.record id).Match copies.pairing (fill.2 .empty)

theorem performs_fieldLine (few : image.records.length < 2147483648) {number : Nat} {id : RecordId}
    (found : image.records[number]? = some id) {pairs : String} {fields : Fields}
    (denotes : image.DenotesFields pairs fields) :
    image.Performs ("    (multi-set " ++ recordReference number ++ pairs ++ ")\n")
      fun copies change => ∃ target others, copies.pairing.record id target ∧
        Fields.Match copies.pairing fields others ∧
        change = fun heap => heap.modifyRecord target (·.insertAll others) := by
  obtain ⟨pairCodes, bindings, spelledAll, gap, codes, stores⟩ := denotes
  obtain ⟨record, spelled, plain, gives⟩ := denotes_recordReference few found
  have plainAll : ∀ pair ∈ pairCodes, pair.modifier ≠ .expand := by
    intro pair mem
    obtain ⟨binding, _, leaf, _, rfl⟩ := exists_right_of_mem codes mem
    simp [Atom.modifier]
  refine performs_line ((spelledAll.cons spelled gap).next (@spells_token "multi-set"
    (by decide))).list ?_ (by simp [Atom.modifier]) fun copies => ?_
  · have start : "    (multi-set ".toList =
        Grammar.indent ++ '(' :: ("multi-set".toList ++ [' ']) := by decide
    simp only [String.toList_append, start, toList_lineEnd, List.append_assoc, List.cons_append,
      List.nil_append]
  · obtain ⟨copy, matched, does⟩ := gives copies
    obtain ⟨others, matchedAll, doesAll⟩ := stores copies
    obtain ⟨target, rfl, paired⟩ := matched.of_record
    refine ⟨_, ⟨target, others, paired, matchedAll, rfl⟩, fun scope heap ready => ?_⟩
    refine ⟨ready.modifyRecord paired.mem_right _, fun registry core base new fuel deep => ?_⟩
    obtain ⟨fuel, rfl⟩ := Nat.exists_eq_add_one.mpr (Nat.zero_lt_of_lt deep)
    simp only [Atom.depth, Atom.itemsDepth] at deep
    exact ⟨_, Registry.evaluates_multiSet core (List.forall_mem_cons.mpr ⟨plain, plainAll⟩)
      (does registry core base fuel scope heap (by omega) ready.bound)
      (bindingPairs_of_pairCodes codes)
      (doesAll registry core base new fuel scope heap (by omega) ready target paired.mem_right)⟩

theorem performs_parentLine (few : image.records.length < 2147483648) {number other : Nat}
    {id parent : RecordId} (found : image.records[number]? = some id)
    (foundParent : image.records[other]? = some parent) :
    image.Performs ("    (set-parent " ++ recordReference number ++ " " ++ recordReference other ++
        ")\n")
      fun copies change => ∃ target targetParent, copies.pairing.record id target ∧
        copies.pairing.record parent targetParent ∧
        change = fun heap => heap.modifyRecord target fun record =>
          { record with parent := some targetParent } := by
  obtain ⟨record, spelled, plain, gives⟩ := denotes_recordReference few found
  obtain ⟨above, spelledParent, plainParent, givesParent⟩ := denotes_recordReference few foundParent
  refine performs_line ((spelledParent.single.next spelled).next (@spells_token "set-parent"
    (by decide))).list ?_ (by simp [Atom.modifier]) fun copies => ?_
  · have start : "    (set-parent ".toList =
        Grammar.indent ++ '(' :: ("set-parent".toList ++ [' ']) := by decide
    have blank : " ".toList = [' '] := by decide
    simp only [String.toList_append, start, blank, toList_lineEnd, List.append_assoc,
      List.cons_append, List.nil_append]
  · obtain ⟨copy, matched, does⟩ := gives copies
    obtain ⟨copyParent, matchedParent, doesParent⟩ := givesParent copies
    obtain ⟨target, rfl, paired⟩ := matched.of_record
    obtain ⟨targetParent, rfl, pairedParent⟩ := matchedParent.of_record
    refine ⟨_, ⟨target, targetParent, paired, pairedParent, rfl⟩, fun scope heap ready => ?_⟩
    refine ⟨ready.modifyRecord paired.mem_right _, fun registry core base new fuel deep => ?_⟩
    obtain ⟨fuel, rfl⟩ := Nat.exists_eq_add_one.mpr (Nat.zero_lt_of_lt deep)
    simp only [Atom.depth, Atom.itemsDepth] at deep
    exact ⟨_,
      Registry.evaluates_setParent core (new.records target paired.mem_right) ⟨plain, plainParent⟩
      (does registry core base fuel scope heap (by omega) ready.bound)
      (doesParent registry core base fuel scope heap (by omega) ready.bound)⟩

/-- A record that can be written: it is not literal, its names and values are writable, and all
objects in its values and its parent have numbers. -/
structure Writable (image : Image) (id : RecordId) : Prop where
  notLiteral : (image.heap.record id).literal = false
  fields : ∀ name value, (name, value) ∈ (image.heap.record id).fields →
    (lexesAsToken name = true ∨ Text.holdsQuote name = false) ∧ value.isSavable = true ∧
      ∀ handle ∈ value.handles (fun _ => false), image.Numbers handle
  parent : ∀ parent, (image.heap.record id).parent = some parent → parent ∈ image.records

theorem performs_recordLines (few : image.records.length < 2147483648)
    (fewFunctions : image.functions.length < 2147483648) {number : Nat} {id : RecordId}
    (found : image.records[number]? = some id) (writable : image.Writable id) :
    ∃ text, image.recordLines number id = .ok text ∧ image.Performs text fun copies change =>
      ∃ fill, Fills copies id fill ∧ change = fun heap => heap.modifyRecords [fill] := by
  obtain ⟨pairs, written, denotes⟩ := exists_fieldPairs few fewFunctions writable.fields
  have filled := performs_fieldLine few found denotes
  have stored {copies : Copies image} {others : Fields}
      (matched : Fields.Match copies.pairing (image.heap.record id).fields others) :
      (Record.empty.insertAll others).fields = others := by
    refine Record.fields_insertAll .empty (show others.names.Nodup from ?_)
    rw [← matched.names_eq]
    exact (image.heap.record id).distinct
  cases hasParent : (image.heap.record id).parent with
  | none =>
      refine ⟨_, by rw [recordLines, written, hasParent]; rfl, filled.imp ?_⟩
      rintro copies change ⟨target, others, paired, matched, rfl⟩
      refine ⟨(target, (·.insertAll others)), ⟨paired, ?_, ?_, ?_⟩, rfl⟩
      · simpa only [stored matched] using matched
      · simp [hasParent, Record.empty]
      · simp [writable.notLiteral, Record.empty]
  | some parent =>
      obtain ⟨other, isNumber, foundParent⟩ :=
        exists_recordNumber (writable.parent parent hasParent)
      refine ⟨_, ?_, (filled.append (performs_parentLine few found foundParent)).imp ?_⟩
      · rw [recordLines, written, hasParent, Option.bind_some, isNumber]
        simp only [String.append_assoc]
        rfl
      · rintro copies change ⟨_, _, ⟨target, others, paired, matched, rfl⟩,
          ⟨same, targetParent, paired', pairedParent, rfl⟩, rfl⟩
        cases (copies.pairing.record_unique paired paired').mp rfl
        refine ⟨(target,
          fun record => { record.insertAll others with parent := some targetParent }),
          ⟨paired, ?_, ?_, ?_⟩, ?_⟩
        · simpa only [stored matched] using matched
        · rw [hasParent]
          exact .some pairedParent
        · simp [writable.notLiteral, Record.empty]
        · funext heap
          exact heap.modifyRecord_modifyRecord target _ _

/-- The lines of records with numbers from `first` on. -/
theorem performs_allRecordLines (few : image.records.length < 2147483648)
    (fewFunctions : image.functions.length < 2147483648) {ids : List RecordId} (first : Nat)
    (found : ∀ (place : Nat) (id : RecordId), ids[place]? = some id →
      image.records[first + place]? = some id)
    (writable : ∀ id ∈ ids, image.Writable id) :
    ∃ text, image.allRecordLines first ids = .ok text ∧ image.Performs text fun copies change =>
      ∃ fills, List.Forall₂ (Fills copies) ids fills ∧
        change = fun heap => heap.modifyRecords fills := by
  induction ids generalizing first with
  | nil => exact ⟨"", rfl, performs_nil.imp fun _ _ same => ⟨[], .nil, same⟩⟩
  | cons id ids ih =>
      obtain ⟨lines, written, performs⟩ := performs_recordLines few fewFunctions (found 0 id rfl)
        (writable id List.mem_cons_self)
      obtain ⟨more, writtenAll, performsAll⟩ := ih (first + 1) (fun place other here => by
        rw [Nat.add_assoc, Nat.add_comm 1]
        exact found (place + 1) other here) fun other mem =>
          writable other (List.mem_cons_of_mem _ mem)
      refine ⟨lines ++ more, ?_, (performs.append performsAll).imp ?_⟩
      · rw [allRecordLines, Nat.add_zero] at *
        rw [written, writtenAll]
        rfl
      · rintro copies change ⟨_, _, ⟨fill, isFill, rfl⟩, ⟨fills, areFills, rfl⟩, rfl⟩
        exact ⟨fill :: fills, .cons isFill areFills, rfl⟩

end Image

end RecordLisp
