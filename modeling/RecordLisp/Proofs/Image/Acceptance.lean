import RecordLisp.Proofs.Image.Verbatim

/-!
# Saved programs can be read

What `Heap.save` writes is read again: names, tokens, texts, numbers and references always, and what
is written as it prints because its leaves were checked. The check does not look at modifiers and
chains, for literal records that occur twice, or into functions, so `Image.Legible` asks of these
that they can be read. Programs can make values of which this is not so, and they are saved all the
same: a chain that begins with a number is written behind a quote, where no number can stand.
-/

namespace RecordLisp

namespace Heap

/-- Whether no literal record stands twice in an atom. The second time it prints as a
placeholder. -/
def Unshared (heap : Heap) (atom : Atom) : Prop :=
  ∀ tree ids, heap.orphaned.Unfolds atom tree ids → ids.Nodup

/-- Whether the text of an atom is read back: the atom unfolds into a readable tree, parents aside,
and no record stands in it twice. -/
def ReadsBack (heap : Heap) (atom : Atom) : Prop :=
  ∃ tree ids, heap.orphaned.Unfolds atom tree ids ∧ ids.Nodup ∧ tree.isReadable = true

variable {heap : Heap} {atom : Atom} {tree : Tree} {ids : List RecordId}

theorem Readable.readsBack (readable : heap.Readable atom) (unshared : heap.Unshared atom) :
    heap.ReadsBack atom := by
  obtain ⟨tree, ids, unfolds, isReadable⟩ := readable
  exact ⟨tree, ids, unfolds, unshared tree ids unfolds, isReadable⟩

/-- An atom prints as the tree that it unfolds into, parents aside. -/
theorem Unfolds.toList_print_orphaned (unfolds : heap.orphaned.Unfolds atom tree ids)
    (once : ids.Nodup) : (heap.print atom).toList = tree.spelling := by
  rw [← print_orphaned, unfolds.toList_print once]

end Heap

namespace Image

variable {image : Image}

mutual

/-- The atoms that are written as they print when an atom is written: literal records without a
number, chains, and lists that are quoted as a whole. Other lists are built from their items. -/
def quotations (image : Image) : Atom → List Atom
  | .leaf _ (.record id) => if (image.recordNumber? id).isSome then [] else [.record id]
  | .leaf _ _ => []
  | .list _ items =>
      if !image.anyHoldsNumbered items && image.verbatim (.ofList items) then [.list .quote items]
      else image.quotationsOfList items
  | .member _ target field => [.member .quote target field]

/-- The atoms that are written as they print when the items of a list are written. -/
def quotationsOfList (image : Image) : List Atom → List Atom
  | [] => []
  | item :: items => image.quotations item ++ image.quotationsOfList items

end

/-- Whether an atom can be written as it prints: modifiers and chains stand in it as source text can
have them, and no literal record stands in it twice. -/
structure Quotable (image : Image) (atom : Atom) : Prop where
  shaped : image.isSourceShaped atom = true
  once : image.heap.Unshared atom

/-- Whether an image can be read: its objects can be numbered, whatever is written as it prints is
shaped like source text and has no literal record twice, and functions have formals that are tokens
and a body that is read back. -/
structure Legible (image : Image) : Prop where
  few : image.records.length < 2147483648
  fewFunctions : image.functions.length < 2147483648
  values : ∀ id ∈ image.records, ∀ name value, (name, value) ∈ (image.heap.record id).fields →
    ∀ quotation ∈ image.quotations value, image.Quotable quotation
  formals : ∀ id ∈ image.functions, ∀ param ∈ (image.heap.closure id).signature.params,
    lexesAsToken param.tokenText = true
  bodies : ∀ id ∈ image.functions, image.heap.ReadsBack (image.heap.closure id).body

/-! ## Values -/

/-- A text that is read as an atom. -/
def IsPhrase (text : String) : Prop := ∃ tree, Grammar.Phrase text.toList tree

/-- A text that is read as further items of a list. -/
def IsSequence (text : String) : Prop :=
  (∃ trees, Grammar.Sequence text.toList trees) ∧ ∀ ch ∈ text.toList.head?, isSeparator ch = true

theorem isPhrase_of_spells {text : String} {code : Atom} (spelled : Spells text.toList code) :
    IsPhrase text := by
  obtain ⟨tree, phrase, _⟩ := spelled
  exact ⟨tree, phrase⟩

theorem isPhrase_leaf {value : Leaf} (printable : value.isPrintable .plain = true) {text : String}
    (spelled : text.toList = value.spelling) : IsPhrase text := by
  apply isPhrase_of_spells
  rw [spelled]
  exact spells_leaf printable

theorem isPhrase_quotedToken {name : String} (lexes : lexesAsToken name = true) :
    IsPhrase ("'" ++ name) := by
  refine ⟨.leaf .quote (.token name), ?_⟩
  rw [String.toList_append]
  exact @Grammar.phrase_spelling (.leaf .quote (.token name)) lexes

theorem isPhrase_print {heap : Heap} {atom : Atom} (readsBack : heap.ReadsBack atom) :
    IsPhrase (heap.print atom) := by
  obtain ⟨tree, ids, unfolds, once, readable⟩ := readsBack
  refine ⟨tree, ?_⟩
  rw [unfolds.toList_print_orphaned once]
  exact Grammar.phrase_spelling readable

theorem isPhrase_quotedList {heap : Heap} {items : List Atom}
    (readsBack : heap.ReadsBack (.list .quote items)) :
    IsPhrase ("'" ++ heap.print (.ofList items)) := by
  obtain ⟨_, ids, unfolds, once, readable⟩ := readsBack
  cases unfolds with
  | @list _ _ trees _ inside =>
      have unfolds : heap.orphaned.Unfolds (.ofList items) (.list .plain trees) ids := .list inside
      refine ⟨.list .quote trees, ?_⟩
      rw [String.toList_append, unfolds.toList_print_orphaned once]
      exact Grammar.phrase_spelling readable

theorem isPhrase_quotedMember {heap : Heap} {target field : Atom}
    (readsBack : heap.ReadsBack (.member .quote target field)) :
    IsPhrase ("'" ++ heap.print (.member .plain target field)) := by
  obtain ⟨_, ids, unfolds, once, readable⟩ := readsBack
  cases unfolds with
  | @member _ _ _ targetTree fieldTree targetIds fieldIds inTarget inField =>
      have unfolds : heap.orphaned.Unfolds (.member .plain target field)
          (.member .plain targetTree fieldTree) (targetIds ++ fieldIds) := .member inTarget inField
      refine ⟨.member .quote targetTree fieldTree, ?_⟩
      rw [String.toList_append, unfolds.toList_print_orphaned once]
      exact Grammar.phrase_spelling readable

/-- What is written as it prints is read back. -/
theorem Quotable.readsBack {atom : Atom} (quotable : image.Quotable atom)
    (verbatim : image.verbatim atom = true) : image.heap.ReadsBack atom :=
  (Heap.readable_of_verbatim (Heap.readable_of_verbatimRecord _) atom verbatim
    quotable.shaped).readsBack quotable.once

theorem stringLiteral_eq_ok {text literal : String} (written : stringLiteral text = .ok literal) :
    Text.holdsQuote text = false ∧ literal = Text.quoted text := by
  unfold stringLiteral at written
  split at written
  · cases written
  · rename_i noQuote
    exact ⟨Bool.eq_false_of_not_eq_true noQuote, (Except.ok.inj written).symm⟩

theorem isPhrase_stringLiteral {text literal : String}
    (written : stringLiteral text = .ok literal) :
    IsPhrase literal := by
  obtain ⟨noQuote, rfl⟩ := stringLiteral_eq_ok written
  exact isPhrase_of_spells (spells_string noQuote)

theorem Legible.isPhrase_recordReference (legible : image.Legible) {id : RecordId} {number : Nat}
    (found : image.records[number]? = some id) : IsPhrase (recordReference number) := by
  have inRange := (List.getElem?_eq_some_iff.mp found).1
  exact isPhrase_of_spells (spells_recordReference (Nat.lt_trans inRange legible.few))

theorem Legible.isPhrase_functionReference (legible : image.Legible) {id : FunctionId}
    {number : Nat}
    (found : image.functions[number]? = some id) : IsPhrase (functionReference number) := by
  have inRange := (List.getElem?_eq_some_iff.mp found).1
  exact isPhrase_of_spells (spells_functionReference (Nat.lt_trans inRange legible.fewFunctions))

theorem isPhrase_leafExpression (legible : image.Legible) {modifier : Modifier} {value : Leaf}
    (quotable : ∀ quotation ∈ image.quotations (.leaf modifier value), image.Quotable quotation)
    {text : String} (written : image.leafExpression value = .ok text) : IsPhrase text := by
  cases value with
  | nil =>
      cases written
      exact @isPhrase_leaf .nil rfl _ (by decide)
  | integer value =>
      cases written
      exact @isPhrase_leaf (.integer value) rfl _ rfl
  | decimal value =>
      rw [leafExpression, decimalLiteral] at written
      split at written
      · rename_i finite
        cases written
        exact @isPhrase_leaf (.decimal value) (by simpa [Leaf.isPrintable] using finite) _ rfl
      · cases written
  | string text => exact isPhrase_stringLiteral written
  | token name =>
      rw [leafExpression] at written
      split at written
      · rename_i lexes
        cases written
        exact isPhrase_quotedToken lexes
      · obtain ⟨literal, quoted, written⟩ := exists_ok_of_bind written
        obtain ⟨noQuote, rfl⟩ := stringLiteral_eq_ok quoted
        cases written
        exact isPhrase_of_spells (spells_stot noQuote)
  | record id =>
      rw [leafExpression] at written
      split at written
      · rename_i number found
        cases written
        exact legible.isPhrase_recordReference (recordNumber?_eq_some_iff.mp found)
      · rename_i unnumbered
        split at written
        · rename_i verbatim
          cases written
          have isQuotation : .record id ∈ image.quotations (.leaf modifier (.record id)) := by
            simp [quotations, unnumbered]
          exact isPhrase_print ((quotable _ isQuotation).readsBack verbatim)
        · cases written
  | function id =>
      rw [leafExpression] at written
      split at written
      · rename_i number found
        cases written
        exact legible.isPhrase_functionReference (functionNumber?_eq_some_iff.mp found)
      · cases written
        exact @isPhrase_leaf .nil rfl _ (by decide)

theorem isSequence_nil : IsSequence "" := ⟨⟨[], Grammar.sequence_blank (by simp)⟩, by simp⟩

/-- One more item in front, with a blank before it. -/
theorem IsSequence.cons {text more : String} (others : IsSequence more) (first : IsPhrase text) :
    IsSequence (" " ++ text ++ more) := by
  obtain ⟨⟨trees, sequence⟩, gap⟩ := others
  obtain ⟨tree, phrase⟩ := first
  have written : (" " ++ text ++ more).toList = [' '] ++ (text.toList ++ more.toList) := by
    rw [String.toList_append, String.toList_append]
    rfl
  rw [IsSequence, written]
  exact ⟨⟨_, (sequence.cons phrase gap).blank Grammar.separates_blank⟩, by simp [isSeparator]⟩

/-- A list that is built from its items. -/
theorem IsSequence.list {text : String} (items : IsSequence text) :
    IsPhrase ("(list" ++ text ++ ")") := by
  obtain ⟨⟨trees, sequence⟩, gap⟩ := items
  have start : "(list".toList = '(' :: "list".toList := by decide
  have call := (sequence.cons (@phrase_token "list" (by decide)) gap).list
  rw [IsPhrase, String.toList_append, String.toList_append, start, toList_closing]
  exact ⟨_, call⟩

-- One case for each kind of value; a list is quoted or built from the expressions of its items.
mutual

/-- The expression that is written for a value is read as an atom. -/
theorem isPhrase_expression (legible : image.Legible) : ∀ value : Atom,
    (∀ quotation ∈ image.quotations value, image.Quotable quotation) →
      ∀ {text : String}, image.expression value = .ok text → IsPhrase text
  | .leaf _ _, quotable, text, written => isPhrase_leafExpression legible quotable written
  | .list _ items, quotable, text, written => by
      rw [expression] at written
      rw [quotations] at quotable
      split at written
      · rename_i whole
        cases written
        rw [if_pos whole] at quotable
        exact isPhrase_quotedList
          ((List.forall_mem_singleton.mp quotable).readsBack (Bool.and_eq_true_iff.mp whole).2)
      · rename_i built
        rw [if_neg built] at quotable
        obtain ⟨more, inside, written⟩ := exists_ok_of_bind written
        cases written
        exact (isSequence_expressions legible items quotable inside).list
  | .member _ target field, quotable, text, written => by
      rw [expression] at written
      split at written
      · rename_i verbatim
        cases written
        exact isPhrase_quotedMember ((List.forall_mem_singleton.mp quotable).readsBack verbatim)
      · cases written

theorem isSequence_expressions (legible : image.Legible) : ∀ items : List Atom,
    (∀ quotation ∈ image.quotationsOfList items, image.Quotable quotation) →
      ∀ {text : String}, image.expressions items = .ok text → IsSequence text
  | [], _, text, written => by
      cases written
      exact isSequence_nil
  | item :: items, quotable, text, written => by
      obtain ⟨first, others⟩ := List.forall_mem_append.mp quotable
      rw [expressions] at written
      obtain ⟨one, here, written⟩ := exists_ok_of_bind written
      obtain ⟨more, behind, written⟩ := exists_ok_of_bind written
      cases written
      exact (isSequence_expressions legible items others behind).cons
        (isPhrase_expression legible item first here)

end

/-! ## Lines -/

/-- A text that is read as indented lines of one atom each. -/
def AreLines (text : String) : Prop := ∃ trees, Grammar.Lines text.toList trees

theorem areLines_empty : AreLines "" := ⟨[], .nil⟩

theorem AreLines.append {text more : String} (first : AreLines text) (second : AreLines more) :
    AreLines (text ++ more) := by
  obtain ⟨trees, lines⟩ := first
  obtain ⟨others, lines'⟩ := second
  refine ⟨trees ++ others, ?_⟩
  rw [String.toList_append]
  exact lines.append lines'

theorem areLines_join {texts : List String} (lines : ∀ text ∈ texts, AreLines text) :
    AreLines (String.join texts) := by
  induction texts with
  | nil => exact areLines_empty
  | cons text texts ih =>
      obtain ⟨first, others⟩ := List.forall_mem_cons.mp lines
      rw [String.join_cons]
      exact first.append (ih others)

theorem Performs.areLines {text : String} {effect : Copies image → (Heap → Heap) → Prop}
    (performs : image.Performs text effect) : AreLines text := by
  obtain ⟨_, ⟨trees, lines, _⟩, _⟩ := performs
  exact ⟨trees, lines⟩

theorem isPhrase_fieldName {name text : String} (written : fieldName name = .ok text) :
    IsPhrase text := by
  unfold fieldName at written
  split at written
  · rename_i lexes
    cases written
    exact isPhrase_of_spells (spells_token lexes)
  · exact isPhrase_stringLiteral written

/-- One more pair of a name and a value in front. -/
theorem IsSequence.pair {name value more : String} (others : IsSequence more)
    (isName : IsPhrase name)
    (isValue : IsPhrase value) : IsSequence (" (" ++ name ++ " " ++ value ++ ")" ++ more) := by
  obtain ⟨nameTree, namePhrase⟩ := isName
  obtain ⟨valueTree, valuePhrase⟩ := isValue
  have inside := valuePhrase.single.spaced namePhrase Grammar.separates_blank (by simp)
  have isPair : IsPhrase ("(" ++ name ++ " " ++ value ++ ")") := by
    have start : "(".toList = ['('] := by decide
    have blank : " ".toList = [' '] := by decide
    rw [IsPhrase]
    simp only [String.toList_append, start, blank, toList_closing, List.append_assoc]
    exact ⟨_,
      by simpa only [List.append_assoc, List.cons_append, List.nil_append] using inside.list⟩
  have start : " (" = " " ++ "(" := by decide
  rw [start]
  simpa only [String.append_assoc] using others.cons isPair

theorem isSequence_fieldPairs (legible : image.Legible) {fields : Fields}
    (quotable : ∀ name value, (name, value) ∈ fields →
      ∀ quotation ∈ image.quotations value, image.Quotable quotation)
    {text : String} (written : image.fieldPairs fields = .ok text) : IsSequence text := by
  induction fields generalizing text with
  | nil =>
      cases written
      exact isSequence_nil
  | cons field fields ih =>
      obtain ⟨name, value⟩ := field
      rw [fieldPairs] at written
      obtain ⟨nameText, writtenName, written⟩ := exists_ok_of_bind written
      obtain ⟨valueText, writtenValue, written⟩ := exists_ok_of_bind written
      obtain ⟨more, writtenMore, written⟩ := exists_ok_of_bind written
      cases written
      have others :=
        ih (fun name value mem => quotable name value (List.mem_cons_of_mem _ mem)) writtenMore
      exact others.pair (isPhrase_fieldName writtenName)
        (isPhrase_expression legible value (quotable name value List.mem_cons_self) writtenValue)

/-- The line that fills a record. -/
theorem areLines_filled {reference pairs : String} (isReference : IsPhrase reference)
    (arePairs : IsSequence pairs) :
    AreLines ("    (multi-set " ++ reference ++ pairs ++ ")\n") := by
  obtain ⟨⟨trees, sequence⟩, gap⟩ := arePairs
  obtain ⟨tree, phrase⟩ := isReference
  have start : "    (multi-set ".toList =
      Grammar.indent ++ '(' :: ("multi-set".toList ++ [' ']) := by decide
  have call := ((sequence.cons phrase gap).spaced (@phrase_token "multi-set" (by decide))
    Grammar.separates_blank (by simp)).list
  rw [AreLines]
  simp only [String.toList_append, start, toList_lineEnd]
  exact ⟨_, by simpa only [List.append_assoc, List.cons_append, List.nil_append] using
    Grammar.Lines.cons call .nil⟩

theorem areLines_recordLines (legible : image.Legible) {number : Nat} {id : RecordId}
    (found : image.records[number]? = some id) {text : String}
    (written : image.recordLines number id = .ok text) : AreLines text := by
  rw [recordLines] at written
  obtain ⟨pairs, writtenPairs, written⟩ := exists_ok_of_bind written
  have filled := areLines_filled (legible.isPhrase_recordReference found)
    (isSequence_fieldPairs legible (legible.values id (List.mem_of_getElem? found)) writtenPairs)
  split at written
  · rename_i number' isParent
    obtain ⟨parent, _, foundParent⟩ := Option.bind_eq_some_iff.mp isParent
    cases written
    have linked := performs_parentLine legible.few found (recordNumber?_eq_some_iff.mp foundParent)
    simpa only [String.append_assoc] using filled.append linked.areLines
  · cases written
    exact filled

/-- The lines of records with numbers from `first` on. -/
theorem areLines_allRecordLines (legible : image.Legible) {ids : List RecordId} (first : Nat)
    (found : ∀ (place : Nat) (id : RecordId), ids[place]? = some id →
      image.records[first + place]? = some id)
    {text : String} (written : image.allRecordLines first ids = .ok text) : AreLines text := by
  induction ids generalizing first text with
  | nil =>
      cases written
      exact areLines_empty
  | cons id ids ih =>
      rw [allRecordLines] at written
      obtain ⟨lines, here, written⟩ := exists_ok_of_bind written
      obtain ⟨more, behind, written⟩ := exists_ok_of_bind written
      cases written
      refine (areLines_recordLines legible (found 0 id rfl) here).append (ih (first + 1) ?_ behind)
      intro place other mem
      rw [Nat.add_assoc, Nat.add_comm 1]
      exact found (place + 1) other mem

/-- A function whose scope has no number is not linked. -/
theorem areLines_scopeLine (legible : image.Legible) {number : Nat} {id : FunctionId}
    (found : image.functions[number]? = some id) : AreLines (image.scopeLine number id) := by
  cases numbered : image.recordNumber? (image.heap.closure id).scope with
  | none =>
      rw [scopeLine, numbered]
      exact areLines_empty
  | some scope =>
      have mem := List.mem_of_getElem? (recordNumber?_eq_some_iff.mp numbered)
      exact (performs_scopeLine legible.few legible.fewFunctions found mem).areLines

theorem areLines_allScopeLines (legible : image.Legible) : AreLines image.allScopeLines := by
  refine areLines_join fun text mem => ?_
  obtain ⟨number, inRange, rfl⟩ := List.mem_mapIdx.mp mem
  exact areLines_scopeLine legible (List.getElem?_eq_getElem inRange)

theorem areLines_functionLines (legible : image.Legible) :
    AreLines (String.join (image.functions.map image.functionLine)) := by
  refine areLines_join fun text mem => ?_
  obtain ⟨id, inside, rfl⟩ := List.mem_map.mp mem
  obtain ⟨body, ids, unfolds, once, readable⟩ := legible.bodies id inside
  obtain ⟨line, written, phrase⟩ := phrase_functionLine (legible.formals id inside) readable
    (unfolds.toList_print_orphaned once)
  rw [AreLines, written]
  exact ⟨_, .cons phrase .nil⟩

/-- The program of a legible image is read as an atom. -/
theorem Legible.exists_program (legible : image.Legible) {text : String}
    (written : image.program = .ok text) : ∃ tree, Grammar.Program text.toList tree := by
  rw [program] at written
  obtain ⟨records, writtenRecords, written⟩ := exists_ok_of_bind written
  cases written
  obtain ⟨functionTrees, functions⟩ := areLines_functionLines legible
  obtain ⟨statementTrees, statements⟩ := (areLines_allScopeLines legible).append
    (areLines_allRecordLines legible 0 (by simp) writtenRecords)
  obtain ⟨tree, reference, _⟩ := @spells_recordReference 0 (by decide)
  have isProgram := program_of_parts legible.few functions statements reference
  exact ⟨_, by simpa only [String.append_assoc] using isProgram⟩

end Image

/-- A record that is saved without an error gives a program that can be read, on any heap, when all
that the program numbers is legible. -/
theorem Heap.save_accepted {heap : Heap} {root : RecordId}
    (legible : (Image.ofRoot heap root).Legible) {text : String} (saved : heap.save root = .ok text)
    (name : String) (target : Heap) :
    ∃ atom after, (Source.mk name text).read target = (.ok atom, after) := by
  unfold Heap.save at saved
  split at saved
  · cases saved
  · obtain ⟨tree, isProgram⟩ := legible.exists_program saved
    exact ⟨_, _, Source.read_of_program isProgram⟩

/-- A record with a chain that ends in a number, a literal record with a parent and a function. -/
theorem Heap.save_accepted_chain :
    let closure : Closure := ⟨.empty, .ofList [.token "f", .integer .one], ⟨0⟩⟩
    let literal : Record :=
      { Record.emptyLiteral.insert "a" (.integer .one) with parent := some ⟨0⟩ }
    let heap := (((Heap.empty.allocRecord .empty).2.allocRecord literal).2.allocClosure
      closure).2.modifyRecord ⟨0⟩ fun record =>
        ((record.insert "chain" (.member .plain (.token "x") (.integer .one))).insert
          "a b" (.record ⟨1⟩)).insert "f" (.function ⟨0⟩)
    (Image.ofRoot heap ⟨0⟩).Legible ∧ ∃ text, heap.save ⟨0⟩ = .ok text ∧
      ∃ atom after, (Source.mk "saved" text).read .empty = (.ok atom, after) := by
  intro closure literal heap
  have records : (Image.ofRoot heap ⟨0⟩).records = [⟨0⟩] := by decide +kernel
  have functions : (Image.ofRoot heap ⟨0⟩).functions = [⟨0⟩] := by decide +kernel
  have sameHeap : (Image.ofRoot heap ⟨0⟩).heap = heap := rfl
  have fields : (heap.record ⟨0⟩).fields = [("chain", .member .plain (.token "x") (.integer .one)),
    ("a b", .record ⟨1⟩), ("f", .function ⟨0⟩)] := rfl
  have inside : (heap.orphaned.record ⟨1⟩).fields = [("a", .integer .one)] := by
    rw [Heap.record_orphaned]
    rfl
  have legible : (Image.ofRoot heap ⟨0⟩).Legible := by
    refine ⟨?_, ?_, ?_, ?_, ?_⟩
    · rw [records]
      decide
    · rw [functions]
      decide
    · rw [records, sameHeap]
      intro id mem name value field quotation quoted
      cases List.mem_singleton.mp mem
      rw [fields] at field
      simp only [List.mem_cons, Prod.mk.injEq, List.not_mem_nil, or_false] at field
      obtain ⟨_, rfl⟩ | ⟨_, rfl⟩ | ⟨_, rfl⟩ := field
      · cases List.mem_singleton.mp quoted
        refine ⟨rfl, fun tree ids unfolds => ?_⟩
        cases unfolds with
        | member target field =>
            cases target
            cases field
            exact List.nodup_nil
      · have unnumbered : (Image.ofRoot heap ⟨0⟩).recordNumber? ⟨1⟩ = none := by decide +kernel
        have single : quotation = .record ⟨1⟩ := by
          simpa [Image.quotations, unnumbered] using quoted
        subst single
        refine ⟨by decide +kernel, fun tree ids unfolds => ?_⟩
        rw [sameHeap] at unfolds
        cases unfolds with
        | leaf noHandle => cases noHandle
        | record _ _ unfolds =>
            rw [inside] at unfolds
            cases unfolds with
            | cons value others =>
                cases value
                cases others
                exact List.nodup_singleton _
      · cases quoted
    · rw [functions]
      intro id mem
      cases List.mem_singleton.mp mem
      exact fun _ mem => by cases mem
    · rw [functions]
      intro id mem
      cases List.mem_singleton.mp mem
      exact ⟨.list .plain [.leaf .plain (.token "f"), .leaf .plain (.integer .one)], [],
        .list (.cons (.leaf rfl) (.cons (.leaf rfl) .nil)), List.nodup_nil, by decide +kernel⟩
  have succeeds : (heap.save ⟨0⟩).isOk = true := by decide +kernel
  cases saved : heap.save ⟨0⟩ with
  | error error =>
      rw [saved] at succeeds
      cases succeeds
  | ok text => exact ⟨legible, text, rfl, Heap.save_accepted legible saved "saved" .empty⟩

/-- A program can store a chain that begins with a number. It is saved behind a quote, which cannot
stand there, so the saved program cannot be read. -/
theorem Session.save_rejected :
    ∃ session, Session.create .standard [] .empty .least = .ok session ∧
      let after := (session.perform (SessionM.runText "(set @ m (parse \"5.x\"))")).2
      ∃ text error, after.heap.save after.global = .ok text ∧
        ((Source.anonymous text).read after.heap).1 = .error error := by
  have rejected : (match Session.create .standard [] .empty .least with
      | .error _ => true
      | .ok session =>
          let after := (session.perform (SessionM.runText "(set @ m (parse \"5.x\"))")).2
          match after.heap.save after.global with
          | .error _ => true
          | .ok text => ((Source.anonymous text).read after.heap).1.isOk) = false := by
    decide +kernel
  cases created : Session.create .standard [] .empty .least with
  | error error =>
      rw [created] at rejected
      cases rejected
  | ok session =>
      rw [created] at rejected
      refine ⟨session, rfl, ?_⟩
      dsimp only at rejected ⊢
      generalize (session.perform (SessionM.runText "(set @ m (parse \"5.x\"))")).2 = after at *
      cases saved : after.heap.save after.global with
      | error error =>
          rw [saved] at rejected
          cases rejected
      | ok text =>
          rw [saved] at rejected
          refine ⟨text, ?_⟩
          dsimp only at rejected ⊢
          generalize ((Source.anonymous text).read after.heap).1 = result at rejected ⊢
          cases result with
          | error error => exact ⟨error, rfl, rfl⟩
          | ok atom => cases rejected

end RecordLisp
