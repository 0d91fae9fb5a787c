import RecordLisp.Proofs.Image.Statement

/-!
# Functions of an image

The program of an image makes every function again from its formals and the text of its body. Bodies
may hold record literals, so reading them adds records to the heap; evaluation then adds one closure
for each function, in the scope around the program.
-/

namespace RecordLisp

open EvalM

/-! ## Signatures -/

theorem Param.mapM_ofAtom_toAtom {params : List Param}
    (readable : ∀ param ∈ params, ofAtom param.toAtom = .ok param) :
    (params.map toAtom).mapM ofAtom = .ok params := by
  induction params with
  | nil => rfl
  | cons param params ih =>
      have first := readable param List.mem_cons_self
      have others := ih fun other mem => readable other (List.mem_cons_of_mem _ mem)
      rw [List.map_cons, List.mapM_cons, first, others]
      rfl

/-- A signature is read from the atoms that it is written as. -/
theorem Signature.ofFormals_toAtoms (signature : Signature) :
    ofFormals signature.toAtoms = .ok signature := by
  have reads := Param.mapM_ofAtom_toAtom signature.readable
  unfold ofFormals toAtoms
  split
  · rename_i fault failed
    rw [reads] at failed
    cases failed
  · rename_i params read
    cases reads.symm.trans read
    split
    · rename_i param found
      have noRest := signature.rest_last param (List.mem_of_find?_eq_some found)
      have isRest := List.find?_some found
      rw [noRest] at isRest
      cases isRest
    · rfl

/-! ## The text of functions -/

namespace Heap

/-- An atom and one of another heap that unfold into the same tree. The literal records of the
second are in use. -/
def Copied (heap : Heap) (atom : Atom) (after : Heap) (copy : Atom) : Prop :=
  ∃ tree ids others, heap.Unfolds atom tree ids ∧ after.Unfolds copy tree others ∧
    ∀ id ∈ others, after.HasRecord id

theorem Copied.later {heap after later : Heap} {atom copy : Atom}
    (copied : heap.Copied atom after copy)
    (kept : ∀ id, after.HasRecord id → later.HasRecord id ∧ later.record id = after.record id) :
    heap.Copied atom later copy := by
  obtain ⟨tree, ids, others, unfolds, unfoldsCopy, used⟩ := copied
  exact ⟨tree, ids, others, unfolds, unfoldsCopy.congr fun id mem => (kept id (used id mem)).2,
    fun id mem => (kept id (used id mem)).1⟩

theorem Unfolds.modifier_eq {heap : Heap} {atom : Atom} {tree : Tree} {ids : List RecordId}
    (unfolds : heap.Unfolds atom tree ids) : atom.modifier = tree.modifier := by
  cases unfolds <;> rfl

/-- A heap after some closures were added: each is new, and nothing else changed. -/
structure AddsClosures (before after : Heap) (added : List FunctionId) : Prop where
  once : added.Nodup
  new : ∀ id ∈ added, ¬ before.HasClosure id
  used : ∀ id ∈ added, after.HasClosure id
  hasClosure : ∀ id, before.HasClosure id → after.HasClosure id
  closure : ∀ id, before.HasClosure id → after.closure id = before.closure id
  hasRecord : ∀ id, after.HasRecord id ↔ before.HasRecord id
  record : ∀ id, after.record id = before.record id

theorem AddsClosures.none (heap : Heap) : heap.AddsClosures heap [] :=
  ⟨List.nodup_nil, by simp, by simp, fun _ used => used, fun _ _ => rfl, fun _ => Iff.rfl,
    fun _ => rfl⟩

/-- One more closure, made before the others. -/
theorem AddsClosures.allocClosure {before after : Heap} {closure : Closure}
    {added : List FunctionId} (adds : (before.allocClosure closure).2.AddsClosures after added) :
    before.AddsClosures after ((before.allocClosure closure).1 :: added) where
  once := by
    refine List.nodup_cons.mpr ⟨fun mem => ?_, adds.once⟩
    exact adds.new _ mem (hasClosure_allocClosure_iff.mpr (.inl rfl))
  new id mem := by
    rcases List.mem_cons.mp mem with rfl | later
    · exact not_hasClosure_allocClosure before closure
    · exact fun used => adds.new id later (hasClosure_allocClosure_iff.mpr (.inr used))
  used id mem := by
    rcases List.mem_cons.mp mem with rfl | later
    · exact adds.hasClosure _ (hasClosure_allocClosure_iff.mpr (.inl rfl))
    · exact adds.used id later
  hasClosure id used := adds.hasClosure id (hasClosure_allocClosure_iff.mpr (.inr used))
  closure id used :=
    (adds.closure id (hasClosure_allocClosure_iff.mpr (.inr used))).trans
      (closure_allocClosure_of_hasClosure used)
  hasRecord id := (adds.hasRecord id).trans hasRecord_allocClosure_iff
  record id := (adds.record id).trans (record_allocClosure before closure id)

end Heap

namespace Image

variable {image : Image}

/-- The tree of a formal. -/
def formalTree (param : Param) : Tree := .leaf param.modifier (.token param.tokenText)

/-- The tree of the code that makes a function. -/
def functionTree (signature : Signature) (body : Tree) : Tree :=
  .list .plain [.leaf .plain (.token "func"), .list .plain (signature.params.map formalTree), body]

theorem toList_formals (heap : Heap) (params : List Param) :
    (" ".intercalate ((params.map Param.toAtom).map heap.print)).toList =
      Tree.itemsSpelling (params.map formalTree) := by
  have single (param : Param) : (heap.print param.toAtom).toList = (formalTree param).spelling := by
    have unfolds : heap.Unfolds param.toAtom (formalTree param) [] := .leaf rfl
    exact unfolds.toList_print List.nodup_nil
  induction params with
  | nil => simp [Tree.itemsSpelling]
  | cons param params ih =>
      cases params with
      | nil => simp [single, Tree.itemsSpelling]
      | cons next params =>
          have blank : " ".toList = [' '] := by decide
          simp only [List.map_cons, String.intercalate_cons_cons] at ih ⊢
          rw [String.toList_append, String.toList_append, ih, single, blank, List.append_assoc]
          rfl

theorem areReadable_formals {params : List Param}
    (lexes : ∀ param ∈ params, lexesAsToken param.tokenText = true) :
    Tree.areReadable (params.map formalTree) = true := by
  induction params with
  | nil => rfl
  | cons param params ih =>
      have first : (formalTree param).isReadable = true := lexes param List.mem_cons_self
      rw [List.map_cons, Tree.areReadable, first,
        ih fun other mem => lexes other (List.mem_cons_of_mem _ mem)]
      rfl

theorem buildItems_formals (params : List Param) (heap : Heap) :
    Tree.buildItems (params.map formalTree) heap = (params.map Param.toAtom, heap) := by
  induction params with
  | nil => rfl
  | cons param params ih =>
      have first : (formalTree param).build heap = (param.toAtom, heap) := rfl
      simp only [List.map_cons, Tree.buildItems, first, ih]

/-- A function whose formals are tokens and whose body is printable and not marked to be
expanded. -/
structure Rewritable (image : Image) (id : FunctionId) : Prop where
  formals : ∀ param ∈ (image.heap.closure id).signature.params,
    lexesAsToken param.tokenText = true
  body : image.heap.Printable (image.heap.closure id).body
  notExpanded : (image.heap.closure id).body.modifier ≠ .expand

/-- The tree of the line for a function. -/
def FunctionTree (image : Image) (id : FunctionId) (tree : Tree) : Prop :=
  ∃ body ids, image.heap.Unfolds (image.heap.closure id).body body ids ∧
    (image.heap.closure id).body.modifier ≠ .expand ∧
    tree = functionTree (image.heap.closure id).signature body

/-- The line for a function is read with its body as a tree when the body prints as this tree. -/
theorem phrase_functionLine {id : FunctionId}
    (formals : ∀ param ∈ (image.heap.closure id).signature.params,
      lexesAsToken param.tokenText = true)
    {body : Tree} (readable : body.isReadable = true)
    (printed : (image.heap.print (image.heap.closure id).body).toList = body.spelling) :
    ∃ text, (image.functionLine id).toList = Grammar.indent ++ (text ++ ['\n']) ∧
      Grammar.Phrase text (functionTree (image.heap.closure id).signature body) := by
  have formals := @Grammar.phrase_spelling (.list .plain
    ((image.heap.closure id).signature.params.map formalTree)) (areReadable_formals formals)
  have name := @Grammar.phrase_spelling (.leaf .plain (.token "func")) (by decide)
  have inside := ((Grammar.phrase_spelling readable).single.spaced formals Grammar.separates_blank
    (by simp)).spaced name Grammar.separates_blank (by simp)
  refine ⟨_, ?_, inside.list⟩
  have start : "    (func (".toList =
      Grammar.indent ++ '(' :: ("func".toList ++ [' ', '(']) := by decide
  have middle : ") ".toList = [')', ' '] := by decide
  simp only [functionLine, String.toList_append, Signature.toAtoms, toList_formals,
    printed, start, middle, toList_lineEnd, Tree.spelling, Leaf.spelling,
    Modifier.characters_plain, List.append_assoc, List.cons_append, List.nil_append]

theorem exists_functionLine {id : FunctionId} (rewritable : image.Rewritable id) :
    ∃ text tree, (image.functionLine id).toList = Grammar.indent ++ (text ++ ['\n']) ∧
      Grammar.Phrase text tree ∧ image.FunctionTree id tree := by
  obtain ⟨body, ids, unfolds, once, printable⟩ := rewritable.body
  obtain ⟨text, written, phrase⟩ := phrase_functionLine rewritable.formals
    (body.isReadable_of_isPrintable printable) (unfolds.toList_print once)
  exact ⟨text, _, written, phrase, body, ids, unfolds, rewritable.notExpanded, rfl⟩

/-- The lines for functions are read as the code that makes them. -/
theorem exists_functionLines {ids : List FunctionId}
    (rewritable : ∀ id ∈ ids, image.Rewritable id) :
    ∃ trees, Grammar.Lines (String.join (ids.map image.functionLine)).toList trees ∧
      List.Forall₂ image.FunctionTree ids trees := by
  induction ids with
  | nil => exact ⟨[], .nil, .nil⟩
  | cons id ids ih =>
      obtain ⟨text, tree, written, phrase, isTree⟩ :=
        exists_functionLine (rewritable id List.mem_cons_self)
      obtain ⟨trees, lines, areTrees⟩ := ih fun other mem =>
        rewritable other (List.mem_cons_of_mem _ mem)
      refine ⟨tree :: trees, ?_, .cons isTree areTrees⟩
      have longer := Grammar.Lines.cons phrase lines
      rw [List.map_cons, String.join_cons, String.toList_append, written]
      simpa only [List.append_assoc, List.cons_append, List.nil_append] using longer

/-! ## Functions made again -/

/-- The code that makes a function again, with a body that was built in another heap. -/
def FunctionCode (image : Image) (after : Heap) (id : FunctionId) (code : Atom) : Prop :=
  ∃ body, code = .ofList [.token "func",
      .ofList (image.heap.closure id).signature.toAtoms, body] ∧
    body.modifier ≠ .expand ∧ image.heap.Copied (image.heap.closure id).body after body

theorem FunctionCode.later {after later : Heap} {id : FunctionId} {code : Atom}
    (isCode : image.FunctionCode after id code)
    (kept : ∀ id, after.HasRecord id → later.HasRecord id ∧ later.record id = after.record id) :
    image.FunctionCode later id code := by
  obtain ⟨body, rfl, plain, copied⟩ := isCode
  exact ⟨body, rfl, plain, copied.later kept⟩

/-- Building the code of functions adds the records of their bodies to a heap. -/
theorem build_functionTrees {ids : List FunctionId} {trees : List Tree}
    (areTrees : List.Forall₂ image.FunctionTree ids trees) (target : Heap) :
    ∃ added, target.Adds (Tree.buildItems trees target).2 added ∧
      List.Forall₂ (image.FunctionCode (Tree.buildItems trees target).2) ids
        (Tree.buildItems trees target).1 := by
  induction areTrees generalizing target with
  | nil => exact ⟨[], .none target, .nil⟩
  | @cons id tree ids trees isTree _ ih =>
      obtain ⟨body, bodyIds, unfolds, plain, rfl⟩ := isTree
      obtain ⟨added, rebuilt, adds⟩ := unfolds.rebuilt target
      obtain ⟨more, addsMore, areCodes⟩ := ih (body.build target).2
      have built : (functionTree (image.heap.closure id).signature body).build target =
          (.ofList [.token "func", .ofList (image.heap.closure id).signature.toAtoms,
            (body.build target).1], (body.build target).2) := by
        simp only [functionTree, Tree.build, Tree.buildItems, buildItems_formals,
          Signature.toAtoms]
      simp only [Tree.buildItems, built]
      refine ⟨added ++ more, adds.append addsMore, .cons ?_ areCodes⟩
      have here : image.FunctionCode (body.build target).2 id _ :=
        ⟨(body.build target).1, rfl, ?_, body, bodyIds, added, unfolds, rebuilt, adds.used⟩
      · exact here.later fun other used =>
          ⟨addsMore.keeps.hasRecord other used, addsMore.keeps.record other used⟩
      · rw [rebuilt.modifier_eq, ← unfolds.modifier_eq]
        exact plain

/-- A closure with the formals of a function of an image and a copy of its body. -/
def Remade (image : Image) (origin : Heap) (id : FunctionId) (closure : Closure) : Prop :=
  closure.signature = (image.heap.closure id).signature ∧
    image.heap.Copied (image.heap.closure id).body origin closure.body

/-- The code of functions makes new closures, in order. -/
theorem does_functionCodes {registry : Registry} (core : registry.Has Pack.core) {base : Heap}
    {fuel : Nat} {scope : RecordId} {origin : Heap} {ids : List FunctionId} {codes : List Atom}
    (areCodes : List.Forall₂ (image.FunctionCode origin) ids codes) (heap : Heap) :
    ∃ made after,
      Does base (codes.mapM (registry.eval (fuel + 1))) scope heap (made.map .function) after ∧
        heap.AddsClosures after made ∧
        List.Forall₂ (fun id other => image.Remade origin id (after.closure other)) ids made := by
  induction areCodes generalizing heap with
  | nil => exact ⟨[], heap, does_mapM_nil _, .none heap, .nil⟩
  | @cons id _ _ _ isCode _ ih =>
      obtain ⟨body, rfl, plain, copied⟩ := isCode
      let closure : Closure := ⟨(image.heap.closure id).signature, body, scope⟩
      obtain ⟨made, after, does, adds, remade⟩ := ih (heap.allocClosure closure).2
      have first := @Registry.evaluates_func registry base fuel scope heap core _ _ _ plain
        (image.heap.closure id).signature.ofFormals_toAtoms
      refine ⟨_ :: made, after, does_mapM_cons first does, adds.allocClosure, .cons ?_ remade⟩
      have used : (heap.allocClosure closure).2.HasClosure (heap.allocClosure closure).1 :=
        Heap.hasClosure_allocClosure_iff.mpr (.inl rfl)
      have kept := adds.closure _ used
      rw [Heap.closure_allocClosure_self] at kept
      rw [Remade, kept]
      exact ⟨rfl, copied⟩

end Image

end RecordLisp
