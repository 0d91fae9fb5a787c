import RecordLisp.Proofs.Builtin.Composed
import RecordLisp.Proofs.Eval.Invariant

/-!
# Invariants of builtins

Six builtins change objects that are there already: those that store in, drop from and reparent a
record, that give a function another scope, and the assignment of a variable. They keep an invariant
that lets all objects change. Every other builtin keeps every invariant: what it stores it stores in
a record that it has just made, and the values it gives are its arguments, their items, what an
evaluation gave, or new leaves and lists of these.
-/

namespace RecordLisp

open Effect Invariant

/-- Whether the contents of every object that programs get hold of may change. -/
structure Invariant.Open (inv : Invariant) : Prop where
  record : ∀ base id, inv.atom base (.record id) → inv.owned base (.record id)
  function : ∀ base id, inv.atom base (.function id) → inv.owned base (.function id)

/-- A record that programs get hold of may be changed when all objects may. -/
theorem Invariant.Open.ownRecord {inv : Invariant} (allowed : inv.Open) {base : Heap}
    {id : RecordId} (known : inv.atom base (.record id)) : (Kind.ownRecord inv).holds base id :=
  ⟨known, allowed.record base id known⟩

/-- Results of reading whose atoms programs may get hold of. -/
def Invariant.parsed (inv : Invariant) : inv.Kind (Except ParseError Atom) where
  holds base := Yields (inv.atom base)
  mono later known := known.imp fun _ => inv.atom_mono later

namespace ArgumentPlace

variable {inv : Invariant} {base : Heap} {argument : Atom} (place : ArgumentPlace)

theorem yields_expect {α : Type} {property : α → Prop} (expected : String) {view : Atom → Option α}
    (holds : ∀ value, view argument = some value → property value) :
    Yields property (place.expect expected view argument) := by
  unfold expect
  split
  · exact .ok (holds _ ‹_›)
  · exact .error _

theorem yields_list (known : inv.atom base argument) :
    Yields (fun items => ∀ item ∈ items, inv.atom base item) (place.list argument) :=
  place.yields_expect "list" fun _ found => items_of_list? known found

theorem yields_record (known : inv.atom base argument) :
    Yields (fun id => inv.atom base (.record id)) (place.record argument) :=
  place.yields_expect "record" fun _ found => record_of_record? known found

theorem yields_functionId (known : inv.atom base argument) :
    Yields (fun id => inv.atom base (.function id)) (place.functionId argument) :=
  place.yields_expect "function" fun _ found => function_of_function? known found

end ArgumentPlace

/-! ## Numbers of arguments -/

namespace Native

variable {inv : Invariant}

/-- Whether work for given arguments keeps an invariant. -/
def Works (inv : Invariant) (work : Evaluator → EvalM Atom) (arguments : List Atom) : Prop :=
  ∀ evaluator, evaluator.Maintains inv → ∀ base, (∀ argument ∈ arguments, inv.atom base argument) →
    EvalM.Maintains (.atoms inv) base (work evaluator)

theorem maintains_unary {work : Evaluator → Atom → EvalM Atom}
    (works : ∀ a, Works inv (fun evaluator => work evaluator a) [a]) :
    (unary work).Maintains inv := by
  intro evaluator maintains base arguments
  match arguments with
  | [a] => exact works a evaluator maintains base
  | [] | _ :: _ :: _ => exact fun _ => EvalM.maintains_fail _

theorem maintains_binary {work : Evaluator → Atom → Atom → EvalM Atom}
    (works : ∀ a b, Works inv (fun evaluator => work evaluator a b) [a, b]) :
    (binary work).Maintains inv := by
  intro evaluator maintains base arguments
  match arguments with
  | [a, b] => exact works a b evaluator maintains base
  | [] | [_] | _ :: _ :: _ :: _ => exact fun _ => EvalM.maintains_fail _

theorem maintains_ternary {work : Evaluator → Atom → Atom → Atom → EvalM Atom}
    (works : ∀ a b c, Works inv (fun evaluator => work evaluator a b c) [a, b, c]) :
    (ternary work).Maintains inv := by
  intro evaluator maintains base arguments
  match arguments with
  | [a, b, c] => exact works a b c evaluator maintains base
  | [] | [_] | [_, _] | _ :: _ :: _ :: _ :: _ => exact fun _ => EvalM.maintains_fail _

theorem maintains_quaternary {work : Evaluator → Atom → Atom → Atom → Atom → EvalM Atom}
    (works : ∀ a b c d, Works inv (fun evaluator => work evaluator a b c d) [a, b, c, d]) :
    (quaternary work).Maintains inv := by
  intro evaluator maintains base arguments
  match arguments with
  | [a, b, c, d] => exact works a b c d evaluator maintains base
  | [] | [_] | [_, _] | [_, _, _] | _ :: _ :: _ :: _ :: _ :: _ =>
      exact fun _ => EvalM.maintains_fail _

theorem maintains_quinary {work : Evaluator → Atom → Atom → Atom → Atom → Atom → EvalM Atom}
    (works : ∀ a b c d e, Works inv (fun evaluator => work evaluator a b c d e) [a, b, c, d, e]) :
    (quinary work).Maintains inv := by
  intro evaluator maintains base arguments
  match arguments with
  | [a, b, c, d, e] => exact works a b c d e evaluator maintains base
  | [] | [_] | [_, _] | [_, _, _] | [_, _, _, _] | _ :: _ :: _ :: _ :: _ :: _ :: _ =>
      exact fun _ => EvalM.maintains_fail _

/-- A result that keeps no secret: it is an atom that programs get hold of when the arguments
are. -/
theorem works_lift {result : Except EvalError Atom} {arguments : List Atom}
    (yields : ∀ base, (∀ argument ∈ arguments, inv.atom base argument) →
      Yields (inv.atom base) result) :
    Works inv (fun _ => liftM result) arguments := by
  intro evaluator _ base known
  have holds := yields base known
  cases result with
  | error error => exact maintains_throw _
  | ok value => exact maintains_pure (holds value rfl)

end Native

namespace Builtin

variable {inv : Invariant}

/-! ## Results -/

/-- Results that are a leaf without a handle. -/
def YieldsLeaf (result : Except EvalError Atom) : Prop :=
  Yields (fun atom => ∃ value, atom = .leaf .plain value ∧ value.handle? = none) result

theorem yieldsLeaf_ok {value : Leaf} (noHandle : value.handle? = none) :
    YieldsLeaf (.ok (.leaf .plain value)) :=
  .ok ⟨value, rfl, noHandle⟩

theorem YieldsLeaf.known {result : Except EvalError Atom} (leaf : YieldsLeaf result) (base : Heap) :
    Yields (inv.atom base) result := by
  refine leaf.imp ?_
  rintro _ ⟨value, rfl, noHandle⟩
  exact inv.leaf noHandle

theorem maintains_leafUnary {work : Atom → Except EvalError Atom}
    (leaf : ∀ a, YieldsLeaf (work a)) :
    (Native.pureUnary work).Maintains inv :=
  Native.maintains_unary fun a => Native.works_lift fun base _ => (leaf a).known base

theorem maintains_leafBinary {work : Atom → Atom → Except EvalError Atom}
    (leaf : ∀ a b, YieldsLeaf (work a b)) : (Native.pureBinary work).Maintains inv :=
  Native.maintains_binary fun a b => Native.works_lift fun base _ => (leaf a b).known base

theorem maintains_leafTernary {work : Atom → Atom → Atom → Except EvalError Atom}
    (leaf : ∀ a b c, YieldsLeaf (work a b c)) : (Native.pureTernary work).Maintains inv :=
  Native.maintains_ternary fun a b c => Native.works_lift fun base _ => (leaf a b c).known base

theorem leaf_stringToToken (text : Atom) : YieldsLeaf (stringToToken text) :=
  (Yields.any _).bind fun _ _ => yieldsLeaf_ok rfl

theorem leaf_tokenToString (token : Atom) : YieldsLeaf (tokenToString token) :=
  (Yields.any _).bind fun _ _ => yieldsLeaf_ok rfl

theorem leaf_conjunction (values : Atom) : YieldsLeaf (conjunction values) :=
  (Yields.any _).bind fun _ _ => yieldsLeaf_ok rfl

theorem leaf_equal (values : Atom) : YieldsLeaf (equal values) :=
  (Yields.any _).bind fun _ _ => yieldsLeaf_ok rfl

theorem leaf_length (value : Atom) : YieldsLeaf (length value) := by
  unfold length
  split
  · exact yieldsLeaf_ok rfl
  · exact yieldsLeaf_ok rfl
  · exact .error _

theorem leaf_sum (values : Atom) : YieldsLeaf (sum values) := by
  refine (Yields.any _).bind fun _ _ => (Yields.any _).bind fun numbers _ => ?_
  split
  · exact yieldsLeaf_ok rfl
  · exact (Yields.any _).bind fun _ _ => yieldsLeaf_ok rfl

theorem leaf_arithmetic (operator : String) (integer : Integer → Integer → Except EvalError Integer)
    (decimal : Decimal → Decimal → Decimal) (a b : Atom) :
    YieldsLeaf (arithmetic operator integer decimal a b) := by
  refine (Yields.any _).bind fun _ _ => (Yields.any _).bind fun _ _ => ?_
  split
  · exact (Yields.any _).bind fun _ _ => yieldsLeaf_ok rfl
  · exact yieldsLeaf_ok rfl

theorem leaf_comparison (operator : String) (integer : Int → Int → Bool)
    (decimal : Decimal → Decimal → Bool) (a b : Atom) :
    YieldsLeaf (comparison operator integer decimal a b) := by
  refine (Yields.any _).bind fun _ _ => (Yields.any _).bind fun _ _ => ?_
  split <;> exact yieldsLeaf_ok rfl

theorem leaf_stringLength (text : Atom) : YieldsLeaf (stringLength text) :=
  (Yields.any _).bind fun _ _ => yieldsLeaf_ok rfl

theorem leaf_stringIndex (text index : Atom) : YieldsLeaf (stringIndex text index) := by
  refine (Yields.any _).bind fun _ _ => (Yields.any _).bind fun _ _ => ?_
  split
  · exact yieldsLeaf_ok rfl
  · exact .error _

theorem leaf_toCharacter (code : Atom) : YieldsLeaf (toCharacter code) := by
  refine (Yields.any _).bind fun _ _ => ?_
  split
  · exact yieldsLeaf_ok rfl
  · exact .error _

theorem leaf_stringPart (text start length : Atom) : YieldsLeaf (stringPart text start length) :=
  (Yields.any _).bind fun _ _ => (Yields.any _).bind fun _ _ => (Yields.any _).bind fun _ _ =>
    yieldsLeaf_ok rfl

/-! ## Arguments and their items -/

section Items

variable {base : Heap} {a b c : Atom}

theorem yields_toInteger (known : inv.atom base a) : Yields (inv.atom base) (toInteger a) := by
  unfold toInteger
  split
  · exact .ok known
  · exact .ok (inv.leaf rfl)
  · split
    · exact .ok (inv.leaf rfl)
    · exact .error _
  · exact .error _

theorem yields_itemAt {α : Type} {property : α → Prop} (function : String) {items : List α}
    (holds : ∀ item ∈ items, property item) (index : Integer) :
    Yields property (itemAt function items index) := by
  unfold itemAt
  dsimp only
  split
  · rename_i item found
    refine .ok (holds item ?_)
    split at found
    · exact List.mem_of_getElem? found
    · cases found
  · exact .error _

theorem yields_indexGet (known : inv.atom base a) : Yields (inv.atom base) (indexGet a b) := by
  refine (Yields.any _).bind fun index _ => ?_
  split
  · exact yields_itemAt _ (inv.item known) index
  · exact (Yields.any _).bind fun _ _ => .ok (inv.leaf rfl)
  · exact .error _

theorem yields_replaceAt (list : inv.atom base a) (value : inv.atom base c) :
    Yields (inv.atom base) (replaceAt a b c) := by
  refine (ArgumentPlace.yields_list _ list).bind fun items known =>
    (Yields.any _).bind fun index _ =>
    (Yields.any _).bind fun _ _ => .ok (inv.list fun item mem => ?_)
  rcases List.mem_or_eq_of_mem_set mem with before | rfl
  · exact known item before
  · exact value

theorem yields_last (list : inv.atom base a) : Yields (inv.atom base) (last a) := by
  refine (ArgumentPlace.yields_list _ list).bind fun items known => .ok ?_
  cases found : items.getLast? with
  | none => exact inv.nil base
  | some item => exact known item (List.mem_of_getLast? found)

theorem yields_reverse (list : inv.atom base a) : Yields (inv.atom base) (reverse a) :=
  (ArgumentPlace.yields_list _ list).bind fun _ known => .ok (inv.list fun item mem =>
    known item (List.mem_reverse.mp mem))

theorem yields_groupedPairs {items : List Atom} (known : ∀ item ∈ items, inv.atom base item) :
    ∀ pair ∈ groupedPairs items, inv.atom base pair := by
  unfold groupedPairs
  split
  · have inside := inv.item (known _ List.mem_cons_self)
    split
    · exact nofun
    · exact inside
    · exact known
  · exact known

theorem yields_bindingPair (function : String) (position : Nat) (known : inv.atom base a) :
    Yields (fun binding => inv.atom base binding.2) (bindingPair function position a) := by
  unfold bindingPair
  split
  · split
    · exact .ok (items_of_list? known ‹_› _ (by simp))
    · exact .error _
  · exact .error _

theorem yields_bindingPairsFrom (function : String) (position : Nat) {pairs : List Atom}
    (known : ∀ pair ∈ pairs, inv.atom base pair) :
    Yields ((Kind.fields inv).holds base) (bindingPairsFrom function position pairs) := by
  induction pairs generalizing position with
  | nil => exact .ok (List.forall_mem_nil _)
  | cons pair pairs ih =>
      obtain ⟨first, others⟩ := List.forall_mem_cons.mp known
      exact (yields_bindingPair function position first).bind fun binding atom =>
        (ih (position + 1) others).bind fun bindings atoms =>
          .ok (List.forall_mem_cons.mpr ⟨atom, atoms⟩)

theorem yields_bindingPairs (function : String) {items : List Atom}
    (known : ∀ item ∈ items, inv.atom base item) :
    Yields ((Kind.fields inv).holds base) (bindingPairs function items) :=
  yields_bindingPairsFrom function 1 (yields_groupedPairs known)

end Items

/-! ## Code and numbers -/

theorem works_parse (reads : inv.Reads) (text : Atom) :
    Native.Works inv (fun _ => parse text) [text] := by
  intro evaluator _ base _
  refine EvalM.maintains_lift (Yields.any _) fun text _ => ?_
  have reading : EvalM.Maintains inv.parsed base
      (EvalM.onHeap fun heap => (Source.anonymous text).read heap) :=
    EvalM.maintains_onHeap fun after _ kept => reads after (.anonymous text) kept
  refine reading.bind fun after _ result known => ?_
  cases result with
  | ok atom => exact maintains_pure (known atom rfl)
  | error error => exact EvalM.maintains_fail _

theorem works_eval (a : Atom) : Native.Works inv (fun evaluator => evaluator.eval a) [a] :=
  fun _ maintains base known => maintains base a (known a List.mem_cons_self)

/-- An action that works beside the heap and the scopes. -/
theorem maintains_aside {α : Type} {values : inv.Kind α} {base : Heap} {action : EvalM α}
    (aside : ∀ machine, (outcome action machine).2.heap = machine.heap ∧
      (outcome action machine).2.scope = machine.scope)
    (known : ∀ machine, Yields (values.holds base) (outcome action machine).1) :
    EvalM.Maintains values base action := by
  intro machine later kept
  obtain ⟨heap, scope⟩ := aside machine
  unfold Machine.Obeys
  rw [heap, scope]
  exact ⟨inv.refl _, kept, fun value given => values.mono later (known machine value given)⟩

theorem maintains_draw {base : Heap} (least bound : Integer) :
    EvalM.Maintains (.any inv Integer) base (EvalM.draw least bound) :=
  maintains_aside (fun _ => ⟨rfl, rfl⟩) fun _ => .any _

theorem works_random (least bound : Atom) :
    Native.Works inv (fun _ => random least bound) [least, bound] := by
  intro evaluator _ base _
  refine EvalM.maintains_lift (Yields.any _) fun least _ =>
    EvalM.maintains_lift (Yields.any _) fun bound _ => ?_
  split
  · exact EvalM.maintains_fail _
  · split
    · exact maintains_pure (inv.leaf rfl)
    · refine (maintains_draw least bound).bind fun after _ value _ => ?_
      exact maintains_pure (inv.leaf rfl)

/-! ## Choice and repetition -/

theorem works_choose (condition yes no : Atom) :
    Native.Works inv (fun evaluator => choose evaluator condition yes no) [condition, yes, no] := by
  intro evaluator maintains base known
  refine maintains base _ ?_
  split <;> exact known _ (by simp)

theorem maintains_selectFrom {evaluator : Evaluator} (maintains : evaluator.Maintains inv)
    {base : Heap} (position : Nat) {branches : List Atom}
    (known : ∀ branch ∈ branches, inv.atom base branch) :
    EvalM.Maintains (.atoms inv) base (selectFrom evaluator position branches) := by
  induction branches generalizing base position with
  | nil => exact maintains_pure (inv.nil base)
  | cons branch branches ih =>
      obtain ⟨first, others⟩ := List.forall_mem_cons.mp known
      simp only [selectFrom]
      split
      · rename_i condition body found
        have parts := items_of_list? first found
        refine (maintains base condition (parts _ (by simp))).bind fun after later holds _ => ?_
        split
        · exact maintains after body (inv.atom_mono later (parts _ (by simp)))
        · exact ih _ fun branch mem => inv.atom_mono later (others branch mem)
      · exact EvalM.maintains_fail _

theorem works_select (branches : Atom) :
    Native.Works inv (fun evaluator => select evaluator branches) [branches] := by
  intro evaluator maintains base known
  exact EvalM.maintains_lift (ArgumentPlace.yields_list _ (known _ List.mem_cons_self))
    fun _ known => maintains_selectFrom maintains 1 known

theorem works_repeatWhile (condition body : Atom) :
    Native.Works inv (fun evaluator => repeatWhile evaluator condition body) [condition, body] := by
  intro evaluator maintains base known
  change EvalM.Maintains _ base (whileLoop evaluator condition body evaluator.rounds)
  generalize evaluator.rounds = rounds
  induction rounds generalizing base with
  | zero => exact maintains_throw _
  | succ rounds ih =>
      refine (maintains base condition (known _ (by simp))).bind fun after later holds _ => ?_
      split
      · have known argument mem := inv.atom_mono later (known argument mem)
        refine (maintains after body (known _ (by simp))).bind fun last grows _ _ => ?_
        exact ih last fun argument mem => inv.atom_mono grows (known argument mem)
      · exact maintains_pure (inv.nil after)

/-! ## Text -/

theorem works_format (template values : Atom) :
    Native.Works inv (fun _ => format template values) [template, values] := by
  intro evaluator _ base _
  refine EvalM.maintains_lift (Yields.any _) fun template _ => EvalM.maintains_lift (Yields.any _)
    fun values _ => EvalM.maintains_heap fun heap _ _ => ?_
  split
  · exact maintains_pure (inv.leaf rfl)
  · exact EvalM.maintains_fail _

/-! ## Functions and scopes -/

theorem works_makeFunction (formals body : Atom) :
    Native.Works inv (fun _ => makeFunction formals body) [formals, body] := by
  intro evaluator _ base known
  refine EvalM.maintains_lift (Yields.any _) fun formals _ => ?_
  split
  · exact EvalM.maintains_fail _
  · refine EvalM.maintains_scope.bind fun after later scope isScope => ?_
    have body := inv.atom_mono later (known body (by simp))
    exact (EvalM.maintains_allocClosure body isScope).map fun _ _ _ known => known

theorem works_setScope (allowed : inv.Open) (function scope : Atom) :
    Native.Works inv (fun _ => setScope function scope) [function, scope] := by
  intro evaluator _ base known
  refine EvalM.maintains_lift (ArgumentPlace.yields_functionId _ (known function (by simp)))
    fun id isFunction =>
      EvalM.maintains_lift (ArgumentPlace.yields_record _ (known scope (by simp)))
        fun scope isScope => ?_
  have changes := EvalM.maintains_modifyHeap fun after (later : inv.later base after) kept =>
    inv.setScope kept (allowed.function after id (inv.atom_mono later isFunction))
      (inv.atom_mono later isScope)
  exact changes.map fun after later _ _ => inv.atom_mono later (known function (by simp))

theorem works_assign (allowed : inv.Open) (name value : Atom) :
    Native.Works inv (fun _ => assign name value) [name, value] := by
  intro evaluator _ base known
  refine EvalM.maintains_lift (Yields.any _) fun name _ =>
    EvalM.maintains_heap_scope fun after scope later kept isScope => ?_
  have value := inv.atom_mono later (known value (by simp))
  split
  · exact EvalM.maintains_fail _
  · rename_i id found
    have declares := allowed.ownRecord (record_of_declaring? kept isScope found)
    exact (EvalM.maintains_define declares name value).map fun _ grows _ _ =>
      inv.atom_mono grows value

theorem works_openScope (operands : Atom) :
    Native.Works inv (fun evaluator => openScope evaluator operands) [operands] := by
  intro evaluator maintains base known
  refine EvalM.maintains_lift (ArgumentPlace.yields_list _ (known _ List.mem_cons_self))
    fun operands known => ?_
  split
  · exact EvalM.maintains_fail _
  · rename_i body found
    have body := known body (List.mem_of_getLast? found)
    refine EvalM.maintains_scope.bind fun after later parent isScope => ?_
    have bound := yields_bindingPairs "using" fun operand mem =>
      inv.atom_mono later (known operand ((List.dropLast_sublist _).subset mem))
    refine EvalM.maintains_lift bound fun bindings bindingsKnown => ?_
    refine (maintains.fields bindingsKnown).bind fun last grows fields evaluated => ?_
    have isScope := inv.atom_mono grows isScope
    refine (Evaluator.Maintains.openChild isScope evaluated).bind
      fun final growsOn scope owned => ?_
    have body := inv.atom_mono (inv.trans later (inv.trans grows growsOn)) body
    exact (maintains final _ body).withScope owned.1

/-! ## Fields -/

theorem maintains_memberName {evaluator : Evaluator} (maintains : evaluator.Maintains inv)
    {base : Heap} (function : String) {raw : Atom} (known : inv.atom base raw) :
    EvalM.Maintains (.any inv String) base (memberName evaluator function raw) := by
  unfold memberName
  split
  case' isTrue => refine (maintains base raw known).bind fun after _ name _ => ?_
  case' isFalse => rw [pure_bind]
  all_goals
    dsimp only
    split
    · exact maintains_pure trivial
    · exact EvalM.maintains_fail _

theorem works_setField (allowed : inv.Open) (object name value : Atom) :
    Native.Works inv (fun evaluator => setField evaluator object name value)
      [object, name, value] := by
  intro evaluator maintains base known
  refine EvalM.maintains_lift (ArgumentPlace.yields_record _ (known object (by simp)))
    fun id isRecord => ?_
  refine (maintains_memberName maintains "set" (known name (by simp))).bind
    fun after later name _ => ?_
  have value := inv.atom_mono later (known value (by simp))
  have owned := allowed.ownRecord (inv.atom_mono later isRecord)
  exact (EvalM.maintains_define owned name value).map fun _ grows _ _ => inv.atom_mono grows value

theorem maintains_storeBindings (allowed : inv.Open) {evaluator : Evaluator}
    (maintains : evaluator.Maintains inv) {base : Heap} {id : RecordId}
    (isRecord : inv.atom base (.record id)) {bindings : Fields}
    (known : (Kind.fields inv).holds base bindings) :
    EvalM.Maintains (.any inv Unit) base (storeBindings evaluator id bindings) := by
  refine maintains_forM fun after later binding mem => ?_
  refine (maintains after binding.2 (inv.atom_mono later (known binding mem))).bind
    fun last grows value known => ?_
  exact EvalM.maintains_define (allowed.ownRecord (inv.atom_mono (inv.trans later grows) isRecord))
    _ known

theorem works_setFields (allowed : inv.Open) (object pairs : Atom) :
    Native.Works inv (fun evaluator => setFields evaluator object pairs) [object, pairs] := by
  intro evaluator maintains base known
  refine EvalM.maintains_lift (ArgumentPlace.yields_record _ (known object (by simp)))
    fun id isRecord =>
      EvalM.maintains_lift (ArgumentPlace.yields_list _ (known pairs (by simp)))
        fun pairs pairsKnown =>
      EvalM.maintains_lift (yields_bindingPairs "multi-set" pairsKnown) fun bindings bound => ?_
  exact (maintains_storeBindings allowed maintains isRecord bound).map fun _ later _ _ =>
    inv.atom_mono later (known object (by simp))

theorem works_copyWith (object pairs : Atom) :
    Native.Works inv (fun evaluator => copyWith evaluator object pairs) [object, pairs] := by
  intro evaluator maintains base known
  refine EvalM.maintains_lift (ArgumentPlace.yields_record _ (known object (by simp)))
    fun id isRecord =>
      EvalM.maintains_lift (ArgumentPlace.yields_list _ (known pairs (by simp)))
        fun pairs pairsKnown =>
      EvalM.maintains_heap fun after later kept => ?_
  have copied := inv.value kept (inv.atom_mono later isRecord)
  have pairsKnown pair mem := inv.atom_mono later (pairsKnown pair mem)
  refine EvalM.maintains_lift (yields_bindingPairs "with" pairsKnown) fun bindings bound => ?_
  refine (maintains.fields bound).bind fun last grows fields evaluated => ?_
  have held : ∀ value ∈ ((after.record id).detached.insertAll fields).values, inv.atom last value :=
    Evaluator.Maintains.values_insertAll (fun value mem => inv.atom_mono grows (copied value mem))
      evaluated
  refine (EvalM.maintains_allocRecord held ?_).map fun _ _ _ known => known.1
  rw [Record.parent_insertAll]
  exact nofun

theorem works_getField (object name : Atom) :
    Native.Works inv (fun evaluator => getField evaluator object name) [object, name] := by
  intro evaluator maintains base known
  refine EvalM.maintains_lift (ArgumentPlace.yields_record _ (known object (by simp)))
    fun id isRecord => ?_
  refine (maintains_memberName maintains "get" (known name (by simp))).bind
    fun after later name _ => ?_
  refine EvalM.maintains_heap fun last grows kept => ?_
  split
  · rename_i value found
    refine maintains_pure (inv.value kept ?_ value (Record.mem_values_of_get? found))
    exact inv.atom_mono (inv.trans later grows) isRecord
  · exact EvalM.maintains_fail _

/-- A record may be changed to hold less and to have another parent. -/
theorem maintains_modifyRecord (allowed : inv.Open) {base : Heap} {id : RecordId}
    (isRecord : inv.atom base (.record id)) (change : Record → Record)
    (values : ∀ record, (change record).values ⊆ record.values)
    (parent : ∀ after, inv.later base after → inv.heap after →
      ∀ parent ∈ (change (after.record id)).parent, inv.atom after (.record parent))
    (literal : ∀ record, (change record).literal = record.literal) :
    EvalM.Maintains (.any inv Unit) base
      (EvalM.modifyHeap fun heap => heap.modifyRecord id change) := by
  refine EvalM.maintains_modifyHeap fun after later kept => ?_
  have isRecord := inv.atom_mono later isRecord
  exact inv.modifyRecord kept (allowed.record after id isRecord)
    (fun value mem => inv.value kept isRecord value (values _ mem)) (parent after later kept)
      (literal _)

theorem works_deleteField (allowed : inv.Open) (object name : Atom) :
    Native.Works inv (fun evaluator => deleteField evaluator object name) [object, name] := by
  intro evaluator maintains base known
  refine EvalM.maintains_lift (ArgumentPlace.yields_record _ (known object (by simp)))
    fun id isRecord => ?_
  refine (maintains_memberName maintains "delete" (known name (by simp))).bind
    fun after later name _ => ?_
  refine EvalM.maintains_heap fun last grows kept => ?_
  have isRecord := inv.atom_mono (inv.trans later grows) isRecord
  have old : inv.atom last (((last.record id).get? name).getD .nil) := by
    cases found : (last.record id).get? name with
    | none => exact inv.nil last
    | some value => exact inv.value kept isRecord value (Record.mem_values_of_get? found)
  have erases := maintains_modifyRecord allowed isRecord (·.erase name)
    (fun record value mem => Record.mem_values_erase mem)
    (fun final growsOn kept => inv.parent kept (inv.atom_mono growsOn isRecord)) fun _ => rfl
  exact erases.map fun _ growsOn _ _ => inv.atom_mono growsOn old

theorem works_setParent (allowed : inv.Open) (object parent : Atom) :
    Native.Works inv (fun _ => setParent object parent) [object, parent] := by
  intro evaluator _ base known
  refine EvalM.maintains_lift (ArgumentPlace.yields_record _ (known object (by simp)))
    fun id isRecord => ?_
  have links (parent : Option RecordId) (known' : ∀ id ∈ parent, inv.atom base (.record id)) :
      EvalM.Maintains (.atoms inv) base (do
        EvalM.modifyHeap fun heap => heap.modifyRecord id fun record => { record with parent }
        return object) := by
    have changes := maintains_modifyRecord allowed isRecord
      (fun record => { record with parent }) (fun _ => List.Subset.refl _)
      (fun after later _ id mem => inv.atom_mono later (known' id mem)) fun _ => rfl
    exact changes.map fun _ later _ _ => inv.atom_mono later (known object (by simp))
  dsimp only
  split
  · exact links none (by simp)
  · refine EvalM.maintains_lift (ArgumentPlace.yields_record _ (known parent (by simp)))
      fun parent isParent => links (some parent) fun id same => ?_
    cases same
    exact isParent

/-! ## Lists -/

theorem maintains_evaluateTimes {evaluator : Evaluator} (maintains : evaluator.Maintains inv)
    {base : Heap} {code : Atom} (codeKnown : inv.atom base code) (count : Nat) {values : List Atom}
    (known : ∀ value ∈ values, inv.atom base value) :
    EvalM.Maintains (Kind.atoms inv).list base (evaluateTimes evaluator code count values) := by
  induction count generalizing base values with
  | zero => exact maintains_pure fun value mem => known value (List.mem_reverse.mp mem)
  | succ count ih =>
      refine (maintains base code codeKnown).bind fun after later value isValue => ?_
      refine ih (inv.atom_mono later codeKnown)
        (List.forall_mem_cons.mpr ⟨isValue, fun other mem => ?_⟩)
      exact inv.atom_mono later (known other mem)

theorem works_array (count code : Atom) :
    Native.Works inv (fun evaluator => array evaluator count code) [count, code] := by
  intro evaluator maintains base known
  refine EvalM.maintains_lift (Yields.any _) fun count _ => ?_
  exact (maintains_evaluateTimes maintains (known code (by simp)) _ (List.forall_mem_nil _)).map
    fun _ _ _ known => inv.list known

/-! ## Traversals -/

section Traversal

variable {evaluator : Evaluator} (maintains : evaluator.Maintains inv) {base : Heap}
  {scope : RecordId} (owned : (Kind.ownRecord inv).holds base scope)
include maintains owned

theorem maintains_evaluateFor (name : String) {code item : Atom} (codeKnown : inv.atom base code)
    (itemKnown : inv.atom base item) :
    EvalM.Maintains (.atoms inv) base (evaluateFor evaluator scope name code item) :=
  (EvalM.maintains_define owned name itemKnown).bind fun after later _ _ =>
    maintains after code (inv.atom_mono later codeKnown)

theorem maintains_mapGenerated (name : String) {next code : Atom} (nextKnown : inv.atom base next)
    (codeKnown : inv.atom base code) (rounds : Nat) {values : List Atom}
    (known : ∀ value ∈ values, inv.atom base value) :
    EvalM.Maintains (Kind.atoms inv).list base
      (mapGenerated evaluator scope name next code rounds values) := by
  induction rounds generalizing base values with
  | zero => exact maintains_throw _
  | succ rounds ih =>
      refine (maintains base next nextKnown).bind fun after later item isItem => ?_
      have owned := (Kind.ownRecord inv).mono later owned
      refine (EvalM.maintains_define owned name isItem).bind fun last grows _ _ => ?_
      have further {atom : Atom} (known : inv.atom base atom) : inv.atom last atom :=
        inv.atom_mono (inv.trans later grows) known
      split
      · exact maintains_pure fun value mem => further (known value (List.mem_reverse.mp mem))
      · refine (maintains last code (further codeKnown)).bind fun final growsOn value isValue => ?_
        refine ih ((Kind.ownRecord inv).mono (inv.trans grows growsOn) owned)
          (inv.atom_mono growsOn (further nextKnown)) (inv.atom_mono growsOn (further codeKnown)) ?_
        refine List.forall_mem_cons.mpr ⟨isValue, fun other mem => ?_⟩
        exact inv.atom_mono growsOn (further (known other mem))

theorem maintains_countUp (name : String) {code : Atom} (codeKnown : inv.atom base code)
    (count : Nat) (current : Int) {last : Atom} (lastKnown : inv.atom base last) :
    EvalM.Maintains (.atoms inv) base (countUp evaluator scope name code count current last) := by
  induction count generalizing base current last with
  | zero => exact maintains_pure lastKnown
  | succ count ih =>
      refine (maintains_evaluateFor maintains owned name codeKnown (inv.leaf rfl)).bind
        fun after later value known => ?_
      exact ih ((Kind.ownRecord inv).mono later owned) (inv.atom_mono later codeKnown) _ known

end Traversal

theorem works_map (name list code : Atom) :
    Native.Works inv (fun evaluator => map evaluator name list code) [name, list, code] := by
  intro evaluator maintains base known
  refine EvalM.maintains_lift (Yields.any _) fun name _ =>
    EvalM.maintains_lift (ArgumentPlace.yields_list _ (known list (by simp)))
      fun items itemsKnown => ?_
  refine EvalM.Maintains.withChildScope fun after later scope owned => ?_
  have each : EvalM.Maintains (Kind.atoms inv).list after
      (items.mapM (evaluateFor evaluator scope name code)) := by
    refine maintains_mapM fun last grows item mem => ?_
    have further {atom : Atom} (known : inv.atom base atom) : inv.atom last atom :=
      inv.atom_mono (inv.trans later grows) known
    exact maintains_evaluateFor maintains ((Kind.ownRecord inv).mono grows owned) name
      (further (known code (by simp))) (further (itemsKnown item mem))
  exact each.map fun _ _ _ known => inv.list known

theorem works_mapWhile (name next code : Atom) :
    Native.Works inv (fun evaluator => mapWhile evaluator name next code) [name, next, code] := by
  intro evaluator maintains base known
  refine EvalM.maintains_lift (Yields.any _) fun name _ => ?_
  refine EvalM.Maintains.withChildScope fun after later scope owned => ?_
  refine (EvalM.maintains_define owned name (inv.nil after)).bind fun last grows _ _ => ?_
  have further {atom : Atom} (known : inv.atom base atom) : inv.atom last atom :=
    inv.atom_mono (inv.trans later grows) known
  exact (maintains_mapGenerated maintains ((Kind.ownRecord inv).mono grows owned) name
    (further (known next (by simp))) (further (known code (by simp))) _ (List.forall_mem_nil _)).map
      fun _ _ _ known => inv.list known

theorem works_fold (accumulator name first list code : Atom) :
    Native.Works inv (fun evaluator => fold evaluator accumulator name first list code)
      [accumulator, name, first, list, code] := by
  intro evaluator maintains base known
  refine EvalM.maintains_lift (Yields.any _) fun accumulator _ =>
    EvalM.maintains_lift (Yields.any _) fun name _ =>
    EvalM.maintains_lift (ArgumentPlace.yields_list _ (known list (by simp)))
      fun items itemsKnown => ?_
  refine EvalM.Maintains.withChildScope fun after later scope owned => ?_
  refine maintains_foldlM (inv.atom_mono later (known first (by simp)))
    fun last grows value isValue item mem => ?_
  have owned := (Kind.ownRecord inv).mono grows owned
  refine (EvalM.maintains_define owned accumulator isValue).bind fun final growsOn _ _ => ?_
  have further {atom : Atom} (known : inv.atom base atom) : inv.atom final atom :=
    inv.atom_mono (inv.trans later (inv.trans grows growsOn)) known
  exact maintains_evaluateFor maintains ((Kind.ownRecord inv).mono growsOn owned) name
    (further (known code (by simp))) (further (itemsKnown item mem))

theorem works_filter (name list code : Atom) :
    Native.Works inv (fun evaluator => filter evaluator name list code) [name, list, code] := by
  intro evaluator maintains base known
  refine EvalM.maintains_lift (Yields.any _) fun name _ =>
    EvalM.maintains_lift (ArgumentPlace.yields_list _ (known list (by simp)))
      fun items itemsKnown => ?_
  refine EvalM.Maintains.withChildScope fun after later scope owned => ?_
  have passed : EvalM.Maintains (Kind.atoms inv).list after (items.filterM fun item =>
      return (← evaluateFor evaluator scope name code item).isTrue) := by
    refine maintains_filterM (fun item mem => inv.atom_mono later (itemsKnown item mem))
      fun last grows item mem => ?_
    have further {atom : Atom} (known : inv.atom base atom) : inv.atom last atom :=
      inv.atom_mono (inv.trans later grows) known
    exact (maintains_evaluateFor maintains ((Kind.ownRecord inv).mono grows owned) name
      (further (known code (by simp))) (further (itemsKnown item mem))).map fun _ _ _ _ => trivial
  exact passed.map fun _ _ _ known => inv.list known

theorem works_forRange (name first bound code : Atom) :
    Native.Works inv (fun evaluator => forRange evaluator name first bound code)
      [name, first, bound, code] := by
  intro evaluator maintains base known
  refine EvalM.maintains_lift (Yields.any _) fun name _ => EvalM.maintains_lift (Yields.any _)
    fun first _ => EvalM.maintains_lift (Yields.any _) fun bound _ => ?_
  refine EvalM.Maintains.withChildScope fun after later scope owned => ?_
  exact maintains_countUp maintains owned name (inv.atom_mono later (known code (by simp))) _ _
    (inv.nil after)

/-! ## Storage -/

theorem works_serialize (root : Atom) : Native.Works inv (fun _ => serialize root) [root] := by
  intro evaluator _ base _
  exact EvalM.maintains_lift (Yields.any _) fun id _ => EvalM.maintains_heap fun heap _ _ =>
    EvalM.maintains_lift (Yields.any _) fun _ _ => maintains_pure (inv.leaf rfl)

theorem works_writeFile (path text : Atom) :
    Native.Works inv (fun _ => writeFile path text) [path, text] := by
  intro evaluator _ base known
  refine EvalM.maintains_lift (Yields.any _) fun path _ => EvalM.maintains_lift (Yields.any _)
    fun content _ => ?_
  refine maintains_aside (fun machine => ?_) fun machine => ?_
  all_goals
    rw [outcome_bind_of_ok (outcome_get machine)]
    cases machine.files.write path content
  · exact ⟨rfl, rfl⟩
  · exact ⟨rfl, rfl⟩
  · exact .error _
  · exact .ok (known text (by simp))

theorem works_readFile (path : Atom) : Native.Works inv (fun _ => readFile path) [path] := by
  intro evaluator _ base _
  refine EvalM.maintains_lift (Yields.any _) fun path _ => maintains_get fun machine _ _ => ?_
  split
  · exact maintains_pure (inv.leaf rfl)
  · exact EvalM.maintains_fail _

end Builtin

/-! ## Packs -/

namespace Pack

open Builtin Native

/-- The declarations of the builtins that change objects which are there already. -/
def mutators : List String :=
  ["set-decl-scope func scope", "let 'name value", "set object 'name value",
    "multi-set object '*pairs", "delete object 'name", "set-parent object parent"]

variable {inv : Invariant}

theorem maintains_core (reads : inv.Reads) :
    ∀ entry ∈ core, (entry.1 ∈ mutators → inv.Open) → entry.2.Maintains inv := by
  simp only [core, List.forall_mem_cons, List.not_mem_nil, false_implies, implies_true, and_true]
  refine ⟨?_, ?_, ?_, ?_, ?_, ?_, ?_, ?_, ?_, ?_, ?_, ?_, ?_, ?_, ?_, ?_, ?_, ?_, ?_, ?_, ?_, ?_,
    ?_, ?_, ?_, ?_, ?_, ?_, ?_, ?_, ?_, ?_⟩ <;> intro allowed
  · exact maintains_unary (works_parse reads)
  · exact maintains_unary works_eval
  · exact maintains_leafUnary leaf_stringToToken
  · exact maintains_leafUnary leaf_tokenToString
  · exact maintains_unary fun a => works_lift fun _ known => yields_toInteger (known a (by simp))
  · exact maintains_binary works_random
  · exact maintains_leafUnary leaf_conjunction
  · exact maintains_leafUnary leaf_equal
  · exact maintains_ternary works_choose
  · exact maintains_unary works_select
  · exact maintains_binary works_repeatWhile
  · exact maintains_binary works_format
  · exact maintains_binary works_makeFunction
  · exact maintains_binary (works_setScope (allowed (by decide)))
  · exact maintains_binary (works_assign (allowed (by decide)))
  · exact maintains_unary works_openScope
  · exact maintains_ternary (works_setField (allowed (by decide)))
  · exact maintains_binary (works_setFields (allowed (by decide)))
  · exact maintains_binary works_copyWith
  · exact maintains_binary works_getField
  · exact maintains_binary (works_deleteField (allowed (by decide)))
  · exact maintains_binary (works_setParent (allowed (by decide)))
  · exact maintains_unary fun a => works_lift fun _ known => .ok (known a (by simp))
  · exact maintains_leafUnary leaf_length
  · exact maintains_binary fun a _ => works_lift fun _ known => yields_indexGet (known a (by simp))
  · exact maintains_ternary fun a _ c => works_lift fun _ known =>
      yields_replaceAt (known a (by simp)) (known c (by simp))
  · exact maintains_binary works_array
  · exact maintains_unary fun a => works_lift fun _ known => yields_last (known a (by simp))
  · exact maintains_unary fun a => works_lift fun _ known => yields_reverse (known a (by simp))
  · exact maintains_unary works_serialize
  · exact maintains_binary works_writeFile
  · exact maintains_unary works_readFile

theorem maintains_standard : ∀ entry ∈ standard, entry.2.Maintains inv := by
  simp only [standard, math, lists, strings, List.cons_append, List.nil_append,
    List.forall_mem_cons, List.not_mem_nil, false_implies, implies_true, and_true]
  refine ⟨?_, ?_, ?_, ?_, ?_, ?_, ?_, ?_, ?_, ?_, ?_, ?_, ?_, ?_, ?_⟩
  · exact maintains_leafUnary leaf_sum
  · exact maintains_leafBinary (leaf_arithmetic _ _ _)
  · exact maintains_leafBinary (leaf_arithmetic _ _ _)
  · exact maintains_leafBinary (leaf_arithmetic _ _ _)
  · exact maintains_leafBinary (leaf_comparison _ _ _)
  · exact maintains_leafBinary (leaf_comparison _ _ _)
  · exact maintains_ternary works_map
  · exact maintains_ternary works_mapWhile
  · exact maintains_quinary works_fold
  · exact maintains_ternary works_filter
  · exact maintains_quaternary works_forRange
  · exact maintains_leafUnary leaf_stringLength
  · exact maintains_leafBinary leaf_stringIndex
  · exact maintains_leafUnary leaf_toCharacter
  · exact maintains_leafTernary leaf_stringPart

/-- The builtins of the packs keep an invariant, those that change objects when all objects may
change. -/
theorem maintains_all (reads : inv.Reads) {entry : String × Native} (mem : entry ∈ all)
    (allowed : entry.1 ∈ mutators → inv.Open) : entry.2.Maintains inv :=
  (List.mem_append.mp mem).elim (fun mem => maintains_core reads entry mem allowed)
    (maintains_standard entry)

end Pack

end RecordLisp
