import RecordLisp.Proofs.Builtin.Drawn
import RecordLisp.Proofs.Eval.Composed

/-!
# Builtins are composed

Every builtin of the core and of the standard packs is put together in the ways that `Composed`
lists. The two loops without a bound of their own, over a condition and over a generator, ask for a
value in every round; all other repetitions go through a list or up to a number that is known before
the first round.
-/

namespace RecordLisp

open Effect Evaluator

/-! ## Numbers of arguments -/

namespace Native

theorem composed_unary {work : Evaluator → Atom → EvalM Atom}
    (works : ∀ a, Evaluator.Composed fun evaluator => work evaluator a) :
    (unary work).Composed := by
  intro arguments
  match arguments with
  | [a] => exact works a
  | [] | _ :: _ :: _ => exact .fail _

theorem composed_binary {work : Evaluator → Atom → Atom → EvalM Atom}
    (works : ∀ a b, Evaluator.Composed fun evaluator => work evaluator a b) :
    (binary work).Composed := by
  intro arguments
  match arguments with
  | [a, b] => exact works a b
  | [] | [_] | _ :: _ :: _ :: _ => exact .fail _

theorem composed_ternary {work : Evaluator → Atom → Atom → Atom → EvalM Atom}
    (works : ∀ a b c, Evaluator.Composed fun evaluator => work evaluator a b c) :
    (ternary work).Composed := by
  intro arguments
  match arguments with
  | [a, b, c] => exact works a b c
  | [] | [_] | [_, _] | _ :: _ :: _ :: _ :: _ => exact .fail _

theorem composed_quaternary {work : Evaluator → Atom → Atom → Atom → Atom → EvalM Atom}
    (works : ∀ a b c d, Evaluator.Composed fun evaluator => work evaluator a b c d) :
    (quaternary work).Composed := by
  intro arguments
  match arguments with
  | [a, b, c, d] => exact works a b c d
  | [] | [_] | [_, _] | [_, _, _] | _ :: _ :: _ :: _ :: _ :: _ => exact .fail _

theorem composed_quinary {work : Evaluator → Atom → Atom → Atom → Atom → Atom → EvalM Atom}
    (works : ∀ a b c d e, Evaluator.Composed fun evaluator => work evaluator a b c d e) :
    (quinary work).Composed := by
  intro arguments
  match arguments with
  | [a, b, c, d, e] => exact works a b c d e
  | [] | [_] | [_, _] | [_, _, _] | [_, _, _, _] | _ :: _ :: _ :: _ :: _ :: _ :: _ => exact .fail _

theorem composed_pureUnary (work : Atom → Except EvalError Atom) : (pureUnary work).Composed :=
  composed_unary fun _ => .lift _

theorem composed_pureBinary (work : Atom → Atom → Except EvalError Atom) :
    (pureBinary work).Composed :=
  composed_binary fun _ _ => .lift _

theorem composed_pureTernary (work : Atom → Atom → Atom → Except EvalError Atom) :
    (pureTernary work).Composed :=
  composed_ternary fun _ _ _ => .lift _

end Native

namespace Builtin

/-! ## Code and numbers -/

theorem composed_parse (text : Atom) : Composed fun _ => parse text := by
  refine .bind (.lift _) fun text => .bind (.onHeap _) fun result => ?_
  cases result with
  | ok atom => exact .pure atom
  | error error => exact .fail _

theorem plain_draw (least bound : Integer) : (EvalM.draw least bound).Plain :=
  ⟨fun _ _ _ => rfl, fun _ => rfl, fun _ same => nomatch same⟩

theorem composed_random (least bound : Atom) : Composed fun _ => random least bound := by
  refine .bind (.lift _) fun least => .bind (.lift _) fun bound => ?_
  split
  · exact .fail _
  · split
    · exact .pure _
    · exact .bind (.plain (plain_draw least bound)) fun _ => .pure _

/-! ## Choice and repetition -/

theorem composed_choose (condition yes no : Atom) :
    Composed fun evaluator => choose evaluator condition yes no :=
  .eval _

theorem composed_selectFrom (position : Nat) (branches : List Atom) :
    Composed fun evaluator => selectFrom evaluator position branches := by
  induction branches generalizing position with
  | nil => exact .pure _
  | cons branch branches ih =>
      simp only [selectFrom]
      split
      · rename_i condition body _
        refine .bind (.eval condition) fun holds => ?_
        split
        · exact .eval body
        · exact ih (position + 1)
      · exact .fail _

theorem composed_select (branches : Atom) : Composed fun evaluator => select evaluator branches :=
  .bind (.lift _) fun _ => composed_selectFrom 1 _

/-- One round of a loop over a condition, after the condition. -/
def whileRound (body : Atom) (_ : Unit) (holds : Atom) (evaluator : Evaluator) :
    EvalM (Unit ⊕ Atom) :=
  if holds.isTrue then do
    let _ ← evaluator.eval body
    return .inl ()
  else return .inr .nil

theorem whileLoop_eq_loop (evaluator : Evaluator) (condition body : Atom) (rounds : Nat) :
    whileLoop evaluator condition body rounds =
      evaluator.loop (fun _ => condition) (whileRound body) rounds () := by
  induction rounds with
  | zero => rfl
  | succ rounds ih =>
      rw [whileLoop, Evaluator.loop, ih]
      congr 1
      funext holds
      unfold whileRound
      split <;> simp

theorem composed_repeatWhile (condition body : Atom) :
    Composed fun evaluator => repeatWhile evaluator condition body := by
  simp only [repeatWhile, whileLoop_eq_loop]
  refine .loop (fun _ => condition) () fun _ holds => ?_
  unfold whileRound
  split
  · exact .bind (.eval body) fun _ => .pure _
  · exact .pure _

/-! ## Text -/

theorem composed_format (template values : Atom) : Composed fun _ => format template values := by
  refine .bind (.lift _) fun template => .bind (.lift _) fun values =>
    .bind (.plain EvalM.plain_heap) fun heap => ?_
  split
  · exact .pure _
  · exact .fail _

/-! ## Functions and scopes -/

theorem composed_makeFunction (formals body : Atom) :
    Composed fun _ => makeFunction formals body := by
  refine .bind (.lift _) fun formals => ?_
  split
  · exact .fail _
  · exact .bind (.plain EvalM.plain_scope) fun scope => .bind (.onHeap _) fun id => .pure _

theorem composed_setScope (function scope : Atom) : Composed fun _ => setScope function scope :=
  .bind (.lift _) fun _ => .bind (.lift _) fun _ => .bind (.onHeap _) fun _ => .pure function

theorem composed_assign (name value : Atom) : Composed fun _ => assign name value := by
  refine .bind (.lift _) fun name => .bind (.plain EvalM.plain_heap) fun heap =>
    .bind (.plain EvalM.plain_scope) fun scope => ?_
  split
  · exact .fail _
  · exact .bind (.onHeap _) fun _ => .pure value

theorem composed_openScope (operands : Atom) :
    Composed fun evaluator => openScope evaluator operands := by
  refine .bind (.lift _) fun operands => ?_
  split
  · exact .fail _
  · rename_i body _
    exact .bind (.plain EvalM.plain_scope) fun parent => .bind (.lift _) fun bindings =>
      .bind (composed_fields bindings) fun fields =>
        .bind (.onHeap _) fun scope => .withScope scope (.eval body)

/-! ## Fields -/

theorem composed_memberName (function : String) (raw : Atom) :
    Composed fun evaluator => memberName evaluator function raw := by
  unfold memberName
  split
  case' isTrue => refine .bind (.eval raw) fun name => ?_
  case' isFalse => refine .bind (.pure raw) fun name => ?_
  all_goals
    dsimp only
    split
    · exact .pure _
    · exact .fail _

theorem composed_setField (object name value : Atom) :
    Composed fun evaluator => setField evaluator object name value :=
  .bind (.lift _) fun _ => .bind (composed_memberName "set" name) fun _ =>
    .bind (.onHeap _) fun _ => .pure value

theorem composed_storeBindings (id : RecordId) (bindings : Fields) :
    Composed fun evaluator => storeBindings evaluator id bindings :=
  .forM fun binding => .bind (.eval binding.2) fun _ => .onHeap _

theorem composed_setFields (object pairs : Atom) :
    Composed fun evaluator => setFields evaluator object pairs :=
  .bind (.lift _) fun id => .bind (.lift _) fun _ => .bind (.lift _) fun bindings =>
    .bind (composed_storeBindings id bindings) fun _ => .pure object

theorem composed_copyWith (object pairs : Atom) :
    Composed fun evaluator => copyWith evaluator object pairs :=
  .bind (.lift _) fun _ => .bind (.lift _) fun _ => .bind (.plain EvalM.plain_heap) fun _ =>
    .bind (.lift _) fun bindings => .bind (composed_fields bindings) fun _ =>
      .bind (.onHeap _) fun _ => .pure _

theorem composed_getField (object name : Atom) :
    Composed fun evaluator => getField evaluator object name := by
  refine .bind (.lift _) fun id => .bind (composed_memberName "get" name) fun name =>
    .bind (.plain EvalM.plain_heap) fun heap => ?_
  split
  · exact .pure _
  · exact .fail _

theorem composed_deleteField (object name : Atom) :
    Composed fun evaluator => deleteField evaluator object name :=
  .bind (.lift _) fun _ => .bind (composed_memberName "delete" name) fun _ =>
    .bind (.plain EvalM.plain_heap) fun _ => .bind (.onHeap _) fun _ => .pure _

theorem composed_setParent (object parent : Atom) : Composed fun _ => setParent object parent := by
  refine .bind (.lift _) fun id => ?_
  have links (parent : Option RecordId) : Composed fun _ => do
      EvalM.modifyHeap fun heap => heap.modifyRecord id fun record => { record with parent }
      return object :=
    .bind (.onHeap _) fun _ => .pure object
  dsimp only
  split
  · exact .bind (.pure none) links
  · exact .bind (.lift _) fun parent => .bind (.pure (some parent)) links

/-! ## Lists -/

theorem composed_evaluateTimes (code : Atom) (count : Nat) (values : List Atom) :
    Composed fun evaluator => evaluateTimes evaluator code count values := by
  induction count generalizing values with
  | zero => exact .pure _
  | succ count ih => exact .bind (.eval code) fun value => ih (value :: values)

theorem composed_array (count code : Atom) : Composed fun evaluator => array evaluator count code :=
  .bind (.lift _) fun count => .bind (composed_evaluateTimes code count.val.toNat []) fun _ =>
    .pure _

theorem composed_evaluateFor (scope : RecordId) (name : String) (code item : Atom) :
    Composed fun evaluator => evaluateFor evaluator scope name code item :=
  .bind (.onHeap _) fun _ => .eval code

theorem composed_map (name list code : Atom) :
    Composed fun evaluator => map evaluator name list code :=
  .bind (.lift _) fun name => .bind (.lift _) fun _ => .withChildScope fun scope =>
    .bind (.mapM fun item _ => composed_evaluateFor scope name code item) fun _ => .pure _

/-- One round of a loop over a generator, after the item. -/
def generatorRound (scope : RecordId) (name : String) (code : Atom) (values : List Atom)
    (item : Atom) (evaluator : Evaluator) : EvalM (List Atom ⊕ List Atom) := do
  EvalM.define scope name item
  if item.isNil then return .inr values.reverse
  else return .inl ((← evaluator.eval code) :: values)

theorem mapGenerated_eq_loop (evaluator : Evaluator) (scope : RecordId) (name : String)
    (next code : Atom) (rounds : Nat) (values : List Atom) :
    mapGenerated evaluator scope name next code rounds values =
      evaluator.loop (fun _ => next) (generatorRound scope name code) rounds values := by
  induction rounds generalizing values with
  | zero => rfl
  | succ rounds ih =>
      rw [mapGenerated, Evaluator.loop]
      congr 1
      funext item
      rw [generatorRound]
      split <;> simp [ih]

theorem composed_mapWhile (name next code : Atom) :
    Composed fun evaluator => mapWhile evaluator name next code := by
  refine .bind (.lift _) fun name => .withChildScope fun scope => .bind (.onHeap _) fun _ => ?_
  simp only [mapGenerated_eq_loop]
  refine .bind (.loop (fun _ => next) [] fun values item => .bind (.onHeap _) fun _ => ?_) fun _ =>
    .pure _
  split
  · exact .pure _
  · exact .bind (.eval code) fun _ => .pure _

theorem composed_fold (accumulator name first list code : Atom) :
    Composed fun evaluator => fold evaluator accumulator name first list code :=
  .bind (.lift _) fun _ => .bind (.lift _) fun name => .bind (.lift _) fun _ =>
    .withChildScope fun scope => .foldlM first fun _ item =>
      .bind (.onHeap _) fun _ => composed_evaluateFor scope name code item

theorem composed_filter (name list code : Atom) :
    Composed fun evaluator => filter evaluator name list code :=
  .bind (.lift _) fun name => .bind (.lift _) fun _ => .withChildScope fun scope =>
    .bind (.filterM fun item => .bind (composed_evaluateFor scope name code item) fun value =>
      .pure value.isTrue) fun _ => .pure _

theorem composed_countUp (scope : RecordId) (name : String) (code : Atom) (count : Nat)
    (current : Int) (last : Atom) :
    Composed fun evaluator => countUp evaluator scope name code count current last := by
  induction count generalizing current last with
  | zero => exact .pure last
  | succ count ih =>
      exact .bind (composed_evaluateFor scope name code _) fun last => ih (current + 1) last

theorem composed_forRange (name first bound code : Atom) :
    Composed fun evaluator => forRange evaluator name first bound code :=
  .bind (.lift _) fun name => .bind (.lift _) fun _ => .bind (.lift _) fun _ =>
    .withChildScope fun scope => composed_countUp scope name code _ _ _

/-! ## Storage -/

theorem composed_serialize (root : Atom) : Composed fun _ => serialize root :=
  .bind (.lift _) fun _ => .bind (.plain EvalM.plain_heap) fun _ => .bind (.lift _) fun _ => .pure _

/-- Writing a file once the path and the text are known. -/
theorem plain_write (path content : String) (text : Atom) :
    EvalM.Plain (do
      let machine ← get
      match machine.files.write path content with
      | .ok files =>
          set { machine with files }
          return text
      | .error fault => EvalM.fail (fileError path fault)) := by
  have unfolded (machine : Machine) :
      outcome (do
        let machine ← get
        match machine.files.write path content with
        | .ok files =>
            set { machine with files }
            return text
        | .error fault => EvalM.fail (fileError path fault) : EvalM Atom) machine =
      match machine.files.write path content with
      | .ok files => (.ok text, { machine with files })
      | .error fault => (.error (.fault (fileError path fault)), machine) := by
    rw [outcome_bind_of_ok (outcome_get machine)]
    cases machine.files.write path content <;> rfl
  refine ⟨fun machine gas gasLimit => ?_, fun machine => ?_, fun machine => ?_⟩
  all_goals simp only [unfolded]
  all_goals cases machine.files.write path content <;> simp

theorem composed_writeFile (path text : Atom) : Composed fun _ => writeFile path text :=
  .bind (.lift _) fun path => .bind (.lift _) fun content => .plain (plain_write path content text)

/-- Reading a file once the path is known. -/
theorem plain_read (path : String) :
    EvalM.Plain (do
      match (← get).files.read path with
      | .ok text => return .string text
      | .error fault => EvalM.fail (fileError path fault) : EvalM Atom) := by
  have unfolded (machine : Machine) :
      outcome (do
        match (← get).files.read path with
        | .ok text => return .string text
        | .error fault => EvalM.fail (fileError path fault) : EvalM Atom) machine =
      match machine.files.read path with
      | .ok text => (.ok (.string text), machine)
      | .error fault => (.error (.fault (fileError path fault)), machine) := by
    rw [outcome_bind_of_ok (outcome_get machine)]
    cases machine.files.read path <;> rfl
  refine ⟨fun machine gas gasLimit => ?_, fun machine => ?_, fun machine => ?_⟩
  all_goals simp only [unfolded]
  all_goals cases machine.files.read path <;> simp

theorem composed_readFile (path : Atom) : Composed fun _ => readFile path :=
  .bind (.lift _) fun path => .plain (plain_read path)

end Builtin

/-! ## Packs -/

namespace Pack

open Builtin Native

theorem composed_core : ∀ entry ∈ core, entry.2.Composed := by
  simp only [core, List.forall_mem_cons, List.not_mem_nil, false_implies, implies_true, and_true]
  refine ⟨?_, ?_, ?_, ?_, ?_, ?_, ?_, ?_, ?_, ?_, ?_, ?_, ?_, ?_, ?_, ?_, ?_, ?_, ?_, ?_, ?_, ?_,
    ?_, ?_, ?_, ?_, ?_, ?_, ?_, ?_, ?_, ?_⟩
  · exact composed_unary composed_parse
  · exact composed_unary .eval
  · exact composed_pureUnary _
  · exact composed_pureUnary _
  · exact composed_pureUnary _
  · exact composed_binary composed_random
  · exact composed_pureUnary _
  · exact composed_pureUnary _
  · exact composed_ternary composed_choose
  · exact composed_unary composed_select
  · exact composed_binary composed_repeatWhile
  · exact composed_binary composed_format
  · exact composed_binary composed_makeFunction
  · exact composed_binary composed_setScope
  · exact composed_binary composed_assign
  · exact composed_unary composed_openScope
  · exact composed_ternary composed_setField
  · exact composed_binary composed_setFields
  · exact composed_binary composed_copyWith
  · exact composed_binary composed_getField
  · exact composed_binary composed_deleteField
  · exact composed_binary composed_setParent
  · exact composed_pureUnary _
  · exact composed_pureUnary _
  · exact composed_pureBinary _
  · exact composed_pureTernary _
  · exact composed_binary composed_array
  · exact composed_pureUnary _
  · exact composed_pureUnary _
  · exact composed_unary composed_serialize
  · exact composed_binary composed_writeFile
  · exact composed_unary composed_readFile

theorem composed_standard : ∀ entry ∈ standard, entry.2.Composed := by
  simp only [standard, math, lists, strings, List.cons_append, List.nil_append,
    List.forall_mem_cons, List.not_mem_nil, false_implies, implies_true, and_true]
  refine ⟨?_, ?_, ?_, ?_, ?_, ?_, ?_, ?_, ?_, ?_, ?_, ?_, ?_, ?_, ?_⟩
  · exact composed_pureUnary _
  · exact composed_pureBinary _
  · exact composed_pureBinary _
  · exact composed_pureBinary _
  · exact composed_pureBinary _
  · exact composed_pureBinary _
  · exact composed_ternary composed_map
  · exact composed_ternary composed_mapWhile
  · exact composed_quinary composed_fold
  · exact composed_ternary composed_filter
  · exact composed_quaternary composed_forRange
  · exact composed_pureUnary _
  · exact composed_pureBinary _
  · exact composed_pureUnary _
  · exact composed_pureTernary _

end Pack

/-- The builtins of the packs are composed. -/
theorem Registry.DrawnFrom.composed {registry : Registry} (drawn : registry.DrawnFrom Pack.all) :
    registry.Composed := by
  intro builtin mem
  obtain ⟨declaration, entry⟩ := drawn builtin mem
  rcases List.mem_append.mp entry with core | standard
  · exact Pack.composed_core _ core
  · exact Pack.composed_standard _ standard

end RecordLisp
