import RecordLisp.Builtin.Pack
import RecordLisp.Eval.Basic
import RecordLisp.Proofs.Effect
import RecordLisp.Proofs.Heap.Slots

/-!
# Evaluation up to the limit on gas

Rules for evaluations that succeed unless they run out of gas. `Does` says what an action gives and
what it leaves in the heap, and that what another heap has in use is kept at every step, also where
the limit stops the action; steps taken, files and the source of random numbers play no part. Calls
of builtins come down to the values of their operands and the work of the builtin.
-/

namespace RecordLisp

open Effect

namespace EvalM

variable {α β : Type}

/-- An action that succeeds in a scope on any machine without a gas limit, with a value and a heap
that depend on the heap before alone. -/
def Succeeds (action : EvalM α) (scope : RecordId) (heap : Heap) (value : α) (after : Heap) :
    Prop :=
  ∀ machine : Machine, machine.gasLimit = none → machine.scope = scope → machine.heap = heap →
    ∃ steps, Gives action machine value { machine with heap := after, steps }

/-- An action that the limit on gas stops on a machine. All that `base` has in use is kept in the
heap that it leaves. -/
def RunsDry (base : Heap) (action : EvalM α) (machine : Machine) : Prop :=
  ∃ limit heap steps, machine.gasLimit = some limit ∧ base.Keeps heap ∧
    outcome action machine = (.error (.fault (.gasExhausted limit)), { machine with heap, steps })

/-- An action that succeeds in a scope, with a value and a heap that depend on the heap before
alone, unless the limit on gas stops it. All that `base` has in use is kept in either case. -/
def Does (base : Heap) (action : EvalM α) (scope : RecordId) (heap : Heap) (value : α)
    (after : Heap) : Prop :=
  base.Keeps heap → base.Keeps after ∧
    ∀ machine : Machine, machine.scope = scope → machine.heap = heap →
      (∃ steps, Gives action machine value { machine with heap := after, steps }) ∨
        RunsDry base action machine

section Rules

variable {base : Heap} {scope : RecordId} {heap middle after : Heap}

theorem Does.succeeds {action : EvalM α} {value : α}
    (does : Does base action scope heap value after)
    (kept : base.Keeps heap) : Succeeds action scope heap value after := by
  intro machine unlimited inScope same
  rcases (does kept).2 machine inScope same with given | ⟨_, _, _, limited, _⟩
  · exact given
  · rw [unlimited] at limited
    cases limited

/-- An action that takes no gas and keeps what is in use. -/
theorem does_of_gives {action : EvalM α} {value : α} (keeps : base.Keeps heap → base.Keeps after)
    (gives : ∀ machine : Machine, machine.scope = scope → machine.heap = heap →
      Gives action machine value { machine with heap := after }) :
    Does base action scope heap value after :=
  fun kept =>
    ⟨keeps kept, fun machine inScope same => .inl ⟨machine.steps, gives machine inScope same⟩⟩

theorem does_pure (value : α) : Does base (pure value) scope heap value heap := by
  refine does_of_gives id fun machine _ same => ?_
  subst same
  rfl

theorem Does.bind {action : EvalM α} {next : α → EvalM β} {first : α} {value : β}
    (begins : Does base action scope heap first middle)
    (goesOn : Does base (next first) scope middle value after) :
    Does base (action >>= next) scope heap value after := by
  intro kept
  obtain ⟨kept, begins⟩ := begins kept
  obtain ⟨kept, goesOn⟩ := goesOn kept
  refine ⟨kept, fun machine inScope same => ?_⟩
  rcases begins machine inScope same with
    ⟨steps, given⟩ | ⟨limit, dry, steps, limited, keeps, stopped⟩
  · rcases goesOn { machine with heap := middle, steps } inScope rfl with
      ⟨steps', given'⟩ | ⟨limit, dry, steps', limited, keeps, stopped⟩
    · exact .inl ⟨steps', given.bind given'⟩
    · exact .inr ⟨limit, dry, steps', limited, keeps, (outcome_bind_of_ok given).trans stopped⟩
  · exact .inr ⟨limit, dry, steps, limited, keeps, outcome_bind_of_error stopped⟩

/-- A final change of the value. -/
theorem Does.map {action : EvalM α} {first : α} (does : Does base action scope heap first after)
    (change : α → β) :
    Does base (action >>= fun value => pure (change value)) scope heap (change first) after :=
  does.bind (does_pure _)

/-- A step succeeds or is the one that the limit stops. -/
theorem does_tick : Does base tick scope heap () heap := by
  refine fun kept => ⟨kept, fun machine _ same => ?_⟩
  subst same
  cases limited : machine.gasLimit with
  | none =>
      refine .inl ⟨machine.steps + 1, ?_⟩
      unfold Gives tick
      rw [outcome_bind_of_ok (outcome_modify _ machine), outcome_bind_of_ok (outcome_get _),
        limited]
      rfl
  | some limit =>
      have ticked : outcome tick machine =
          outcome (if limit < .ofNat (machine.steps + 1) then fail (.gasExhausted limit)
            else pure ()) { machine with steps := machine.steps + 1 } := by
        unfold tick
        rw [outcome_bind_of_ok (outcome_modify _ machine), outcome_bind_of_ok (outcome_get _),
          limited]
        rfl
      by_cases beyond : limit < .ofNat (machine.steps + 1)
      · rw [if_pos beyond] at ticked
        exact .inr ⟨limit, machine.heap, machine.steps + 1, limited, kept, ticked⟩
      · rw [if_neg beyond] at ticked
        refine .inl ⟨machine.steps + 1, ?_⟩
        rw [← limited]
        exact ticked

theorem does_heap : Does base EvalM.heap scope heap heap heap := by
  refine does_of_gives id fun machine _ same => ?_
  subst same
  rfl

theorem does_scope : Does base EvalM.scope scope heap scope heap := by
  refine does_of_gives id fun machine inScope same => ?_
  subst same inScope
  rfl

theorem does_onHeap {work : Heap → α × Heap} (keeps : base.Keeps heap → base.Keeps (work heap).2) :
    Does base (onHeap work) scope heap (work heap).1 (work heap).2 := by
  refine does_of_gives keeps fun machine _ same => ?_
  subst same
  rfl

theorem does_define {id : RecordId} (new : ¬ base.HasRecord id) (name : String) (value : Atom) :
    Does base (define id name value) scope heap () (heap.insert id name value) := by
  refine does_of_gives (fun kept => kept.modifyRecord new _) fun machine _ same => ?_
  subst same
  rfl

theorem does_allocRecord (record : Record) :
    Does base (allocRecord record) scope heap (heap.allocRecord record).1
      (heap.allocRecord record).2 :=
  does_onHeap fun kept => kept.trans (heap.keeps_allocRecord record)

theorem does_allocClosure (closure : Closure) :
    Does base (allocClosure closure) scope heap (heap.allocClosure closure).1
      (heap.allocClosure closure).2 :=
  does_onHeap fun kept => kept.trans (heap.keeps_allocClosure closure)

theorem does_lift {result : Except EvalError α} {value : α} (accepted : result = .ok value) :
    Does base (liftM result) scope heap value heap := by
  subst accepted
  exact does_pure value

theorem Does.withScope {action : EvalM α} {inner : RecordId} {value : α}
    (does : Does base action inner heap value after) :
    Does base (withScope inner action) scope heap value after := by
  intro kept
  obtain ⟨kept, does⟩ := does kept
  refine ⟨kept, fun machine inScope same => ?_⟩
  have unfolded : outcome (EvalM.withScope inner action) machine =
      ((outcome action { machine with scope := inner }).1,
        { (outcome action { machine with scope := inner }).2 with scope := machine.scope }) := rfl
  rcases does { machine with scope := inner } rfl same with
    ⟨steps, given⟩ | ⟨limit, dry, steps, limited, keeps, stopped⟩
  · refine .inl ⟨steps, ?_⟩
    rw [Gives, unfolded, given]
  · refine .inr ⟨limit, dry, steps, limited, keeps, ?_⟩
    rw [unfolded, stopped]

theorem does_mapM_nil (step : α → EvalM β) : Does base ([].mapM step) scope heap [] heap :=
  does_pure []

theorem does_mapM_cons {step : α → EvalM β} {item : α} {items : List α} {value : β}
    {values : List β} (first : Does base (step item) scope heap value middle)
    (others : Does base (items.mapM step) scope middle values after) :
    Does base ((item :: items).mapM step) scope heap (value :: values) after := by
  rw [List.mapM_cons]
  exact first.bind (others.map _)

end Rules

end EvalM

/-! ## Operands -/

namespace Evaluator

open EvalM

variable {evaluator : Evaluator} {base : Heap} {scope : RecordId} {heap middle after : Heap}
  {callee : String}

/-- Operands that are not marked to be expanded are passed on as written. -/
theorem does_splice {operands : List Atom} (position : Nat)
    (noExpand : ∀ operand ∈ operands, operand.modifier ≠ .expand) :
    Does base (evaluator.splice callee position operands) scope heap (operands.map .raw) heap := by
  induction operands generalizing position with
  | nil => exact does_pure []
  | cons operand operands ih =>
      have plain := noExpand operand List.mem_cons_self
      have others := ih (position + 1) fun other mem => noExpand other (List.mem_cons_of_mem _ mem)
      rw [splice, if_neg plain]
      exact (does_pure [Actual.raw operand]).bind (others.map _)

/-- Operands of a callee without a rest formal. -/
theorem does_bindOperands {signature : Signature} {operands arguments : List Atom}
    (noExpand : ∀ operand ∈ operands, operand.modifier ≠ .expand)
    (fits : signature.arityFault? callee operands.length = none) (noRest : signature.rest? = none)
    (fixed : Does base (evaluator.convertFixed signature.fixed (operands.map .raw))
      scope heap arguments after) :
    Does base (evaluator.bindOperands callee signature operands) scope heap arguments after := by
  apply (does_splice 1 noExpand).bind
  rw [List.length_map, fits]
  apply fixed.bind
  rw [noRest]
  exact does_pure arguments

/-- Operands of a callee with a rest formal. -/
theorem does_bindOperands_rest {signature : Signature} {param : Param}
    {operands arguments rest : List Atom}
    (noExpand : ∀ operand ∈ operands, operand.modifier ≠ .expand)
    (fits : signature.arityFault? callee operands.length = none)
    (isRest : signature.rest? = some param)
    (fixed : Does base (evaluator.convertFixed signature.fixed (operands.map .raw))
      scope heap arguments middle)
    (others : Does base
      (evaluator.convertRest param ((operands.map .raw).drop signature.fixed.length))
      scope middle rest after) :
    Does base (evaluator.bindOperands callee signature operands) scope heap
      (arguments ++ [.ofList rest]) after := by
  apply (does_splice 1 noExpand).bind
  rw [List.length_map, fits]
  apply fixed.bind
  rw [isRest]
  exact others.map _

end Evaluator

end RecordLisp
