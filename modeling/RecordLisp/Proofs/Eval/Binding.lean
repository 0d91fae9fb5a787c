import RecordLisp.Eval.Basic
import RecordLisp.Proofs.Builtin.Drawn
import RecordLisp.Proofs.Effect

/-!
# Binding is exact

What a call hands to its callee is described without the code that does it: `Splices` says which
actuals the operands of a call become, `Signature.Refuses` how many of them a signature does not
take, and `Binds` which arguments they give to its formals, one after the other. Binding gives
arguments exactly when these three say so. It counts before it evaluates anything but the operands
marked to be expanded, and once the count is right only the evaluation of an operand can stop it.

There is one argument for each formal, so the formals of a function have values in the frame of a
call. A builtin is a function of some number of atoms, which `Native.Takes` says, and in the packs
this is the number of the formals it declares.
-/

namespace RecordLisp

open Effect

/-! ## Counting -/

namespace Signature

/-- Whether a number of operands is not what a signature takes: it is below the number of fixed
formals, or above it without a rest formal, or leaves nothing for a rest formal that asks for
something. -/
def Refuses (signature : Signature) (count : Nat) : Prop :=
  count < signature.fixed.length ∨
    (signature.rest? = none ∧ signature.fixed.length < count) ∨
    ∃ param, signature.rest? = some param ∧ param.rest = some .oneOrMore ∧
      count = signature.fixed.length

variable {signature : Signature}

/-- The formals are the fixed ones and then the rest formal. -/
theorem params_eq (signature : Signature) :
    signature.params = signature.fixed ++ signature.rest?.toList := by
  unfold fixed
  cases isRest : signature.rest? with
  | none => simp
  | some param =>
      obtain ⟨isLast, -⟩ := Option.filter_eq_some_iff.mp isRest
      obtain ⟨front, parts⟩ := List.getLast?_eq_some_iff.mp isLast
      simp [parts]

theorem rest_of_mem_fixed {param : Param} (mem : param ∈ signature.fixed) : param.rest = none := by
  unfold fixed at mem
  split at mem
  · exact signature.rest_last param mem
  · rename_i noRest
    cases isLast : signature.params.getLast? with
    | none =>
        rw [List.getLast?_eq_none_iff.mp isLast] at mem
        cases mem
    | some last =>
        obtain ⟨front, parts⟩ := List.getLast?_eq_some_iff.mp isLast
        rw [parts, List.mem_append, List.mem_singleton] at mem
        rcases mem with earlier | rfl
        · exact signature.rest_last param (by simpa [parts] using earlier)
        · simpa [rest?, isLast, Option.filter] using noRest

theorem exists_rest_of_rest? {param : Param} (isRest : signature.rest? = some param) :
    ∃ kind, param.rest = some kind :=
  Option.isSome_iff_exists.mp (Option.filter_eq_some_iff.mp isRest).2

/-- A count that is refused gives an arity error that starts with the name of the callee. -/
theorem arityFault?_of_refuses {count : Nat} (callee : String) (refuses : signature.Refuses count) :
    ∃ detail,
      signature.arityFault? callee count = some (.arity ("`" ++ callee ++ "`" ++ detail)) := by
  unfold arityFault?
  rcases refuses with below | ⟨noRest, above⟩ | ⟨param, isRest, kind, rfl⟩
  · refine ⟨" is missing argument " ++ (count + 1).repr ++ " (`" ++ signature.fixed[count].text ++
      "`)", ?_⟩
    rw [List.getElem?_eq_getElem below]
    have opens : "` is missing argument " = "`" ++ " is missing argument " := rfl
    simp only [opens, String.append_assoc]
  · have noneMissing : signature.fixed[count]? = none := List.getElem?_eq_none (Nat.le_of_lt above)
    have opens : "` takes " = "`" ++ " takes " := rfl
    simp only [noneMissing, noRest, if_pos above, opens, String.append_assoc]
    exact ⟨_, rfl⟩
  · have noneMissing : signature.fixed[signature.fixed.length]? = none :=
      List.getElem?_eq_none (Nat.le_refl _)
    have minimum : signature.restMinimum = 1 := by simp [restMinimum, isRest, kind, Rest.minimum]
    have opens :
        "` needs at least one argument for `" = "`" ++ " needs at least one argument for `" := rfl
    simp only [noneMissing, isRest, minimum, Nat.sub_self, Nat.zero_lt_one, if_true, opens,
      String.append_assoc]
    exact ⟨_, rfl⟩

theorem arityFault?_of_not_refuses {count : Nat} (callee : String)
    (accepts : ¬ signature.Refuses count) :
    signature.arityFault? callee count = none := by
  obtain ⟨enough, notAbove, notEmpty⟩ := (not_or.trans (and_congr_right' not_or)).mp accepts
  have enough := Nat.le_of_not_lt enough
  unfold arityFault?
  rw [List.getElem?_eq_none enough]
  cases isRest : signature.rest? with
  | none =>
      have exact : ¬ signature.fixed.length < count := fun above => notAbove ⟨isRest, above⟩
      simp only [if_neg exact]
  | some param =>
      have fits : ¬ count - signature.fixed.length < signature.restMinimum := by
        intro short
        obtain ⟨kind, rest⟩ := exists_rest_of_rest? isRest
        simp only [restMinimum, isRest, Option.bind_some, rest] at short
        cases kind with
        | oneOrMore =>
            have minimum : Rest.oneOrMore.minimum = 1 := rfl
            exact notEmpty ⟨param, isRest, rest, by omega⟩
        | zeroOrMore => exact absurd short (Nat.not_lt_zero _)
      simp only [if_neg fits]

end Signature

/-! ## Splicing and handing over -/

namespace Evaluator

/-- The actuals that operands become: an operand that is marked to be expanded is evaluated to a
list, whose items take its place, and any other stays as it is written. -/
inductive Splices (evaluator : Evaluator) : List Atom → Machine → List Actual → Machine → Prop where
  | nil {machine : Machine} : Splices evaluator [] machine [] machine
  | raw {operand : Atom} {operands : List Atom} {machine after : Machine} {actuals : List Actual} :
      operand.modifier ≠ .expand → Splices evaluator operands machine actuals after →
      Splices evaluator (operand :: operands) machine (.raw operand :: actuals) after
  | expanded {operand : Atom} {operands items : List Atom} {machine middle after : Machine}
      {modifier : Modifier} {actuals : List Actual} :
      operand.modifier = .expand →
      Gives (evaluator.eval operand) machine (.list modifier items) middle →
      Splices evaluator operands middle actuals after →
      Splices evaluator (operand :: operands) machine (items.map .value ++ actuals) after

/-- What an actual gives to a formal: an item of an expanded list arrives as it is, an operand as it
is written or evaluated. -/
inductive Hands (evaluator : Evaluator) :
    Convention → Actual → Machine → Atom → Machine → Prop where
  | value {convention : Convention} {atom : Atom} {machine : Machine} :
      Hands evaluator convention (.value atom) machine atom machine
  | quoted {atom : Atom} {machine : Machine} :
      Hands evaluator .quoted (.raw atom) machine atom machine
  | evaluated {atom value : Atom} {machine after : Machine} :
      Gives (evaluator.eval atom) machine value after →
      Hands evaluator .evaluated (.raw atom) machine value after

/-- What actuals give to a rest formal, in order. -/
inductive HandsAll (evaluator : Evaluator) (convention : Convention) :
    List Actual → Machine → List Atom → Machine → Prop where
  | nil {machine : Machine} : HandsAll evaluator convention [] machine [] machine
  | cons {actual : Actual} {actuals : List Actual} {machine middle after : Machine} {value : Atom}
      {values : List Atom} : evaluator.Hands convention actual machine value middle →
      HandsAll evaluator convention actuals middle values after →
      HandsAll evaluator convention (actual :: actuals) machine (value :: values) after

/-- The arguments that actuals give to formals, one for each formal in order: a rest formal is last
and gets the list of all actuals that are left, any other gets one. -/
inductive Binds (evaluator : Evaluator) :
    List Param → List Actual → Machine → List Atom → Machine → Prop where
  | done {machine : Machine} : Binds evaluator [] [] machine [] machine
  | fixed {param : Param} {params : List Param} {actual : Actual} {actuals : List Actual}
      {machine middle after : Machine} {argument : Atom} {arguments : List Atom} :
      param.rest = none →
      evaluator.Hands param.convention actual machine argument middle →
      Binds evaluator params actuals middle arguments after →
      Binds evaluator (param :: params) (actual :: actuals) machine (argument :: arguments) after
  | rest {param : Param} {kind : Rest} {actuals : List Actual} {machine after : Machine}
      {values : List Atom} : param.rest = some kind →
      evaluator.HandsAll param.convention actuals machine values after →
      Binds evaluator [param] actuals machine [.ofList values] after

/-- Whether the evaluation of an operand stops the handing over, after the actuals before it were
handed to their formals. -/
inductive Stops (evaluator : Evaluator) (stop : Stop) (after : Machine) :
    List Param → List Actual → Machine → Prop where
  | here {param : Param} {params : List Param} {operand : Atom} {actuals : List Actual}
      {machine : Machine} :
      param.convention = .evaluated →
      outcome (evaluator.eval operand) machine = (.error stop, after) →
      Stops evaluator stop after (param :: params) (.raw operand :: actuals) machine
  | fixed {param : Param} {params : List Param} {actual : Actual} {actuals : List Actual}
      {machine middle : Machine} {argument : Atom} : param.rest = none →
      evaluator.Hands param.convention actual machine argument middle →
      Stops evaluator stop after params actuals middle →
      Stops evaluator stop after (param :: params) (actual :: actuals) machine
  | rest {param : Param} {kind : Rest} {actual : Actual} {actuals : List Actual}
      {machine middle : Machine} {value : Atom} : param.rest = some kind →
      evaluator.Hands param.convention actual machine value middle →
      Stops evaluator stop after [param] actuals middle →
      Stops evaluator stop after [param] (actual :: actuals) machine

variable {evaluator : Evaluator} {machine after : Machine} {operands arguments : List Atom}
  {actuals : List Actual}

theorem splices_raw (noExpand : ∀ operand ∈ operands, operand.modifier ≠ .expand) :
    evaluator.Splices operands machine (operands.map .raw) machine := by
  induction operands with
  | nil => exact .nil
  | cons operand operands ih =>
      obtain ⟨here, later⟩ := List.forall_mem_cons.mp noExpand
      exact .raw here (ih later)

theorem splice_raw {operand : Atom} (callee : String) (position : Nat)
    (noExpand : operand.modifier ≠ .expand) :
    evaluator.splice callee position (operand :: operands) = (do
      let others ← evaluator.splice callee (position + 1) operands
      return .raw operand :: others) := by
  rw [splice, if_neg noExpand]
  rfl

theorem splice_expanded {operand : Atom} (callee : String) (position : Nat)
    (expand : operand.modifier = .expand) :
    evaluator.splice callee position (operand :: operands) = (do
      let expanded ← evaluator.eval operand
      match expanded.list? with
      | some items => do
          let others ← evaluator.splice callee (position + 1) operands
          return items.map .value ++ others
      | none => EvalM.fail (.argument callee position "list to expand" expanded.typeName)) := by
  rw [splice, if_pos expand]
  refine congrArg (evaluator.eval operand >>= ·) (funext fun expanded => ?_)
  cases expanded.list? <;> rfl

theorem gives_splice_iff {callee : String} {position : Nat} :
    Gives (evaluator.splice callee position operands) machine actuals after ↔
      evaluator.Splices operands machine actuals after := by
  induction operands generalizing position machine actuals with
  | nil =>
      rw [splice, gives_pure_iff]
      constructor
      · rintro ⟨rfl, rfl⟩
        exact .nil
      · rintro ⟨⟩
        exact ⟨rfl, rfl⟩
  | cons operand operands ih =>
      by_cases expand : operand.modifier = .expand
      · rw [splice_expanded callee position expand]
        constructor
        · intro given
          obtain ⟨expanded, middle, evaluates, given⟩ := gives_bind_iff.mp given
          cases expanded with
          | list modifier items =>
              obtain ⟨others, _, later, given⟩ := gives_bind_iff.mp given
              obtain ⟨rfl, rfl⟩ := gives_pure_iff.mp given
              exact .expanded expand evaluates (ih.mp later)
          | leaf | member => exact absurd given not_gives_throw
        · rintro (_ | noExpand | ⟨_, evaluates, later⟩)
          · exact absurd expand noExpand
          · exact evaluates.bind ((ih.mpr later).bind rfl)
      · rw [splice_raw callee position expand]
        constructor
        · intro given
          obtain ⟨others, _, later, given⟩ := gives_bind_iff.mp given
          obtain ⟨rfl, rfl⟩ := gives_pure_iff.mp given
          exact .raw expand (ih.mp later)
        · rintro (_ | ⟨_, later⟩ | isExpand)
          · exact (ih.mpr later).bind rfl
          · exact absurd isExpand expand

theorem gives_convert_iff {convention : Convention} {actual : Actual} {argument : Atom} :
    Gives (evaluator.convert convention actual) machine argument after ↔
      evaluator.Hands convention actual machine argument after := by
  constructor
  · intro given
    cases actual with
    | value atom =>
        obtain ⟨rfl, rfl⟩ := gives_pure_iff.mp given
        exact .value
    | raw atom =>
        cases convention with
        | evaluated => exact .evaluated given
        | quoted =>
            obtain ⟨rfl, rfl⟩ := gives_pure_iff.mp given
            exact .quoted
  · rintro (_ | _ | given)
    · rfl
    · rfl
    · exact given

theorem gives_convertRest_iff {param : Param} {values : List Atom} :
    Gives (evaluator.convertRest param actuals) machine values after ↔
      evaluator.HandsAll param.convention actuals machine values after := by
  unfold convertRest
  induction actuals generalizing machine values with
  | nil =>
      rw [gives_mapM_nil_iff]
      constructor
      · rintro ⟨rfl, rfl⟩
        exact .nil
      · rintro ⟨⟩
        exact ⟨rfl, rfl⟩
  | cons actual actuals ih =>
      simp only [gives_mapM_cons_iff, gives_convert_iff, ih]
      constructor
      · rintro ⟨value, others, middle, rfl, here, later⟩
        exact .cons here later
      · rintro ⟨⟩
        exact ⟨_, _, _, rfl, ‹_›, ‹_›⟩

theorem convertFixed_cons {param : Param} {params : List Param} {actual : Actual}
    {actuals : List Actual} {machine : Machine} :
    Gives (evaluator.convertFixed (param :: params) (actual :: actuals)) machine arguments after ↔
      ∃ argument others middle, arguments = argument :: others ∧
        evaluator.Hands param.convention actual machine argument middle ∧
        Gives (evaluator.convertFixed params actuals) middle others after := by
  unfold convertFixed
  rw [List.zip_cons_cons, gives_mapM_cons_iff]
  simp only [gives_convert_iff]

theorem binds_cons_iff {param : Param} {params : List Param} {actual : Actual}
    {actuals : List Actual} {machine : Machine} (single : param.rest = none) :
    evaluator.Binds (param :: params) (actual :: actuals) machine arguments after ↔
      ∃ argument others middle, arguments = argument :: others ∧
        evaluator.Hands param.convention actual machine argument middle ∧
        evaluator.Binds params actuals middle others after := by
  constructor
  · intro binds
    cases binds with
    | fixed _ here later => exact ⟨_, _, _, rfl, here, later⟩
    | rest isRest =>
        rw [single] at isRest
        cases isRest
  · rintro ⟨_, _, _, rfl, here, later⟩
    exact .fixed single here later

/-- Fixed formals come first, and what they leave is for the others. -/
theorem binds_append_iff {fixed others : List Param} (single : ∀ param ∈ fixed, param.rest = none)
    (enough : fixed.length ≤ actuals.length) :
    evaluator.Binds (fixed ++ others) actuals machine arguments after ↔
      ∃ first later middle, Gives (evaluator.convertFixed fixed actuals) machine first middle ∧
        evaluator.Binds others (actuals.drop fixed.length) middle later after ∧
        arguments = first ++ later := by
  induction fixed generalizing actuals machine arguments with
  | nil =>
      constructor
      · exact fun binds => ⟨[], arguments, machine, rfl, binds, rfl⟩
      · rintro ⟨_, later, _, given, binds, rfl⟩
        obtain ⟨rfl, rfl⟩ := gives_mapM_nil_iff.mp given
        exact binds
  | cons param fixed ih =>
      obtain ⟨isSingle, single⟩ := List.forall_mem_cons.mp single
      cases actuals with
      | nil => exact absurd enough (Nat.not_succ_le_zero _)
      | cons actual actuals =>
          have enough : fixed.length ≤ actuals.length := Nat.le_of_succ_le_succ enough
          simp only [List.cons_append, binds_cons_iff isSingle, convertFixed_cons, List.length_cons,
            List.drop_succ_cons]
          constructor
          · rintro ⟨argument, _, middle, rfl, here, binds⟩
            obtain ⟨first, later, last, given, left, rfl⟩ := (ih single enough).mp binds
            exact ⟨argument :: first, later, last, ⟨argument, first, middle, rfl, here, given⟩,
              left, rfl⟩
          · rintro ⟨_, later, last, ⟨argument, first, middle, rfl, here, given⟩, binds, rfl⟩
            exact ⟨argument, first ++ later, middle, rfl, here,
              (ih single enough).mpr ⟨first, later, last, given, binds, rfl⟩⟩

theorem Binds.length_eq {params : List Param}
    (binds : evaluator.Binds params actuals machine arguments after) :
    arguments.length = params.length := by
  induction binds with
  | done => rfl
  | fixed _ _ _ ih => exact congrArg (· + 1) ih
  | rest => rfl

variable {signature : Signature} {callee : String} {middle : Machine}

theorem binds_rest_iff {param : Param} {kind : Rest} (isRest : param.rest = some kind) :
    evaluator.Binds [param] actuals machine arguments after ↔
      ∃ values, Gives (evaluator.convertRest param actuals) machine values after ∧
        arguments = [.ofList values] := by
  simp only [gives_convertRest_iff]
  constructor
  · intro binds
    cases binds with
    | fixed single =>
        rw [isRest] at single
        cases single
    | rest _ all => exact ⟨_, all, rfl⟩
  · rintro ⟨_, all, rfl⟩
    exact .rest isRest all

theorem binds_nil_iff :
    evaluator.Binds [] actuals machine arguments after ↔
      actuals = [] ∧ arguments = [] ∧ after = machine := by
  constructor
  · rintro ⟨⟩
    exact ⟨rfl, rfl, rfl⟩
  · rintro ⟨rfl, rfl, rfl⟩
    exact .done

/-- The part of binding that comes after the count. -/
def convertAll (evaluator : Evaluator) (signature : Signature) (actuals : List Actual) :
    EvalM (List Atom) := do
  let arguments ← evaluator.convertFixed signature.fixed actuals
  match signature.rest? with
  | none => return arguments
  | some param =>
      let rest ← evaluator.convertRest param (actuals.drop signature.fixed.length)
      return arguments ++ [.ofList rest]

theorem outcome_bindOperands (splices : evaluator.Splices operands machine actuals middle) :
    outcome (evaluator.bindOperands callee signature operands) machine =
      match signature.arityFault? callee actuals.length with
      | some error => (.error (.fault error), middle)
      | none => outcome (evaluator.convertAll signature actuals) middle := by
  rw [bindOperands, outcome_bind_of_ok (gives_splice_iff.mpr splices)]
  cases signature.arityFault? callee actuals.length <;> rfl

theorem gives_convertAll_iff (accepts : ¬ signature.Refuses actuals.length) :
    Gives (evaluator.convertAll signature actuals) machine arguments after ↔
      evaluator.Binds signature.params actuals machine arguments after := by
  obtain ⟨enough, notAbove⟩ := not_or.mp accepts
  have enough := Nat.le_of_not_lt enough
  rw [signature.params_eq, binds_append_iff (fun _ => Signature.rest_of_mem_fixed) enough,
    convertAll, gives_bind_iff]
  cases isRest : signature.rest? with
  | none =>
      have fits : actuals.length ≤ signature.fixed.length :=
        Nat.le_of_not_lt fun above => notAbove (.inl ⟨isRest, above⟩)
      simp only [Option.toList_none, binds_nil_iff, gives_pure_iff, List.drop_of_length_le fits,
        true_and]
      constructor
      · rintro ⟨first, middle, given, rfl, rfl⟩
        exact ⟨arguments, [], after, given, ⟨rfl, rfl⟩, (List.append_nil _).symm⟩
      · rintro ⟨first, _, middle, given, ⟨rfl, rfl⟩, rfl⟩
        exact ⟨first, after, given, List.append_nil _, rfl⟩
  | some param =>
      obtain ⟨kind, rest⟩ := Signature.exists_rest_of_rest? isRest
      simp only [Option.toList_some, binds_rest_iff rest, gives_bind_iff, gives_pure_iff]
      constructor
      · rintro ⟨first, middle, given, values, _, all, rfl, rfl⟩
        exact ⟨first, _, middle, given, ⟨values, all, rfl⟩, rfl⟩
      · rintro ⟨first, _, middle, given, ⟨values, all, rfl⟩, rfl⟩
        exact ⟨first, middle, given, values, after, all, rfl, rfl⟩

/-- Binding gives arguments exactly when the operands splice, their number is right, and the formals
get what they ask for. -/
theorem gives_bindOperands_iff :
    Gives (evaluator.bindOperands callee signature operands) machine arguments after ↔
      ∃ actuals middle, evaluator.Splices operands machine actuals middle ∧
        ¬ signature.Refuses actuals.length ∧
        evaluator.Binds signature.params actuals middle arguments after := by
  constructor
  · intro given
    obtain ⟨actuals, middle, splices, -⟩ := gives_bind_iff.mp given
    have splices := gives_splice_iff.mp splices
    rw [Gives, outcome_bindOperands splices] at given
    by_cases refuses : signature.Refuses actuals.length
    · obtain ⟨detail, fault⟩ := Signature.arityFault?_of_refuses callee refuses
      rw [fault] at given
      cases given
    · rw [Signature.arityFault?_of_not_refuses callee refuses] at given
      exact ⟨actuals, middle, splices, refuses, (gives_convertAll_iff refuses).mp given⟩
  · rintro ⟨actuals, middle, splices, accepts, binds⟩
    rw [Gives, outcome_bindOperands splices, Signature.arityFault?_of_not_refuses callee accepts]
    exact (gives_convertAll_iff accepts).mpr binds

/-! ### Stopping -/

variable {stop : Stop}

theorem convert_eq_error_iff {convention : Convention} {actual : Actual} :
    outcome (evaluator.convert convention actual) machine = (.error stop, after) ↔
      ∃ operand, actual = .raw operand ∧ convention = .evaluated ∧
        outcome (evaluator.eval operand) machine = (.error stop, after) := by
  constructor
  · intro stopped
    cases actual with
    | value => cases stopped
    | raw operand =>
        cases convention with
        | evaluated => exact ⟨operand, rfl, rfl, stopped⟩
        | quoted => cases stopped
  · rintro ⟨operand, rfl, rfl, stopped⟩
    exact stopped

/-- The first formal of those that are left stops the handing over, or a later one does. -/
theorem stops_cons_iff {param : Param} {params : List Param} {actual : Actual}
    {actuals : List Actual} {machine : Machine} (single : param.rest = none) :
    evaluator.Stops stop after (param :: params) (actual :: actuals) machine ↔
      outcome (evaluator.convert param.convention actual) machine = (.error stop, after) ∨
        ∃ argument middle,
          Gives (evaluator.convert param.convention actual) machine argument middle ∧
          evaluator.Stops stop after params actuals middle := by
  simp only [convert_eq_error_iff, gives_convert_iff]
  constructor
  · intro stops
    cases stops with
    | here evaluated stopped => exact .inl ⟨_, rfl, evaluated, stopped⟩
    | fixed _ hands later => exact .inr ⟨_, _, hands, later⟩
    | rest isRest =>
        rw [single] at isRest
        cases isRest
  · rintro (⟨operand, rfl, evaluated, stopped⟩ | ⟨_, _, hands, later⟩)
    · exact .here evaluated stopped
    · exact .fixed single hands later

theorem convertFixed_cons_eq_error_iff {param : Param} {params : List Param} {actual : Actual}
    {actuals : List Actual} {machine : Machine} :
    outcome (evaluator.convertFixed (param :: params) (actual :: actuals)) machine =
      (.error stop, after) ↔
      outcome (evaluator.convert param.convention actual) machine = (.error stop, after) ∨
        ∃ argument middle, evaluator.Hands param.convention actual machine argument middle ∧
          outcome (evaluator.convertFixed params actuals) middle = (.error stop, after) := by
  unfold convertFixed
  rw [List.zip_cons_cons, outcome_mapM_cons_eq_error_iff]
  simp only [gives_convert_iff]

/-- Handing to fixed formals stops, or it leads to where handing to the others stops. -/
theorem stops_append_iff {fixed others : List Param} (single : ∀ param ∈ fixed, param.rest = none)
    (enough : fixed.length ≤ actuals.length) :
    evaluator.Stops stop after (fixed ++ others) actuals machine ↔
      outcome (evaluator.convertFixed fixed actuals) machine = (.error stop, after) ∨
        ∃ first middle, Gives (evaluator.convertFixed fixed actuals) machine first middle ∧
          evaluator.Stops stop after others (actuals.drop fixed.length) middle := by
  induction fixed generalizing actuals machine with
  | nil =>
      constructor
      · exact fun stops => .inr ⟨[], machine, rfl, stops⟩
      · rintro (⟨⟨⟩⟩ | ⟨_, _, given, stops⟩)
        obtain ⟨rfl, rfl⟩ := gives_mapM_nil_iff.mp given
        exact stops
  | cons param fixed ih =>
      obtain ⟨isSingle, single⟩ := List.forall_mem_cons.mp single
      cases actuals with
      | nil => exact absurd enough (Nat.not_succ_le_zero _)
      | cons actual actuals =>
          have enough : fixed.length ≤ actuals.length := Nat.le_of_succ_le_succ enough
          simp only [List.cons_append, stops_cons_iff isSingle, ih single enough, gives_convert_iff,
            convertFixed_cons_eq_error_iff, convertFixed_cons, List.length_cons,
            List.drop_succ_cons]
          constructor
          · rintro (here | ⟨argument, middle, hands, inFixed | ⟨first, last, given, stops⟩⟩)
            · exact .inl (.inl here)
            · exact .inl (.inr ⟨argument, middle, hands, inFixed⟩)
            · exact .inr
                ⟨argument :: first, last, ⟨argument, first, middle, rfl, hands, given⟩, stops⟩
          · rintro ((here | ⟨argument, middle, hands, inFixed⟩) |
              ⟨_, last, ⟨argument, first, middle, rfl, hands, given⟩, stops⟩)
            · exact .inl here
            · exact .inr ⟨argument, middle, hands, .inl inFixed⟩
            · exact .inr ⟨argument, middle, hands, .inr ⟨first, last, given, stops⟩⟩

theorem convertRest_eq_error_iff {param : Param} {kind : Rest} (isRest : param.rest = some kind) :
    outcome (evaluator.convertRest param actuals) machine = (.error stop, after) ↔
      evaluator.Stops stop after [param] actuals machine := by
  induction actuals generalizing machine with
  | nil =>
      constructor
      · intro stopped
        cases stopped
      · intro stops
        cases stops
  | cons actual actuals ih =>
      unfold convertRest at ih ⊢
      simp only [outcome_mapM_cons_eq_error_iff, ih, convert_eq_error_iff, gives_convert_iff]
      constructor
      · rintro (⟨operand, rfl, evaluated, stopped⟩ | ⟨_, _, hands, later⟩)
        · exact .here evaluated stopped
        · exact .rest isRest hands later
      · intro stops
        cases stops with
        | here evaluated stopped => exact .inl ⟨_, rfl, evaluated, stopped⟩
        | fixed single =>
            rw [isRest] at single
            cases single
        | rest _ hands later => exact .inr ⟨_, _, hands, later⟩

/-- Once the count is right, only the evaluation of an operand stops the binding. -/
theorem convertAll_eq_error_iff (accepts : ¬ signature.Refuses actuals.length) :
    outcome (evaluator.convertAll signature actuals) machine = (.error stop, after) ↔
      evaluator.Stops stop after signature.params actuals machine := by
  have enough := Nat.le_of_not_lt (not_or.mp accepts).1
  rw [signature.params_eq, stops_append_iff (fun _ => Signature.rest_of_mem_fixed) enough,
    convertAll, outcome_bind_eq_error_iff]
  refine or_congr_right
    (exists_congr fun first => exists_congr fun middle => and_congr_right fun _ => ?_)
  cases isRest : signature.rest? with
  | none => exact ⟨nofun, nofun⟩
  | some param =>
      obtain ⟨kind, rest⟩ := Signature.exists_rest_of_rest? isRest
      refine outcome_bind_eq_error_iff.trans ?_
      rw [convertRest_eq_error_iff rest]
      refine or_iff_left ?_
      rintro ⟨_, _, -, finished⟩
      cases finished

end Evaluator

/-! ## Builtins and frames -/

/-- How many arguments the work of a builtin is a function of. -/
inductive Native.Takes : Nat → Native → Prop where
  | unary {work : Evaluator → Atom → EvalM Atom} : Takes 1 (.unary work)
  | binary {work : Evaluator → Atom → Atom → EvalM Atom} : Takes 2 (.binary work)
  | ternary {work : Evaluator → Atom → Atom → Atom → EvalM Atom} : Takes 3 (.ternary work)
  | quaternary {work : Evaluator → Atom → Atom → Atom → Atom → EvalM Atom} :
      Takes 4 (.quaternary work)
  | quinary {work : Evaluator → Atom → Atom → Atom → Atom → Atom → EvalM Atom} :
      Takes 5 (.quinary work)

/-- The number of formals that a declaration gives. -/
def Builtin.arity? (declaration : String) : Option Nat :=
  (readDeclaration declaration).toOption.map fun declared => declared.2.params.length

namespace Pack

/-- Whether an entry of a pack is declared with as many formals as its work is a function of. -/
def Fits (entry : String × Native) : Prop :=
  ∃ count, Builtin.arity? entry.1 = some count ∧ entry.2.Takes count

theorem fits_core : ∀ entry ∈ core, Fits entry := by
  simp only [core, List.forall_mem_cons, List.not_mem_nil, false_implies, implies_true, and_true]
  and_intros
  all_goals
    first
      | exact ⟨1, by decide +kernel, .unary⟩
      | exact ⟨2, by decide +kernel, .binary⟩
      | exact ⟨3, by decide +kernel, .ternary⟩

theorem fits_standard : ∀ entry ∈ standard, Fits entry := by
  simp only [standard, math, lists, strings, List.cons_append, List.nil_append,
    List.forall_mem_cons, List.not_mem_nil, false_implies, implies_true, and_true]
  and_intros
  all_goals
    first
      | exact ⟨1, by decide +kernel, .unary⟩
      | exact ⟨2, by decide +kernel, .binary⟩
      | exact ⟨3, by decide +kernel, .ternary⟩
      | exact ⟨4, by decide +kernel, .quaternary⟩
      | exact ⟨5, by decide +kernel, .quinary⟩

end Pack

/-- A builtin of a registry that was filled from the packs works with as many arguments as it has
formals. -/
theorem Registry.takes_of_mem {pack : Pack} (within : ∀ entry ∈ pack, entry ∈ Pack.all)
    {builtin : Builtin} (mem : builtin ∈ (Registry.empty.registerAll pack).2.builtins) :
    builtin.native.Takes builtin.signature.params.length := by
  rcases Registry.mem_registerAll mem with old | ⟨declaration, entry, declared⟩
  · cases old
  · have fits : Pack.Fits (declaration, builtin.native) := by
      rcases List.mem_append.mp (within _ entry) with core | standard
      · exact Pack.fits_core _ core
      · exact Pack.fits_standard _ standard
    obtain ⟨count, arity, takes⟩ := fits
    simp only [Builtin.arity?, declared, Except.toOption, Option.map_some, Option.some.injEq]
      at arity
    exact arity ▸ takes

theorem Fields.mem_names_put_iff {fields : Fields} {name other : String} {value : Atom} :
    other ∈ (put name value fields).names ↔ other = name ∨ other ∈ fields.names := by
  by_cases present : name ∈ fields.names
  · rw [names_put_of_mem value present]
    exact ⟨.inr, fun mem => mem.elim (fun same => same ▸ present) id⟩
  · rw [names_put_of_not_mem value present, List.mem_append, List.mem_singleton, or_comm]

theorem Record.mem_names_insertAll_iff {record : Record} {fields : Fields} {name : String} :
    name ∈ (record.insertAll fields).names ↔ name ∈ record.names ∨ name ∈ fields.names := by
  induction fields generalizing record with
  | nil => simp [insertAll]
  | cons field fields ih =>
      have stored : name ∈ (record.insert field.1 field.2).names ↔
          name = field.1 ∨ name ∈ record.names := by
        rw [Record.names, Record.fields_insert]
        exact Fields.mem_names_put_iff
      have split : name ∈ Fields.names (field :: fields) ↔
          name = field.1 ∨ name ∈ Fields.names fields :=
        List.mem_cons
      rw [split, ← or_assoc, or_comm (a := name ∈ record.names), ← stored]
      exact ih

/-- Calling a function evaluates its body in a new record below its scope with the arguments of its
formals. -/
theorem Evaluator.outcome_apply {evaluator : Evaluator} {machine after : Machine} {id : FunctionId}
    {label : String} {operands arguments : List Atom}
    (bound : Gives (evaluator.bindOperands label (machine.heap.closure id).signature operands)
      machine arguments after) :
    let closure := machine.heap.closure id
    let frame := (Record.childOf closure.scope).insertAll
      ((closure.signature.params.map Param.name).zip arguments)
    let made := after.heap.allocRecord frame
    outcome (evaluator.apply id label operands) machine =
      outcome (EvalM.withScope made.1 (evaluator.eval closure.body))
        { after with heap := made.2 } := by
  intro closure frame made
  have heap : outcome EvalM.heap machine = (.ok machine.heap, machine) := rfl
  rw [apply, outcome_bind_of_ok heap, outcome_bind_of_ok bound]
  rfl

/-- Binding counts after the operands that are marked to be expanded have become lists, and before
any other operand is evaluated. A number that the signature does not take is an arity error that
names the callee. With any other number there is an argument for each formal, or the evaluation of
an operand failed. A builtin of the packs has an argument for each position that it looks at, and a
function has every formal in the frame of the call. -/
theorem Evaluator.binding_is_exact (evaluator : Evaluator) (machine : Machine) (callee : String)
    (signature : Signature) (operands : List Atom) :
    let bound := outcome (evaluator.bindOperands callee signature operands) machine
    ((∀ operand ∈ operands, operand.modifier ≠ .expand) →
      evaluator.Splices operands machine (operands.map .raw) machine) ∧
    (∀ actuals middle, evaluator.Splices operands machine actuals middle →
      (signature.Refuses actuals.length →
        ∃ detail, bound = (.error (.fault (.arity ("`" ++ callee ++ "`" ++ detail))), middle)) ∧
      (¬ signature.Refuses actuals.length → ∀ stop after, bound = (.error stop, after) ↔
        evaluator.Stops stop after signature.params actuals middle)) ∧
    (∀ arguments after, bound = (.ok arguments, after) ↔
      ∃ actuals middle, evaluator.Splices operands machine actuals middle ∧
        ¬ signature.Refuses actuals.length ∧
        evaluator.Binds signature.params actuals middle arguments after) ∧
    ∀ arguments after, bound = (.ok arguments, after) →
      arguments.length = signature.params.length ∧
      (∀ pack : Pack, (∀ entry ∈ pack, entry ∈ Pack.all) →
        ∀ builtin ∈ (Registry.empty.registerAll pack).2.builtins, builtin.signature = signature →
          builtin.native.Takes arguments.length) ∧
      ∀ id, (machine.heap.closure id).signature = signature →
        let names := signature.params.map Param.name
        let closure := machine.heap.closure id
        let frame := (Record.childOf closure.scope).insertAll (names.zip arguments)
        let made := after.heap.allocRecord frame
        outcome (evaluator.apply id callee operands) machine =
            outcome (EvalM.withScope made.1 (evaluator.eval closure.body))
              { after with heap := made.2 } ∧
          (∀ param ∈ signature.params, frame.contains param.name = true) ∧
          (names.Nodup → frame.fields = names.zip arguments) := by
  intro bound
  refine ⟨splices_raw,
    fun actuals middle splices => ⟨fun refuses => ?_, fun accepts stop after => ?_⟩,
    fun _ _ => gives_bindOperands_iff, fun arguments after given => ?_⟩
  · obtain ⟨detail, fault⟩ := Signature.arityFault?_of_refuses callee refuses
    refine ⟨detail, (outcome_bindOperands splices).trans ?_⟩
    rw [fault]
  · have converted : bound = outcome (evaluator.convertAll signature actuals) middle := by
      refine (outcome_bindOperands splices).trans ?_
      rw [Signature.arityFault?_of_not_refuses callee accepts]
    rw [converted]
    exact convertAll_eq_error_iff accepts
  · obtain ⟨actuals, middle, splices, accepts, binds⟩ := gives_bindOperands_iff.mp given
    have count := binds.length_eq
    refine ⟨count, ?_, ?_⟩
    · rintro pack within builtin mem rfl
      exact count ▸ Registry.takes_of_mem within mem
    · rintro id rfl names closure frame made
      have formals : Fields.names (names.zip arguments) = names := by
        refine List.map_fst_zip ?_
        exact Nat.le_of_eq ((List.length_map _).trans count.symm)
      refine ⟨outcome_apply given, fun param mem => ?_, fun distinct => ?_⟩
      · rw [Record.contains_eq, Record.get?_eq]
        refine (Fields.isSome_get?_iff _ _).mpr (Record.mem_names_insertAll_iff.mpr (.inr ?_))
        rw [formals]
        exact List.mem_map_of_mem mem
      · refine Record.fields_insertAll _ ?_
        change (Fields.names (names.zip arguments)).Nodup
        rwa [formals]

/-- A list that is spread over a fixed formal and a rest formal, and a call that the rest formal
gets as it is written. -/
theorem Evaluator.binding_is_exact_spread :
    let evaluator := Registry.empty.evaluator 1
    let fresh := Machine.fresh none .empty .least
    let machine :=
      { fresh with heap := fresh.heap.insert fresh.scope "x" (.ofList [.string "a", .string "b"]) }
    let call := Atom.ofList [.token "f"]
    let operands := [Atom.leaf .expand (.token "x"), call]
    let actuals := [Actual.value (.string "a"), .value (.string "b"), .raw call]
    ∃ signature middle,
      Signature.ofFormals [.token "first", .leaf .quote (.token "+others")] = .ok signature ∧
      evaluator.Splices operands machine actuals middle ∧ ¬ signature.Refuses actuals.length ∧
      outcome (evaluator.bindOperands "g" signature operands) machine =
        (.ok [.string "a", .ofList [.string "b", call]], middle) := by
  intro evaluator fresh machine call operands actuals
  have read : ∃ signature,
      Signature.ofFormals [.token "first", .leaf .quote (.token "+others")] = .ok signature ∧
      signature.params = [⟨"first", .evaluated, none⟩, ⟨"others", .quoted, some .oneOrMore⟩] :=
    ⟨_, rfl, rfl⟩
  obtain ⟨signature, read, formals⟩ := read
  have isRest : signature.rest? = some ⟨"others", .quoted, some .oneOrMore⟩ := by
    simp [Signature.rest?, formals]
  have single : signature.fixed.length = 1 := by simp [Signature.fixed, isRest, formals]
  have accepts : ¬ signature.Refuses actuals.length := by
    rintro (below | ⟨noRest, _⟩ | ⟨_, _, _, same⟩)
    · exact absurd (single ▸ below) (by decide)
    · rw [isRest] at noRest
      cases noRest
    · exact absurd (single ▸ same) (by decide)
  have evaluates : Gives (evaluator.eval (.leaf .expand (.token "x"))) machine
    (.list .plain [.string "a", .string "b"]) { machine with steps := 1 } := rfl
  have splices : evaluator.Splices operands machine actuals { machine with steps := 1 } :=
    .expanded rfl evaluates (.raw (by decide) .nil)
  refine ⟨signature, _, read, splices, accepts, ?_⟩
  refine ((binding_is_exact evaluator machine "g" signature operands).2.2.1 _ _).mpr
    ⟨actuals, _, splices, accepts, ?_⟩
  rw [formals]
  exact .fixed rfl .value (.rest rfl (.cons .value (.cons .quoted .nil)))

end RecordLisp
