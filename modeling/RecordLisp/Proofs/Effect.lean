/-!
# Effects

Reading, evaluation and requests to a session are actions of one shape: they take a state, give a
value or an error, and leave a state in either case. `outcome` shows this function, and the lemmas
here say what it is for the ways of putting actions together. `Gives` is the relation of the runs
that succeed.
-/

namespace RecordLisp

theorem eq_ok_of_toOption {ε α : Type} {result : Except ε α} {value : α}
    (given : result.toOption = some value) : result = .ok value := by
  cases result with
  | error => cases given
  | ok => exact congrArg Except.ok (Option.some.inj given)

theorem exists_ok_of_bind {ε α β : Type} {first : Except ε α} {next : α → Except ε β} {result : β}
    (gives : first >>= next = .ok result) :
    ∃ value, first = .ok value ∧ next value = .ok result := by
  cases first with
  | error error => cases gives
  | ok value => exact ⟨value, rfl, gives⟩

/-- A step that reads and changes a state and may fail. -/
abbrev Effect (ε σ α : Type) := ExceptT ε (StateM σ) α

namespace Effect

variable {ε σ α β : Type}

/-- What an action gives in a state, and the state after it. -/
def outcome (action : Effect ε σ α) (state : σ) : Except ε α × σ := action.run.run state

@[simp] theorem outcome_pure (value : α) (state : σ) :
    outcome (pure value : Effect ε σ α) state = (.ok value, state) := rfl

@[simp] theorem outcome_throw (error : ε) (state : σ) :
    outcome (throw error : Effect ε σ α) state = (.error error, state) := rfl

@[simp] theorem outcome_get (state : σ) :
    outcome (get : Effect ε σ σ) state = (.ok state, state) := rfl

@[simp] theorem outcome_set (next state : σ) :
    outcome (set next : Effect ε σ PUnit) state = (.ok ⟨⟩, next) := rfl

@[simp] theorem outcome_modify (change : σ → σ) (state : σ) :
    outcome (modify change : Effect ε σ PUnit) state = (.ok ⟨⟩, change state) := rfl

@[simp] theorem outcome_modifyGet (change : σ → α × σ) (state : σ) :
    outcome (modifyGet change : Effect ε σ α) state =
      (.ok (change state).1, (change state).2) := rfl

/-- An action that fails ends a sequence; one that succeeds hands on its value and its state. -/
theorem outcome_bind (action : Effect ε σ α) (next : α → Effect ε σ β) (state : σ) :
    outcome (action >>= next) state =
      match outcome action state with
      | (.ok value, after) => outcome (next value) after
      | (.error error, after) => (.error error, after) := by
  change (match outcome action state with
    | (result, after) => outcome (ExceptT.mk (ExceptT.bindCont next result)) after) = _
  rcases outcome action state with ⟨_ | _, after⟩ <;> rfl

theorem outcome_bind_of_ok {action : Effect ε σ α} {next : α → Effect ε σ β} {state after : σ}
    {value : α} (given : outcome action state = (.ok value, after)) :
    outcome (action >>= next) state = outcome (next value) after := by
  rw [outcome_bind, given]

theorem outcome_bind_of_error {action : Effect ε σ α} {next : α → Effect ε σ β} {state after : σ}
    {error : ε} (stopped : outcome action state = (.error error, after)) :
    outcome (action >>= next) state = (.error error, after) := by
  rw [outcome_bind, stopped]

/-- A handler runs only after a failure, in the state that the failure left. -/
theorem outcome_tryCatch (action : Effect ε σ α) (handler : ε → Effect ε σ α) (state : σ) :
    outcome (tryCatch action handler) state =
      match outcome action state with
      | (.ok value, after) => (.ok value, after)
      | (.error error, after) => outcome (handler error) after := by
  change (match outcome action state with
    | (result, after) => outcome (ExceptT.mk (match result with
        | .ok value => pure (.ok value)
        | .error error => (handler error).run)) after) = _
  rcases outcome action state with ⟨_ | _, after⟩ <;> rfl

/-- An action that succeeds with a value and leads from one state to another. -/
def Gives (action : Effect ε σ α) (state : σ) (value : α) (after : σ) : Prop :=
  outcome action state = (.ok value, after)

@[simp] theorem gives_pure_iff {result value : α} {state after : σ} :
    Gives (pure result : Effect ε σ α) state value after ↔ value = result ∧ after = state := by
  simp [Gives, eq_comm]

@[simp] theorem not_gives_throw {error : ε} {value : α} {state after : σ} :
    ¬ Gives (throw error : Effect ε σ α) state value after := by
  simp [Gives]

/-- A sequence succeeds exactly when both of its parts do. -/
theorem gives_bind_iff {action : Effect ε σ α} {next : α → Effect ε σ β} {state after : σ}
    {value : β} :
    Gives (action >>= next) state value after ↔
      ∃ first middle, Gives action state first middle ∧ Gives (next first) middle value after := by
  unfold Gives
  rw [outcome_bind]
  rcases outcome action state with ⟨_ | first, middle⟩
  · simp
  · constructor
    · intro goesOn
      exact ⟨first, middle, rfl, goesOn⟩
    · rintro ⟨_, _, same, goesOn⟩
      cases same
      exact goesOn

theorem Gives.bind {action : Effect ε σ α} {next : α → Effect ε σ β} {state middle after : σ}
    {first : α} {value : β} (given : Gives action state first middle)
    (goesOn : Gives (next first) middle value after) :
    Gives (action >>= next) state value after :=
  gives_bind_iff.mpr ⟨first, middle, given, goesOn⟩

/-- A sequence stops exactly where one of its parts does. -/
theorem outcome_bind_eq_error_iff {action : Effect ε σ α} {next : α → Effect ε σ β}
    {state after : σ} {error : ε} :
    outcome (action >>= next) state = (.error error, after) ↔
      outcome action state = (.error error, after) ∨
        ∃ value middle, Gives action state value middle ∧
          outcome (next value) middle = (.error error, after) := by
  unfold Gives
  rw [outcome_bind]
  rcases outcome action state with ⟨_ | value, middle⟩
  · simp
  · constructor
    · intro stopped
      exact .inr ⟨value, middle, rfl, stopped⟩
    · rintro (⟨⟨⟩⟩ | ⟨_, _, same, stopped⟩)
      cases same
      exact stopped

section Lists

variable {γ : Type} {step : γ → Effect ε σ α} {item : γ} {items : List γ} {state after : σ}

theorem gives_mapM_nil_iff {values : List α} :
    Gives ([].mapM step) state values after ↔ values = [] ∧ after = state :=
  gives_pure_iff

theorem gives_mapM_cons_iff {values : List α} :
    Gives ((item :: items).mapM step) state values after ↔
      ∃ value others middle, values = value :: others ∧ Gives (step item) state value middle ∧
        Gives (items.mapM step) middle others after := by
  simp only [List.mapM_cons, gives_bind_iff, gives_pure_iff]
  constructor
  · rintro ⟨value, middle, here, others, _, later, rfl, rfl⟩
    exact ⟨value, others, middle, rfl, here, later⟩
  · rintro ⟨value, others, middle, rfl, here, later⟩
    exact ⟨value, middle, here, others, after, later, rfl, rfl⟩

theorem outcome_mapM_cons_eq_error_iff {error : ε} :
    outcome ((item :: items).mapM step) state = (.error error, after) ↔
      outcome (step item) state = (.error error, after) ∨
        ∃ value middle, Gives (step item) state value middle ∧
          outcome (items.mapM step) middle = (.error error, after) := by
  rw [List.mapM_cons, outcome_bind_eq_error_iff]
  refine or_congr_right
    (exists_congr fun value => exists_congr fun middle => and_congr_right fun _ => ?_)
  rw [outcome_bind_eq_error_iff]
  refine or_iff_left ?_
  rintro ⟨_, _, -, finished⟩
  cases finished

end Lists

end Effect

end RecordLisp
