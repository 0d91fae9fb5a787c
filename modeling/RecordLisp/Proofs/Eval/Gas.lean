import RecordLisp.Proofs.Builtin.Composed

/-!
# Gas

Every evaluation of an atom takes one step before anything else, and nothing else takes steps. Three
facts follow for whole evaluations. An evaluation that came to an end gives the same with more fuel.
A limit on gas cuts an evaluation off and changes nothing before that. And an evaluation that is
stopped for want of fuel has taken a step for every unit of it, so with a limit on gas, fuel for one
more step than there are left is enough.

Gas counts the steps in 64 bits. A limit other than the greatest is met before the count goes round,
and all that is said about the first step beyond a limit is said of such limits. The greatest one is
no limit at all.
-/

namespace RecordLisp

open Effect

/-- The machine with a limit on gas. -/
def Machine.limitedTo (machine : Machine) (limit : UInt64) : Machine :=
  { machine with gasLimit := some limit }

/-- Whether gas can run out: there is a limit, and it is not the greatest. -/
def Machine.RunsOut (machine : Machine) : Prop :=
  ∃ limit, machine.gasLimit = some limit ∧ limit.toNat + 1 < UInt64.size

/-- The bound on an evaluation leaves room for more steps than the limit. -/
theorem Machine.lt_steps_add_fuel {machine : Machine} {limit : UInt64}
    (limited : machine.gasLimit = some limit) (below : machine.steps ≤ limit.toNat) :
    limit.toNat < machine.steps + machine.fuel := by
  have gas : machine.gas.toNat = machine.steps :=
    UInt64.toNat_ofNat_of_lt' (Nat.lt_of_le_of_lt below limit.toNat_lt)
  unfold Machine.fuel
  rw [limited]
  dsimp only
  omega

namespace EvalM

variable {α β : Type}

/-- What an action gives when it is stopped for want of gas. -/
def Exhausted (limit : UInt64) (result : Except Stop α × Machine) : Prop :=
  result.1 = .error (.fault (.gasExhausted limit)) ∧ result.2.steps = limit.toNat + 1

theorem outcome_tick (machine : Machine) :
    outcome tick machine =
      match machine.gasLimit with
      | some limit =>
          (if limit < .ofNat (machine.steps + 1) then .error (.fault (.gasExhausted limit))
            else .ok (), { machine with steps := machine.steps + 1 })
      | none => (.ok (), { machine with steps := machine.steps + 1 }) := by
  change outcome (match machine.gasLimit with
    | some limit =>
        if limit < .ofNat (machine.steps + 1) then fail (.gasExhausted limit) else pure ()
    | none => pure ()) { machine with steps := machine.steps + 1 } = _
  cases machine.gasLimit with
  | none => rfl
  | some limit =>
      dsimp only
      split <;> rfl

/-- A count that fits in 64 bits is compared as it is. -/
theorem lt_ofNat_iff {limit : UInt64} {count : Nat} (fits : count < UInt64.size) :
    limit < .ofNat count ↔ limit.toNat < count := by
  rw [UInt64.lt_iff_toNat_lt, UInt64.toNat_ofNat_of_lt' fits]

/-- The first step beyond a limit is noticed, unless the limit is the greatest. -/
theorem lt_ofNat_succ_iff {limit : UInt64} {steps : Nat} (counts : limit.toNat + 1 < UInt64.size)
    (below : steps ≤ limit.toNat) : limit < .ofNat (steps + 1) ↔ limit.toNat < steps + 1 :=
  lt_ofNat_iff (Nat.lt_of_le_of_lt (Nat.succ_le_succ below) counts)

/-- Another error in place of that of a name that is not defined. -/
def renamed (error : EvalError) : Stop → Stop
  | .fault (.undefinedVariable _) => .fault error
  | stop => stop

theorem outcome_orUndefined (action : EvalM α) (error : EvalError) (machine : Machine) :
    outcome (action.orUndefined error) machine =
      ((outcome action machine).1.mapError (renamed error), (outcome action machine).2) := by
  unfold EvalM.orUndefined
  rw [outcome_tryCatch]
  rcases outcome action machine with ⟨stop | value, after⟩
  · dsimp only
    split
    · rfl
    · rename_i other
      change (Except.error stop, after) = (Except.error (renamed error stop), after)
      unfold renamed
      split
      · exact absurd rfl (other _)
      · rfl
  · rfl

/-- Only the error of a name is replaced, so that of other stops is passed on. -/
theorem mapError_renamed {result : Except Stop α} {error : EvalError} {stop : Stop}
    (different : renamed error stop = stop) (stopped : result = .error stop) :
    result.mapError (renamed error) = .error stop := by
  subst stopped
  exact congrArg Except.error different

theorem mapError_renamed_ne {result : Except Stop α} (error : EvalError)
    (ended : result ≠ .error .outOfFuel) : result.mapError (renamed error) ≠ .error .outOfFuel := by
  cases result with
  | ok value => exact nofun
  | error stop =>
      intro stopped
      change Except.error (renamed error stop) = .error .outOfFuel at stopped
      unfold renamed at stopped
      split at stopped
      · cases stopped
      · exact ended stopped

theorem outcome_withScope (scope : RecordId) (action : EvalM α) (machine : Machine) :
    outcome (withScope scope action) machine =
      ((outcome action { machine with scope }).1,
        { (outcome action { machine with scope }).2 with scope := machine.scope }) := rfl

/-! ## More fuel -/

/-- Whether an action that does not stop for certain reasons does the same as another. -/
def Foretells (excused : Stop → Prop) (action other : EvalM α) : Prop :=
  ∀ machine, (∀ stop, excused stop → (outcome action machine).1 ≠ .error stop) →
    outcome other machine = outcome action machine

section Foretells

variable {excused : Stop → Prop}

theorem Foretells.refl (action : EvalM α) : action.Foretells excused action := fun _ _ => rfl

theorem Foretells.bind {first first' : EvalM α} {next next' : α → EvalM β}
    (same : first.Foretells excused first')
    (goesOn : ∀ value, (next value).Foretells excused (next' value)) :
    (first >>= next).Foretells excused (first' >>= next') := by
  intro machine ended
  have same := same machine
  rw [outcome_bind] at ended
  rw [outcome_bind, outcome_bind]
  generalize outcome first machine = ran at ended same
  obtain ⟨reason | value, after⟩ := ran
  · rw [same]
    intro stop isExcused stopped
    cases stopped
    exact ended reason isExcused rfl
  · rw [same (fun _ _ => nofun)]
    exact goesOn value after ended

/-- A reason that is excused must not be replaced on the way. -/
theorem congruence_foretells (fuel : excused .outOfFuel)
    (kept : ∀ error stop, excused stop → renamed error stop = stop) :
    Congruence (Foretells excused) where
  stop _ := fun _ ended => absurd rfl (ended _ fuel)
  plain _ := .refl _
  bind := .bind
  withScope scope action action' same := by
    intro machine ended
    rw [outcome_withScope] at ended
    rw [outcome_withScope, outcome_withScope, same _ ended]
  orUndefined error action action' same := by
    intro machine ended
    rw [outcome_orUndefined] at ended
    rw [outcome_orUndefined, outcome_orUndefined, same machine]
    intro stop isExcused stopped
    exact ended stop isExcused (mapError_renamed (kept error stop isExcused) stopped)

end Foretells

/-- Whether an action that comes to an end gives the same as another. -/
def Approximates (action other : EvalM α) : Prop :=
  ∀ machine, (outcome action machine).1 ≠ .error .outOfFuel →
    outcome other machine = outcome action machine

theorem approximates_iff {action other : EvalM α} :
    action.Approximates other ↔ action.Foretells (· = .outOfFuel) other := by
  simp only [Approximates, Foretells, forall_eq]

theorem Approximates.refl (action : EvalM α) : action.Approximates action := fun _ _ => rfl

theorem congruence_approximates : Congruence Approximates := by
  have same : @Approximates = fun α => @Foretells α (· = .outOfFuel) := by
    funext α action other
    exact propext approximates_iff
  rw [same]
  exact congruence_foretells rfl (by rintro error _ rfl; rfl)

/-! ## A limit that cuts off -/

/-- Whether an action takes no step back and leaves the limit as it is. -/
structure Meters (action : EvalM α) : Prop where
  steps : ∀ machine, machine.steps ≤ (outcome action machine).2.steps
  gasLimit : ∀ machine, (outcome action machine).2.gasLimit = machine.gasLimit

/-- Whether a limit on gas makes no difference to an action as long as the steps stay within it,
and stops the action with the first step beyond it otherwise. -/
structure CutOff (action : EvalM α) : Prop extends Meters action where
  within : ∀ (machine : Machine) (limit : UInt64), machine.gasLimit = none →
    (outcome action machine).2.steps ≤ limit.toNat →
      outcome action (machine.limitedTo limit) =
        ((outcome action machine).1, (outcome action machine).2.limitedTo limit)
  beyond : ∀ (machine : Machine) (limit : UInt64), machine.gasLimit = none →
    limit.toNat + 1 < UInt64.size → machine.steps ≤ limit.toNat →
      limit.toNat < (outcome action machine).2.steps →
        Exhausted limit (outcome action (machine.limitedTo limit))

theorem Meters.bind {first : EvalM α} {next : α → EvalM β} (meters : first.Meters)
    (goesOn : ∀ value, (next value).Meters) : (first >>= next).Meters := by
  refine ⟨fun machine => ?_, fun machine => ?_⟩
  · have taken := meters.steps machine
    rw [outcome_bind]
    generalize outcome first machine = ran at taken
    obtain ⟨stop | value, after⟩ := ran
    · exact taken
    · exact Nat.le_trans taken ((goesOn value).steps after)
  · have kept := meters.gasLimit machine
    rw [outcome_bind]
    generalize outcome first machine = ran at kept
    obtain ⟨stop | value, after⟩ := ran
    · exact kept
    · exact ((goesOn value).gasLimit after).trans kept

theorem Meters.orUndefined {action : EvalM α} (meters : action.Meters) (error : EvalError) :
    (action.orUndefined error).Meters := by
  refine ⟨fun machine => ?_, fun machine => ?_⟩
  · rw [outcome_orUndefined]
    exact meters.steps machine
  · rw [outcome_orUndefined]
    exact meters.gasLimit machine

theorem CutOff.bind {first : EvalM α} {next : α → EvalM β} (cuts : first.CutOff)
    (goesOn : ∀ value, (next value).CutOff) : (first >>= next).CutOff := by
  refine ⟨cuts.toMeters.bind fun value => (goesOn value).toMeters, ?_, ?_⟩
  · intro machine limit free taken
    have before := cuts.gasLimit machine
    have same := cuts.within machine limit free
    rw [outcome_bind] at taken
    rw [outcome_bind, outcome_bind]
    generalize outcome first machine = ran at before same taken
    obtain ⟨stop | value, middle⟩ := ran
    · rw [same taken]
    · rw [same (Nat.le_trans ((goesOn value).steps middle) taken)]
      exact (goesOn value).within middle limit (before.trans free) taken
  · intro machine limit free counts below taken
    have before := cuts.gasLimit machine
    have same := cuts.within machine limit free
    have stops := cuts.beyond machine limit free counts below
    rw [outcome_bind] at taken
    rw [outcome_bind]
    generalize outcome first machine = ran at before same stops taken
    by_cases soon : limit.toNat < ran.2.steps
    · have stops := stops soon
      generalize outcome first (machine.limitedTo limit) = limited at stops
      obtain ⟨result, after⟩ := limited
      obtain ⟨rfl, steps⟩ := stops
      exact ⟨rfl, steps⟩
    · obtain ⟨stop | value, middle⟩ := ran
      · exact absurd taken soon
      · rw [same (Nat.le_of_not_lt soon)]
        exact (goesOn value).beyond middle limit (before.trans free) counts
          (Nat.le_of_not_lt soon) taken

theorem CutOff.withScope (scope : RecordId) {action : EvalM α} (cuts : action.CutOff) :
    (withScope scope action).CutOff := by
  refine ⟨⟨fun machine => cuts.steps { machine with scope }, fun machine =>
    cuts.gasLimit { machine with scope }⟩, ?_, ?_⟩
  · intro machine limit free taken
    have same : outcome action { machine.limitedTo limit with scope } = _ :=
      cuts.within { machine with scope } limit free taken
    rw [outcome_withScope, outcome_withScope, same]
    rfl
  · intro machine limit free counts below taken
    exact cuts.beyond { machine with scope } limit free counts below taken

theorem CutOff.orUndefined {action : EvalM α} (cuts : action.CutOff) (error : EvalError) :
    (action.orUndefined error).CutOff := by
  refine ⟨cuts.toMeters.orUndefined error, fun machine limit free taken => ?_,
    fun machine limit free counts below taken => ?_⟩
  · rw [outcome_orUndefined] at taken
    rw [outcome_orUndefined, outcome_orUndefined, cuts.within machine limit free taken]
  · rw [outcome_orUndefined] at taken
    rw [outcome_orUndefined]
    have stops := cuts.beyond machine limit free counts below taken
    exact ⟨mapError_renamed rfl stops.1, stops.2⟩

theorem Plain.outcome_limitedTo {action : EvalM α} (plain : action.Plain) (machine : Machine)
    (limit : UInt64) :
    outcome action (machine.limitedTo limit) =
      ((outcome action machine).1, (outcome action machine).2.limitedTo limit) := by
  have kept : { (outcome action machine).2 with
      steps := machine.steps, gasLimit := some limit } =
      (outcome action machine).2.limitedTo limit := by
    rw [← plain.steps machine]
    rfl
  rw [← kept]
  exact plain.gasless machine machine.steps (some limit)

theorem Plain.cutOff {action : EvalM α} (plain : action.Plain) : action.CutOff := by
  refine ⟨⟨fun machine => Nat.le_of_eq (plain.steps machine).symm, plain.gasLimit⟩,
    fun machine limit _ _ => plain.outcome_limitedTo machine limit,
    fun machine limit _ _ below taken => ?_⟩
  rw [plain.steps machine] at taken
  exact absurd taken (Nat.not_lt_of_le below)

theorem cutOff_tick : tick.CutOff := by
  refine ⟨⟨fun machine => ?_, fun machine => ?_⟩, fun machine limit free taken => ?_,
    fun machine limit free counts below taken => ?_⟩
  · rw [outcome_tick]
    split <;> exact Nat.le_succ machine.steps
  · rw [outcome_tick]
    split <;> simp_all
  · rw [outcome_tick, free] at taken
    rw [outcome_tick, outcome_tick, free]
    have inside : ¬ limit < .ofNat (machine.steps + 1) := by
      rw [lt_ofNat_iff (Nat.lt_of_le_of_lt taken limit.toNat_lt)]
      exact Nat.not_lt_of_le taken
    exact congrArg (·, _) (if_neg inside)
  · rw [outcome_tick, free] at taken
    rw [outcome_tick]
    refine ⟨if_pos ((lt_ofNat_succ_iff counts below).mpr taken), ?_⟩
    exact Nat.le_antisymm (Nat.succ_le_succ below) taken

theorem congruence_cutOff : Congruence fun action _ => action.CutOff where
  stop _ :=
    ⟨⟨fun _ => Nat.le_refl _, fun _ => rfl⟩, fun _ _ _ _ => rfl,
      fun _ _ _ _ below taken => absurd taken (Nat.not_lt_of_le below)⟩
  plain := Plain.cutOff
  bind := CutOff.bind
  withScope scope _ _ cuts := cuts.withScope scope
  orUndefined error _ _ cuts := cuts.orUndefined error

/-- With a limit, an action stays within it or is stopped with the first step beyond it. -/
theorem CutOff.capped {action : EvalM α} (cuts : action.CutOff) {machine : Machine} {limit : UInt64}
    (limited : machine.gasLimit = some limit) (counts : limit.toNat + 1 < UInt64.size)
    (below : machine.steps ≤ limit.toNat) :
    (outcome action machine).2.steps ≤ limit.toNat ∨ Exhausted limit (outcome action machine) := by
  let free := { machine with gasLimit := none }
  have same : machine = free.limitedTo limit := by
    change machine = { machine with gasLimit := some limit }
    rw [← limited]
  rw [same]
  by_cases inside : (outcome action free).2.steps ≤ limit.toNat
  · rw [cuts.within free limit rfl inside]
    exact .inl inside
  · exact .inr (cuts.beyond free limit rfl counts below (Nat.lt_of_not_le inside))

/-! ## Fuel that is used up -/

/-- Whether a second action has taken at least so many steps when the first stops for want of
fuel. -/
def Spends (fuel : Nat) (action other : EvalM α) : Prop :=
  ∀ machine, (outcome action machine).1 = .error .outOfFuel →
    machine.steps + fuel ≤ (outcome other machine).2.steps

theorem Meters.spends_zero {other : EvalM α} (meters : other.Meters) (action : EvalM α) :
    action.Spends 0 other :=
  fun machine _ => meters.steps machine

theorem Spends.bind {fuel : Nat} {first first' : EvalM α} {next next' : α → EvalM β}
    (spends : first.Spends fuel first') (same : first.Approximates first') (meters : first'.Meters)
    (goesOn : ∀ value, (next value).Spends fuel (next' value))
    (rest : ∀ value, (next' value).Meters) :
    (first >>= next).Spends fuel (first' >>= next') := by
  intro machine stopped
  have taken := meters.steps machine
  have spent := spends machine
  have same := same machine
  rw [outcome_bind] at stopped ⊢
  generalize outcome first machine = ran at spent same stopped
  obtain ⟨stop | value, middle⟩ := ran
  · cases stopped
    have spent := spent rfl
    generalize outcome first' machine = other at spent
    obtain ⟨_ | value, after⟩ := other
    · exact spent
    · exact Nat.le_trans spent ((rest value).steps after)
  · rw [same nofun] at taken ⊢
    exact Nat.le_trans (Nat.add_le_add_right taken fuel) (goesOn value middle stopped)

theorem Plain.spends {action : EvalM α} (plain : action.Plain) (fuel : Nat) (other : EvalM α) :
    action.Spends fuel other :=
  fun machine stopped => absurd stopped (plain.ends machine)

theorem Spends.orUndefined {fuel : Nat} {action other : EvalM α} (spends : action.Spends fuel other)
    (error : EvalError) : (action.orUndefined error).Spends fuel (other.orUndefined error) := by
  intro machine stopped
  rw [outcome_orUndefined] at stopped ⊢
  by_cases fuelless : (outcome action machine).1 = .error .outOfFuel
  · exact spends machine fuelless
  · exact absurd stopped (mapError_renamed_ne error fuelless)

theorem Spends.withScope {fuel : Nat} (scope : RecordId) {action other : EvalM α}
    (spends : action.Spends fuel other) :
    (withScope scope action).Spends fuel (withScope scope other) :=
  fun machine => spends { machine with scope }

theorem Spends.mono {fuel less : Nat} {action other : EvalM α} (fewer : less ≤ fuel)
    (spends : action.Spends fuel other) : action.Spends less other :=
  fun machine stopped => Nat.le_trans (Nat.add_le_add_left fewer _) (spends machine stopped)

/-- Whether an action takes a step whenever it gives a value. -/
def Takes (action : EvalM α) : Prop :=
  ∀ machine value after, outcome action machine = (.ok value, after) → machine.steps < after.steps

/-- What follows an action that takes a step has to spend one unit of fuel less. -/
theorem Takes.bind_spends {fuel : Nat} {first first' : EvalM α} {next next' : α → EvalM β}
    (takes : first.Takes) (spends : first.Spends (fuel + 1) first')
    (same : first.Approximates first') (goesOn : ∀ value, (next value).Spends fuel (next' value))
    (rest : ∀ value, (next' value).Meters) :
    (first >>= next).Spends (fuel + 1) (first' >>= next') := by
  intro machine stopped
  have taken := takes machine
  have spent := spends machine
  have same := same machine
  rw [outcome_bind] at stopped ⊢
  generalize outcome first machine = ran at taken spent same stopped
  obtain ⟨stop | value, middle⟩ := ran
  · cases stopped
    have spent := spent rfl
    generalize outcome first' machine = other at spent
    obtain ⟨_ | value, after⟩ := other
    · exact spent
    · exact Nat.le_trans spent ((rest value).steps after)
  · have more := taken value middle rfl
    have spent := goesOn value middle stopped
    rw [same nofun]
    change machine.steps + (fuel + 1) ≤ (outcome (next' value) middle).2.steps
    omega

theorem takes_tick : tick.Takes := by
  intro machine value after given
  rw [outcome_tick] at given
  have same := congrArg (·.2.steps) given
  split at same <;> exact Nat.lt_of_succ_le (Nat.le_of_eq same)

theorem spends_tick (fuel : Nat) : tick.Spends fuel tick := by
  intro machine stopped
  rw [outcome_tick] at stopped
  split at stopped
  · dsimp only at stopped
    split at stopped <;> cases stopped
  · cases stopped

end EvalM

/-- Whether every evaluation takes a step, and an evaluator that runs out of fuel does so only where
another, which has more fuel, has taken `fuel` steps. -/
structure Evaluator.Lasts (fuel : Nat) (evaluator other : Evaluator) : Prop where
  spends : ∀ atom, (evaluator.eval atom).Spends fuel (other.eval atom)
  takes : ∀ atom, (evaluator.eval atom).Takes
  same : Evaluator.Related (fun action action' => action.Approximates action') evaluator other
  cutOff : Evaluator.Related (fun action _ => action.CutOff) other other
  rounds : evaluator.rounds = fuel

namespace Evaluator

open EvalM

variable {fuel : Nat} {evaluator other : Evaluator}

theorem Lasts.meters (lasts : Lasts fuel evaluator other) {α : Type} {action : Evaluator → EvalM α}
    (composed : Composed action) : (action other).Meters :=
  (composed.respects congruence_cutOff lasts.cutOff).toMeters

/-- Every round of a loop takes a step, so a loop that is out of rounds has taken as many steps. -/
theorem Lasts.loop (lasts : Lasts fuel evaluator other) {σ β : Type} (head : σ → Atom)
    {body : σ → Atom → Evaluator → EvalM (σ ⊕ β)}
    (composed : ∀ state value, Composed (body state value))
    (bodies : ∀ state value, (body state value evaluator).Spends fuel (body state value other))
    {rounds more : Nat} (few : rounds ≤ fuel) (fewer : rounds ≤ more) (start : σ) :
    (evaluator.loop head body rounds start).Spends rounds (other.loop head body more start) := by
  have loops (more : Nat) (state : σ) : (other.loop head body more state).Meters :=
    (lasts.cutOff.loop congruence_cutOff head (fun state value =>
      (composed state value).respects congruence_cutOff lasts.cutOff) (Nat.le_refl more)
        state).toMeters
  have stays (value : β) : (pure value : EvalM β).Meters := (plain_pure value).cutOff.toMeters
  induction rounds generalizing more start with
  | zero => exact (loops more start).spends_zero _
  | succ rounds ih =>
      cases more with
      | zero => exact absurd fewer (Nat.not_succ_le_zero rounds)
      | succ more =>
          have enough := Nat.le_of_succ_le few
          have answered := lasts.same.eval (head start)
          have continued (value : Atom) : (body start value evaluator).Approximates
              (body start value other) :=
            (composed start value).respects congruence_approximates lasts.same
          refine (lasts.takes _).bind_spends ((lasts.spends _).mono few) answered
            (fun value => ?_) fun value =>
              (lasts.meters (composed start value)).bind (Sum.forall.mpr ⟨loops more, stays⟩)
          refine ((bodies start value).mono enough).bind (continued value)
            (lasts.meters (composed start value)) (fun next => ?_)
            (Sum.forall.mpr ⟨loops more, stays⟩)
          cases next with
          | inl state => exact ih enough (Nat.le_of_succ_le_succ fewer) state
          | inr value => exact (plain_pure value).spends rounds _

theorem Composed.spends (lasts : Lasts fuel evaluator other) {α : Type}
    {action : Evaluator → EvalM α}
    (composed : Composed action) : (action evaluator).Spends fuel (action other) := by
  induction composed with
  | plain plain => exact plain.spends fuel _
  | eval atom => exact lasts.spends atom
  | bind composed goesOn first next =>
      exact first.bind (composed.respects congruence_approximates lasts.same)
        (lasts.meters composed)
        next fun value => lasts.meters (goesOn value)
  | withScope scope _ ih => exact ih.withScope scope
  | orUndefined error _ ih => exact ih.orUndefined error
  | loop head start composed ih =>
      have ends := lasts.loop head composed ih (Nat.le_refl fuel)
        (lasts.rounds ▸ lasts.same.rounds) start
      rwa [← lasts.rounds] at ends ⊢

end Evaluator

namespace Registry

open EvalM

variable {registry : Registry} (builtins : registry.Composed)
include builtins

theorem Composed.cutOff (fuel : Nat) :
    Evaluator.Related (fun action _ => action.CutOff) (registry.evaluator fuel)
      (registry.evaluator fuel) :=
  builtins.related congruence_cutOff cutOff_tick fuel 0

/-- More fuel keeps a finished answer. -/
theorem Composed.approximates {fuel more : Nat} (le : fuel ≤ more) (atom : Atom) :
    (registry.eval fuel atom).Approximates (registry.eval more atom) := by
  obtain ⟨extra, rfl⟩ := Nat.exists_eq_add_of_le le
  exact (builtins.related congruence_approximates (.refl tick) fuel extra).eval atom

theorem Composed.lasts (fuel more : Nat) :
    (registry.evaluator fuel).Lasts fuel (registry.evaluator (fuel + more)) := by
  have same := builtins.related congruence_approximates (.refl tick)
  induction fuel with
  | zero =>
      refine ⟨fun atom => ?_, fun atom machine value after given => ?_, same 0 more,
        builtins.cutOff _, rfl⟩
      · exact ((builtins.cutOff _).eval atom).toMeters.spends_zero _
      · cases given
  | succ fuel ih =>
      have composed (atom : Atom) := Evaluator.composed_contents builtins atom
      refine ⟨fun atom => ?_, fun atom => ?_, same (fuel + 1) more, builtins.cutOff _, rfl⟩
      · rw [Nat.succ_add]
        exact takes_tick.bind_spends (spends_tick _) (.refl tick)
          (fun _ => (composed atom).spends ih) fun _ => ih.meters (composed atom)
      · intro machine value after given
        change outcome
          (tick >>= fun _ => Evaluator.contents (registry.evaluator fuel) registry atom)
          machine = _ at given
        obtain ⟨_, middle, ticked, given⟩ := gives_bind_iff.mp given
        have cuts := (composed atom).respects congruence_cutOff (builtins.cutOff fuel)
        have taken := cuts.steps middle
        rw [given] at taken
        exact Nat.lt_of_lt_of_le (takes_tick _ _ _ ticked) taken

/-- An evaluation that is out of fuel, and any with more, has taken a step for every unit of it. -/
theorem Composed.spends {fuel more : Nat} (le : fuel ≤ more) (atom : Atom) :
    (registry.eval fuel atom).Spends fuel (registry.eval more atom) := by
  obtain ⟨extra, rfl⟩ := Nat.exists_eq_add_of_le le
  exact (builtins.lasts fuel extra).spends atom

/-- With a limit, fuel for one more level than there are steps left is enough. -/
theorem Composed.ends {fuel : Nat} (atom : Atom) {machine : Machine} {limit : UInt64}
    (limited : machine.gasLimit = some limit) (counts : limit.toNat + 1 < UInt64.size)
    (below : machine.steps ≤ limit.toNat) (enough : limit.toNat < machine.steps + fuel) :
    (outcome (registry.eval fuel atom) machine).1 ≠ .error .outOfFuel := by
  intro stopped
  have spent := builtins.spends (Nat.le_refl fuel) atom machine stopped
  have cuts : (registry.eval fuel atom).CutOff := (builtins.cutOff fuel).eval atom
  obtain inside | ⟨exhausted, _⟩ := cuts.capped limited counts below
  · omega
  · rw [stopped] at exhausted
    cases exhausted

variable {fuel more : Nat} {atom : Atom} {machine : Machine}
  (ended : (outcome (registry.eval fuel atom) machine).1 ≠ .error .outOfFuel)
include ended

/-- Evaluations that come to an end do the same, whatever fuel they have. -/
theorem Composed.eval_eq
    (endedMore : (outcome (registry.eval more atom) machine).1 ≠ .error .outOfFuel) :
    outcome (registry.eval fuel atom) machine = outcome (registry.eval more atom) machine := by
  -- Both can be had with the fuel of both.
  have first := builtins.approximates (Nat.le_add_right fuel more) atom machine ended
  have second := builtins.approximates (Nat.le_add_left more fuel) atom machine endedMore
  exact first.symm.trans second

/-- An evaluation that comes to an end can be had with fuel for more levels than it takes steps. -/
theorem Composed.ends_of_steps_lt
    (enough : (outcome (registry.eval fuel atom) machine).2.steps < machine.steps + more) :
    (outcome (registry.eval more atom) machine).1 ≠ .error .outOfFuel := by
  intro stopped
  have spent := builtins.spends (Nat.le_add_right more fuel) atom machine stopped
  rw [builtins.approximates (Nat.le_add_left fuel more) atom machine ended] at spent
  exact absurd enough (Nat.not_lt_of_le spent)

end Registry

/-! ## The greatest limit -/

namespace EvalM

variable {α β : Type} {limit : UInt64}

/-- Whether a limit on gas makes no difference to an action, however many steps it takes. -/
structure Ignores (limit : UInt64) (action : EvalM α) : Prop extends Meters action where
  same : ∀ machine : Machine, machine.gasLimit = none →
    outcome action (machine.limitedTo limit) =
      ((outcome action machine).1, (outcome action machine).2.limitedTo limit)

theorem Ignores.bind {first : EvalM α} {next : α → EvalM β} (ignores : first.Ignores limit)
    (goesOn : ∀ value, (next value).Ignores limit) : (first >>= next).Ignores limit := by
  refine ⟨ignores.toMeters.bind fun value => (goesOn value).toMeters, fun machine free => ?_⟩
  have before := ignores.gasLimit machine
  rw [outcome_bind, outcome_bind, ignores.same machine free]
  generalize outcome first machine = ran at before
  obtain ⟨stop | value, middle⟩ := ran
  · rfl
  · exact (goesOn value).same middle (before.trans free)

/-- No count of 64 bits is beyond the greatest limit. -/
theorem ignores_tick (greatest : limit.toNat + 1 = UInt64.size) : tick.Ignores limit := by
  refine ⟨cutOff_tick.toMeters, fun machine free => ?_⟩
  have never (count : Nat) : ¬ limit < .ofNat count := by
    have word := (UInt64.ofNat count).toNat_lt
    rw [UInt64.lt_iff_toNat_lt]
    change _ < UInt64.size at word
    omega
  rw [outcome_tick, outcome_tick, free]
  exact congrArg (·, _) (if_neg (never _))

theorem congruence_ignores (limit : UInt64) : Congruence fun action _ => action.Ignores limit where
  stop _ := ⟨(congruence_cutOff.stop (throw .outOfFuel)).toMeters, fun _ _ => rfl⟩
  plain plain := ⟨plain.cutOff.toMeters, fun machine _ => plain.outcome_limitedTo machine limit⟩
  bind := Ignores.bind
  withScope scope _ _ ignores := by
    refine ⟨⟨fun machine => ignores.steps { machine with scope },
      fun machine => ignores.gasLimit { machine with scope }⟩, fun machine free => ?_⟩
    have same : outcome _ { machine.limitedTo limit with scope } = _ :=
      ignores.same { machine with scope } free
    rw [outcome_withScope, outcome_withScope, same]
    rfl
  orUndefined error _ _ ignores := by
    refine ⟨ignores.toMeters.orUndefined error, fun machine free => ?_⟩
    rw [outcome_orUndefined, outcome_orUndefined, ignores.same machine free]

end EvalM

/-- The greatest limit on gas is no limit: the count of the steps goes round before it exceeds
`2^64 - 1`. What never ends without a limit never ends with this one. -/
theorem Registry.greatest_limit_never_stops {registry : Registry}
    (drawn : registry.DrawnFrom Pack.all) {limit : UInt64}
    (greatest : limit.toNat + 1 = UInt64.size) (fuel : Nat) (atom : Atom) {machine : Machine}
    (free : machine.gasLimit = none) :
    outcome (registry.eval fuel atom) (machine.limitedTo limit) =
      ((outcome (registry.eval fuel atom) machine).1,
        (outcome (registry.eval fuel atom) machine).2.limitedTo limit) :=
  ((drawn.composed.related (EvalM.congruence_ignores limit) (EvalM.ignores_tick greatest)
    fuel 0).eval atom).same machine free

/-! ## The cut -/

/-- An evaluation with a limit on gas is the evaluation without one as long as that takes no more
steps than the limit allows, and is stopped by the first step beyond the limit otherwise, also when
the evaluation without a limit never ends. Steps are counted below `2^64`, as gas is. -/
theorem Registry.gas_limit_cuts_off {registry : Registry} (drawn : registry.DrawnFrom Pack.all)
    {atom : Atom} {machine : Machine} {limit : UInt64} (free : machine.gasLimit = none)
    (below : machine.steps ≤ limit.toNat) :
    let limited := registry.run (fun evaluator => evaluator.eval atom) (machine.limitedTo limit)
    (∀ (fuel : Nat) (result : Except Stop Atom) (after : Machine),
      outcome (registry.eval fuel atom) machine = (result, after) → result ≠ .error .outOfFuel →
        after.steps < UInt64.size →
          if after.steps ≤ limit.toNat then limited = (result, after.limitedTo limit)
          else EvalM.Exhausted limit limited) ∧
      ((∀ fuel, (outcome (registry.eval fuel atom) machine).1 = .error .outOfFuel) →
        limit.toNat + 1 < UInt64.size → EvalM.Exhausted limit limited) := by
  have builtins := drawn.composed
  intro limited
  let enough := (machine.limitedTo limit).fuel
  have cuts : (registry.eval enough atom).CutOff := (builtins.cutOff enough).eval atom
  have fuels : limit.toNat < machine.steps + enough :=
    (machine.limitedTo limit).lt_steps_add_fuel rfl below
  have starved (stopped : (outcome (registry.eval enough atom) machine).1 = .error .outOfFuel) :
      limit.toNat < (outcome (registry.eval enough atom) machine).2.steps :=
    Nat.lt_of_lt_of_le fuels (builtins.spends (Nat.le_refl enough) atom machine stopped)
  refine ⟨fun fuel result after ran ended counted => ?_, fun endless counts => ?_⟩
  · have ended : (outcome (registry.eval fuel atom) machine).1 ≠ .error .outOfFuel := by rwa [ran]
    have same (finished : (outcome (registry.eval enough atom) machine).1 ≠ .error .outOfFuel) :
        outcome (registry.eval enough atom) machine = (result, after) :=
      (builtins.eval_eq finished ended).trans ran
    split
    · rename_i inside
      have finished : (outcome (registry.eval enough atom) machine).1 ≠ .error .outOfFuel := by
        refine builtins.ends_of_steps_lt ended ?_
        rw [ran]
        exact Nat.lt_of_le_of_lt inside fuels
      have limits := cuts.within machine limit free (by rwa [same finished])
      rwa [same finished] at limits
    · rename_i outside
      have outside := Nat.lt_of_not_le outside
      refine cuts.beyond machine limit free (Nat.lt_of_le_of_lt outside counted) below ?_
      by_cases stopped : (outcome (registry.eval enough atom) machine).1 = .error .outOfFuel
      · exact starved stopped
      · rwa [same stopped]
  · exact cuts.beyond machine limit free counts below (starved (endless enough))

/-- A loop over a number that holds, with a number for a body, has no end. -/
theorem Registry.whileLoop_endless (registry : Registry) (fuel rounds : Nat) {machine : Machine}
    (free : machine.gasLimit = none) :
    (outcome (Builtin.whileLoop (registry.evaluator fuel) (.integer .one) (.integer .zero) rounds)
      machine).1 = .error .outOfFuel := by
  induction rounds generalizing machine with
  | zero => rfl
  | succ rounds ih =>
      cases fuel with
      | zero => rfl
      | succ fuel =>
          have ticked (machine : Machine) (free : machine.gasLimit = none) (value : Integer) :
              outcome ((registry.evaluator (fuel + 1)).eval (.integer value)) machine =
                (.ok (.integer value), { machine with steps := machine.steps + 1 }) := by
            obtain ⟨heap, scope, steps, gasLimit, files, random, drawn⟩ := machine
            cases free
            exact outcome_bind_of_ok (EvalM.outcome_tick _)
          have body := ticked { machine with steps := machine.steps + 1 } free .zero
          rw [Builtin.whileLoop, outcome_bind_of_ok (ticked machine free .one), if_pos (by decide),
            outcome_bind_of_ok body]
          exact ih free

/-- A list in a list takes five steps, and a limit of three stops it with the fourth. A loop without
an end is stopped by a limit of fifty. -/
theorem Registry.gas_limit_cuts_off_list_and_loop :
    let registry := (Registry.empty.registerAll [("list *values", Native.pureUnary .ok),
      ("while 'condition 'body", Native.binary Builtin.repeatWhile)]).2
    let machine := Machine.fresh none .empty .least
    let nested := Atom.ofList [.token "list", .nil, .ofList [.token "list", .nil, .nil]]
    let loop := Atom.ofList [.token "while", .integer .one, .integer .zero]
    registry.DrawnFrom Pack.all ∧
      (outcome (registry.eval 4 nested) machine).2.steps = 5 ∧
      EvalM.Exhausted 3
        (registry.run (fun evaluator => evaluator.eval nested) (machine.limitedTo 3)) ∧
      (∀ fuel, (outcome (registry.eval fuel loop) machine).1 = .error .outOfFuel) ∧
      EvalM.Exhausted 50
        (registry.run (fun evaluator => evaluator.eval loop) (machine.limitedTo 50)) := by
  intro registry machine nested loop
  have drawn : registry.DrawnFrom Pack.all := by
    refine (Registry.drawnFrom_empty _).registerAll fun entry mem => ?_
    simp only [List.mem_cons, List.not_mem_nil, or_false] at mem
    rcases mem with rfl | rfl <;> simp [Pack.all, Pack.core]
  have steps : (outcome (registry.eval 4 nested) machine).2.steps = 5 := by decide
  have ended : (outcome (registry.eval 4 nested) machine).1.isOk = true := by decide
  have finished : (outcome (registry.eval 4 nested) machine).1 ≠ .error .outOfFuel := by
    intro stopped
    rw [stopped] at ended
    cases ended
  have free : machine.gasLimit = none := rfl
  have first : machine.steps ≤ UInt64.toNat 3 := by decide
  have later : machine.steps ≤ UInt64.toNat 50 := by decide
  have endless (fuel : Nat) :
      (outcome (registry.eval fuel loop) machine).1 = .error .outOfFuel := by
    cases fuel with
    | zero => rfl
    | succ fuel => exact registry.whileLoop_endless fuel fuel (by exact free)
  -- From here on what was computed is enough.
  clear_value registry machine nested loop
  have ran := (Prod.eta (outcome (registry.eval 4 nested) machine)).symm
  have cut :=
    (Registry.gas_limit_cuts_off drawn free first).1 4 _ _ ran finished (by rw [steps]; decide)
  rw [steps, if_neg (by decide)] at cut
  have stopped := (Registry.gas_limit_cuts_off drawn free later).2 endless (by decide)
  exact ⟨drawn, steps, cut, endless, stopped⟩

end RecordLisp
