import RecordLisp.Proofs.Effect
import RecordLisp.Proofs.Heap.Matching

/-!
# Simulation up to handles

Two runs of one program on matching states differ in the handles they hand out alone. `Simulates`
says so of two actions: from states that match they lead to states that match, under the same pairs
and possibly more, and give the same error or values that correspond. Pairs never go away within a
run, so a value that corresponds to another keeps doing so.

The rules follow the ways of putting actions together.
-/

namespace RecordLisp

/-- When values of two runs correspond. New pairs do not change that they do. -/
structure Correspondence (α : Type) where
  relates : Pairing → α → α → Prop
  mono : ∀ {pairing later : Pairing} {value other : α}, pairing.Within later →
    relates pairing value other → relates later value other

namespace Correspondence

/-- Values without handles correspond to themselves alone. -/
def same (α : Type) : Correspondence α where
  relates _ := Eq
  mono _ equal := equal

def atom : Correspondence Atom := ⟨Atom.Match, fun within matched => matched.mono within⟩

def record : Correspondence RecordId := ⟨Pairing.record, fun within => within.record⟩

def function : Correspondence FunctionId := ⟨Pairing.function, fun within => within.function⟩

/-- Pairs of corresponding parts. -/
def prod {α β : Type} (first : Correspondence α) (second : Correspondence β) :
    Correspondence (α × β) where
  relates pairing value other :=
    first.relates pairing value.1 other.1 ∧ second.relates pairing value.2 other.2
  mono within related := related.imp (first.mono within) (second.mono within)

/-- Lists of corresponding items. -/
def list {α : Type} (items : Correspondence α) : Correspondence (List α) where
  relates pairing := List.Forall₂ (items.relates pairing)
  mono within related := related.imp fun _ _ => items.mono within

/-- Fields correspond when they match. -/
abbrev fields : Correspondence Fields := list (prod (same String) atom)

end Correspondence

/-! ## Results -/

/-- The same error, or related values. -/
inductive ResultRel {ε α β : Type} (relation : α → β → Prop) : Except ε α → Except ε β → Prop where
  | error (error : ε) : ResultRel relation (.error error) (.error error)
  | ok {value : α} {other : β} : relation value other → ResultRel relation (.ok value) (.ok other)

namespace ResultRel

variable {ε α β : Type} {relation : α → α → Prop} {relation' : β → β → Prop}

theorem of_eq {result other : Except ε α} (equal : result = other) :
    ResultRel (fun a b => a = b) result other := by
  subst equal
  cases result with
  | error error => exact .error error
  | ok value => exact .ok rfl

theorem bind {result other : Except ε α} (first : ResultRel relation result other)
    {next next' : α → Except ε β}
    (goesOn : ∀ value value', relation value value' →
      ResultRel relation' (next value) (next' value')) :
    ResultRel relation' (result >>= next) (other >>= next') := by
  cases first with
  | error error => exact .error error
  | ok related => exact goesOn _ _ related

theorem imp {result other : Except ε α} {weaker : α → α → Prop}
    (related : ResultRel relation result other)
    (implies : ∀ value value', relation value value' → weaker value value') :
    ResultRel weaker result other := by
  cases related with
  | error error => exact .error error
  | ok related => exact .ok (implies _ _ related)

end ResultRel

/-! ## Actions -/

namespace Effect

/-- Whether two actions do the same up to handles. `states` says when states match. -/
def Simulates {ε σ α : Type} (states : Pairing → σ → σ → Prop) (values : Correspondence α)
    (pairing : Pairing) (action other : Effect ε σ α) : Prop :=
  ∀ later, pairing.Within later → ∀ state state', states later state state' →
    ∃ last, later.Within last ∧ states last (outcome action state).2 (outcome other state').2 ∧
      ResultRel (values.relates last) (outcome action state).1 (outcome other state').1

variable {ε σ α β γ : Type} {states : Pairing → σ → σ → Prop} {pairing later : Pairing}
  {values : Correspondence α} {results : Correspondence β}

theorem Simulates.mono {action other : Effect ε σ α} (within : pairing.Within later)
    (simulates : Simulates states values pairing action other) :
    Simulates states values later action other :=
  fun last grows => simulates last (within.trans grows)

theorem simulates_pure {value other : α} (related : values.relates pairing value other) :
    Simulates states values pairing (pure value : Effect ε σ α) (pure other) :=
  fun later within _ _ matched =>
    ⟨later, .refl later, matched, .ok (values.mono within related)⟩

theorem simulates_throw (error : ε) :
    Simulates states values pairing (throw error : Effect ε σ α) (throw error) :=
  fun later _ _ _ matched => ⟨later, .refl later, matched, .error error⟩

/-- What comes after corresponding values may use the pairs there are then. -/
theorem Simulates.bind {action other : Effect ε σ α} {next next' : α → Effect ε σ β}
    (first : Simulates states values pairing action other)
    (goesOn : ∀ later, pairing.Within later → ∀ value value', values.relates later value value' →
      Simulates states results later (next value) (next' value')) :
    Simulates states results pairing (action >>= next) (other >>= next') := by
  intro later within state state' matched
  obtain ⟨middle, grows, matched, related⟩ := first later within state state' matched
  rw [outcome_bind, outcome_bind]
  generalize outcome action state = ran, outcome other state' = ran' at matched related
  obtain ⟨result, after⟩ := ran
  obtain ⟨result', after'⟩ := ran'
  cases related with
  | error error => exact ⟨middle, grows, matched, .error error⟩
  | ok related =>
      obtain ⟨last, growsOn, matched, related⟩ :=
        goesOn middle (within.trans grows) _ _ related middle (.refl middle) _ _ matched
      exact ⟨last, grows.trans growsOn, matched, related⟩

theorem Simulates.map {action other : Effect ε σ α} {change change' : α → β}
    (first : Simulates states values pairing action other)
    (changed : ∀ later, pairing.Within later → ∀ value value', values.relates later value value' →
      results.relates later (change value) (change' value')) :
    Simulates states results pairing (action >>= fun value => pure (change value))
      (other >>= fun value => pure (change' value)) :=
  first.bind fun later within value value' related =>
    simulates_pure (changed later within value value' related)

theorem Simulates.tryCatch {action other : Effect ε σ α} {handler handler' : ε → Effect ε σ α}
    (first : Simulates states values pairing action other)
    (handled : ∀ error, Simulates states values pairing (handler error) (handler' error)) :
    Simulates states values pairing (tryCatch action handler) (tryCatch other handler') := by
  intro later within state state' matched
  obtain ⟨middle, grows, matched, related⟩ := first later within state state' matched
  rw [outcome_tryCatch, outcome_tryCatch]
  generalize outcome action state = ran, outcome other state' = ran' at matched related
  obtain ⟨result, after⟩ := ran
  obtain ⟨result', after'⟩ := ran'
  cases related with
  | ok related => exact ⟨middle, grows, matched, .ok related⟩
  | error error =>
      obtain ⟨last, growsOn, matched, related⟩ :=
        handled error middle (within.trans grows) _ _ matched
      exact ⟨last, grows.trans growsOn, matched, related⟩

/-- An action that gives a view of the state and leaves the state alone. -/
def Reads (action : Effect ε σ γ) (view : σ → γ) : Prop :=
  ∀ state, outcome action state = (.ok (view state), state)

/-- After a look at matching states. -/
theorem Simulates.read {action : Effect ε σ γ} {view : σ → γ} (reads : Reads action view)
    {next next' : γ → Effect ε σ β}
    (goesOn : ∀ later, pairing.Within later → ∀ state state', states later state state' →
      Simulates states results later (next (view state)) (next' (view state'))) :
    Simulates states results pairing (action >>= next) (action >>= next') := by
  intro later within state state' matched
  rw [outcome_bind_of_ok (reads state), outcome_bind_of_ok (reads state')]
  exact goesOn later within state state' matched later (.refl later) state state' matched

/-- A change of the state that makes no pairs. -/
theorem simulates_modify {change change' : σ → σ}
    (changes : ∀ later, pairing.Within later → ∀ state state', states later state state' →
      states later (change state) (change' state')) :
    Simulates states (.same PUnit) pairing (modify change : Effect ε σ PUnit) (modify change') :=
  fun later within state state' matched =>
    ⟨later, .refl later, changes later within state state' matched, .ok rfl⟩

/-! ## Repetition -/

theorem Simulates.mapM (each : Correspondence α) {step step' : α → Effect ε σ β}
    {items others : List α} (related : List.Forall₂ (each.relates pairing) items others)
    (simulates : ∀ later, pairing.Within later → ∀ item other, each.relates later item other →
      Simulates states results later (step item) (step' other)) :
    Simulates states results.list pairing (items.mapM step) (others.mapM step') := by
  induction items generalizing pairing others with
  | nil =>
      cases related
      exact simulates_pure .nil
  | cons item items ih =>
      cases related with
      | cons first rest =>
          rw [List.mapM_cons, List.mapM_cons]
          refine (simulates pairing (.refl pairing) _ _ first).bind fun later within _ _ value => ?_
          refine Simulates.map (ih (rest.imp fun _ _ => each.mono within) ?_) ?_
          · exact fun last grows => simulates last (within.trans grows)
          · exact fun last grows _ _ others => .cons (results.mono grows value) others

theorem Simulates.forM (each : Correspondence α) {step step' : α → Effect ε σ PUnit}
    {items others : List α} (related : List.Forall₂ (each.relates pairing) items others)
    (simulates : ∀ later, pairing.Within later → ∀ item other, each.relates later item other →
      Simulates states (.same PUnit) later (step item) (step' other)) :
    Simulates states (.same PUnit) pairing (items.forM step) (others.forM step') := by
  induction items generalizing pairing others with
  | nil =>
      cases related
      exact simulates_pure rfl
  | cons item items ih =>
      cases related with
      | cons first rest =>
          refine (simulates pairing (.refl pairing) _ _ first).bind fun later within _ _ _ => ?_
          refine ih (rest.imp fun _ _ => each.mono within) ?_
          exact fun last grows => simulates last (within.trans grows)

theorem Simulates.foldlM (each : Correspondence α) {step step' : β → α → Effect ε σ β}
    {items others : List α} (related : List.Forall₂ (each.relates pairing) items others)
    {start start' : β} (starts : results.relates pairing start start')
    (simulates : ∀ later, pairing.Within later →
      ∀ value value', results.relates later value value' →
      ∀ item other, each.relates later item other →
        Simulates states results later (step value item) (step' value' other)) :
    Simulates states results pairing (items.foldlM step start) (others.foldlM step' start') := by
  induction items generalizing pairing others start start' with
  | nil =>
      cases related
      exact simulates_pure starts
  | cons item items ih =>
      cases related with
      | cons first rest =>
          rw [List.foldlM_cons, List.foldlM_cons]
          refine (simulates pairing (.refl pairing) _ _ starts _ _ first).bind
            fun later within _ _ value => ?_
          refine ih (rest.imp fun _ _ => each.mono within) value ?_
          exact fun last grows => simulates last (within.trans grows)

theorem Simulates.filterM (each : Correspondence α) {test test' : α → Effect ε σ Bool}
    {items others : List α} (related : List.Forall₂ (each.relates pairing) items others)
    (simulates : ∀ later, pairing.Within later → ∀ item other, each.relates later item other →
      Simulates states (.same Bool) later (test item) (test' other)) :
    Simulates states each.list pairing (items.filterM test) (others.filterM test') := by
  -- The items that passed are kept in a list, the latest in front.
  have kept {passed passed' : List α}
      (already : List.Forall₂ (each.relates pairing) passed passed') :
      Simulates states each.list pairing (items.filterAuxM test passed)
        (others.filterAuxM test' passed') := by
    induction items generalizing pairing others passed passed' with
    | nil =>
        cases related
        exact simulates_pure already
    | cons item items ih =>
        cases related with
        | cons first rest =>
            refine (simulates pairing (.refl pairing) _ _ first).bind
              fun later within keep _ same => ?_
            cases same
            refine ih (rest.imp fun _ _ => each.mono within)
              (fun last grows => simulates last (within.trans grows)) ?_
            have already := already.imp fun _ _ => each.mono within
            cases keep with
            | true => exact .cons (each.mono within first) already
            | false => exact already
  exact (kept .nil).map fun _ _ _ _ passed => List.rel_reverse passed

end Effect

end RecordLisp
