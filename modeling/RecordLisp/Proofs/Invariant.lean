import RecordLisp.Proofs.Effect
import RecordLisp.Proofs.Heap.Slots
import RecordLisp.Source.Reader

/-!
# Invariants of the heap

What a program finds in the heap it was put there by programs: a value read from a field was stored
in it, the body of a function was an operand. An invariant says what holds of every heap and of
every atom that a program gets hold of, and how the heap may change. Its laws are about single
changes of the heap and single steps into an atom.

`Maintains` says of an action that it keeps an invariant and gives values of a kind. A later heap
leaves what was known of a value true, so what comes after an action may use the values from before
it. The rules follow the ways of putting actions together.
-/

namespace RecordLisp

/-- What holds of heaps and of the atoms that programs get hold of. -/
structure Invariant where
  heap : Heap → Prop
  atom : Heap → Atom → Prop
  /-- how a heap may change -/
  later : Heap → Heap → Prop
  /-- the objects whose contents may change -/
  owned : Heap → Handle → Prop
  refl : ∀ base, later base base
  trans : ∀ {base middle after}, later base middle → later middle after → later base after
  atom_mono : ∀ {base after atom'}, later base after → atom base atom' → atom after atom'
  owned_mono : ∀ {base after handle}, later base after → owned base handle → owned after handle
  leaf : ∀ {base value}, value.handle? = none → atom base (.leaf .plain value)
  unmarked : ∀ {base atom'}, atom base atom' → atom base atom'.unmarked
  item : ∀ {base modifier items}, atom base (.list modifier items) → ∀ item ∈ items, atom base item
  list : ∀ {base items}, (∀ item ∈ items, atom base item) → atom base (.ofList items)
  target : ∀ {base modifier target field}, atom base (.member modifier target field) →
    atom base target
  field : ∀ {base modifier target field}, atom base (.member modifier target field) →
    atom base field
  value : ∀ {base id}, heap base → atom base (.record id) →
    ∀ value ∈ (base.record id).values, atom base value
  parent : ∀ {base id}, heap base → atom base (.record id) →
    ∀ parent ∈ (base.record id).parent, atom base (.record parent)
  body : ∀ {base id}, heap base → atom base (.function id) → atom base (base.closure id).body
  scope : ∀ {base id}, heap base → atom base (.function id) →
    atom base (.record (base.closure id).scope)
  allocRecord : ∀ {base record}, heap base → (∀ value ∈ record.values, atom base value) →
    (∀ parent ∈ record.parent, atom base (.record parent)) →
      heap (base.allocRecord record).2 ∧ later base (base.allocRecord record).2 ∧
        atom (base.allocRecord record).2 (.record (base.allocRecord record).1) ∧
          owned (base.allocRecord record).2 (.record (base.allocRecord record).1)
  allocClosure : ∀ {base closure}, heap base → atom base closure.body →
    atom base (.record closure.scope) →
      heap (base.allocClosure closure).2 ∧ later base (base.allocClosure closure).2 ∧
        atom (base.allocClosure closure).2 (.function (base.allocClosure closure).1)
  modifyRecord : ∀ {base id change}, heap base → owned base (.record id) →
    (∀ value ∈ (change (base.record id)).values, atom base value) →
      (∀ parent ∈ (change (base.record id)).parent, atom base (.record parent)) →
        (change (base.record id)).literal = (base.record id).literal →
          heap (base.modifyRecord id change) ∧ later base (base.modifyRecord id change)
  setScope : ∀ {base id scope}, heap base → owned base (.function id) → atom base (.record scope) →
    heap (base.modifyClosure id fun closure => { closure with scope }) ∧
      later base (base.modifyClosure id fun closure => { closure with scope })

namespace Invariant

variable (inv : Invariant)

/-- Whether reading a source keeps an invariant and gives an atom that programs may get hold of. -/
def Reads : Prop :=
  ∀ (base : Heap) (source : Source), inv.heap base →
    inv.heap (source.read base).2 ∧ inv.later base (source.read base).2 ∧
      ∀ atom, (source.read base).1 = .ok atom → inv.atom (source.read base).2 atom

/-- A kind of values, which stay of the kind while the heap changes. -/
structure Kind (α : Type) where
  holds : Heap → α → Prop
  mono : ∀ {base after : Heap} {value : α}, inv.later base after → holds base value →
    holds after value

namespace Kind

/-- Values of which nothing is said. -/
def any (α : Type) : inv.Kind α := ⟨fun _ _ => True, fun _ _ => trivial⟩

def atoms : inv.Kind Atom := ⟨inv.atom, inv.atom_mono⟩

/-- Records that programs get hold of. -/
def record : inv.Kind RecordId := ⟨fun base id => inv.atom base (.record id), inv.atom_mono⟩

/-- Functions that programs get hold of. -/
def function : inv.Kind FunctionId := ⟨fun base id => inv.atom base (.function id), inv.atom_mono⟩

/-- Records that programs get hold of and whose contents may change. -/
def ownRecord : inv.Kind RecordId where
  holds base id := inv.atom base (.record id) ∧ inv.owned base (.record id)
  mono later known := known.imp (inv.atom_mono later) (inv.owned_mono later)

variable {inv}

/-- Lists of such values. -/
def list {α : Type} (kind : inv.Kind α) : inv.Kind (List α) where
  holds base items := ∀ item ∈ items, kind.holds base item
  mono later known item mem := kind.mono later (known item mem)

/-- Values that are found in one way or another. -/
def view {α β : Type} (kind : inv.Kind β) (of : α → β) : inv.Kind α :=
  ⟨fun base value => kind.holds base (of value), kind.mono⟩

variable (inv)

/-- Fields with such atoms. -/
abbrev fields : inv.Kind Fields := list ((atoms inv).view Prod.snd)

end Kind

end Invariant

/-! ## Results -/

/-- Whether a result that is a value has a property. -/
def Yields {ε α : Type} (property : α → Prop) (result : Except ε α) : Prop :=
  ∀ value, result = .ok value → property value

namespace Yields

variable {ε α β : Type} {property : α → Prop} {other : β → Prop}

theorem ok {value : α} (holds : property value) : Yields property (.ok value : Except ε α) := by
  intro result same
  cases same
  exact holds

theorem error (error : ε) : Yields property (.error error : Except ε α) := nofun

theorem any (result : Except ε α) : Yields (fun _ => True) result := fun _ _ => trivial

theorem bind {result : Except ε α} {next : α → Except ε β} (first : Yields property result)
    (goesOn : ∀ value, property value → Yields other (next value)) :
    Yields other (result >>= next) := by
  cases result with
  | error error => exact nofun
  | ok value => exact goesOn value (first value rfl)

theorem imp {weaker : α → Prop} {result : Except ε α} (yields : Yields property result)
    (implies : ∀ value, property value → weaker value) : Yields weaker result :=
  fun value same => implies value (yields value same)

end Yields

/-! ## Actions -/

namespace Effect

variable {ε σ α β γ : Type} {inv : Invariant} {heapOf : σ → Heap} {states : σ → Prop}
  {values : inv.Kind α} {results : inv.Kind β} {base after : Heap}

/-- Whether an action keeps an invariant from all states with a heap later than `base`, and gives
values of a kind. -/
def Maintains (heapOf : σ → Heap) (states : σ → Prop) (values : inv.Kind α) (base : Heap)
    (action : Effect ε σ α) : Prop :=
  ∀ state, inv.later base (heapOf state) → states state →
    inv.later (heapOf state) (heapOf (outcome action state).2) ∧ states (outcome action state).2 ∧
      ∀ value, (outcome action state).1 = .ok value →
        values.holds (heapOf (outcome action state).2) value

theorem maintains_pure {value : α} (holds : values.holds base value) :
    Maintains heapOf states values base (pure value : Effect ε σ α) := by
  refine fun state later kept => ⟨inv.refl _, kept, fun result same => ?_⟩
  cases same
  exact values.mono later holds

theorem maintains_throw (error : ε) :
    Maintains heapOf states values base (throw error : Effect ε σ α) :=
  fun _ _ kept => ⟨inv.refl _, kept, nofun⟩

/-- What comes after a value may use that it is of its kind in the heap there is then. -/
theorem Maintains.bind {action : Effect ε σ α} {next : α → Effect ε σ β}
    (first : Maintains heapOf states values base action)
    (goesOn : ∀ after, inv.later base after → ∀ value, values.holds after value →
      Maintains heapOf states results after (next value)) :
    Maintains heapOf states results base (action >>= next) := by
  intro state later kept
  obtain ⟨grows, kept, known⟩ := first state later kept
  rw [outcome_bind]
  generalize outcome action state = ran at grows kept known
  obtain ⟨result, middle⟩ := ran
  cases result with
  | error error => exact ⟨grows, kept, nofun⟩
  | ok value =>
      obtain ⟨growsOn, kept, known⟩ :=
        goesOn _ (inv.trans later grows) value (known value rfl) middle (inv.refl _) kept
      exact ⟨inv.trans grows growsOn, kept, known⟩

/-- A final change of the value. -/
theorem Maintains.map {action : Effect ε σ α} {change : α → β}
    (first : Maintains heapOf states values base action)
    (changed : ∀ after, inv.later base after → ∀ value, values.holds after value →
      results.holds after (change value)) :
    Maintains heapOf states results base (action >>= fun value => pure (change value)) :=
  first.bind fun after later value known => maintains_pure (changed after later value known)

theorem Maintains.tryCatch {action : Effect ε σ α} {handler : ε → Effect ε σ α}
    (first : Maintains heapOf states values base action)
    (handled : ∀ error, Maintains heapOf states values base (handler error)) :
    Maintains heapOf states values base (tryCatch action handler) := by
  intro state later kept
  obtain ⟨grows, kept, known⟩ := first state later kept
  rw [outcome_tryCatch]
  generalize outcome action state = ran at grows kept known
  obtain ⟨result, middle⟩ := ran
  cases result with
  | ok value => exact ⟨grows, kept, known⟩
  | error error =>
      obtain ⟨growsOn, kept, known⟩ := handled error middle (inv.trans later grows) kept
      exact ⟨inv.trans grows growsOn, kept, known⟩

/-- After a look at the state. -/
theorem maintains_get {next : σ → Effect ε σ β}
    (goesOn : ∀ state, inv.later base (heapOf state) → states state →
      Maintains heapOf states results (heapOf state) (next state)) :
    Maintains heapOf states results base (get >>= next) := by
  intro state later kept
  rw [outcome_bind_of_ok (outcome_get state)]
  exact goesOn state later kept state (inv.refl _) kept

/-! ## Repetition -/

theorem maintains_mapM {step : γ → Effect ε σ β} {items : List γ}
    (maintains : ∀ after, inv.later base after → ∀ item ∈ items,
      Maintains heapOf states results after (step item)) :
    Maintains heapOf states results.list base (items.mapM step) := by
  induction items generalizing base with
  | nil => exact maintains_pure nofun
  | cons item items ih =>
      rw [List.mapM_cons]
      refine (maintains base (inv.refl base) item List.mem_cons_self).bind
        fun after later value known => ?_
      refine Maintains.map (ih fun last grows item mem => ?_) fun last grows values others => ?_
      · exact maintains last (inv.trans later grows) item (List.mem_cons_of_mem _ mem)
      · exact List.forall_mem_cons.mpr ⟨results.mono grows known, others⟩

theorem maintains_forM {step : γ → Effect ε σ PUnit} {items : List γ}
    (maintains : ∀ after, inv.later base after → ∀ item ∈ items,
      Maintains heapOf states (.any inv PUnit) after (step item)) :
    Maintains heapOf states (.any inv PUnit) base (items.forM step) := by
  induction items generalizing base with
  | nil => exact maintains_pure trivial
  | cons item items ih =>
      refine (maintains base (inv.refl base) item List.mem_cons_self).bind fun after later _ _ => ?_
      exact ih fun last grows item mem =>
        maintains last (inv.trans later grows) item (List.mem_cons_of_mem _ mem)

theorem maintains_foldlM {step : β → γ → Effect ε σ β} {items : List γ} {start : β}
    (starts : results.holds base start)
    (maintains : ∀ after, inv.later base after → ∀ value, results.holds after value →
      ∀ item ∈ items, Maintains heapOf states results after (step value item)) :
    Maintains heapOf states results base (items.foldlM step start) := by
  induction items generalizing base start with
  | nil => exact maintains_pure starts
  | cons item items ih =>
      rw [List.foldlM_cons]
      refine (maintains base (inv.refl base) start starts item List.mem_cons_self).bind
        fun after later value known => ih known fun last grows value known item mem => ?_
      exact maintains last (inv.trans later grows) value known item (List.mem_cons_of_mem _ mem)

theorem maintains_filterM {test : γ → Effect ε σ Bool} {items : List γ} {kind : inv.Kind γ}
    (known : ∀ item ∈ items, kind.holds base item)
    (maintains : ∀ after, inv.later base after → ∀ item ∈ items,
      Maintains heapOf states (.any inv Bool) after (test item)) :
    Maintains heapOf states kind.list base (items.filterM test) := by
  -- The items that passed are kept in a list, the latest in front.
  have kept {passed : List γ} (already : ∀ item ∈ passed, kind.holds base item) :
      Maintains heapOf states kind.list base (items.filterAuxM test passed) := by
    induction items generalizing base passed with
    | nil => exact maintains_pure already
    | cons item items ih =>
        obtain ⟨first, others⟩ := List.forall_mem_cons.mp known
        refine (maintains base (inv.refl base) item List.mem_cons_self).bind
          fun after later keep _ => ?_
        refine ih (fun item mem => kind.mono later (others item mem))
          (fun last grows item mem =>
            maintains last (inv.trans later grows) item (List.mem_cons_of_mem _ mem)) ?_
        have already item mem := kind.mono later (already item mem)
        cases keep with
        | true => exact List.forall_mem_cons.mpr ⟨kind.mono later first, already⟩
        | false => exact already
  refine (kept (List.forall_mem_nil _)).map fun after _ passed held item mem => ?_
  exact held item (List.mem_reverse.mp mem)

end Effect

end RecordLisp
