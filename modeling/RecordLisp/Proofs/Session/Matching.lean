import RecordLisp.Proofs.Builtin.Uniform
import RecordLisp.Proofs.Heap.Collection
import RecordLisp.Session

/-!
# Sessions that hold the same data

Two sessions match when their machines do and their global scopes are paired. Requests to matching
sessions give matching answers and leave matching sessions, and a collection in the one session
alone leaves sessions that match under the pairs that are still led to.
-/

namespace RecordLisp

open Effect

/-- Sessions of the same host with matching machines and paired global scopes. -/
structure Session.Match (pairing : Pairing) (session other : Session) : Prop where
  registry : session.registry = other.registry
  machine : session.machine.Match pairing other.machine
  global : pairing.record session.global other.global
  config : session.config = other.config

namespace Session

variable {pairing : Pairing} {session other : Session}

/-- What a collection keeps: the global scope, the active scope and some atoms. -/
def roots (session : Session) (atoms : List Atom) : List Atom :=
  .record session.global :: .record session.machine.scope :: atoms

theorem Match.roots (matched : session.Match pairing other) {atoms others : List Atom}
    (same : List.Forall₂ (Atom.Match pairing) atoms others) :
    List.Forall₂ (Atom.Match pairing) (session.roots atoms) (other.roots others) :=
  .cons (.leaf (.record matched.global)) (.cons (.leaf (.record matched.machine.scope)) same)

/-! ## A new session -/

theorem exists_match_fresh (gasLimit : Option UInt64) (files : Files) (random : RandomSource) :
    ∃ pairing : Pairing, (Machine.fresh gasLimit files random).Match pairing
      (Machine.fresh gasLimit files random) := by
  obtain ⟨pairing, _, paired, matched⟩ :=
    (Heap.match_empty Heap.empty Heap.empty).allocRecord Record.match_empty
  exact ⟨pairing, matched, paired, rfl, rfl, rfl, rfl, rfl⟩

theorem Match.setGlobal (matched : session.Match pairing other) (name : String)
    {value value' : Atom} (values : value.Match pairing value') :
    (session.setGlobal name value).Match pairing (other.setGlobal name value') := by
  have heaps : (session.machine.heap.insert session.global name value).Match pairing
      (other.machine.heap.insert other.global name value') :=
    matched.machine.heap.modifyRecord matched.global
      ((matched.machine.heap.record matched.global).insert name values)
  exact ⟨matched.registry, { matched.machine with heap := heaps }, matched.global, matched.config⟩

theorem Match.bindSelf (matched : session.Match pairing other) :
    session.bindSelf.Match pairing other.bindSelf := by
  unfold Session.bindSelf
  rw [matched.config]
  split
  · exact matched.setGlobal _ (.leaf (.record matched.global))
  · exact matched

/-- A new session has all builtins of the core and its packs, and a heap of its own. -/
theorem create_eq_ok {config : Config} {packs : List Pack} {files : Files} {random : RandomSource}
    (created : create config packs files random = .ok session) :
    ∃ registry, Registry.empty.registerAll (Pack.core ++ packs.flatten) = (none, registry) ∧
      session = bindSelf ⟨registry, Machine.fresh config.gasLimit files random,
        (Machine.fresh config.gasLimit files random).scope, config⟩ := by
  unfold create at created
  -- The registry stays a variable: it is a long computation on the texts of the declarations.
  generalize Registry.empty.registerAll (Pack.core ++ packs.flatten) = registered at *
  obtain ⟨_ | error, registry⟩ := registered
  · exact ⟨registry, rfl, (Except.ok.inj created).symm⟩
  · cases created

/-- The declarations of all packs can be read and their names are different. -/
theorem exists_create_standard :
    ∃ session, create .standard [Pack.standard] .empty .least = .ok session := by
  have succeeds : (create .standard [Pack.standard] .empty .least).isOk = true := by decide +kernel
  cases created : create .standard [Pack.standard] .empty .least with
  | ok session => exact ⟨session, rfl⟩
  | error error =>
      rw [created] at succeeds
      cases succeeds

/-- A new session matches itself. -/
theorem exists_match_create {config : Config} {packs : List Pack} {files : Files}
    {random : RandomSource} (created : create config packs files random = .ok session) :
    ∃ pairing, session.Match pairing session := by
  obtain ⟨pairing, matched⟩ := exists_match_fresh config.gasLimit files random
  obtain ⟨registry, _, rfl⟩ := create_eq_ok created
  exact ⟨pairing, Match.bindSelf ⟨rfl, matched, matched.scope, rfl⟩⟩

theorem bindSelf_registry (session : Session) : session.bindSelf.registry = session.registry := by
  unfold Session.bindSelf
  split <;> rfl

/-- The builtins of a new session come from the core and its packs. -/
theorem drawnFrom_create {config : Config} {packs : List Pack} {files : Files}
    {random : RandomSource} (standard : ∀ entry ∈ packs.flatten, entry ∈ Pack.standard)
    (created : create config packs files random = .ok session) :
    session.registry.DrawnFrom Pack.all := by
  obtain ⟨registry, filled, rfl⟩ := create_eq_ok created
  have within : ∀ entry ∈ Pack.core ++ packs.flatten, entry ∈ Pack.all := fun entry mem =>
    List.mem_append.mpr ((List.mem_append.mp mem).imp_right (standard entry))
  have drawn := (Registry.drawnFrom_empty Pack.all).registerAll within
  rw [filled] at drawn
  rwa [bindSelf_registry]

/-! ## Requests -/

theorem perform_read (session : Session) (source : Source) :
    session.perform (SessionM.read source) =
      ((source.read session.heap).1.mapError SessionError.parse,
        session.modifyHeap fun _ => (source.read session.heap).2) := by
  change outcome (SessionM.read source) session = _
  unfold SessionM.read
  rw [outcome_bind_of_ok (outcome_get session)]
  rcases source.read session.heap with ⟨_ | _, heap⟩ <;> rfl

theorem Match.read (matched : session.Match pairing other) (source : Source) :
    ∃ later, pairing.Within later ∧
      (session.perform (SessionM.read source)).2.Match later
        (other.perform (SessionM.read source)).2 ∧
      ResultRel (Atom.Match later) (session.perform (SessionM.read source)).1
        (other.perform (SessionM.read source)).1 := by
  obtain ⟨later, within, heaps, related⟩ := matched.machine.heap.read source
  rw [perform_read, perform_read]
  refine ⟨later, within, ⟨matched.registry, ?_, within.record matched.global, matched.config⟩, ?_⟩
  · exact { matched.machine with heap := heaps, scope := within.record matched.machine.scope }
  · change ResultRel (Atom.Match later) ((source.read session.machine.heap).1.mapError _)
      ((source.read other.machine.heap).1.mapError _)
    generalize (source.read session.machine.heap).1 = result,
      (source.read other.machine.heap).1 = result' at related
    cases related with
    | error error => exact .error _
    | ok same => exact .ok same

/-- What an evaluation in a scope gives, with any bounds on its depth and on its gas and any count
of steps taken before, and the session that it leaves. -/
def advance (session : Session) (scope : RecordId) (fuel steps : Nat) (gasLimit : Option UInt64)
    (atom : Atom) : Except Stop Atom × Session :=
  let (result, machine) := outcome (session.registry.eval fuel atom)
    { session.machine with scope, steps, gasLimit }
  (result, { session with machine := { machine with scope := session.machine.scope } })

/-- An evaluation on request takes place in the global scope, with the limit of the session. -/
theorem evaluate_eq_advance (session : Session) (atom : Atom) :
    session.evaluate atom = session.advance session.global
      (Machine.fuel { session.machine with steps := 0 }) 0 session.machine.gasLimit atom := rfl

/-- Evaluation in matching sessions, with builtins that do not depend on handles. -/
theorem Match.advance (matched : session.Match pairing other)
    (alike : session.registry.Alike session.registry) {scope scope' : RecordId}
    (paired : pairing.record scope scope') (fuel steps : Nat) (gasLimit : Option UInt64)
    {atom atom' : Atom} (same : atom.Match pairing atom') :
    ∃ later, pairing.Within later ∧
      (session.advance scope fuel steps gasLimit atom).2.Match later
        (other.advance scope' fuel steps gasLimit atom').2 ∧
      ResultRel (Atom.Match later) (session.advance scope fuel steps gasLimit atom).1
        (other.advance scope' fuel steps gasLimit atom').1 := by
  obtain ⟨later, within, machines, related⟩ :=
    (alike.evaluator fuel).eval same pairing (.refl pairing)
    { session.machine with scope, steps, gasLimit }
    { other.machine with scope := scope', steps, gasLimit }
    { matched.machine with scope := paired, steps := rfl, gasLimit := rfl }
  refine ⟨later, within, ⟨matched.registry, ?_, within.record matched.global, matched.config⟩, ?_⟩
  · unfold Session.advance
    rw [← matched.registry]
    exact { machines with scope := within.record matched.machine.scope }
  · unfold Session.advance
    rw [← matched.registry]
    exact related

theorem Match.evaluate (matched : session.Match pairing other)
    (alike : session.registry.Alike session.registry) {atom atom' : Atom}
    (same : atom.Match pairing atom') :
    ∃ later, pairing.Within later ∧ (session.evaluate atom).2.Match later (other.evaluate atom').2 ∧
      ResultRel (Atom.Match later) (session.evaluate atom).1 (other.evaluate atom').1 := by
  have bounds : Machine.fuel { session.machine with steps := 0 } =
      Machine.fuel { other.machine with steps := 0 } := by
    simp only [Machine.fuel, matched.machine.gasLimit]
    rfl
  rw [evaluate_eq_advance, evaluate_eq_advance, ← bounds, ← matched.machine.gasLimit]
  exact matched.advance alike matched.global _ 0 _ same

/-! ## Collection -/

theorem Match.collect (matched : session.Match pairing other) {atoms others : List Atom}
    (same : List.Forall₂ (Atom.Match pairing) atoms others) :
    (session.collect atoms).Match (pairing.restrict (session.heap.Leads (session.roots atoms)))
      other := by
  have heaps := matched.machine.heap.collect (matched.roots same)
  have led {id : RecordId} (mem : .record id ∈ session.roots atoms) :
      session.heap.Leads (session.roots atoms) (.record id) :=
    .root (List.mem_flatMap.mpr ⟨_, mem, List.mem_singleton_self _⟩)
  refine ⟨matched.registry, { matched.machine with heap := heaps, scope := ?_ }, ?_, matched.config⟩
  · exact ⟨matched.machine.scope, led (List.mem_cons_of_mem _ List.mem_cons_self)⟩
  · exact ⟨matched.global, led List.mem_cons_self⟩

/-- The atoms that a collection keeps still match. -/
theorem match_restrict_roots (session : Session) {atoms others : List Atom}
    (same : List.Forall₂ (Atom.Match pairing) atoms others) :
    List.Forall₂ (Atom.Match (pairing.restrict (session.heap.Leads (session.roots atoms)))) atoms
      others := by
  refine Heap.starts_restrict same fun root mem handle inside => ?_
  have kept : root ∈ session.roots atoms := List.mem_cons_of_mem _ (List.mem_cons_of_mem _ mem)
  exact .root (List.mem_flatMap.mpr ⟨root, kept, inside⟩)

end Session

end RecordLisp
