import RecordLisp.Proofs.Heap.Marks
import RecordLisp.Proofs.Session.Matching

/-!
# The sessions that a host reaches

A host talks to a session by requests: it reads, runs and loads sources, evaluates atoms, sets
global variables and saves. Between its requests the outside may change, which to a session is its
files and its source of random numbers. `Session.Reached` is the one relation of the sessions that
come about in this way, each with the atoms at hand there. Its steps are smaller than requests, so
that it also has the moments within a request: an evaluation may stop after any number of steps, and
nothing is said about when a collection takes place. Every request is a sequence of steps.

What atoms a host may bring of its own is a parameter. What is known of the sessions that a kind of
host reaches is proved by one induction over the steps.
-/

namespace RecordLisp

open Effect

/-- What a session sees of the outside. -/
structure Outside where
  files : Files
  random : RandomSource
  drawn : Nat

namespace Session

/-- The session when the outside has changed. -/
def amid (session : Session) (outside : Outside) : Session :=
  { session with machine := { session.machine with
      files := outside.files, random := outside.random, drawn := outside.drawn } }

/-! ## Steps -/

/-- Which atoms a host may bring, in a session with some atoms at hand. -/
abbrev Host := Session → List Atom → Atom → Prop

/-- The sessions that a host reaches with some packs, each with the atoms at hand there. -/
inductive Reached (host : Host) (config : Config) (packs : List Pack) :
    Session → List Atom → Prop where
  | create {files : Files} {random : RandomSource} {session : Session} :
      create config packs files random = .ok session → Reached host config packs session []
  /-- the outside changes -/
  | outside {session : Session} {given : List Atom} (outside : Outside) :
      Reached host config packs session given →
      Reached host config packs (session.amid outside) given
  /-- the host brings an atom -/
  | bring {session : Session} {given : List Atom} {atom : Atom} :
      Reached host config packs session given → host session given atom →
        Reached host config packs session (atom :: given)
  /-- the host forgets atoms -/
  | forget {session : Session} {given fewer : List Atom} :
      Reached host config packs session given → fewer ⊆ given →
        Reached host config packs session fewer
  /-- a source is read, which may fail -/
  | read {session : Session} {given : List Atom} (source : Source) :
      Reached host config packs session given →
        Reached host config packs (session.perform (SessionM.read source)).2
          ((session.perform (SessionM.read source)).1.toOption.toList ++ given)
  /-- an atom is evaluated for a while, in the global scope or in another record at hand -/
  | evaluate {session : Session} {given : List Atom} {scope : RecordId} {atom : Atom}
      (fuel steps : Nat) (gasLimit : Option UInt64) :
      Reached host config packs session given → .record scope ∈ .record session.global :: given →
        atom ∈ given →
          Reached host config packs (session.advance scope fuel steps gasLimit atom).2
            ((session.advance scope fuel steps gasLimit atom).1.toOption.toList ++ given)
  /-- what neither the scopes nor the atoms at hand lead to is freed -/
  | collect {session : Session} {given : List Atom} :
      Reached host config packs session given →
        Reached host config packs (session.collect given) given
  | setGlobal {session : Session} {given : List Atom} (name : String) {value : Atom} :
      Reached host config packs session given → value ∈ given →
        Reached host config packs (session.setGlobal name value) given
  /-- a record at hand becomes the global scope -/
  | adopt {session : Session} {given : List Atom} {value : Atom} {record : RecordId} :
      Reached host config packs session given → value ∈ given → value.record? = some record →
        Reached host config packs (session.adopt record) given

/-! ## Hosts -/

/-- Atoms that a host can put together: whatever the global scope, the active scope and the atoms at
hand lead to, in any arrangement. An atom kept past a collection that it does not survive is not
held: its slots may serve other objects by then. -/
def Holds : Host := fun session given atom =>
  ∀ handle ∈ atom.objects, session.heap.Leads (session.roots given) handle

/-- Any arrangement of objects in use. -/
def Knows : Host := fun session _ atom => ∀ handle ∈ atom.objects, session.heap.InUse handle

end Session

/-- Whether an atom is or occurs in another, through lists and chains. -/
inductive Atom.Within (part : Atom) : Atom → Prop where
  | here : Within part part
  | item {modifier : Modifier} {items : List Atom} {item : Atom} : item ∈ items → Within part item →
      Within part (.list modifier items)
  | target {modifier : Modifier} {target field : Atom} : Within part target →
      Within part (.member modifier target field)
  | field {modifier : Modifier} {target field : Atom} : Within part field →
      Within part (.member modifier target field)

/-- Atoms that have come up: the parts of atoms at hand, what is stored in the records and functions
in use, and these records. The parts are those that lists and chains have, without a look into
records. -/
inductive Session.Meets (session : Session) (given : List Atom) : Atom → Prop where
  | part {part atom : Atom} : atom ∈ given → part.Within atom → Meets session given part
  | record {id : RecordId} : session.heap.HasRecord id → Meets session given (.record id)
  | value {id : RecordId} {value : Atom} : session.heap.HasRecord id →
      value ∈ (session.heap.record id).values → Meets session given value
  | body {id : FunctionId} : session.heap.HasClosure id →
      Meets session given (session.heap.closure id).body

/-! ## Answers to requests -/

namespace Session

/-- The answer to a request to evaluate, and what the collection after it keeps. -/
theorem perform_eval (session : Session) (atom : Atom) :
    session.perform (SessionM.eval atom) =
      ((session.evaluate atom).1.mapError SessionError.ofStop,
        (session.evaluate atom).2.collect (atom :: (session.evaluate atom).1.toOption.toList)) := by
  change outcome (SessionM.eval atom) session = _
  rw [SessionM.eval, outcome_bind_of_ok (outcome_get session)]
  rcases session.evaluate atom with ⟨_ | _, after⟩ <;> rfl

theorem perform_runSource (session : Session) (source : Source) :
    session.perform (SessionM.runSource source) =
      match session.perform (SessionM.read source) with
      | (.ok atom, middle) => middle.perform (SessionM.eval atom)
      | (.error error, middle) => (.error error, middle) := by
  change outcome (SessionM.read source >>= SessionM.eval) session =
    match outcome (SessionM.read source) session with
    | (.ok atom, middle) => middle.perform (SessionM.eval atom)
    | (.error error, middle) => (.error error, middle)
  rw [outcome_bind]
  rcases outcome (SessionM.read source) session with ⟨_ | _, _⟩ <;> rfl

/-- The session that a loaded source leaves has the record it gave for its global scope. -/
theorem eq_of_perform_loadSource {session after : Session} {source : Source} {record : RecordId}
    (loaded : session.perform (SessionM.loadSource source) = (.ok record, after)) :
    ∃ (value : Atom) (last : Session),
      session.perform (SessionM.runSource source) = (.ok value, last) ∧
        value.record? = some record ∧ after = (last.adopt record).collect [] := by
  obtain ⟨value, last, ran, adopted⟩ := gives_bind_iff.mp loaded
  refine ⟨value, last, ran, ?_⟩
  cases found : value.record? with
  | none =>
      rw [found] at adopted
      cases adopted
  | some id =>
      rw [found] at adopted
      cases adopted
      exact ⟨rfl, rfl⟩

/-- A source that cannot be loaded leaves the session as it does when it is run. -/
theorem eq_of_perform_loadSource_error {session after : Session} {source : Source}
    {error : SessionError}
    (failed : session.perform (SessionM.loadSource source) = (.error error, after)) :
    after = (session.perform (SessionM.runSource source)).2 := by
  change outcome (SessionM.runSource source >>= _) session = _ at failed
  change after = (outcome (SessionM.runSource source) session).2
  rw [outcome_bind] at failed
  generalize outcome (SessionM.runSource source) session = ran at failed
  obtain ⟨_ | value, middle⟩ := ran
  · cases failed
    rfl
  · dsimp only at failed
    cases found : value.record? <;> rw [found] at failed <;> cases failed
    rfl

/-- Saving only looks at the session. -/
theorem perform_save (session : Session) :
    session.perform SessionM.save = (session.save.mapError SessionError.eval, session) := by
  change outcome SessionM.save session = _
  unfold SessionM.save
  rw [outcome_bind_of_ok (outcome_get session)]
  cases session.save <;> rfl

/-- Saving to a file changes the files alone. -/
theorem exists_perform_saveTo (session : Session) (path : String) :
    ∃ outside, (session.perform (SessionM.saveTo path)).2 = session.amid outside := by
  have saved : session.perform SessionM.save = _ := session.perform_save
  change ∃ outside, (outcome (SessionM.save >>= _) session).2 = session.amid outside
  change outcome SessionM.save session = _ at saved
  cases result : session.save with
  | error error =>
      rw [result] at saved
      rw [outcome_bind_of_error saved]
      exact ⟨⟨session.machine.files, session.machine.random, session.machine.drawn⟩, rfl⟩
  | ok text =>
      rw [result] at saved
      rw [outcome_bind_of_ok saved, outcome_bind_of_ok (outcome_get session)]
      cases session.machine.files.write path text with
      | error fault =>
          exact ⟨⟨session.machine.files, session.machine.random, session.machine.drawn⟩, rfl⟩
      | ok files => exact ⟨⟨files, session.machine.random, session.machine.drawn⟩, rfl⟩

/-- Loading from a file is loading its text, if it has one. -/
theorem perform_loadFrom (session : Session) (path : String) :
    session.perform (SessionM.loadFrom path) =
      match session.machine.files.read path with
      | .ok text => session.perform (SessionM.loadSource ⟨path, text⟩)
      | .error fault => (.error (.file path fault), session) := by
  change outcome (SessionM.loadFrom path) session = _
  unfold SessionM.loadFrom
  rw [outcome_bind_of_ok (outcome_get session)]
  cases session.machine.files.read path <;> rfl

/-! ## Requests are sequences of steps -/

namespace Reached

variable {host : Host} {config : Config} {packs : List Pack} {session : Session} {given : List Atom}

/-- An evaluation on request, before the collection that follows it. -/
theorem evaluated (reached : Reached host config packs session given) {atom : Atom}
    (mem : atom ∈ given) :
    Reached host config packs (session.evaluate atom).2
      (atom :: (session.evaluate atom).1.toOption.toList) := by
  have ran := reached.evaluate (Machine.fuel { session.machine with steps := 0 }) 0
    session.machine.gasLimit List.mem_cons_self mem
  rw [← evaluate_eq_advance] at ran
  exact ran.forget
    (List.cons_subset.mpr ⟨List.mem_append_right _ mem, List.subset_append_left _ _⟩)

theorem eval (reached : Reached host config packs session given) {atom : Atom}
    (mem : atom ∈ given) :
    Reached host config packs (session.perform (SessionM.eval atom)).2
      (atom :: (session.perform (SessionM.eval atom)).1.toOption.toList) := by
  have collected := (reached.evaluated mem).collect
  rw [perform_eval]
  cases result : (session.evaluate atom).1 <;> rwa [result] at collected

/-- A source that cannot be read is not evaluated. -/
theorem runSource (reached : Reached host config packs session given) (source : Source) :
    Reached host config packs (session.perform (SessionM.runSource source)).2
      ((session.perform (SessionM.read source)).1.toOption.toList ++
        (session.perform (SessionM.runSource source)).1.toOption.toList) := by
  have read := reached.read source
  rw [perform_runSource]
  generalize session.perform (SessionM.read source) = ran at read
  obtain ⟨error | atom, middle⟩ := ran
  · exact read.forget (List.nil_subset _)
  · exact read.eval List.mem_cons_self

theorem runText (reached : Reached host config packs session given) (text : String) :
    Reached host config packs (session.perform (SessionM.runText text)).2
      ((session.perform (SessionM.read (.anonymous text))).1.toOption.toList ++
        (session.perform (SessionM.runText text)).1.toOption.toList) :=
  reached.runSource (.anonymous text)

/-- A source that is loaded, before the collection at the end. -/
theorem loaded (reached : Reached host config packs session given) {source : Source}
    {record : RecordId} {after : Session}
    (loaded : session.perform (SessionM.loadSource source) = (.ok record, after)) :
    ∃ adopted, Reached host config packs adopted [] ∧ after = adopted.collect [] := by
  have ran := reached.runSource source
  obtain ⟨value, last, gave, isRecord, rfl⟩ := eq_of_perform_loadSource loaded
  rw [gave] at ran
  have adopted := ran.adopt (List.mem_append_right _ List.mem_cons_self) isRecord
  exact ⟨_, adopted.forget (List.nil_subset _), rfl⟩

theorem loadSource (reached : Reached host config packs session given) (source : Source) :
    Reached host config packs (session.perform (SessionM.loadSource source)).2 [] := by
  cases tried : session.perform (SessionM.loadSource source) with
  | mk result after =>
      cases result with
      | error error =>
          cases eq_of_perform_loadSource_error tried
          exact (reached.runSource source).forget (List.nil_subset _)
      | ok record =>
          obtain ⟨adopted, reached, rfl⟩ := reached.loaded tried
          exact reached.collect

theorem save (reached : Reached host config packs session given) :
    Reached host config packs (session.perform SessionM.save).2 given := by
  rw [perform_save]
  exact reached

theorem saveTo (reached : Reached host config packs session given) (path : String) :
    Reached host config packs (session.perform (SessionM.saveTo path)).2 given := by
  obtain ⟨outside, same⟩ := session.exists_perform_saveTo path
  rw [same]
  exact reached.outside outside

theorem loadFrom (reached : Reached host config packs session given) (path : String) :
    Reached host config packs (session.perform (SessionM.loadFrom path)).2 [] := by
  rw [perform_loadFrom]
  cases session.machine.files.read path with
  | ok text => exact reached.loadSource ⟨path, text⟩
  | error fault => exact reached.forget (List.nil_subset _)

/-! ## What holds of every session -/

/-- Programs run in the global scope. -/
theorem active (reached : Reached host config packs session given) :
    session.machine.scope = session.global := by
  induction reached with
  | create created =>
      obtain ⟨registry, _, rfl⟩ := create_eq_ok created
      unfold bindSelf
      split <;> rfl
  | outside _ _ ih | bring _ _ ih | forget _ _ ih | evaluate _ _ _ _ _ _ ih | collect _ ih
    | setGlobal _ _ _ ih => exact ih
  | read source _ ih =>
      rw [perform_read]
      exact ih
  | adopt _ _ _ _ =>
      unfold Session.adopt bindSelf
      split <;> rfl

theorem drawn (standard : ∀ entry ∈ packs.flatten, entry ∈ Pack.standard)
    (reached : Reached host config packs session given) : session.registry.DrawnFrom Pack.all := by
  induction reached with
  | create created => exact drawnFrom_create standard created
  | outside _ _ ih | bring _ _ ih | forget _ _ ih | evaluate _ _ _ _ _ _ ih | collect _ ih
    | setGlobal _ _ _ ih => exact ih
  | read source _ ih =>
      rw [perform_read]
      exact ih
  | adopt _ _ _ ih =>
      unfold Session.adopt
      rw [bindSelf_registry]
      exact ih

end Reached

end Session

end RecordLisp
