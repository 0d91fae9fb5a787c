import RecordLisp.Proofs.Heap.Grounded
import RecordLisp.Proofs.Session.Termination

/-!
# No handle dangles

Whatever a host asks of a session, and whether or not it succeeds, the handles that the host can
hold afterwards refer to objects in use: those that the global scope leads to, those of the atom
that was evaluated last and those of its value. A request that evaluated something ends with a
collection, and leaves nothing else in use.

The objects which the host can tell apart match those of another session. A freed object has no
partner, so it cannot be among them.
-/

namespace RecordLisp

open Effect

/-- What a host asks of a session. -/
inductive Call where
  | run (source : Source)
  | parse (source : Source)
  /-- evaluates the atom that the call before gave -/
  | eval
  | load (source : Source)
  /-- sets a global variable to an atom without handles -/
  | setGlobal (name : String) (value : Atom) (plain : value.objects = [])
  /-- asks for the program that rebuilds the global scope -/
  | save

/-- A session as a call leaves it, and what the host knows of the call. -/
structure Turn where
  session : Session
  /-- the atom that the call evaluated -/
  evaluated : Option Atom
  /-- the atom that the call gave: what it read, or the value of what it evaluated -/
  given : Option Atom
  /-- whether the call evaluated an atom or a source -/
  collected : Bool

namespace Turn

/-- A session after a call that evaluated nothing and gave no atom. -/
def idle (session : Session) : Turn := ⟨session, none, none, false⟩

/-- The atoms that the host holds after a call. -/
def atoms (turn : Turn) : List Atom := turn.evaluated.toList ++ turn.given.toList

/-- A source that cannot be read is not evaluated. -/
def run (session : Session) (source : Source) : Turn :=
  let (result, after) := session.perform (SessionM.runSource source)
  let atom := (session.perform (SessionM.read source)).1.toOption
  ⟨after, atom, result.toOption, atom.isSome⟩

def parse (session : Session) (source : Source) : Turn :=
  let (result, after) := session.perform (SessionM.read source)
  ⟨after, none, result.toOption, false⟩

def eval (session : Session) (atom : Atom) : Turn :=
  let (result, after) := session.perform (SessionM.eval atom)
  ⟨after, some atom, result.toOption, true⟩

/-- A source that does not give a record has been run. One that does leaves its record as the global
scope, and the host holds no atom of it. -/
def load (session : Session) (source : Source) : Turn :=
  match session.perform (SessionM.loadSource source) with
  | (.ok _, after) => ⟨after, none, none, true⟩
  | (.error _, after) => { run session source with session := after }

/-- The answer of a session to a call. `last` is the atom that the call before gave. -/
def answer (session : Session) (last : Option Atom) : Call → Turn
  | .run source => run session source
  | .parse source => parse session source
  | .eval =>
      match last with
      | some atom => eval session atom
      | none => idle session
  | .load source => load session source
  | .setGlobal name value _ => idle (session.setGlobal name value)
  | .save => idle (session.perform SessionM.save).2

/-- The turn after a call, with the outside as it is by then. -/
def next (turn : Turn) (request : Outside × Call) : Turn :=
  answer (turn.session.amid request.1) turn.given request.2

end Turn

/-- The turn after a sequence of calls, each with its own outside, whatever their answers. -/
def Session.serve (session : Session) (calls : List (Outside × Call)) : Turn :=
  calls.foldl Turn.next (.idle session)

namespace Session

variable {config : Config} {packs : List Pack} {session : Session} {given : List Atom}

/-! ## What is in use -/

/-- Whatever a host can get hold of is in use. -/
theorem Sound.grounded (sound : session.Sound given) :
    session.heap.Grounded (session.roots given) := by
  obtain ⟨pairing, other, others, matched, same⟩ := sound.matched
  exact matched.machine.heap.grounded (matched.roots same)

/-- The objects in use are those that the global scope and some atoms lead to. -/
def Exact (session : Session) (given : List Atom) : Prop :=
  ∀ handle, session.heap.InUse handle ↔ session.heap.Leads (.record session.global :: given) handle

/-- The global scope is led to once when it is active. -/
theorem leads_roots_iff (active : session.machine.scope = session.global) {heap : Heap}
    {handle : Handle} :
    heap.Leads (session.roots given) handle ↔
      heap.Leads (.record session.global :: given) handle := by
  unfold roots
  rw [active]
  constructor <;> exact fun leads => leads.mono (by simp)

namespace Reached

variable (standard : ∀ entry ∈ packs.flatten, entry ∈ Pack.standard)
  (reached : Reached Holds config packs session given)
include standard reached

theorem inUse {handle : Handle}
    (leads : session.heap.Leads (.record session.global :: given) handle) :
    session.heap.InUse handle :=
  (reached.sound standard).grounded handle ((leads_roots_iff reached.active).mpr leads)

/-- A collection leaves in use what the atoms at hand lead to. -/
theorem exact_collect : (session.collect given).Exact given := by
  refine fun handle => ⟨fun used => ?_, reached.collect.inUse standard⟩
  have grounded := (reached.sound standard).grounded
  have leads :=
    ((Heap.inUse_collect_iff (fun other led => (grounded other led).hasSlot) handle).mp used).2
  have kept := grounded.collect (List.Subset.refl (session.roots given))
  exact (leads_roots_iff reached.active).mp (kept.leads_iff.mpr leads)

end Reached

end Session

/-- The session is reached with the atoms that the host holds, and after an evaluation nothing else
is in use. -/
structure Turn.Intact (config : Config) (packs : List Pack) (turn : Turn) : Prop where
  reached : Session.Reached Session.Holds config packs turn.session turn.atoms
  exact : turn.collected = true → turn.session.Exact turn.atoms

namespace Session.Reached

variable {config : Config} {packs : List Pack} {session : Session} {given : List Atom}

/-! ## Calls -/

theorem idle (reached : Reached Holds config packs session given) :
    (Turn.idle session).Intact config packs :=
  ⟨reached.forget (List.nil_subset _), nofun⟩

variable (standard : ∀ entry ∈ packs.flatten, entry ∈ Pack.standard)
include standard

/-- An evaluation in the global scope, whatever comes of it. -/
theorem turn_eval (reached : Reached Holds config packs session given) {atom : Atom}
    (mem : atom ∈ given) : (Turn.eval session atom).Intact config packs := by
  have evaluated := reached.evaluated mem
  have after := evaluated.collect
  have exact' := evaluated.exact_collect standard
  unfold Turn.eval
  rw [perform_eval]
  cases result : (session.evaluate atom).1 <;> rw [result] at after exact' <;>
    exact ⟨after, fun _ => exact'⟩

theorem turn_run (reached : Reached Holds config packs session given) (source : Source) :
    (Turn.run session source).Intact config packs := by
  have read := reached.read source
  unfold Turn.run
  rw [perform_runSource]
  generalize session.perform (SessionM.read source) = ran at read
  obtain ⟨error | atom, middle⟩ := ran
  · exact read.idle
  · exact read.turn_eval standard List.mem_cons_self

theorem turn_load (reached : Reached Holds config packs session given) (source : Source) :
    (Turn.load session source).Intact config packs := by
  unfold Turn.load
  cases tried : session.perform (SessionM.loadSource source) with
  | mk result after =>
      cases result with
      | ok record =>
          obtain ⟨adopted, reached, rfl⟩ := reached.loaded tried
          exact ⟨reached.collect, fun _ => reached.exact_collect standard⟩
      | error error =>
          cases eq_of_perform_loadSource_error tried
          exact reached.turn_run standard source

end Session.Reached

/-- Every call leaves a turn intact. -/
theorem Turn.Intact.next {config : Config} {packs : List Pack} {turn : Turn}
    (standard : ∀ entry ∈ packs.flatten, entry ∈ Pack.standard) (intact : turn.Intact config packs)
    (request : Outside × Call) : (turn.next request).Intact config packs := by
  obtain ⟨outside, call⟩ := request
  have before := intact.reached.outside outside
  unfold Turn.next
  cases call with
  | run source => exact before.turn_run standard source
  | parse source => exact ⟨(before.read source).forget (List.subset_append_left _ _), nofun⟩
  | eval =>
      dsimp only [answer]
      cases found : turn.given with
      | none => exact before.idle
      | some atom => exact before.turn_eval standard (by simp [Turn.atoms, found])
  | load source => exact before.turn_load standard source
  | setGlobal name value plain =>
      have held : Session.Holds (turn.session.amid outside) turn.atoms value := by
        intro handle mem
        rw [plain] at mem
        cases mem
      exact ((before.bring held).setGlobal name List.mem_cons_self).idle
  | save => exact before.save.idle

theorem Session.Reached.serve {config : Config} {packs : List Pack} {session : Session}
    {given : List Atom} (standard : ∀ entry ∈ packs.flatten, entry ∈ Pack.standard)
    (reached : Reached Holds config packs session given) (calls : List (Outside × Call)) :
    (session.serve calls).Intact config packs := by
  have start := reached.idle
  unfold Session.serve
  generalize Turn.idle session = turn at start
  induction calls generalizing turn with
  | nil => exact start
  | cons call calls ih => exact ih _ (start.next standard call)

/-- After every sequence of calls, whatever files and random integers they meet, programs run in the
global scope, and whatever the global scope, the atom evaluated last and the atom given last lead to
is in use. After a call that evaluated something, the counters of the heap are the numbers of the
records and functions that these lead to. -/
theorem Session.no_dangling_handles {config : Config} {packs : List Pack} {files : Files}
    {random : RandomSource} {session : Session}
    (standard : ∀ entry ∈ packs.flatten, entry ∈ Pack.standard)
    (created : create config packs files random = .ok session) (calls : List (Outside × Call)) :
    let turn := session.serve calls
    let heap := turn.session.heap
    let leads := heap.Leads (.record turn.session.global :: turn.atoms)
    turn.session.machine.scope = turn.session.global ∧
    (∀ handle, leads handle → heap.InUse handle) ∧
    (turn.collected = true →
      Counts (fun id => leads (.record id)) heap.recordCount ∧
      Counts (fun id => leads (.function id)) heap.closureCount) := by
  intro turn heap leads
  have intact : turn.Intact config packs := (Reached.create created).serve standard calls
  refine ⟨intact.reached.active, fun handle => intact.reached.inUse standard, fun collected => ?_⟩
  have inUse := intact.exact collected
  exact ⟨heap.counts_hasRecord.congr fun id => inUse (.record id),
    heap.counts_hasClosure.congr fun id => inUse (.function id)⟩

/-- A source that cannot be read, a loaded scope that keeps the old one alive, and then a call whose
frame holds itself and a literal of its source. -/
theorem Session.no_dangling_handles_knot :
    let outside : Outside := ⟨.empty, .least, 0⟩
    let calls := [Call.run (.anonymous "(set @ pair (func (x) [(first x) (whole @)]))"),
      .run (.anonymous "(pair"), .setGlobal "two" (.integer .one) rfl, .save,
      .load (.anonymous "[(pair pair) (two two)]"), .parse (.anonymous "(pair '([(a 1)]))"),
      .eval].map (outside, ·)
    ∃ session, Session.create .standard [Pack.lists] .empty .least = .ok session ∧
      let turn := session.serve calls
      let heap := turn.session.heap
      let leads := heap.Leads (.record turn.session.global :: turn.atoms)
      turn.session.machine.scope = turn.session.global ∧
      (∀ handle, leads handle → heap.InUse handle) ∧
      Counts (fun id => leads (.record id)) heap.recordCount ∧
      Counts (fun id => leads (.function id)) heap.closureCount := by
  intro outside calls
  have evaluated : (match Session.create .standard [Pack.lists] .empty .least with
      | .ok session => (session.serve calls).collected
      | .error _ => false) = true := by
    decide +kernel
  cases created : Session.create .standard [Pack.lists] .empty .least with
  | error error =>
      rw [created] at evaluated
      cases evaluated
  | ok session =>
      rw [created] at evaluated
      have isStandard : ∀ entry ∈ [Pack.lists].flatten, entry ∈ Pack.standard := fun entry mem =>
        List.mem_append_left _ (List.mem_append_right _ (by simpa using mem))
      obtain ⟨scope, inUse, counts⟩ := Session.no_dangling_handles isStandard created calls
      exact ⟨session, rfl, scope, inUse, counts evaluated⟩

end RecordLisp
