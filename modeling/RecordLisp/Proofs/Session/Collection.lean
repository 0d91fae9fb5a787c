import RecordLisp.Proofs.Heap.Printing
import RecordLisp.Proofs.Session.Matching

/-!
# Programs cannot observe collections

A session frees what cannot be reached after every evaluation and hands the freed slots out again.
The same session without collections gives other handles to its objects, and nothing else: for every
sequence of programs both give the same errors, or values that print the same and lead to the same
graph, and take the same number of steps.

The two sessions match after every program. Evaluation keeps this because it does not depend on
handles, and a collection in the one session only takes away pairs that nothing leads to.
-/

namespace RecordLisp

open Effect

namespace SessionM

/-- Evaluates an atom in the global scope and tidies up in some way, given the atoms to keep. -/
def evalWith (tidy : Session → List Atom → Session) (atom : Atom) : SessionM Atom := do
  match (← get).evaluate atom with
  | (.ok value, session) =>
      set (tidy session [atom, value])
      return value
  | (.error stop, session) =>
      set (tidy session [atom])
      throw (.ofStop stop)

/-- Reads and evaluates a text, and tidies up in some way. -/
def runTextWith (tidy : Session → List Atom → Session) (text : String) : SessionM Atom := do
  evalWith tidy (← read (.anonymous text))

theorem runTextWith_collect (text : String) : runTextWith Session.collect text = runText text := rfl

/-- Reads and evaluates a text without a collection. -/
def runTextKeeping : String → SessionM Atom := runTextWith fun session _ => session

end SessionM

namespace Session

/-- The session after a sequence of texts, whatever their answers. -/
def after (run : String → SessionM Atom) (session : Session) (texts : List String) : Session :=
  texts.foldl (fun session text => (session.perform (run text)).2) session

/-- Sessions that took the same number of steps and whose global scopes, together with some atoms,
lead to the same graph. -/
structure SameGraph (session other : Session) (atoms others : List Atom) : Prop where
  steps : session.machine.steps = other.machine.steps
  graph : ∃ pairing : Pairing, pairing.Identifies session.heap (.record session.global :: atoms)
    other.heap (.record other.global :: others)

/-- Answers that cannot be told apart: the same error, or values that print the same and lead to the
same graph. -/
inductive SameAnswer :
    Except SessionError Atom × Session → Except SessionError Atom × Session → Prop where
  | error {session other : Session} (error : SessionError) : session.SameGraph other [] [] →
      SameAnswer (.error error, session) (.error error, other)
  | value {session other : Session} {value image : Atom} : session.print value = other.print image →
      session.SameGraph other [value] [image] → SameAnswer (.ok value, session) (.ok image, other)

variable {pairing : Pairing} {session other : Session}

theorem Match.sameGraph (matched : session.Match pairing other) {atoms others : List Atom}
    (same : List.Forall₂ (Atom.Match pairing) atoms others) :
    session.SameGraph other atoms others :=
  ⟨matched.machine.steps,
    _, matched.machine.heap.identifies (.cons (.leaf (.record matched.global)) same)⟩

/-- Matching sessions with matching results give answers that cannot be told apart. -/
theorem Match.sameAnswer (matched : session.Match pairing other)
    {result result' : Except SessionError Atom}
    (related : ResultRel (Atom.Match pairing) result result') :
    SameAnswer (result, session) (result', other) := by
  cases related with
  | error error => exact .error error (matched.sameGraph .nil)
  | ok same =>
      exact .value (matched.machine.heap.parallel.print_eq same)
        (matched.sameGraph (.cons same .nil))

/-- The answer to a request to evaluate. -/
theorem perform_evalWith (tidy : Session → List Atom → Session) (session : Session) (atom : Atom) :
    session.perform (SessionM.evalWith tidy atom) =
      match session.evaluate atom with
      | (.ok value, after) => (.ok value, tidy after [atom, value])
      | (.error stop, after) => (.error (.ofStop stop), tidy after [atom]) := by
  change outcome (match session.evaluate atom with
    | (.ok value, after) => (do
        set (tidy after [atom, value])
        return value : SessionM Atom)
    | (.error stop, after) => do
        set (tidy after [atom])
        throw (SessionError.ofStop stop)) session = _
  rcases session.evaluate atom with ⟨_ | _, after⟩ <;> rfl

/-- A text that cannot be read gives its error, and another is evaluated. -/
theorem perform_runTextWith (tidy : Session → List Atom → Session) (session : Session)
    (text : String) :
    session.perform (SessionM.runTextWith tidy text) =
      match session.perform (SessionM.read (.anonymous text)) with
      | (.ok atom, after) => after.perform (SessionM.evalWith tidy atom)
      | (.error error, after) => (.error error, after) := by
  change outcome (SessionM.read (.anonymous text) >>= SessionM.evalWith tidy) session =
    match outcome (SessionM.read (.anonymous text)) session with
    | (.ok atom, after) => after.perform (SessionM.evalWith tidy atom)
    | (.error error, after) => (.error error, after)
  rw [outcome_bind]
  rcases outcome (SessionM.read (.anonymous text)) session with ⟨_ | _, after⟩ <;> rfl

/-- An evaluation with a collection in one session and without in the other. -/
theorem Match.eval (matched : session.Match pairing other)
    (alike : session.registry.Alike session.registry) {atom image : Atom}
    (same : atom.Match pairing image) :
    ∃ later, (session.perform (SessionM.eval atom)).2.Match later
        (other.perform (SessionM.evalWith (fun session _ => session) image)).2 ∧
      atom.Match later image ∧
      ResultRel (Atom.Match later) (session.perform (SessionM.eval atom)).1
        (other.perform (SessionM.evalWith (fun session _ => session) image)).1 := by
  obtain ⟨later, within, after, related⟩ := matched.evaluate alike same
  have same := same.mono within
  change ∃ later, (session.perform (SessionM.evalWith Session.collect atom)).2.Match later _ ∧ _ ∧
    ResultRel _ (session.perform (SessionM.evalWith Session.collect atom)).1 _
  rw [perform_evalWith, perform_evalWith]
  generalize session.evaluate atom = ran, other.evaluate image = ran' at after related
  obtain ⟨result, session⟩ := ran
  obtain ⟨result', other⟩ := ran'
  cases related with
  | error stop =>
      have starts : List.Forall₂ (Atom.Match later) [atom] [image] := .cons same .nil
      refine ⟨_, after.collect starts, ?_, .error _⟩
      exact (List.forall₂_cons.mp (match_restrict_roots session starts)).1
  | @ok value value' values =>
      have starts : List.Forall₂ (Atom.Match later) [atom, value] [image, value'] :=
        .cons same (.cons values .nil)
      obtain ⟨keptAtom, rest⟩ := List.forall₂_cons.mp (match_restrict_roots session starts)
      exact ⟨_, after.collect starts, keptAtom, .ok (List.forall₂_cons.mp rest).1⟩

theorem registry_perform_read (session : Session) (source : Source) :
    (session.perform (SessionM.read source)).2.registry = session.registry := by
  rw [perform_read]
  rfl

theorem registry_perform_eval (session : Session) (atom : Atom) :
    (session.perform (SessionM.eval atom)).2.registry = session.registry := by
  change (session.perform (SessionM.evalWith Session.collect atom)).2.registry = _
  have evaluated : (session.evaluate atom).2.registry = session.registry := rfl
  rw [perform_evalWith]
  generalize session.evaluate atom = ran at evaluated
  obtain ⟨_ | _, after⟩ := ran <;> exact evaluated

theorem registry_perform_runText (session : Session) (text : String) :
    (session.perform (SessionM.runText text)).2.registry = session.registry := by
  have read := registry_perform_read session (.anonymous text)
  rw [← SessionM.runTextWith_collect, perform_runTextWith]
  generalize session.perform (SessionM.read (.anonymous text)) = ran at read
  obtain ⟨_ | atom, after⟩ := ran
  · exact read
  · exact (registry_perform_eval after atom).trans read

theorem registry_after (session : Session) (texts : List String) :
    (session.after SessionM.runText texts).registry = session.registry := by
  induction texts generalizing session with
  | nil => rfl
  | cons text texts ih => exact (ih _).trans (registry_perform_runText session text)

/-- One text, with a collection in one session and without in the other. -/
theorem Match.runText (matched : session.Match pairing other)
    (alike : session.registry.Alike session.registry) (text : String) :
    ∃ later, (session.perform (SessionM.runText text)).2.Match later
        (other.perform (SessionM.runTextKeeping text)).2 ∧
      ResultRel (Atom.Match later) (session.perform (SessionM.runText text)).1
        (other.perform (SessionM.runTextKeeping text)).1 := by
  obtain ⟨later, _, after, related⟩ := matched.read (.anonymous text)
  rw [← SessionM.runTextWith_collect, SessionM.runTextKeeping, perform_runTextWith,
    perform_runTextWith]
  have registry := registry_perform_read session (.anonymous text)
  generalize session.perform (SessionM.read (.anonymous text)) = ran,
    other.perform (SessionM.read (.anonymous text)) = ran' at after related registry
  obtain ⟨result, session'⟩ := ran
  obtain ⟨result', other'⟩ := ran'
  cases related with
  | error error => exact ⟨later, after, .error error⟩
  | ok same =>
      obtain ⟨last, after, _, related⟩ := after.eval (registry ▸ alike) same
      exact ⟨last, after, related⟩

/-- After every sequence of texts the session with collections matches the one without. -/
theorem Match.after (matched : session.Match pairing other)
    (alike : session.registry.Alike session.registry) (texts : List String) :
    ∃ later, (session.after SessionM.runText texts).Match later
      (other.after SessionM.runTextKeeping texts) := by
  induction texts generalizing pairing session other with
  | nil => exact ⟨pairing, matched⟩
  | cons text texts ih =>
      obtain ⟨later, after, _⟩ := matched.runText alike text
      exact ih after (by rw [registry_perform_runText]; exact alike)

/-- Whether a session frees what cannot be reached makes no difference to programs. -/
theorem collection_unobservable {config : Config} {packs : List Pack} {files : Files}
    {random : RandomSource} (standard : ∀ entry ∈ packs.flatten, entry ∈ Pack.standard)
    (created : create config packs files random = .ok session) (texts : List String)
    (text : String) :
    SameAnswer ((session.after SessionM.runText texts).perform (SessionM.runText text))
      ((session.after SessionM.runTextKeeping texts).perform (SessionM.runTextKeeping text)) := by
  have alike := (drawnFrom_create standard created).alike
  obtain ⟨pairing, start⟩ := exists_match_create created
  obtain ⟨middle, matched⟩ := start.after alike texts
  obtain ⟨last, after, related⟩ := matched.runText (by rw [registry_after]; exact alike) text
  exact after.sameAnswer related

/-- The frames of the first calls are freed and their slots used again for the next. -/
theorem collection_unobservable_calls :
    ∃ session, create .standard [Pack.standard] .empty .least = .ok session ∧
      SameAnswer
        ((session.after SessionM.runText
          ["(set @ pair (func (x) [(first x) (second [(of x)])]))", "(pair 1)",
            "(set @ kept (pair 2))",
            "(undefined)"]).perform (SessionM.runText "(list (pair 3) kept pair)"))
        ((session.after SessionM.runTextKeeping
          ["(set @ pair (func (x) [(first x) (second [(of x)])]))", "(pair 1)",
            "(set @ kept (pair 2))",
            "(undefined)"]).perform (SessionM.runTextKeeping "(list (pair 3) kept pair)")) := by
  obtain ⟨session, created⟩ := exists_create_standard
  refine ⟨session, created, collection_unobservable (fun entry mem => ?_) created _ _⟩
  simpa using mem

end Session

end RecordLisp
