import RecordLisp.Builtin.Pack
import RecordLisp.Config
import RecordLisp.Eval.Basic
import RecordLisp.Heap.Collect

/-!
# Sessions

A session is what a host talks to: builtins, a heap and a global scope that programs run in one
after the other. Every evaluation is followed by a collection that keeps what the global scope, the
evaluated atom and its value lead to. Loading a saved environment makes the record it gives the new
global scope.
-/

namespace RecordLisp

/-- Why a request to a session failed. -/
inductive SessionError where
  | parse (error : ParseError)
  | eval (error : EvalError)
  | setup (error : SetupError)
  | file (path : String) (fault : FileFault)
  | notARecord (found : String)
  /-- the bound on an evaluation without a gas limit was met -/
  | outOfFuel
deriving DecidableEq, Inhabited

namespace SessionError

/-- The wording of an error. -/
def message : SessionError → String
  | .parse error => error.text
  | .eval error => error.message
  | .setup error => error.message
  | .file path fault => path ++ ": " ++ fault.message
  | .notARecord found => "loading did not produce a record (got " ++ found ++ ")"
  | .outOfFuel => "evaluation did not end"

/-- The error of an evaluation that stopped. -/
def ofStop : Stop → SessionError
  | .fault error => .eval error
  | .outOfFuel => .outOfFuel

end SessionError

/-- Builtins, a machine and a global scope. -/
structure Session where
  registry : Registry
  machine : Machine
  global : RecordId
  config : Config

/-- A request to a session. A request that fails keeps what it did to the session. -/
abbrev SessionM := ExceptT SessionError (StateM Session)

namespace Session

/-- The heap. -/
def heap (session : Session) : Heap := session.machine.heap

/-- Changes the heap. -/
def modifyHeap (session : Session) (change : Heap → Heap) : Session :=
  { session with machine := { session.machine with heap := change session.machine.heap } }

/-- Defines or overwrites a global variable. -/
def setGlobal (session : Session) (name : String) (value : Atom) : Session :=
  session.modifyHeap fun heap => heap.insert session.global name value

/-- The value of a global variable. -/
def global? (session : Session) (name : String) : Option Atom :=
  (session.heap.record session.global).get? name

/-- Lets the global scope refer to itself under the name of the settings. -/
def bindSelf (session : Session) : Session :=
  match session.config.selfBinding with
  | some name => session.setGlobal name (.record session.global)
  | none => session

/-- Makes a record the global and the active scope. -/
def adopt (session : Session) (record : RecordId) : Session :=
  bindSelf { session with global := record, machine := { session.machine with scope := record } }

/-- Frees what the global scope, the active scope and some atoms do not lead to. -/
def collect (session : Session) (extra : List Atom) : Session :=
  session.modifyHeap fun heap =>
    (heap.collect (.record session.global :: .record session.machine.scope :: extra)).2

/-- A session with the core and some packs, registered in order. -/
def create (config : Config) (packs : List Pack) (files : Files) (random : RandomSource) :
    Except SetupError Session :=
  match Registry.empty.registerAll (Pack.core ++ packs.flatten) with
  | (some error, _) => .error error
  | (none, registry) =>
      let machine := Machine.fresh config.gasLimit files random
      .ok (bindSelf { registry, machine, global := machine.scope, config })

/-- Evaluates an atom in the global scope with the whole gas limit, without a collection. -/
def evaluate (session : Session) (atom : Atom) : Except Stop Atom × Session :=
  let (result, machine) := session.registry.run
    (fun evaluator => EvalM.withScope session.global (evaluator.eval atom))
    { session.machine with steps := 0 }
  (result, { session with machine })

/-- The declarations of all builtins, one a line. -/
def listing (session : Session) : String := session.registry.listing

/-- The text of an atom. -/
def print (session : Session) (atom : Atom) : String := session.heap.print atom

/-- The program that rebuilds the global scope. -/
def save (session : Session) : Except EvalError String := session.heap.save session.global

end Session

namespace SessionM

/-- Reads a source as an atom, which is not evaluated. -/
def read (source : Source) : SessionM Atom := do
  let session ← get
  let (result, heap) := source.read session.heap
  set (session.modifyHeap fun _ => heap)
  match result with
  | .ok atom => return atom
  | .error error => throw (.parse error)

/-- Evaluates an atom in the global scope, and collects. -/
def eval (atom : Atom) : SessionM Atom := do
  match (← get).evaluate atom with
  | (.ok value, session) =>
      set (session.collect [atom, value])
      return value
  | (.error stop, session) =>
      set (session.collect [atom])
      throw (.ofStop stop)

/-- Reads and evaluates a source. -/
def runSource (source : Source) : SessionM Atom := do eval (← read source)

/-- Reads and evaluates a text. -/
def runText (text : String) : SessionM Atom := runSource (.anonymous text)

/-- Evaluates a source and makes the record it gives the global scope. -/
def loadSource (source : Source) : SessionM RecordId := do
  let value ← runSource source
  match value.record? with
  | none => throw (.notARecord value.typeName)
  | some record =>
      modify fun session => (session.adopt record).collect []
      return record

/-- Evaluates a text and makes the record it gives the global scope. -/
def load (text : String) : SessionM RecordId := loadSource (.anonymous text)

/-- The program that rebuilds the global scope. -/
def save : SessionM String := do
  match (← get).save with
  | .ok text => return text
  | .error error => throw (.eval error)

/-- Writes the program that rebuilds the global scope to a file. -/
def saveTo (path : String) : SessionM Unit := do
  let text ← save
  let session ← get
  match session.machine.files.write path text with
  | .ok files => set { session with machine := { session.machine with files } }
  | .error fault => throw (.file path fault)

/-- Loads the text of a file. -/
def loadFrom (path : String) : SessionM RecordId := do
  match (← get).machine.files.read path with
  | .ok text => loadSource ⟨path, text⟩
  | .error fault => throw (.file path fault)

/-- Adds a builtin of the host. -/
def register (declaration : String) (native : Native) : SessionM Unit := do
  let session ← get
  let (answer, registry) := session.registry.register declaration native
  set { session with registry }
  match answer with
  | .ok () => return
  | .error error => throw (.setup error)

end SessionM

/-- The answer to a request, and the session after it. -/
def Session.perform {α : Type} (session : Session) (request : SessionM α) :
    Except SessionError α × Session :=
  request.run.run session

end RecordLisp
