import Capabilities.Action
import Capabilities.Workspace

/-!
# Sessions

A session is a process with a workspace. Its commands edit and query the
workspace, act on the process, and pass sets and tuples between the two.
-/

namespace Capabilities

/-- A process and the sets and tuples that it works with. -/
structure Session where
  workspace : Workspace
  machine : Machine

/-- A step of a session. -/
inductive Command
  | edit (edit : Edit)
  | query (query : Query)
  | act (action : Action)
  /-- Read the flags of a process into a set. -/
  | readSet (name : String) (pid : Int)
  | applySet (name : String)
  | readTuple (name : String)
  | applyTuple (name : String)
  /-- Read the capabilities of a file into a set, if it has any. -/
  | readFileCaps (name : String) (target : Target)
  /-- Attach a set to a file, or remove the capabilities of the file. -/
  | setFileCaps (name : Option String) (target : Target)
  /-- Encode a set with the floor that is in force. -/
  | encodeExternal (name : String)
  | encodeAttribute (name : String)
deriving DecidableEq

namespace Session

def start (machine : Machine) : Session := ⟨Workspace.empty, machine⟩

def capacity (s : Session) : Capacity := s.machine.capacity

/-- The values meant by numbers, or the fault of the first that is out of range. -/
def refer (s : Session) (ns : List Nat) : Except Fault (List Value) :=
  ns.mapM (Value.refer s.capacity)

def edit (s : Session) (e : Edit) : Except Fault Reply × Session :=
  let result := s.workspace.edit s.capacity e
  (result.1.map fun _ => .done, { s with workspace := result.2 })

def query (s : Session) (q : Query) : Except Fault Reply × Session :=
  let result := s.workspace.answer s.capacity q
  (result.1, { s with workspace := result.2 })

/-- Make sure that something is assigned to the name of a set. -/
def touchSet (s : Session) (name : String) : Session :=
  { s with workspace := s.workspace.touchSet name }

/-- Make sure that something is assigned to the name of a tuple. -/
def touchTuple (s : Session) (name : String) : Session :=
  { s with workspace := s.workspace.touchTuple name }

def act (s : Session) (a : Action) : Option (Except Fault Reply × Session) :=
  (a.perform s.machine).map fun result => (result.1, { s with machine := result.2 })

/-- Assign the set or the tuple that an action gave back to a name. -/
def keep (name : String) : Except Fault Reply × Session → Except Fault Reply × Session
  | (.ok (.caps content), s) =>
      (.ok .done, { s with workspace := s.workspace.putSet name content })
  | (.ok (.tuple content), s) =>
      (.ok .done, { s with workspace := s.workspace.putTuple name content })
  | result => result

/-- Carry out a command; there is no result if it aborts the process. -/
def run (s : Session) : Command → Option (Except Fault Reply × Session)
  | .edit e => some (s.edit e)
  | .query q => some (s.query q)
  | .act a => s.act a
  | .readSet name pid => (s.act (.readSet pid)).map (keep name)
  | .applySet name => (s.touchSet name).act (.applySet (s.workspace.set name))
  | .readTuple name => (s.act .readTuple).map (keep name)
  | .applyTuple name => (s.touchTuple name).act (.applyTuple (s.workspace.tuple name))
  | .readFileCaps name target => (s.act (.readFileCaps target)).map (keep name)
  | .setFileCaps none target => s.act (.setFileCaps target none)
  | .setFileCaps (some name) target =>
      (s.touchSet name).act (.setFileCaps target (some (s.workspace.set name)))
  | .encodeExternal name => some (s.query (.encodeExternal name s.machine.floor))
  | .encodeAttribute name => some (s.query (.encodeAttribute name s.machine.floor))

/-- Carry out a command with an empty log, so that the log afterwards is that of the
command. -/
def step (s : Session) (command : Command) : Option (Except Fault Reply × Session) :=
  { s with machine := { s.machine with log := [] } : Session }.run command

end Session

end Capabilities
