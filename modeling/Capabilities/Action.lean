import Capabilities.Act.FileCaps
import Capabilities.Act.Modes

/-!
# Actions

All operations of a process on its machine, with their operands and with what they
give back when they succeed. A run of actions ends when they are used up or when one of them aborts the process; a
fault does not end it.
-/

namespace Capabilities

/-- What an operation gives back. -/
inductive Reply
  | done
  /-- There is nothing to give back. -/
  | absent
  | truth (value : Bool)
  | number (value : Nat)
  | values (values : List Value)
  | text (value : String)
  | bytes (value : Bytes)
  /-- Which of the named parts of two objects differ. -/
  | difference (names : List String) (parts : Mask)
  | mode (value : Mode)
  | secbits (value : Secbits)
  | caps (value : CapSet)
  | tuple (value : Inheritance)
  | snapshot (value : Snapshot)

namespace Reply

/-- The reply of a question that may remain without an answer. -/
def ofOption {α : Type} (reply : α → Reply) : Option α → Reply
  | some a => reply a
  | none => absent

end Reply

/-- An operation of the process. -/
inductive Action
  | readSet (pid : Int)
  | applySet (s : CapSet)
  | readTuple
  | applyTuple (x : Inheritance)
  | currentMode
  | enterMode (m : Mode)
  | snapshot
  | setUid (uid : UserId)
  | setGroups (gid : GroupId) (groups : List GroupId)
  | readKeepCaps
  | setKeepCaps (keep : Bool)
  | readSecbits
  | setSecbits (bits : Secbits)
  | readAmbient (v : Value)
  | setAmbient (v : Value) (on : Bool)
  | clearAmbient
  | ambientSupported
  | listAmbient
  | readBounding (v : Value)
  | dropBounding (v : Value)
  | listBounding
  | isSupported (v : Value)
  | readFileCaps (target : Target)
  | setFileCaps (target : Target) (caps : Option CapSet)
  | readFloor
  | setFloor (n : Nat)
  /-- A plain kernel call, made on every thread. -/
  | call (call : Call)
  | spawn
deriving DecidableEq

namespace Action

def run : Action → Act Reply
  | readSet pid => .caps <$> Act.readSetOf pid
  | applySet s => (fun _ => .done) <$> Act.applySet s
  | readTuple => .tuple <$> Act.readTuple
  | applyTuple x => (fun _ => .done) <$> Act.applyTuple x
  | currentMode => .mode <$> Act.currentMode
  | enterMode m => (fun _ => .done) <$> Act.enterMode m
  | snapshot => .snapshot <$> Act.snapshot
  | setUid uid => (fun _ => .done) <$> Act.setUid uid
  | setGroups gid groups => (fun _ => .done) <$> Act.setGroups gid groups
  | readKeepCaps => .truth <$> Act.readKeepCaps
  | setKeepCaps keep => (fun _ => .done) <$> Act.setKeepCaps keep
  | readSecbits => .secbits <$> Act.readSecbits
  | setSecbits bits => (fun _ => .done) <$> Act.setSecbits (Secbits.truncate bits)
  | readAmbient v => .truth <$> Act.readAmbient v
  | setAmbient v on => (fun _ => .done) <$> Act.setAmbient v on
  | clearAmbient => (fun _ => .done) <$> Act.clearAmbient
  | ambientSupported => .truth <$> Act.ambientSupported
  | listAmbient => Reply.ofOption .values <$> Act.listAmbient
  | readBounding v => Reply.ofOption .truth <$> Act.readBounding v
  | dropBounding v => (fun _ => .done) <$> Act.dropBounding v
  | listBounding => .values <$> Act.listBounding
  | isSupported v => .truth <$> Act.isSupported v
  | readFileCaps target => Reply.ofOption .caps <$> Act.readFileCaps target
  | setFileCaps target caps => (fun _ => .done) <$> Act.setFileCaps target caps
  | readFloor => .number <$> Act.readFloor
  | setFloor n => (fun _ => .done) <$> Act.setFloor n
  | call c => .number <$> Act.broadcast c
  | spawn => (fun _ => .done) <$> modify Machine.spawn

/-- Perform an action; there is no result if it aborts the process. -/
def perform (a : Action) (s : Machine) : Option (Except Fault Reply × Machine) :=
  a.run.start s

/-- The machine after a run of actions, unless one of them aborts the process. -/
def performAll : List Action → Machine → Option Machine
  | [], s => some s
  | a :: rest, s => (a.perform s).bind fun reply => performAll rest reply.2

end Action

end Capabilities
