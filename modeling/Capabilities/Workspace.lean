import Capabilities.Action
import Capabilities.CapSet.External
import Capabilities.CapSet.FileAttribute
import Capabilities.CapSet.Text
import Capabilities.Inheritance.Text
import Capabilities.Table

/-!
# Workspaces

A workspace holds named sets and named tuples. Edits change it and queries look
at it. A name that is used before anything was assigned to it denotes an empty
set or tuple from then on. An edit that fails leaves every content as it was.
-/

namespace Capabilities

/-- Named sets and named tuples. -/
structure Workspace where
  sets : Table String CapSet
  tuples : Table String Inheritance

/-- A change of a workspace. -/
inductive Edit
  | newSet (name : String)
  | parseSet (name : String) (text : String)
  | decodeExternal (name : String) (data : Bytes)
  | decodeAttribute (name : String) (data : Bytes)
  | copySet (name source : String)
  | assignSet (name : String) (flag : Flag) (on : Bool) (values : List Value)
  | fillSet (name : String) (target source : Flag)
  | clearFlag (name : String) (flag : Flag)
  | clearSet (name : String)
  | setOwner (name : String) (owner : Option UserId)
  | newTuple (name : String)
  | parseTuple (name : String) (text : String)
  | copyTuple (name source : String)
  | assignTuple (name : String) (part : Inheritance.Part) (on : Bool) (values : List Value)
  | fillTuple (name : String) (part : Inheritance.Part) (set : String) (flag : Flag)
deriving DecidableEq

/-- A question to a workspace. -/
inductive Query
  | getFlag (name : String) (flag : Flag) (value : Value)
  | compareSets (name other : String)
  | isEmpty (name : String)
  | describe (name : String)
  | structuredSet (name : String)
  | encodeExternal (name : String) (floor : Nat)
  | encodeAttribute (name : String) (floor : Nat)
  | getPart (name : String) (part : Inheritance.Part) (value : Value)
  | compareTuples (name other : String)
  | structuredTuple (name : String)
deriving DecidableEq

namespace Workspace

def empty : Workspace := ⟨Table.empty, Table.empty⟩

/-- The set with a name, which is empty if nothing was assigned to it. -/
def set (w : Workspace) (name : String) : CapSet := (w.sets.find? name).getD CapSet.empty

/-- The tuple with a name, which is empty if nothing was assigned to it. -/
def tuple (w : Workspace) (name : String) : Inheritance :=
  (w.tuples.find? name).getD Inheritance.empty

def putSet (w : Workspace) (name : String) (s : CapSet) : Workspace :=
  { w with sets := w.sets.insert name s }

def putTuple (w : Workspace) (name : String) (x : Inheritance) : Workspace :=
  { w with tuples := w.tuples.insert name x }

/-- Make sure that something is assigned to the name of a set. -/
def touchSet (w : Workspace) (name : String) : Workspace := w.putSet name (w.set name)

/-- Make sure that something is assigned to the name of a tuple. -/
def touchTuple (w : Workspace) (name : String) : Workspace := w.putTuple name (w.tuple name)

/-- Assign a set if there is one. -/
def storeSet (w : Workspace) (name : String) :
    Except Fault CapSet → Except Fault Unit × Workspace
  | .ok s => (.ok (), w.putSet name s)
  | .error f => (.error f, w)

/-- Assign a tuple if there is one. -/
def storeTuple (w : Workspace) (name : String) :
    Except Fault Inheritance → Except Fault Unit × Workspace
  | .ok x => (.ok (), w.putTuple name x)
  | .error f => (.error f, w)

/-- Carry out an edit. -/
def edit (c : Capacity) (w : Workspace) : Edit → Except Fault Unit × Workspace
  | .newSet name => w.storeSet name (.ok CapSet.empty)
  | .parseSet name text => w.storeSet name (CapSet.ofText c text)
  | .decodeExternal name data => w.storeSet name (CapSet.External.decode c data)
  | .decodeAttribute name data => w.storeSet name (FileAttribute.decode c data)
  | .copySet name source => (w.touchSet source).storeSet name (.ok (w.set source))
  | .assignSet name flag on values =>
      (w.touchSet name).storeSet name ((w.set name).set c flag on values)
  | .fillSet name target source => w.storeSet name (.ok ((w.set name).fill target source))
  | .clearFlag name flag => w.storeSet name (.ok ((w.set name).clearFlag flag))
  | .clearSet name => w.storeSet name (.ok (w.set name).clear)
  | .setOwner name owner => w.storeSet name (.ok { w.set name with owner })
  | .newTuple name => w.storeTuple name (.ok Inheritance.empty)
  | .parseTuple name text => w.storeTuple name (Inheritance.ofText c text)
  | .copyTuple name source => (w.touchTuple source).storeTuple name (.ok (w.tuple source))
  | .assignTuple name part on values =>
      (w.touchTuple name).storeTuple name ((w.tuple name).set c part on values)
  | .fillTuple name part source flag =>
      (w.touchSet source).storeTuple name
        (.ok ((w.tuple name).fill c part ((w.set source).flag flag)))

/-- Answer a query. The names that it uses are assigned afterwards, except by `describe`,
which tells whether they are. -/
def answer (c : Capacity) (w : Workspace) : Query → Except Fault Reply × Workspace
  | .getFlag name flag value =>
      (((w.set name).get c flag value).map Reply.truth, w.touchSet name)
  | .compareSets name other =>
      (.ok (.difference Flag.bitNames ((w.set name).difference (w.set other))),
        (w.touchSet name).touchSet other)
  | .isEmpty name => (.ok (.truth (w.set name).isEmpty), w.touchSet name)
  | .describe name => (.ok (.text (CapSet.describe c (w.sets.find? name))), w)
  | .structuredSet name => (.ok (.text ((w.set name).structured c)), w.touchSet name)
  | .encodeExternal name floor =>
      (.ok (.bytes (CapSet.External.encode floor (w.set name))), w.touchSet name)
  | .encodeAttribute name floor =>
      ((FileAttribute.encode c floor (w.set name)).map Reply.bytes, w.touchSet name)
  | .getPart name part value =>
      (((w.tuple name).get c part value).map Reply.truth, w.touchTuple name)
  | .compareTuples name other =>
      (.ok (.difference Inheritance.Part.bitNames ((w.tuple name).difference (w.tuple other))),
        (w.touchTuple name).touchTuple other)
  | .structuredTuple name => (.ok (.text ((w.tuple name).structured c)), w.touchTuple name)

/-- Carry out edits in order, whether they succeed or not. -/
def editAll (c : Capacity) (edits : List Edit) (w : Workspace) : Workspace :=
  edits.foldl (fun w e => (w.edit c e).2) w

end Workspace

end Capabilities
