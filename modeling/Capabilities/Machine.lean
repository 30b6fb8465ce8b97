import Capabilities.CapSet.External
import Capabilities.CapSet.FileAttribute
import Capabilities.Kernel
import Capabilities.Kernel.Files

/-!
# The machine

The threads of one process on a kernel, the files it can reach, and its
settings. Questions concern the calling thread alone. A call that changes
credentials is made on every thread, the calling one first; if the threads do
not agree on the outcome, the process is aborted and there is no machine any
more.
-/

namespace Capabilities

/-- A change that the calling thread asked for. -/
inductive Request
  | call (call : Call)
  | writeAttribute (target : Target) (data : Bytes)
  | removeAttribute (target : Target)
deriving DecidableEq

/-- A request and its outcome. -/
structure Event where
  request : Request
  errno : Errno
deriving DecidableEq

namespace Event

/-- The trace line of an event; a call that only reads leaves none. -/
def render? (e : Event) : Option String :=
  let text :=
    match e.request with
    | .call call => call.render?
    | .writeAttribute target data => some ("setxattr " ++ target.render ++ " " ++ data.toHex)
    | .removeAttribute target => some ("removexattr " ++ target.render)
  text.map fun line => line ++ " = " ++ toString e.errno.code

end Event

/-- What the threads of a process have made of a call: the outcome of each and its state
afterwards. -/
structure Round where
  first : Except Errno Nat × Thread
  others : List (Except Errno Nat × Thread)

namespace Round

/-- Whether every other thread ended with the error number of the first. -/
def agrees (r : Round) : Bool :=
  r.others.all fun reply => Errno.ofOutcome reply.1 = Errno.ofOutcome r.first.1

end Round

/-- A process on a kernel. -/
structure Machine where
  kernel : Kernel
  /-- The calling thread. -/
  main : Thread
  others : List Thread
  files : Files
  /-- The least number of bytes that external formats use for a flag. -/
  floor : Nat
  /-- The requests of the calling thread, in order. -/
  log : List Event

namespace Machine

def capacity (s : Machine) : Capacity := s.kernel.capacity

def threads (s : Machine) : List Thread := s.main :: s.others

/-- The credentials of the calling thread. -/
def credentials (s : Machine) : Credentials := s.main.credentials

/-- A process with a single thread. -/
def start (kernel : Kernel) (credentials : Credentials) (files : Files) : Machine where
  kernel := kernel
  main := ⟨0, credentials, []⟩
  others := []
  files := files
  floor := CapSet.External.defaultFloor
  log := []

/-- Start another thread. It takes over the credentials of the calling thread, and the
count of its attempts. -/
def spawn (s : Machine) : Machine :=
  { s with others := s.others ++ [{ s.main with index := s.others.length + 1 }] }

/-- Make a call on the calling thread alone. -/
def ask (s : Machine) (call : Call) : Except Errno Nat × Machine :=
  let reply := s.kernel.perform call s.main
  (reply.1, { s with main := reply.2 })

/-- Ask for the flags of a process. -/
def inspect (s : Machine) (pid : Int) : Except Errno CapSet × Machine :=
  let reply := s.kernel.attempt s.main .inspect pid (s.kernel.inspect s.credentials pid)
  (reply.1, { s with main := reply.2 })

/-- The outcomes of a call that every thread makes once, the calling one first and
whatever the outcomes before are. -/
def round (s : Machine) (call : Call) : Round :=
  ⟨s.kernel.perform call s.main, s.others.map (s.kernel.perform call)⟩

/-- Make a call on every thread. There is no result if another thread ends with a
different error number than the calling one. -/
def broadcast (s : Machine) (call : Call) : Option (Except Errno Nat × Machine) :=
  let r := s.round call
  if r.agrees then
    some (r.first.1,
      { s with
        main := r.first.2
        others := r.others.map (·.2)
        log := s.log ++ [⟨.call call, Errno.ofOutcome r.first.1⟩] })
  else none

/-- Read the attribute of a file. -/
def readAttribute (s : Machine) (target : Target) : Except Errno Bytes × Machine :=
  let reply := s.kernel.attempt s.main .readAttribute 0
    (s.files.read FileAttribute.maxSize target)
  (reply.1, { s with main := reply.2 })

/-- Change the attribute of a file on the calling thread. -/
def changeAttribute (s : Machine) (kind : Call.Kind) (request : Request)
    (rule : Except Errno Files) : Except Errno Unit × Machine :=
  let reply := s.kernel.attempt s.main kind 0 rule
  let log := s.log ++ [⟨request, Errno.ofOutcome reply.1⟩]
  match reply.1 with
  | .ok files => (.ok (), { s with main := reply.2, files, log })
  | .error e => (.error e, { s with main := reply.2, log })

def writeAttribute (s : Machine) (target : Target) (data : Bytes) : Except Errno Unit × Machine :=
  s.changeAttribute .writeAttribute (.writeAttribute target data)
    (s.files.write s.credentials target data)

def removeAttribute (s : Machine) (target : Target) : Except Errno Unit × Machine :=
  s.changeAttribute .removeAttribute (.removeAttribute target)
    (s.files.remove s.credentials target)

end Machine

end Capabilities
