import Capabilities.Machine

/-!
# Acts

An act is something that a process does to its machine. It ends with a result or
a fault, and in either case with a changed machine, or it aborts the process.
-/

namespace Capabilities

/-- A computation on a machine that can fail and that can abort. -/
abbrev Act (α : Type) := ExceptT Fault (StateT Machine Option) α

namespace Act

/-- Run an act; there is no result if the process was aborted. -/
def start {α : Type} (x : Act α) (s : Machine) : Option (Except Fault α × Machine) :=
  x.run.run s

@[simp] theorem start_pure {α : Type} (a : α) (s : Machine) :
    (pure a : Act α).start s = some (.ok a, s) := rfl

@[simp] theorem start_throw {α : Type} (f : Fault) (s : Machine) :
    (throw f : Act α).start s = some (.error f, s) := rfl

/-- An act goes on where the one before it ended, unless that one failed. -/
theorem start_bind {α β : Type} (x : Act α) (f : α → Act β) (s : Machine) :
    (x >>= f).start s = (x.start s).bind fun reply =>
      match reply.1 with
      | .ok a => (f a).start reply.2
      | .error e => some (.error e, reply.2) := by
  show (x.start s).bind _ = _
  cases x.start s with
  | none => rfl
  | some reply =>
      obtain ⟨outcome, s'⟩ := reply
      cases outcome <;> rfl

/-- A request to the machine, whose refusals become faults. -/
def request {α : Type} (f : Machine → Option (Except Errno α × Machine)) : Act α :=
  ExceptT.mk fun s => (f s).map fun reply => (reply.1.mapError Fault.os, reply.2)

/-- Make a call on the calling thread alone. -/
def ask (call : Call) : Act Nat := request fun s => some (s.ask call)

/-- Make a call on every thread. -/
def broadcast (call : Call) : Act Nat := request fun s => s.broadcast call

/-- What the process knows about its kernel. -/
def capacity : Act Capacity := do return (← get).capacity

/-- Turn the fault of an act into a result. -/
def attempt {α : Type} (x : Act α) : Act (Except Fault α) :=
  ExceptT.mk fun s => (x.start s).map fun reply => (.ok reply.1, reply.2)

theorem start_map {α β : Type} (f : α → β) (x : Act α) (s : Machine) :
    (f <$> x).start s = (x.start s).map fun reply => (reply.1.map f, reply.2) := by
  show (x.start s).bind _ = _
  cases x.start s with
  | none => rfl
  | some reply =>
      obtain ⟨outcome, s'⟩ := reply
      cases outcome <;> rfl

@[simp] theorem start_request {α : Type} (f : Machine → Option (Except Errno α × Machine))
    (s : Machine) : (request f).start s =
      (f s).map fun reply => (reply.1.mapError Fault.os, reply.2) := rfl

@[simp] theorem start_capacity (s : Machine) :
    capacity.start s = some (.ok s.capacity, s) := rfl

@[simp] theorem start_attempt {α : Type} (x : Act α) (s : Machine) :
    (attempt x).start s = (x.start s).map fun reply => (.ok reply.1, reply.2) := rfl

/-- Whether an act succeeds. -/
def succeeds {α : Type} (x : Act α) : Act Bool := do return (← attempt x).isOk

/-- Ask a question only under a condition; otherwise the answer is no. -/
def provided (condition : Bool) (question : Act Bool) : Act Bool :=
  if condition then question else pure false

/-- Do something whatever its outcome is. -/
def ignoring {α : Type} (x : Act α) : Act Unit := do let _ ← attempt x

/-- Do something, and clean up if it fails. The fault stays the same. -/
def onFault {α : Type} (x : Act α) (cleanup : Act Unit) : Act α := do
  match ← attempt x with
  | .ok a => return a
  | .error f =>
      ignoring cleanup
      throw f

end Act

end Capabilities
