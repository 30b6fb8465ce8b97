import Capabilities.Act

/-!
# The capabilities of a file

Reading, attaching and removing the capabilities of a file. A file without
capabilities is not a fault.
-/

namespace Capabilities.Act

/-- Refuse a target that cannot be handed to the kernel. -/
def checkTarget (target : Target) : Act Unit :=
  if target.isValid then return () else throw (.os .invalidArgument)

/-- Read the capabilities of a file, if it has any. -/
def readFileCaps (target : Target) : Act (Option CapSet) := do
  checkTarget target
  match ← Act.attempt (Act.request fun s => some (s.readAttribute target)) with
  | .ok data =>
      match FileAttribute.decode (← Act.capacity) data with
      | .ok s => return some s
      | .error f => throw f
  | .error f => if f = .os .noData then return none else throw f

/-- Succeed also where there was nothing to remove. -/
def acceptNoData (x : Act Unit) : Act Unit := do
  match ← Act.attempt x with
  | .ok () => return ()
  | .error f => if f = .os .noData then return () else throw f

/-- Attach a set to a file, or remove the capabilities of the file. -/
def setFileCaps (target : Target) (caps : Option CapSet) : Act Unit := do
  checkTarget target
  match caps with
  | some s =>
      match FileAttribute.encode (← Act.capacity) (← get).floor s with
      | .ok data => acceptNoData (Act.request fun s => some (s.writeAttribute target data))
      | .error f => throw f
  | none => acceptNoData (Act.request fun s => some (s.removeAttribute target))

/-- The least number of bytes that external formats use for a flag. -/
def readFloor : Act Nat := do return (← get).floor

/-- Change that number; it cannot exceed what its byte can hold. -/
def setFloor (n : Nat) : Act Unit :=
  modify fun s => { s with floor := min n CapSet.External.maxCount }

end Capabilities.Act
