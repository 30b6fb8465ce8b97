import Capabilities.Inheritance
import Capabilities.Act.Controls

/-!
# The inheritance tuple of the process

Reading the tuple of the calling thread, and applying a tuple to every thread.
Applying raises the capability to do so for the duration, if it is needed at
all, and puts the effective flag back afterwards.
-/

namespace Capabilities.Act

/-- The values among the given ones for which a question is answered with yes. -/
def select (question : Value → Act Bool) : List Value → Act (List Value)
  | [] => return []
  | v :: rest => do
      if ← question v then return v :: (← select question rest)
      else select question rest

/-- Whether a value is ambient, as far as the kernel answers. -/
def isAmbient (v : Value) : Act Bool := do
  match ← Act.attempt (readAmbient v) with
  | .ok on => return on
  | .error _ => return false

/-- Whether a value is known to be gone from the bounding mask. -/
def isBlocked (v : Value) : Act Bool := do return (← readBounding v) == some false

/-- Whether a value is known to be in the bounding mask. -/
def isBounding (v : Value) : Act Bool := do return (← readBounding v) == some true

/-- Read the inheritance tuple of the calling thread. A value whose ambient or bounding
bit cannot be read is neither ambient nor blocked. -/
def readTuple : Act Inheritance := do
  let values := (← Act.capacity).values
  let caps ← readSet
  let ambient ← select isAmbient values
  let blocked ← select isBlocked values
  return ⟨caps.inheritable, Mask.ofList ambient, Mask.ofList blocked⟩

/-- Whether some value that a tuple blocks is still in the bounding mask. -/
def blocksAnything (x : Inheritance) : List Value → Act Bool
  | [] => return false
  | v :: rest => do
      if ← Act.provided (x.blocked.contains v) (isBounding v) then return true
      else blocksAnything x rest

/-- Lower an ambient value that a tuple does not grant. -/
def withdrawAmbient (supported : Bool) (x : Inheritance) (v : Value) : Act Unit := do
  if ← Act.provided (supported && !x.ambient.contains v) (readAmbient v) then
    setAmbient v false

/-- Drop a bounding value that a tuple blocks. -/
def withdrawBounding (x : Inheritance) (v : Value) : Act Unit := do
  if ← Act.provided (x.blocked.contains v) (isBounding v) then dropBounding v

/-- Raise an ambient value that a tuple grants. -/
def grantAmbient (supported : Bool) (x : Inheritance) (v : Value) : Act Unit := do
  if x.ambient.contains v then
    if ← Act.provided supported (readAmbient v) then return ()
    else setAmbient v true

/-- Take away what a tuple does not grant among the given values. -/
def withdraw (supported : Bool) (x : Inheritance) : List Value → Act Unit
  | [] => return ()
  | v :: rest => do
      withdrawAmbient supported x v
      withdrawBounding x v
      withdraw supported x rest

/-- Raise the ambient values of a tuple among the given values. -/
def grant (supported : Bool) (x : Inheritance) : List Value → Act Unit
  | [] => return ()
  | v :: rest => do
      grantAmbient supported x v
      grant supported x rest

/-- Bring the ambient and the bounding mask in line with a tuple. -/
def applyMasks (x : Inheritance) : Act Unit := do
  let supported ← ambientSupported
  let values := (← Act.capacity).values
  withdraw supported x values
  grant supported x values

/-- Apply a tuple to every thread. A fault of the tuple itself comes before one of putting
the effective flag back. -/
def applyTuple (x : Inheritance) : Act Unit := do
  let c ← Act.capacity
  let held ← readSet
  let target := { held with inheritable := x.inheritable }
  let grows := !x.inheritable.isWithin (held.inheritable ∪ held.permitted)
  let blocks ← blocksAnything x c.values
  if grows || blocks then raise target Value.setpcap else applySet target
  let outcome ← Act.attempt (applyMasks x)
  let restored ← Act.attempt (applySet target)
  match outcome, restored with
  | .error f, _ => throw f
  | .ok (), .error f => throw f
  | .ok (), .ok () => return ()

end Capabilities.Act
