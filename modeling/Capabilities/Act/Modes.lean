import Capabilities.Mode
import Capabilities.Act.Handover

/-!
# The mode of the process

Reading the mode of the calling thread, and entering a mode on every thread.
-/

namespace Capabilities.Act

/-- Read everything that the mode depends on. -/
def snapshot : Act Snapshot := do
  let secbits ← readSecbits
  let ambientSupported ← ambientSupported
  let caps ← readSet
  let tuple ← readTuple
  return { secbits, ambientSupported, caps, tuple }

def currentMode : Act Mode := do
  let s ← snapshot
  return Mode.classify (← Act.capacity) s

/-- Lock the secure bits, after clearing the ambient mask if there is one. -/
def secure : Act Unit := do
  if ← ambientSupported then
    clearAmbient
    setSecbits Secbits.securedAmbient
  else
    setSecbits Secbits.secured

/-- Drop values from the bounding mask until one cannot be dropped. -/
def dropWhilePossible : List Value → Act Unit
  | [] => return ()
  | v :: rest => do
      if ← Act.succeeds (dropBounding v) then dropWhilePossible rest

/-- Enter a secured mode on every thread. The capability that this needs is raised for the
duration, and nothing is effective afterwards. -/
def enterSecured (m : Mode) : Act Unit := do
  let caps ← readSet
  Act.onFault (raise caps Value.setpcap) (lower caps)
  let kept := if m = .pure then caps else caps.clearFlag .inheritable
  Act.onFault secure (lower kept)
  if m = .noPriv then
    dropWhilePossible (← Act.capacity).values
    lower (kept.clearFlag .permitted)
  else
    lower kept

/-- Enter a mode on every thread. The uncertain mode is the lack of any other, and cannot
be entered. -/
def enterMode : Mode → Act Unit
  | .uncertain => throw .badMode
  | m => enterSecured m

end Capabilities.Act
