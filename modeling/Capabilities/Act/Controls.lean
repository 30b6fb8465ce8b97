import Capabilities.Act

/-!
# What a process controls

Its flags, which are read and replaced as a whole; single switches and single values
of the ambient and the bounding mask; and its user and its groups. A question is about
the calling thread, and a change is made on every thread. Changing the user or the
groups takes a capability that is raised for the duration, and leaves nothing
effective, whether the change was made or refused.
-/

namespace Capabilities.Act

/-- The part of a set that fits the words of the interface. -/
def fitWords (c : Capacity) (s : CapSet) : CapSet :=
  let words := Mask.below c.width
  ⟨s.effective ∩ words, s.permitted ∩ words, s.inheritable ∩ words, none⟩

/-- Read the capability set of a process by its number; zero is the calling thread. -/
def readSetOf (pid : Int) : Act CapSet := do
  let s ← Act.request fun s => some (s.inspect pid)
  return fitWords (← Act.capacity) s

/-- Read the capability set of the calling thread. -/
def readSet : Act CapSet := readSetOf 0

/-- Make a set the capability set of every thread. -/
def applySet (s : CapSet) : Act Unit := do
  let t := fitWords (← Act.capacity) s
  let _ ← Act.broadcast (.capset t.effective t.permitted t.inheritable)

/-- Raise a value in the effective flag, beside those of a set, on every thread. -/
def raise (s : CapSet) (v : Value) : Act Unit := do
  match s.set (← Act.capacity) .effective true [v] with
  | .ok t => applySet t
  | .error f => throw f

/-- Make a set, without anything effective, the capability set of every thread. -/
def lower (s : CapSet) : Act Unit := applySet (s.clearFlag .effective)

def readKeepCaps : Act Bool := do return (← Act.ask .getKeepCaps) != 0

/-- Set whether permitted values are kept when the process leaves user 0. -/
def setKeepCaps (keep : Bool) : Act Unit := do
  let _ ← Act.broadcast (.setKeepCaps keep.toNat)

/-- Read the secure bits that have a meaning. -/
def readSecbits : Act Secbits := do return Secbits.truncate ⟨← Act.ask .getSecbits⟩

def setSecbits (bits : Secbits) : Act Unit := do
  let _ ← Act.broadcast (.setSecbits bits)

/-- Whether a value is ambient. -/
def readAmbient (v : Value) : Act Bool := do return (← Act.ask (.readAmbient v)) != 0

/-- Raise or lower an ambient value. -/
def setAmbient (v : Value) (on : Bool) : Act Unit := do
  let _ ← Act.broadcast (if on then .raiseAmbient v else .lowerAmbient v)

def clearAmbient : Act Unit := do
  let _ ← Act.broadcast .clearAmbient

/-- Whether the kernel has an ambient mask at all. -/
def ambientSupported : Act Bool := Act.succeeds (readAmbient 0)

/-- The ambient values among the given ones, up to the first that the kernel does not
answer for. -/
def collectAmbient : List Value → Act (List Value)
  | [] => return []
  | v :: rest => do
      match ← Act.attempt (readAmbient v) with
      | .ok true => return v :: (← collectAmbient rest)
      | .ok false => collectAmbient rest
      | .error _ => return []

/-- The ambient values, or nothing if the kernel does not even answer for the first one. -/
def listAmbient : Act (Option (List Value)) := do
  match (← Act.capacity).values with
  | [] => return some []
  | v :: rest =>
      match ← Act.attempt (readAmbient v) with
      | .ok true => return some (v :: (← collectAmbient rest))
      | .ok false => return some (← collectAmbient rest)
      | .error _ => return none

/-- Whether a value is in the bounding mask, or nothing if the kernel does not answer. -/
def readBounding (v : Value) : Act (Option Bool) := do
  match ← Act.attempt (Act.ask (.readBounding v)) with
  | .ok n => return some (n != 0)
  | .error _ => return none

/-- Take a value out of the bounding mask for good. -/
def dropBounding (v : Value) : Act Unit := do
  let _ ← Act.broadcast (.dropBounding v)

/-- The bounding values among the given ones, up to the first that the kernel does not
answer for. -/
def collectBounding : List Value → Act (List Value)
  | [] => return []
  | v :: rest => do
      match ← readBounding v with
      | some true => return v :: (← collectBounding rest)
      | some false => collectBounding rest
      | none => return []

def listBounding : Act (List Value) := do collectBounding (← Act.capacity).values

/-- Whether the kernel supports a value. -/
def isSupported (v : Value) : Act Bool := do return (← readBounding v).isSome

/-- Change the user of every thread without losing what is permitted. If permitted values
cannot be kept, the user is changed all the same. -/
def setUid (uid : UserId) : Act Unit := do
  let caps ← readSet
  Act.onFault (raise caps Value.setuid) (lower caps)
  Act.onFault
    (do
      let kept ← Act.succeeds (setKeepCaps true)
      let outcome ← Act.attempt (Act.broadcast (.setUid uid))
      if kept then Act.ignoring (setKeepCaps false)
      match outcome with
      | .ok _ => return ()
      | .error f => throw f)
    (lower caps)
  lower caps

/-- Change the group and the supplementary groups of every thread. -/
def setGroups (gid : GroupId) (groups : List GroupId) : Act Unit := do
  let caps ← readSet
  Act.onFault (raise caps Value.setgid) (lower caps)
  Act.onFault
    (do
      let _ ← Act.broadcast (.setGid gid)
      let _ ← Act.broadcast (.setGroups groups))
    (lower caps)
  lower caps

end Capabilities.Act
