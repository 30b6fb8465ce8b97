import Capabilities.Bytes
import Capabilities.CapSet

/-!
# Capabilities attached to a file

A file carries a single effective bit, a permitted and an inheritable mask. The
attribute has three revisions: one word for each mask, two words for each, and
two words with the owner of a namespace. `ofBytes?` and `toBytes` convert
between the attribute and its bytes, `toCapSet` and `ofCapSet` between the
attribute and a set.
-/

namespace Capabilities

/-- The layout of an attribute. -/
inductive FileAttribute.Revision
  | short
  | long
  | owned (owner : UserId)
deriving DecidableEq

/-- Capabilities in the form in which a file carries them. -/
structure FileAttribute where
  revision : FileAttribute.Revision
  effective : Bool
  permitted : Mask
  inheritable : Mask
deriving DecidableEq

namespace FileAttribute

/-- The largest number of bytes of any revision. -/
def maxSize : Nat := 24

/-- A mask with the given low and high word. -/
def join (low high : Nat) : Mask := ⟨low ||| (high <<< 32)⟩

/-- The low and the high word of a mask. -/
def low (m : Mask) : Nat := (m ∩ Mask.below 32).bits
def high (m : Mask) : Nat := ((⟨m.bits >>> 32⟩ : Mask) ∩ Mask.below 32).bits

namespace Revision

def number : Revision → UInt8
  | short => 1
  | long => 2
  | owned _ => 3

def owner? : Revision → Option UserId
  | owned uid => some uid
  | _ => none

end Revision

/-- Read an attribute: one byte of flags, two bytes without meaning, the revision, and
exactly the words that the revision asks for. -/
def ofBytes? : Bytes → Option FileAttribute
  | flags :: _ :: _ :: revision :: body =>
      let effective := flags.toNat.testBit 0
      match revision, Bytes.words? body with
      | 1, some [p, i] => some ⟨.short, effective, join p 0, join i 0⟩
      | 2, some [p, i, p', i'] => some ⟨.long, effective, join p p', join i i'⟩
      | 3, some [p, i, p', i', uid] =>
          some ⟨.owned (UInt32.ofNat uid), effective, join p p', join i i'⟩
      | _, _ => none
  | _ => none

def toBytes (a : FileAttribute) : Bytes :=
  let words :=
    match a.revision with
    | .short => [low a.permitted, low a.inheritable]
    | .long => [low a.permitted, low a.inheritable, high a.permitted, high a.inheritable]
    | .owned uid =>
        [low a.permitted, low a.inheritable, high a.permitted, high a.inheritable, uid.toNat]
  [if a.effective then 1 else 0, 0, 0, a.revision.number] ++ words.flatMap (Bytes.ofNat 4)

/-- The set that an attribute stands for. Values that the capacity does not support are
dropped, and the effective bit raises whatever is permitted or inheritable. -/
def toCapSet (c : Capacity) (a : FileAttribute) : CapSet :=
  let p := a.permitted ∩ Mask.below c.count
  let i := a.inheritable ∩ Mask.below c.count
  ⟨if a.effective then p ∪ i else ∅, p, i, a.revision.owner?⟩

/-- The revision that a set is written in: the one with an owner if it has one, else the
short one if that is allowed and the values fit. -/
def revisionFor (c : Capacity) (floor : Nat) (s : CapSet) : Revision :=
  match s.owner with
  | some uid => .owned uid
  | none =>
      if !s.raised.isWithin (Mask.below 32) || (1 < c.abi.words && 4 < floor) then .long
      else .short

/-- The attribute that stands for a set. The effective flag must be lowered altogether or
raise exactly what is permitted or inheritable. -/
def ofCapSet (c : Capacity) (floor : Nat) (s : CapSet) : Except Fault FileAttribute :=
  if s.effective.isEmpty || s.effective = s.permitted ∪ s.inheritable then
    .ok ⟨revisionFor c floor s, !s.effective.isEmpty, s.permitted, s.inheritable⟩
  else .error .badValue

/-- Read a set from the bytes of an attribute. -/
def decode (c : Capacity) (data : Bytes) : Except Fault CapSet :=
  match ofBytes? data with
  | some a => .ok (a.toCapSet c)
  | none => .error .badPayload

/-- Write a set as the bytes of an attribute. -/
def encode (c : Capacity) (floor : Nat) (s : CapSet) : Except Fault Bytes :=
  (ofCapSet c floor s).map toBytes

end FileAttribute

end Capabilities
