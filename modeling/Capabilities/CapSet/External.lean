import Capabilities.Bytes
import Capabilities.CapSet

/-!
# The external format of a capability set

A byte string that every kernel understands: four bytes of magic, one byte that
counts triples, and the triples. Triple `j` holds byte `j` of the effective,
the permitted and the inheritable mask. Reading accepts any number of triples
but no value that the capacity does not support.
-/

namespace Capabilities.CapSet.External

def magic : Bytes := [0x90, 0xc2, 0x01, 0x51]

/-- The count of triples is at least this number unless told otherwise. -/
def defaultFloor : Nat := 8

/-- The largest count that its byte can hold. -/
def maxCount : Nat := 255

/-- One byte of each flag. -/
structure Triple where
  effective : UInt8
  permitted : UInt8
  inheritable : UInt8
deriving DecidableEq

namespace Triple

def toBytes (t : Triple) : Bytes := [t.effective, t.permitted, t.inheritable]

/-- The bytes as triples, if it is a whole number of them. -/
def ofBytes? : Bytes → Option (List Triple)
  | [] => some []
  | e :: p :: i :: rest => (ofBytes? rest).map (⟨e, p, i⟩ :: ·)
  | _ => none

end Triple

/-- Byte `j` of a mask. -/
def byte (m : Mask) (j : Nat) : UInt8 := UInt8.ofNat (m.bits >>> (8 * j))

def triple (s : CapSet) (j : Nat) : Triple :=
  ⟨byte s.effective j, byte s.permitted j, byte s.inheritable j⟩

/-- How many bytes hold every raised value. -/
def usedBytes (s : CapSet) : Nat := (s.raised.width + 7) / 8

/-- How many triples are written. A set that raises nothing is written without any. -/
def count (floor : Nat) (s : CapSet) : Nat :=
  if usedBytes s ≠ 0 ∧ usedBytes s < floor then min floor maxCount else usedBytes s

def encode (floor : Nat) (s : CapSet) : Bytes :=
  magic ++ UInt8.ofNat (count floor s) ::
    (List.range (count floor s)).flatMap fun j => (triple s j).toBytes

/-- The set with the bytes of the triples. -/
def assemble (ts : List Triple) : CapSet where
  effective := ⟨Bytes.toNat (ts.map Triple.effective)⟩
  permitted := ⟨Bytes.toNat (ts.map Triple.permitted)⟩
  inheritable := ⟨Bytes.toNat (ts.map Triple.inheritable)⟩
  owner := none

/-- The triples of a byte string, if it is well-formed. -/
def triples? (data : Bytes) : Option (List Triple) :=
  if data.take magic.length = magic then
    match data.drop magic.length with
    | n :: body => (Triple.ofBytes? body).filter fun ts => ts.length == n.toNat
    | [] => none
  else none

def decode (c : Capacity) (data : Bytes) : Except Fault CapSet :=
  match triples? data with
  | none => .error .badPayload
  | some ts => if (assemble ts).fits c then .ok (assemble ts) else .error .badValue

end Capabilities.CapSet.External
