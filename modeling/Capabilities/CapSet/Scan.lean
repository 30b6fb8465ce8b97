import Capabilities.CapSet.Packed

/-!
# Reading a file attribute in place

The attribute is not cut into words first. Its magic number and its length tell
the layout, and every word is then read at its own offset, masked, and written to
its cell. Each read is checked: one that reaches beyond the end of the byte string
gives nothing at all, which is not the same as refusing the attribute.
-/

namespace Capabilities

/-- How the rest of an attribute is laid out after its magic number. -/
structure FileAttribute.Layout where
  /-- The number of words of each mask. -/
  words : Nat
  ownerOffset : Option Nat
deriving DecidableEq

/-- The layout of a revision, if the attribute has the length that goes with it. -/
def FileAttribute.Layout.find? (revision : BitVec 32) (length : Nat) :
    Option FileAttribute.Layout :=
  if revision = 0x01000000#32 ∧ length = 12 then some ⟨1, none⟩
  else if revision = 0x02000000#32 ∧ length = 20 then some ⟨2, none⟩
  else if revision = 0x03000000#32 ∧ length = 24 then some ⟨2, some 20⟩
  else none

namespace PackedSet

/-- The cell for word `i`, from the two words that the attribute has for it. -/
def scanCell (c : Capacity) (data : Bytes) (effective : Bool) (i : Nat) : Option Cell :=
  (data.word? (4 + 8 * i)).bind fun p =>
    (data.word? (8 + 8 * i)).map fun q =>
      let permitted := p &&& wordBelow i c.count
      let inheritable := q &&& wordBelow i c.count
      ⟨if effective then permitted ||| inheritable else 0#32, permitted, inheritable⟩

/-- Read one cell and write it. -/
def scanInto {n : Nat} (c : Capacity) (data : Bytes) (effective : Bool) (cells : Vector Cell n)
    (i : Fin n) : Option (Vector Cell n) :=
  (scanCell c data effective i).map fun cell => cells.set i.val cell i.isLt

/-- Write the cells for the words of a layout, as far as the set has cells. -/
def scanCells (c : Capacity) (data : Bytes) (effective : Bool) (words : Nat) :
    Option (Vector Cell c.abi.words) :=
  ((List.finRange c.abi.words).take words).foldlM (scanInto c data effective)
    (Vector.replicate c.abi.words Cell.zero)

def scanOwner (data : Bytes) : Option Nat → Option (Option UserId)
  | none => some none
  | some offset => (data.word? offset).map fun word => some (UInt32.ofBitVec word)

/-- Read the bytes of a file attribute at their offsets. There is no result at all if a
read reaches beyond the end. -/
def scanAttribute (c : Capacity) (data : Bytes) : Option (Except Fault (PackedSet c)) :=
  if data.length < 4 then some (.error .badPayload)
  else
    (data.word? 0).bind fun magic =>
      let effective := (magic &&& 0x00FFFFFF#32 &&& 0x00000001#32) != 0#32
      match FileAttribute.Layout.find? (magic &&& 0xFF000000#32) data.length with
      | none => some (.error .badPayload)
      | some layout =>
          (scanOwner data layout.ownerOffset).bind fun owner =>
            (scanCells c data effective layout.words).map fun cells => .ok ⟨cells, owner⟩

end PackedSet

end Capabilities
