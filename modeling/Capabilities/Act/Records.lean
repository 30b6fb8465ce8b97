import Capabilities.Act.Controls
import Capabilities.CapSet.Packed

/-!
# Flags in the records of the kernel's interface

The kernel passes flags in records, each with the words of the three flags for 32
values. There are always two of them, but the first generation of the interface
only looks at the first one. A process copies the words of its sets from and to
these records, and the kernel puts them together to masks.
-/

namespace Capabilities

/-- The words that are passed for the same 32 values. -/
structure Record where
  effective : BitVec 32
  permitted : BitVec 32
  inheritable : BitVec 32
deriving DecidableEq

namespace Record

def zero : Record := ⟨0#32, 0#32, 0#32⟩

def flag (r : Record) : Flag → BitVec 32
  | .effective => r.effective
  | .permitted => r.permitted
  | .inheritable => r.inheritable

def ofCell (cell : Cell) : Record :=
  ⟨cell.flag .effective, cell.flag .permitted, cell.flag .inheritable⟩

def toCell (r : Record) : Cell := ⟨r.flag .effective, r.flag .permitted, r.flag .inheritable⟩

/-- The record for 32 values from a first one on. -/
def ofFlags (first : Nat) (s : CapSet) : Record :=
  let word (f : Flag) := BitVec.ofNat 32 ((s.flag f).bits >>> first)
  ⟨word .effective, word .permitted, word .inheritable⟩

end Record

/-- The records that are passed in either direction. -/
abbrev Records := Vector Record 2

namespace Records

/-- The mask of a flag that the kernel puts together. -/
def mask (abi : Abi) (rs : Records) (f : Flag) : Mask :=
  let high := if abi.words = 1 then 0 else (rs[1].flag f).toNat <<< 32
  ⟨(rs[0].flag f).toNat ||| high⟩

/-- The records that the kernel fills in. -/
def ofFlags (abi : Abi) (s : CapSet) : Records :=
  #v[Record.ofFlags 0 s, if abi.words = 1 then Record.zero else Record.ofFlags 32 s]

end Records

namespace PackedSet

variable {c : Capacity}

/-- The records for the cells of a set; those without a cell are left empty. -/
def toRecords (s : PackedSet c) : Records :=
  Vector.ofFn fun i : Fin 2 => Record.ofCell (s.cells[i.val]?.getD Cell.zero)

/-- The set in as many of the records as it has cells. -/
def ofRecords (c : Capacity) (rs : Records) : PackedSet c :=
  ⟨Vector.ofFn fun i => (rs[i.val]?.getD Record.zero).toCell, none⟩

end PackedSet

namespace Act

/-- Read the records of the calling thread, and the set in them. -/
def readPacked (c : Capacity) : Act (PackedSet c) := do
  let s ← Act.request fun s => some (s.inspect 0)
  return PackedSet.ofRecords c (Records.ofFlags c.abi s)

/-- Pass the records of a set on every thread. -/
def applyPacked {c : Capacity} (s : PackedSet c) : Act Unit := do
  let mask := Records.mask c.abi s.toRecords
  let _ ← Act.broadcast (.capset (mask .effective) (mask .permitted) (mask .inheritable))

end Act

end Capabilities
