import Capabilities.CapSet.External
import Capabilities.CapSet.FileAttribute

/-!
# Capability sets in machine words

How a set is laid out in memory: for every 32 values one cell with a word of
each flag. Values are checked before anything is written. Reading a byte string
writes whole words, and only afterwards looks for values that the capacity does
not support; reading a file attribute masks the words as it writes them. Byte
strings are written from the words as they are.
-/

namespace Capabilities

/-- A checked value: those beyond the supported ones have no cell. -/
def Capacity.check (c : Capacity) (v : Value) : Except Fault (Fin c.count) :=
  if h : v < c.count then .ok ⟨v, h⟩ else .error .badValue

/-- The words that the three flags have for the same 32 values. -/
structure Cell where
  effective : BitVec 32
  permitted : BitVec 32
  inheritable : BitVec 32
deriving DecidableEq

namespace Cell

def zero : Cell := ⟨0#32, 0#32, 0#32⟩

def flag (cell : Cell) : Flag → BitVec 32
  | .effective => cell.effective
  | .permitted => cell.permitted
  | .inheritable => cell.inheritable

/-- Replace the word of one flag. -/
def withFlag (cell : Cell) (f : Flag) (word : BitVec 32) : Cell :=
  match f with
  | .effective => { cell with effective := word }
  | .permitted => { cell with permitted := word }
  | .inheritable => { cell with inheritable := word }

@[simp] theorem flag_withFlag (cell : Cell) (f g : Flag) (word : BitVec 32) :
    (cell.withFlag f word).flag g = if g = f then word else cell.flag g := by
  cases f <;> cases g <;> rfl

@[simp] theorem flag_zero (f : Flag) : zero.flag f = 0#32 := by
  cases f <;> rfl

/-- Add the bytes of a triple at a position of the words. -/
def merge (cell : Cell) (shift : Nat) (t : CapSet.External.Triple) : Cell :=
  let place (word : BitVec 32) (byte : UInt8) := word ||| byte.toBitVec.setWidth 32 <<< shift
  ⟨place cell.effective t.effective, place cell.permitted t.permitted,
    place cell.inheritable t.inheritable⟩

/-- The bytes at a position of the words. -/
def slice (cell : Cell) (shift : Nat) : CapSet.External.Triple :=
  let byte (word : BitVec 32) := UInt8.ofBitVec ((word >>> shift).setWidth 8)
  ⟨byte cell.effective, byte cell.permitted, byte cell.inheritable⟩

/-- The values that are raised in some flag. -/
def raised (cell : Cell) : BitVec 32 := cell.effective ||| cell.permitted ||| cell.inheritable

end Cell

namespace FileAttribute.Revision

/-- The word at the start of an attribute whose effective bit is lowered. -/
def magic : Revision → BitVec 32
  | short => 0x01000000#32
  | long => 0x02000000#32
  | owned _ => 0x03000000#32

/-- How many words an attribute has of each mask. -/
def words : Revision → Nat
  | short => 1
  | long => 2
  | owned _ => 2

end FileAttribute.Revision

/-- A set in cells, as many as the interface of the kernel has words. -/
structure PackedSet (c : Capacity) where
  cells : Vector Cell c.abi.words
  owner : Option UserId
deriving DecidableEq

namespace PackedSet

variable {c : Capacity}

/-- The bit of a value in its word. -/
def bit (v : Value) : BitVec 32 := 1#32 <<< (v &&& 31)

/-- The bits of word `i` that stand for numbers below a bound. -/
def wordBelow (i bound : Nat) : BitVec 32 :=
  if bound ≤ 32 * i then 0#32
  else if 32 ≤ bound - 32 * i then BitVec.allOnes 32
  else (1#32 <<< (bound - 32 * i)) - 1#32

/-- The cell of a supported value. -/
def index (u : Fin c.count) : Fin c.abi.words :=
  ⟨u.val >>> 5, by
    have hlt := u.isLt
    have hle := c.count_le
    rw [Nat.shiftRight_eq_div_pow]
    omega⟩

def empty (c : Capacity) : PackedSet c := ⟨Vector.replicate c.abi.words Cell.zero, none⟩

/-- Whether a value is raised in a flag. -/
def get (s : PackedSet c) (f : Flag) (v : Value) : Except Fault Bool :=
  (c.check v).map fun u => (s.cells[index u].flag f &&& bit u) != 0#32

/-- Raise or lower a supported value in one flag. -/
def put (s : PackedSet c) (f : Flag) (on : Bool) (u : Fin c.count) : PackedSet c :=
  let cell := s.cells[index u]
  let word := if on then cell.flag f ||| bit u else cell.flag f &&& ~~~bit u
  { s with cells := s.cells.set (index u) (cell.withFlag f word) }

/-- Raise or lower values in one flag, one after the other, once all have been checked. -/
def set (s : PackedSet c) (f : Flag) (on : Bool) (vs : List Value) :
    Except Fault (PackedSet c) :=
  (vs.mapM c.check).map fun us => us.foldl (fun s u => s.put f on u) s

/-- Copy the words of one flag into another. -/
def fill (s : PackedSet c) (target source : Flag) : PackedSet c :=
  { s with cells := s.cells.map fun cell => cell.withFlag target (cell.flag source) }

/-- Raise or lower all supported values in one flag. -/
def force (s : PackedSet c) (f : Flag) (on : Bool) : PackedSet c :=
  { s with cells := s.cells.mapIdx fun i cell =>
      cell.withFlag f (if on then wordBelow i c.count else 0#32) }

def clearFlag (s : PackedSet c) (f : Flag) : PackedSet c := s.force f false

/-- Lower everything; the owner stays. -/
def clear (s : PackedSet c) : PackedSet c := { s with cells := s.cells.map fun _ => Cell.zero }

/-- The positions of the flags in which some word differs. -/
def difference (s t : PackedSet c) : Mask :=
  Mask.ofList ((List.finRange c.abi.words).flatMap fun i =>
    (Flag.all.filter fun f => s.cells[i].flag f ≠ t.cells[i].flag f).map Flag.position)

def isEmpty (s : PackedSet c) : Bool :=
  (List.finRange c.abi.words).all fun i => Flag.all.all fun f => s.cells[i].flag f == 0#32

/-- Whether no word raises a value that is not supported. -/
def fits (cells : Vector Cell c.abi.words) : Bool :=
  (List.finRange c.abi.words).all fun i =>
    Flag.all.all fun f => (cells[i].flag f &&& ~~~wordBelow i c.count) == 0#32

/-- Write triple `j`. A triple beyond the last cell must not raise anything. -/
def mergeTriple (cells : Vector Cell c.abi.words) (j : Nat) (t : CapSet.External.Triple) :
    Except Fault (Vector Cell c.abi.words) :=
  if h : j / 4 < c.abi.words then
    .ok (cells.set (j / 4) (cells[j / 4].merge (8 * (j % 4)) t) h)
  else if t = ⟨0, 0, 0⟩ then .ok cells
  else .error .badValue

/-- Write triples from triple `j` on. -/
def mergeTriples (cells : Vector Cell c.abi.words) (j : Nat) :
    List CapSet.External.Triple → Except Fault (Vector Cell c.abi.words)
  | [] => .ok cells
  | t :: ts => (mergeTriple cells j t).bind fun cells => mergeTriples cells (j + 1) ts

/-- Read a byte string in the external format. -/
def decodeExternal (c : Capacity) (data : Bytes) : Except Fault (PackedSet c) :=
  match CapSet.External.triples? data with
  | none => .error .badPayload
  | some ts =>
      (mergeTriples (Vector.replicate c.abi.words Cell.zero) 0 ts).bind fun cells =>
        if fits cells then .ok ⟨cells, none⟩ else .error .badValue

/-- Word `i` of a mask, without the values that are not supported. -/
def maskWord (c : Capacity) (m : Mask) (i : Nat) : BitVec 32 :=
  BitVec.ofNat 32 (m.bits >>> (32 * i)) &&& wordBelow i c.count

/-- The cell that stands for word `i` of an attribute. -/
def attributeCell (c : Capacity) (a : FileAttribute) (i : Nat) : Cell :=
  let p := maskWord c a.permitted i
  let q := maskWord c a.inheritable i
  ⟨if a.effective then p ||| q else 0#32, p, q⟩

/-- Read the bytes of a file attribute. -/
def decodeAttribute (c : Capacity) (data : Bytes) : Except Fault (PackedSet c) :=
  match FileAttribute.ofBytes? data with
  | none => .error .badPayload
  | some a => .ok ⟨Vector.ofFn fun i => attributeCell c a i, a.revision.owner?⟩

/-- Cell `i`. There is nothing in the cells that a set does not have. -/
def cell (s : PackedSet c) (i : Nat) : Cell := s.cells[i]?.getD Cell.zero

/-- How many bytes hold what words raise, when `used` bytes hold what comes before word `i`.
The last word that is not zero decides. -/
def usedFrom (used i : Nat) : List (BitVec 32) → Nat
  | [] => used
  | word :: words =>
      usedFrom (if word = 0#32 then used else 4 * i + (4 - word.clz.toNat / 8)) (i + 1) words

/-- How many bytes hold every raised value. -/
def usedBytes (s : PackedSet c) : Nat := usedFrom 0 0 (s.cells.toList.map Cell.raised)

/-- How many triples are written. -/
def count (floor : Nat) (s : PackedSet c) : Nat :=
  if s.usedBytes ≠ 0 ∧ s.usedBytes < floor then min floor CapSet.External.maxCount
  else s.usedBytes

/-- Write a byte string in the external format. -/
def encodeExternal (floor : Nat) (s : PackedSet c) : Bytes :=
  CapSet.External.magic ++ UInt8.ofNat (s.count floor) ::
    (List.range (s.count floor)).flatMap fun j =>
      ((s.cell (j / 4)).slice (8 * (j % 4))).toBytes

/-- Whether the effective flag raises anything. -/
def isEffective (s : PackedSet c) : Bool := s.cells.any fun cell => cell.effective != 0#32

/-- Whether in all words the effective flag raises what is permitted or inheritable. -/
def isUniform (s : PackedSet c) : Bool :=
  s.cells.all fun cell => cell.effective == cell.permitted ||| cell.inheritable

/-- Whether a word beyond the first one raises anything. -/
def isTall (s : PackedSet c) : Bool :=
  (s.cells.drop 1).any fun cell => Flag.all.any fun f => cell.flag f != 0#32

/-- The revision that a set is written in. -/
def revisionFor (floor : Nat) (s : PackedSet c) : FileAttribute.Revision :=
  match s.owner with
  | some uid => .owned uid
  | none => if s.isTall || (1 < c.abi.words && 4 < floor) then .long else .short

/-- The bytes for word `i` of an attribute. -/
def attributeWords (s : PackedSet c) (i : Nat) : Bytes :=
  Bytes.ofWord (s.cell i).permitted ++ Bytes.ofWord (s.cell i).inheritable

/-- The bytes of a set in a revision, with or without the effective bit. -/
def attributeBytes (s : PackedSet c) (revision : FileAttribute.Revision) (effective : Bool) :
    Bytes :=
  let magic := if effective then revision.magic ||| 0x00000001#32 else revision.magic
  Bytes.ofWord magic ++ (List.range revision.words).flatMap s.attributeWords ++
    (revision.owner?.map fun uid => Bytes.ofWord uid.toBitVec).getD []

/-- Write the bytes of a file attribute. -/
def encodeAttribute (floor : Nat) (s : PackedSet c) : Except Fault Bytes :=
  if s.isEffective && !s.isUniform then .error .badValue
  else .ok (s.attributeBytes (s.revisionFor floor) s.isEffective)

end PackedSet

end Capabilities
