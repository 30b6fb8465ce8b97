import Capabilities.CapSet.Packed
import Capabilities.Inheritance.Text
import Capabilities.Mode

/-!
# Inheritance tuples in machine words

A tuple is laid out like a set: for every 32 values one cell with a word of each
part. A part that follows another one follows it by whole words. A part is filled
from the words of a set, and where a process is classified, the blocked values are
compared with the supported ones word by word.
-/

namespace Capabilities

/-- The words that the three parts of a tuple have for the same 32 values. -/
structure Inheritance.Cell where
  inheritable : BitVec 32
  ambient : BitVec 32
  blocked : BitVec 32
deriving DecidableEq

namespace Inheritance.Cell

def zero : Cell := ⟨0#32, 0#32, 0#32⟩

def part (cell : Cell) : Part → BitVec 32
  | .inheritable => cell.inheritable
  | .ambient => cell.ambient
  | .blocked => cell.blocked

@[simp] theorem part_zero (p : Part) : zero.part p = 0#32 := by
  cases p <;> rfl

/-- Raise or lower a value in one part, and let the other part follow. -/
def put (cell : Cell) (p : Part) (on : Bool) (v : Value) : Cell :=
  let write (word : BitVec 32) :=
    if on then word ||| PackedSet.bit v else word &&& ~~~PackedSet.bit v
  match p with
  | .inheritable =>
      let inheritable := write cell.inheritable
      { cell with inheritable, ambient := cell.ambient &&& inheritable }
  | .ambient =>
      let ambient := write cell.ambient
      { cell with ambient, inheritable := cell.inheritable ||| ambient }
  | .blocked => { cell with blocked := write cell.blocked }

/-- Replace one part by a word; every supported value outside the word becomes blocked. -/
def fill (cell : Cell) (p : Part) (word supported : BitVec 32) : Cell :=
  match p with
  | .inheritable => { cell with inheritable := word, ambient := cell.ambient &&& word }
  | .ambient => { cell with ambient := word, inheritable := cell.inheritable ||| word }
  | .blocked => { cell with blocked := ~~~word &&& supported }

/-- Raise the value of an entry in the parts that the entry grants it in. -/
def grant (cell : Cell) (e : Entry) : Cell :=
  let raise (yes : Bool) (word : BitVec 32) := if yes then word ||| PackedSet.bit e.value else word
  ⟨raise e.makesInheritable cell.inheritable, raise e.makesAmbient cell.ambient,
    raise e.blocks cell.blocked⟩

/-- Change one of the cells. -/
def changeAt {n : Nat} (cells : Vector Cell n) (i : Fin n) (change : Cell → Cell) :
    Vector Cell n :=
  cells.set i.val (change (cells.get i)) i.isLt

end Inheritance.Cell

/-- A tuple in cells, as many as the interface of the kernel has words. -/
structure PackedTuple (c : Capacity) where
  cells : Vector Inheritance.Cell c.abi.words
deriving DecidableEq

namespace PackedTuple

open Inheritance (Part Entry)

variable {c : Capacity}

def empty (c : Capacity) : PackedTuple c := ⟨Vector.replicate c.abi.words Inheritance.Cell.zero⟩

/-- Cell `i`. There is nothing in the cells that a tuple does not have. -/
def cell (t : PackedTuple c) (i : Nat) : Inheritance.Cell :=
  t.cells[i]?.getD Inheritance.Cell.zero

/-- Whether a value is raised in a part. -/
def get (t : PackedTuple c) (p : Part) (v : Value) : Except Fault Bool :=
  (c.check v).map fun u => ((t.cells.get (PackedSet.index u)).part p &&& PackedSet.bit u) != 0#32

/-- Change the cell of a supported value. -/
def modify (t : PackedTuple c) (u : Fin c.count)
    (change : Inheritance.Cell → Inheritance.Cell) : PackedTuple c :=
  ⟨Inheritance.Cell.changeAt t.cells (PackedSet.index u) change⟩

/-- Raise or lower values in one part, one after the other, once all have been checked. -/
def set (t : PackedTuple c) (p : Part) (on : Bool) (vs : List Value) :
    Except Fault (PackedTuple c) :=
  (vs.mapM c.check).map fun us => us.foldl (fun t u => t.modify u (·.put p on u)) t

/-- Replace one part by words. -/
def fill (t : PackedTuple c) (p : Part) (word : Nat → BitVec 32) : PackedTuple c :=
  ⟨t.cells.mapIdx fun i cell => cell.fill p (word i) (PackedSet.wordBelow i c.count)⟩

/-- Replace one part by a flag of a set. -/
def fillFrom (t : PackedTuple c) (p : Part) (s : PackedSet c) (f : Flag) : PackedTuple c :=
  t.fill p fun i => (s.cell i).flag f

/-- The positions of the parts in which some word differs. -/
def difference (t u : PackedTuple c) : Mask :=
  Mask.ofList ((List.finRange c.abi.words).flatMap fun i =>
    (Part.all.filter fun p => (t.cells.get i).part p ≠ (u.cells.get i).part p).map Part.position)

/-- Write what entries grant, one after the other. -/
def grantAll (t : PackedTuple c) (es : List Entry) : Except Fault (PackedTuple c) :=
  es.foldlM (fun t e => (c.check e.value).map fun u => t.modify u (·.grant e)) t

/-- Read entries separated by commas. -/
def ofText (c : Capacity) (text : String) : Except Fault (PackedTuple c) :=
  if text.toList = [] then .ok (empty c)
  else
    match (text.toList.splitOn ',').mapM (Entry.read? c) with
    | none => .error .badText
    | some es => (empty c).grantAll es

/-- Whether a tuple makes something inheritable that a set neither permits nor makes inheritable. -/
def exceeds (t : PackedTuple c) (s : PackedSet c) : Bool :=
  (s.cells.zip t.cells).any fun cells =>
    cells.2.inheritable &&& ~~~(cells.1.inheritable ||| cells.1.permitted) != 0#32

/-- The set whose inheritable words are those of a tuple. -/
def handOver (t : PackedTuple c) (s : PackedSet c) : PackedSet c :=
  { s with cells := s.cells.mapIdx fun i cell =>
      cell.withFlag .inheritable (t.cell i).inheritable }

end PackedTuple

/-- Everything that the classification of a process looks at, in words. -/
structure PackedSnapshot (c : Capacity) where
  secbits : Secbits
  ambientSupported : Bool
  caps : PackedSet c
  tuple : PackedTuple c

namespace PackedSnapshot

variable {c : Capacity}

/-- The mode of a process. -/
def classify (s : PackedSnapshot c) : Mode :=
  if !(Secbits.secured.isWithin s.secbits &&
      (!s.ambientSupported || s.secbits == Secbits.securedAmbient)) then .uncertain
  else if s.tuple.cells.any fun cell => cell.ambient != 0#32 then .uncertain
  else if s.caps.cells.any fun cell => cell.inheritable != 0#32 then .pure
  else if s.caps.cells.any fun cell => cell.permitted != 0#32 || cell.effective != 0#32 then
    .pureInit
  else if (List.finRange c.abi.words).any fun i =>
      (s.tuple.cells.get i).blocked != PackedSet.wordBelow i c.count then .pureInit
  else .noPriv

end PackedSnapshot

end Capabilities
