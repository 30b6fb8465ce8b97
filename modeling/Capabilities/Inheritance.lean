import Capabilities.CapSet

/-!
# Inheritance tuples

What a process hands on to the programs it starts: the inheritable mask, the
ambient mask, and the values that are blocked from the bounding mask. Changes
of the first two keep every ambient value inheritable: raising an ambient value
makes it inheritable, and lowering an inheritable value lowers it in the ambient
mask. Values outside the machine word of a changed value are not touched.
-/

namespace Capabilities

/-- The inheritable mask, the ambient mask, and the values blocked from the bounding mask. -/
structure Inheritance where
  inheritable : Mask
  ambient : Mask
  blocked : Mask
deriving DecidableEq, Inhabited

namespace Inheritance

/-- One of the three masks of a tuple. -/
inductive Part
  | inheritable
  | ambient
  | blocked
deriving DecidableEq

namespace Part

def all : List Part := [inheritable, ambient, blocked]

theorem mem_all (p : Part) : p ∈ all := by
  cases p <;> decide

/-- The position of the part in masks of parts. -/
def position : Part → Nat
  | inheritable => 0
  | ambient => 1
  | blocked => 2

/-- The name of the part as a tag. -/
def tag : Part → String
  | inheritable => "Inh"
  | ambient => "Amb"
  | blocked => "Bound"

/-- The names of the bits in masks of parts. -/
def bitNames : List String := ["INH", "AMB", "BOUND"]

end Part

def empty : Inheritance := ⟨∅, ∅, ∅⟩

def part (x : Inheritance) : Part → Mask
  | .inheritable => x.inheritable
  | .ambient => x.ambient
  | .blocked => x.blocked

@[simp] theorem part_empty (p : Part) : empty.part p = ∅ := by
  cases p <;> rfl

/-- Raise or lower a single value in a mask. -/
def change (m : Mask) (on : Bool) (v : Value) : Mask :=
  if on then m ∪ Mask.single v else m \ Mask.single v

/-- Raise or lower a single value in one part, and let the other part follow. -/
def put (x : Inheritance) (p : Part) (on : Bool) (v : Value) : Inheritance :=
  match p with
  | .inheritable =>
      let inheritable := change x.inheritable on v
      { x with inheritable, ambient := x.ambient \ (Mask.word v \ inheritable) }
  | .ambient =>
      let ambient := change x.ambient on v
      { x with ambient, inheritable := x.inheritable ∪ (Mask.word v ∩ ambient) }
  | .blocked => { x with blocked := change x.blocked on v }

/-- Whether a value is raised in a part. -/
def get (c : Capacity) (x : Inheritance) (p : Part) (v : Value) : Except Fault Bool :=
  if c.admits v then .ok ((x.part p).contains v) else .error .badValue

/-- Raise or lower values in one part, or do nothing if any of them is out of range. -/
def set (c : Capacity) (x : Inheritance) (p : Part) (on : Bool) (vs : List Value) :
    Except Fault Inheritance :=
  if vs.all c.admits then .ok (vs.foldl (fun x v => x.put p on v) x) else .error .badValue

/-- Replace one part by a mask; every value outside the mask becomes blocked. -/
def fill (c : Capacity) (x : Inheritance) (p : Part) (source : Mask) : Inheritance :=
  match p with
  | .inheritable => { x with inheritable := source, ambient := x.ambient ∩ source }
  | .ambient => { x with ambient := source, inheritable := x.inheritable ∪ source }
  | .blocked => { x with blocked := Mask.below c.count \ source }

/-- The positions of the parts in which two tuples differ. -/
def difference (x y : Inheritance) : Mask :=
  Mask.ofList ((Part.all.filter fun p => x.part p ≠ y.part p).map Part.position)

def agrees (x y : Inheritance) : Bool := (x.difference y).isEmpty

/-- Whether every ambient value is inheritable. -/
def isClosed (x : Inheritance) : Bool := x.ambient.isWithin x.inheritable

end Inheritance

end Capabilities
