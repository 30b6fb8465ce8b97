import Capabilities.Capacity
import Capabilities.Fault
import Capabilities.Flag
import Capabilities.Mask

/-!
# Capability sets

A capability set holds one mask for each flag, and the user that owns the
namespace it is bound to when it is written to a file. Operations that take
values are checked against the capacity first and change nothing if a value is
out of range. Two sets are compared by their flags alone.
-/

namespace Capabilities

/-- The number of a user. User 0 is the privileged one. -/
abbrev UserId := UInt32

/-- The number of a group. -/
abbrev GroupId := UInt32

/-- Three masks of capability values, and perhaps the owner of a user namespace. -/
structure CapSet where
  effective : Mask
  permitted : Mask
  inheritable : Mask
  owner : Option UserId
deriving DecidableEq, Inhabited

namespace CapSet

def empty : CapSet := ⟨∅, ∅, ∅, none⟩

def flag (s : CapSet) : Flag → Mask
  | .effective => s.effective
  | .permitted => s.permitted
  | .inheritable => s.inheritable

/-- Replace one flag. -/
def withFlag (s : CapSet) (f : Flag) (m : Mask) : CapSet :=
  match f with
  | .effective => { s with effective := m }
  | .permitted => { s with permitted := m }
  | .inheritable => { s with inheritable := m }

@[simp] theorem flag_withFlag (s : CapSet) (f g : Flag) (m : Mask) :
    (s.withFlag f m).flag g = if g = f then m else s.flag g := by
  cases f <;> cases g <;> rfl

@[simp] theorem owner_withFlag (s : CapSet) (f : Flag) (m : Mask) :
    (s.withFlag f m).owner = s.owner := by
  cases f <;> rfl

@[simp] theorem flag_empty (f : Flag) : empty.flag f = ∅ := by
  cases f <;> rfl

/-- The values raised in any flag. -/
def raised (s : CapSet) : Mask := s.effective ∪ s.permitted ∪ s.inheritable

/-- Raise or lower all values of a mask in one flag. -/
def put (s : CapSet) (f : Flag) (on : Bool) (vs : Mask) : CapSet :=
  s.withFlag f (if on then s.flag f ∪ vs else s.flag f \ vs)

/-- Whether a value is raised in a flag. -/
def get (c : Capacity) (s : CapSet) (f : Flag) (v : Value) : Except Fault Bool :=
  if c.admits v then .ok ((s.flag f).contains v) else .error .badValue

/-- Raise or lower values in one flag, or do nothing if any of them is out of range. -/
def set (c : Capacity) (s : CapSet) (f : Flag) (on : Bool) (vs : List Value) :
    Except Fault CapSet :=
  if vs.all c.admits then .ok (s.put f on (Mask.ofList vs)) else .error .badValue

/-- Copy the values of one flag into another. -/
def fill (s : CapSet) (target source : Flag) : CapSet :=
  s.withFlag target (s.flag source)

def clearFlag (s : CapSet) (f : Flag) : CapSet := s.withFlag f ∅

/-- Lower everything; the owner stays. -/
def clear (s : CapSet) : CapSet := { empty with owner := s.owner }

@[simp] theorem flag_clear (s : CapSet) (f : Flag) : s.clear.flag f = ∅ := by
  cases f <;> rfl

def isEmpty (s : CapSet) : Bool := s.raised.isEmpty

/-- The positions of the flags in which two sets differ. -/
def difference (s t : CapSet) : Mask :=
  Mask.ofList ((Flag.all.filter fun f => s.flag f ≠ t.flag f).map Flag.position)

/-- Whether two sets raise the same values in every flag, whoever owns them. -/
def agrees (s t : CapSet) : Bool := (s.difference t).isEmpty

theorem agrees_iff (s t : CapSet) : s.agrees t = true ↔ ∀ f, s.flag f = t.flag f := by
  simp only [agrees, Mask.isEmpty_iff, difference]
  constructor
  · intro h f
    have hf := congrArg (fun m => m.contains f.position) h
    have hmem := Flag.mem_all f
    simp only [Mask.contains_ofList, Mask.contains_empty, decide_eq_false_iff_not,
      List.mem_map, List.mem_filter, not_exists, not_and] at hf
    by_cases heq : s.flag f = t.flag f
    · exact heq
    · exact absurd rfl (hf f ⟨hmem, by simpa using heq⟩)
  · intro h
    have hnil : (Flag.all.filter fun f => s.flag f ≠ t.flag f) = [] := by simp [h]
    rw [hnil]
    rfl

/-- Whether every raised value is supported. -/
def fits (c : Capacity) (s : CapSet) : Bool := s.raised.isWithin (Mask.below c.count)

end CapSet

end Capabilities
