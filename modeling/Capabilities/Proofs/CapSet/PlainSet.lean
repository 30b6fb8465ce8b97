import Capabilities.CapSet.FileAttribute
import Capabilities.Proofs.CapSet.ExternalForm
import Capabilities.Proofs.CapSet.Meaning
import Mathlib.Data.Finset.Dedup
import Mathlib.Data.Finset.Range
import Mathlib.Data.Finset.SDiff
import Mathlib.Data.Finset.Filter

/-!
# Capability sets as plain finite sets

What a capability set is meant to be: three finite sets of numbers, and perhaps
an owner. The operations on it are union, difference and assignment of finite
sets. Whatever the sets are, the meaning of a text is given by operations on them
alone.
-/

namespace Capabilities

/-- Operations on capability sets, however these are kept. -/
structure SetOperations (σ : Type) where
  empty : σ
  set : σ → Flag → Bool → List Value → Except Fault σ
  fill : σ → Flag → Flag → σ
  clearFlag : σ → Flag → σ
  clear : σ → σ
  withOwner : σ → Option UserId → σ
  decodeExternal : Bytes → Except Fault σ
  decodeAttribute : Bytes → Except Fault σ

/-- The values that the groups of a clause are applied to. -/
def Clause.Address.values (c : Capacity) : Address → List Value
  | background => List.range c.named
  | all => c.values
  | listed vs => vs

/-- The clauses of a text, if there are any and all can be read. -/
def CapSet.clauses? (c : Capacity) (cs : List Char) : Option (List Clause) :=
  if Text.words cs = [] then none else (Text.words cs).mapM (Clause.read? c)

namespace SetOperations

variable {σ : Type} (R : SetOperations σ) (c : Capacity)

/-- Raise or lower values in flags, one flag after the other. -/
def setAll (on : Bool) (vs : List Value) (fs : List Flag) (s : σ) : Except Fault σ :=
  fs.foldlM (fun s f => R.set s f on vs) s

/-- Apply a group to the values of its clause: first the reset, and then the letters. -/
def applyGroup (s : σ) (step : Clause.Address × Clause.Group) : Except Fault σ :=
  let start : Except Fault σ :=
    match step.2.operation, step.1 with
    | .reset, .background => .ok (R.clear s)
    | .reset, a => R.setAll false (a.values c) Flag.all s
    | _, _ => .ok s
  start.bind fun s =>
    R.setAll (step.2.operation != .lower) (step.1.values c) step.2.flags s

/-- Read a text. -/
def parse (text : String) : Except Fault σ :=
  match CapSet.clauses? c text.toList with
  | none => .error .badText
  | some cls => (Clause.steps cls).foldlM (R.applyGroup c) R.empty

end SetOperations

/-- Three finite sets of numbers and perhaps an owner. -/
structure PlainSet where
  members : Flag → Finset Nat
  owner : Option UserId

namespace PlainSet

def empty : PlainSet := ⟨fun _ => ∅, none⟩

/-- Replace one of the sets. -/
def withMembers (p : PlainSet) (f : Flag) (m : Finset Nat) : PlainSet :=
  { p with members := Function.update p.members f m }

theorem mem_withMembers (p : PlainSet) (f g : Flag) (m : Finset Nat) (v : Nat) :
    v ∈ (p.withMembers f m).members g ↔ if g = f then v ∈ m else v ∈ p.members g := by
  show v ∈ Function.update p.members f m g ↔ _
  rw [Function.update_apply]
  split <;> rfl

/-- Add listed values to one of the sets, or take them away. -/
def put (p : PlainSet) (f : Flag) (on : Bool) (vs : List Value) : PlainSet :=
  p.withMembers f (if on then p.members f ∪ vs.toFinset else p.members f \ vs.toFinset)

/-- Add or take away listed values, or do nothing if any of them is out of range. -/
def set (c : Capacity) (p : PlainSet) (f : Flag) (on : Bool) (vs : List Value) :
    Except Fault PlainSet :=
  if ∀ v ∈ vs, v < c.count then .ok (p.put f on vs) else .error .badValue

def fill (p : PlainSet) (target source : Flag) : PlainSet :=
  p.withMembers target (p.members source)

def clearFlag (p : PlainSet) (f : Flag) : PlainSet := p.withMembers f ∅

def clear (p : PlainSet) : PlainSet := { p with members := fun _ => ∅ }

/-- Whether the bit of a number is set in its byte of a flag. -/
def tripleBit (ts : List CapSet.External.Triple) (f : Flag) (v : Nat) : Bool :=
  ((ts.map fun t => t.byte f).getD (v / 8) 0).toNat.testBit (v % 8)

theorem lt_of_tripleBit {ts : List CapSet.External.Triple} {f : Flag} {v : Nat}
    (h : tripleBit ts f v = true) : v < 8 * ts.length := by
  apply Decidable.byContradiction
  intro hbeyond
  have hlength : (ts.map fun t => t.byte f).length ≤ v / 8 := by
    rw [List.length_map]
    omega
  rw [tripleBit, List.getD_eq_getElem?_getD, List.getElem?_eq_none hlength] at h
  simp at h

/-- The numbers that triples raise, unless one of them is out of range. -/
def ofTriples (c : Capacity) (ts : List CapSet.External.Triple) : Except Fault PlainSet :=
  let raised (f : Flag) := (Finset.range (8 * ts.length)).filter (tripleBit ts f ·)
  if ∀ f ∈ Flag.all, ∀ v ∈ raised f, v < c.count then .ok ⟨raised, none⟩ else .error .badValue

def decodeExternal (c : Capacity) (data : Bytes) : Except Fault PlainSet :=
  match CapSet.External.triples? data with
  | none => .error .badPayload
  | some ts => ofTriples c ts

/-- Whether an attribute stands for a set that raises a number. -/
def attributeBit (a : FileAttribute) (v : Nat) : Flag → Bool
  | .effective => a.effective && (a.permitted.contains v || a.inheritable.contains v)
  | .permitted => a.permitted.contains v
  | .inheritable => a.inheritable.contains v

/-- The supported numbers that an attribute stands for. -/
def ofAttribute (c : Capacity) (a : FileAttribute) : PlainSet :=
  ⟨fun f => (Finset.range c.count).filter (attributeBit a · f), a.revision.owner?⟩

def decodeAttribute (c : Capacity) (data : Bytes) : Except Fault PlainSet :=
  match FileAttribute.ofBytes? data with
  | none => .error .badPayload
  | some a => .ok (ofAttribute c a)

/-- The operations on plain sets. -/
def operations (c : Capacity) : SetOperations PlainSet where
  empty := empty
  set := set c
  fill := fill
  clearFlag := clearFlag
  clear := clear
  withOwner p owner := { p with owner }
  decodeExternal := decodeExternal c
  decodeAttribute := decodeAttribute c

end PlainSet

end Capabilities
