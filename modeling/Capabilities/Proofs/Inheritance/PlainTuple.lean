import Capabilities.Proofs.Inheritance.Validity
import Capabilities.Proofs.Mask.Algebra
import Mathlib.Data.Finset.Dedup
import Mathlib.Data.Finset.Range
import Mathlib.Data.Finset.SDiff
import Mathlib.Data.Finset.Filter

/-!
# Inheritance tuples as plain finite sets

What an inheritance tuple is meant to be: three finite sets of numbers. Raising
adds numbers, and lowering takes them away; only ambient and inheritable numbers
follow each other. The masks of a valid tuple change in the same way, although
they are changed one value after the other, and with whole words.
-/

namespace Capabilities

/-- The numbers of a mask. -/
def Mask.members (m : Mask) : Finset Nat := (Finset.range m.width).filter (m.contains ·)

theorem Mask.mem_members {m : Mask} {v : Nat} : v ∈ m.members ↔ m.contains v = true := by
  rw [members, Finset.mem_filter, Finset.mem_range]
  exact and_iff_right_of_imp lt_width

/-- The entries of a text, if all of them can be read. -/
def Inheritance.entries? (c : Capacity) (cs : List Char) : Option (List Entry) :=
  if cs = [] then some [] else (cs.splitOn ',').mapM (Entry.read? c)

theorem Inheritance.read?_eq_map_entries? {c : Capacity} {cs : List Char} :
    read? c cs = (entries? c cs).map (·.foldl Entry.apply empty) := by
  rw [read?, entries?]
  split <;> rfl

/-- Three finite sets of numbers. -/
structure PlainTuple where
  inheritable : Finset Nat
  ambient : Finset Nat
  blocked : Finset Nat

namespace PlainTuple

open Inheritance (Part Entry)

def empty : PlainTuple := ⟨∅, ∅, ∅⟩

def members (t : PlainTuple) : Part → Finset Nat
  | .inheritable => t.inheritable
  | .ambient => t.ambient
  | .blocked => t.blocked

/-- Add numbers to one of the sets; what becomes ambient becomes inheritable. -/
def raise (t : PlainTuple) (p : Part) (vs : Finset Nat) : PlainTuple :=
  match p with
  | .inheritable => { t with inheritable := t.inheritable ∪ vs }
  | .ambient => { t with ambient := t.ambient ∪ vs, inheritable := t.inheritable ∪ vs }
  | .blocked => { t with blocked := t.blocked ∪ vs }

/-- Take numbers away from one of the sets; what is no longer inheritable is not ambient either. -/
def lower (t : PlainTuple) (p : Part) (vs : Finset Nat) : PlainTuple :=
  match p with
  | .inheritable => { t with inheritable := t.inheritable \ vs, ambient := t.ambient \ vs }
  | .ambient => { t with ambient := t.ambient \ vs }
  | .blocked => { t with blocked := t.blocked \ vs }

/-- Raise or lower listed values, or do nothing if any of them is out of range. -/
def set (c : Capacity) (t : PlainTuple) (p : Part) (on : Bool) (vs : List Value) :
    Except Fault PlainTuple :=
  if ∀ v ∈ vs, v < c.count then
    .ok (if on then t.raise p vs.toFinset else t.lower p vs.toFinset)
  else .error .badValue

/-- Replace one of the sets; what is blocked are the supported numbers outside the source. -/
def fill (c : Capacity) (t : PlainTuple) (p : Part) (source : Finset Nat) : PlainTuple :=
  match p with
  | .inheritable => { t with inheritable := source, ambient := t.ambient ∩ source }
  | .ambient => { t with ambient := source, inheritable := t.inheritable ∪ source }
  | .blocked => { t with blocked := Finset.range c.count \ source }

/-- What entries grant together. -/
def ofEntries (es : List Entry) : PlainTuple :=
  let granted (p : Part) := ((es.filter (·.grants p)).map Entry.value).toFinset
  ⟨granted .inheritable, granted .ambient, granted .blocked⟩

def parse (c : Capacity) (text : String) : Except Fault PlainTuple :=
  match Inheritance.entries? c text.toList with
  | some es => .ok (ofEntries es)
  | none => .error .badText

theorem mem_ofEntries {es : List Entry} {p : Part} {v : Nat} :
    v ∈ (ofEntries es).members p ↔ ∃ e ∈ es, e.value = v ∧ e.grants p = true := by
  cases p <;>
    simp only [ofEntries, members, List.mem_toFinset, List.mem_map, List.mem_filter] <;>
    exact exists_congr fun e => ⟨fun h => ⟨h.1.1, h.2, h.1.2⟩, fun h => ⟨⟨h.1, h.2.2⟩, h.2.1⟩⟩

/-- Raised and lowered are the listed numbers only, in the part itself and in the one that
follows it. -/
theorem mem_raise_lower (t : PlainTuple) (p q : Part) (on : Bool) (vs : Finset Nat) (v : Nat) :
    v ∈ (if on then t.raise p vs else t.lower p vs).members q ↔
      if v ∈ vs ∧ p.carries on q = true then on = true else v ∈ t.members q := by
  cases on <;> cases p <;> cases q <;> by_cases hv : v ∈ vs <;>
    simp [raise, lower, members, Part.carries, hv]

end PlainTuple

namespace Inheritance

variable {c : Capacity} {x : Inheritance} {t : PlainTuple}

/-- The masks of a tuple raise exactly the members of a plain tuple. -/
def Shows (x : Inheritance) (t : PlainTuple) : Prop :=
  ∀ p v, (x.part p).contains v = true ↔ v ∈ t.members p

/-- Both fail alike, or the tuple shows the plain one. -/
def Agrees : Except Fault Inheritance → Except Fault PlainTuple → Prop
  | .ok x, .ok t => x.Shows t
  | .error f, .error g => f = g
  | _, _ => False

theorem shows_empty : empty.Shows PlainTuple.empty := by
  intro p v
  rw [part_empty, Mask.contains_empty]
  cases p <;> simp [PlainTuple.empty, PlainTuple.members]

/-- Changed one after the other, the listed values end up as if they were changed at once. -/
theorem contains_foldl_put {vs : List Value} (hx : x.IsValid c) (hvs : ∀ v ∈ vs, v < c.count)
    (p q : Part) (on : Bool) (v : Value) :
    ((vs.foldl (fun x u => x.put p on u) x).part q).contains v =
      if v ∈ vs ∧ p.carries on q = true then on else (x.part q).contains v := by
  induction vs generalizing x with
  | nil => simp
  | cons u vs ih =>
      obtain ⟨hu, hvs⟩ := List.forall_mem_cons.mp hvs
      rw [List.foldl_cons, ih (hx.put p on hu) hvs, contains_put hx.closed]
      by_cases hcarries : p.carries on q = true
      · by_cases hmem : v ∈ vs <;> by_cases huv : v = u <;> simp [hcarries, hmem, huv, eq_comm]
      · simp [hcarries]

theorem Shows.set (h : x.Shows t) (hx : x.IsValid c) (p : Part) (on : Bool) (vs : List Nat) :
    Agrees (x.set c p on vs) (t.set c p on vs) := by
  rw [Inheritance.set, PlainTuple.set]
  by_cases hvs : ∀ v ∈ vs, v < c.count
  · have hadmits : vs.all c.admits = true :=
      List.all_eq_true.mpr fun v hv => decide_eq_true (hvs v hv)
    rw [if_pos hadmits, if_pos hvs]
    intro q v
    rw [contains_foldl_put hx hvs, PlainTuple.mem_raise_lower]
    simp only [List.mem_toFinset]
    split
    next => rfl
    next => exact h q v
  · have hadmits : ¬ vs.all c.admits = true := fun hall =>
      hvs fun v hv => of_decide_eq_true (List.all_eq_true.mp hall v hv)
    rw [if_neg hadmits, if_neg hvs]
    rfl

theorem Shows.fill (h : x.Shows t) (p : Part) (source : Mask) :
    (x.fill c p source).Shows (t.fill c p source.members) := by
  intro q v
  have hinheritable := h .inheritable v
  have hambient := h .ambient v
  have hblocked := h .blocked v
  simp only [part, PlainTuple.members] at hinheritable hambient hblocked
  cases p <;> cases q <;>
    simp [Inheritance.fill, PlainTuple.fill, part, PlainTuple.members, Mask.mem_members,
      hinheritable, hambient, hblocked]

theorem agrees_parse (text : String) : Agrees (ofText c text) (PlainTuple.parse c text) := by
  rw [ofText, read?_eq_map_entries?, PlainTuple.parse]
  cases entries? c text.toList with
  | none => rfl
  | some es =>
      intro p v
      rw [Entry.contains_foldl_apply_empty, PlainTuple.mem_ofEntries]

/-- Exactly the positions of the parts in which some value differs are reported. -/
theorem contains_difference (x y : Inheritance) (n : Nat) :
    (x.difference y).contains n = true ↔
      ∃ p : Part, p.position = n ∧ ∃ v, (x.part p).contains v ≠ (y.part p).contains v := by
  simp only [← Mask.ne_iff, difference, Mask.contains_ofList, decide_eq_true_eq, List.mem_map,
    List.mem_filter, Part.mem_all, true_and]
  exact exists_congr fun p => and_comm

end Inheritance

end Capabilities
