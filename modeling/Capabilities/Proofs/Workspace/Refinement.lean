import Capabilities.Proofs.CapSet.Refinement
import Capabilities.Proofs.Workspace.Contents

/-!
# The sets of a workspace are plain sets

Changes are made to named sets, one after the other, whether they succeed or
not. One change keeps up what a lawful representation holds, so a whole run does:
the sets of a workspace, and the same sets in machine words, show the plain sets
that the run leads to, and every change succeeds or fails in the same way.
-/

namespace Capabilities

/-- A change of one of the sets of a workspace. -/
inductive Change
  | new
  | parse (text : String)
  | decodeExternal (data : Bytes)
  | decodeAttribute (data : Bytes)
  | copy (source : String)
  | set (flag : Flag) (on : Bool) (values : List Value)
  | fill (target source : Flag)
  | clearFlag (flag : Flag)
  | clear
  | setOwner (owner : Option UserId)
deriving DecidableEq

/-- The edit that makes a change to the set with a name. -/
def Change.edit (name : String) : Change → Edit
  | new => .newSet name
  | parse text => .parseSet name text
  | decodeExternal data => .decodeExternal name data
  | decodeAttribute data => .decodeAttribute name data
  | copy source => .copySet name source
  | set flag on values => .assignSet name flag on values
  | fill target source => .fillSet name target source
  | clearFlag flag => .clearFlag name flag
  | clear => .clearSet name
  | setOwner owner => .setOwner name owner

namespace SetOperations

variable {σ : Type} (R : SetOperations σ) (c : Capacity)

/-- What becomes of the set with a name. -/
def change (contents : String → σ) (name : String) : Change → Except Fault σ
  | .new => .ok R.empty
  | .parse text => R.parse c text
  | .decodeExternal data => R.decodeExternal data
  | .decodeAttribute data => R.decodeAttribute data
  | .copy source => .ok (contents source)
  | .set flag on values => R.set (contents name) flag on values
  | .fill target source => .ok (R.fill (contents name) target source)
  | .clearFlag flag => .ok (R.clearFlag (contents name) flag)
  | .clear => .ok (R.clear (contents name))
  | .setOwner owner => .ok (R.withOwner (contents name) owner)

/-- Change the set with a name; a change that fails leaves everything as it was. -/
def step (contents : String → σ) (st : String × Change) : Except Fault Unit × (String → σ) :=
  match R.change c contents st.1 st.2 with
  | .ok s => (.ok (), Function.update contents st.1 s)
  | .error f => (.error f, contents)

/-- Make changes in order, whether they succeed or not. -/
def runFrom (contents : String → σ) (steps : List (String × Change)) : String → σ :=
  steps.foldl (fun contents st => (R.step c contents st).2) contents

/-- Make changes to sets that are empty at first. -/
def run (steps : List (String × Change)) : String → σ := R.runFrom c (fun _ => R.empty) steps

variable {R} {c}

theorem step_other {contents : String → σ} {name other : String} (h : other ≠ name)
    {ch : Change} : (R.step c contents (name, ch)).2 other = contents other := by
  rw [step]
  split
  next => exact Function.update_of_ne h _ _
  next => rfl

theorem step_error {contents : String → σ} {st : String × Change} {fault : Fault}
    (h : (R.step c contents st).1 = .error fault) : (R.step c contents st).2 = contents := by
  rw [step] at h ⊢
  split
  next heq =>
    rw [heq] at h
    cases h
  next => rfl

end SetOperations

namespace Representation

variable {σ : Type} {R : Representation σ} {c : Capacity}

theorem IsLawful.agrees_change (hR : R.IsLawful c) {contents : String → σ}
    {plain : String → PlainSet} (h : ∀ name, R.Holds c (contents name) (plain name))
    (name : String) (ch : Change) :
    R.Agrees c (R.change c contents name ch)
      ((PlainSet.operations c).change c plain name ch) := by
  cases ch with
  | new => exact hR.holds_empty
  | parse text => exact hR.agrees_parse text
  | decodeExternal data => exact hR.decodeExternal data
  | decodeAttribute data => exact hR.decodeAttribute data
  | copy source => exact h source
  | set flag on values => exact hR.agrees_set (h name) flag on values
  | fill target source => exact hR.holds_fill (h name) target source
  | clearFlag flag => exact hR.holds_clearFlag (h name) flag
  | clear => exact hR.holds_clear (h name)
  | setOwner owner => exact hR.holds_withOwner (h name) owner

theorem IsLawful.step (hR : R.IsLawful c) {contents : String → σ} {plain : String → PlainSet}
    (h : ∀ name, R.Holds c (contents name) (plain name)) (st : String × Change) :
    (R.step c contents st).1 = ((PlainSet.operations c).step c plain st).1 ∧
      ∀ name, R.Holds c ((R.step c contents st).2 name)
        (((PlainSet.operations c).step c plain st).2 name) := by
  have hagrees := hR.agrees_change h st.1 st.2
  rw [SetOperations.step, SetOperations.step]
  revert hagrees
  cases R.change c contents st.1 st.2 <;>
    cases (PlainSet.operations c).change c plain st.1 st.2
  case ok.ok s p =>
    intro (hholds : R.Holds c s p)
    refine ⟨rfl, fun name => ?_⟩
    by_cases hname : name = st.1
    · subst hname
      simpa using hholds
    · simpa [hname] using h name
  case error.error f g =>
    intro (hfault : f = g)
    exact ⟨congrArg Except.error hfault, h⟩
  case ok.error => exact False.elim
  case error.ok => exact False.elim

theorem IsLawful.holds_runFrom (hR : R.IsLawful c) {contents : String → σ}
    {plain : String → PlainSet} (h : ∀ name, R.Holds c (contents name) (plain name))
    (steps : List (String × Change)) (name : String) :
    R.Holds c (R.runFrom c contents steps name)
      ((PlainSet.operations c).runFrom c plain steps name) := by
  -- Both sides have moved on together when the remaining changes are made.
  induction steps generalizing contents plain with
  | nil => exact h name
  | cons st steps ih => exact ih (hR.step h st).2

theorem IsLawful.holds_run (hR : R.IsLawful c) (steps : List (String × Change)) (name : String) :
    R.Holds c (R.run c steps name) ((PlainSet.operations c).run c steps name) :=
  hR.holds_runFrom (fun _ => hR.holds_empty) steps name

/-- Everything that can be seen of the kept sets is as the plain sets say. -/
structure Mirrors (R : Representation σ) (c : Capacity) (contents : String → σ)
    (plain : String → PlainSet) : Prop where
  raises_iff : ∀ name f v, R.raises (contents name) f v = true ↔ v ∈ (plain name).members f
  lt_count : ∀ name f v, R.raises (contents name) f v = true → v < c.count
  owner : ∀ name, R.owner (contents name) = (plain name).owner
  get : ∀ name f v, R.get (contents name) f v =
    if v < c.count then .ok (decide (v ∈ (plain name).members f)) else .error .badValue
  differs : ∀ name other (f : Flag),
    (R.difference (contents name) (contents other)).contains f.position = true ↔
      ∃ v, ¬ (v ∈ (plain name).members f ↔ v ∈ (plain other).members f)
  agrees : ∀ name other, (R.difference (contents name) (contents other)).isEmpty = true ↔
    ∀ f, (plain name).members f = (plain other).members f
  difference_comm : ∀ name other,
    R.difference (contents name) (contents other) = R.difference (contents other) (contents name)
  isEmpty : ∀ name, R.isEmpty (contents name) = true ↔ ∀ f, (plain name).members f = ∅

theorem IsLawful.mirrors (hR : R.IsLawful c) {contents : String → σ} {plain : String → PlainSet}
    (h : ∀ name, R.Holds c (contents name) (plain name)) : R.Mirrors c contents plain := by
  have hdifference (name other : String) (n : Nat) :
      (R.difference (contents name) (contents other)).contains n = true ↔
        ∃ f : Flag, f.position = n ∧
          ∃ v, ¬ (v ∈ (plain name).members f ↔ v ∈ (plain other).members f) := by
    simp only [hR.difference, ne_eq, Bool.eq_iff_iff, (h _).raises_iff]
  constructor
  · exact fun name => (h name).raises_iff
  · exact fun name f v hv => (h name).lt_count f v (((h name).raises_iff f v).mp hv)
  · exact fun name => (h name).owner_eq
  · intro name f v
    rw [hR.get, Bool.eq_iff_iff.mpr (((h name).raises_iff f v).trans decide_eq_true_iff.symm)]
  · intro name other f
    rw [hdifference]
    constructor
    · -- A position belongs to one flag only.
      rintro ⟨g, hposition, hdiffers⟩
      exact Flag.position_injective hposition ▸ hdiffers
    · exact fun hdiffers => ⟨f, rfl, hdiffers⟩
  · intro name other
    rw [← Bool.not_eq_false, Mask.isEmpty_eq_false_iff]
    simp only [hdifference, Finset.ext_iff]
    constructor
    · intro hnone f v
      by_contra hdiffers
      exact hnone ⟨f.position, f, rfl, v, hdiffers⟩
    · rintro hall ⟨n, f, -, v, hdiffers⟩
      exact hdiffers (hall f v)
  · intro name other
    apply Mask.ext
    intro n
    rw [Bool.eq_iff_iff, hdifference, hdifference]
    simp only [iff_comm]
  · intro name
    rw [hR.isEmpty]
    simp only [Finset.eq_empty_iff_forall_notMem, ← (h name).raises_iff, Bool.not_eq_true]

end Representation

namespace Workspace

variable {c : Capacity}

/-- Storing what a change makes of a set is a step with masks. -/
theorem storeSet_change {w w' : Workspace} (hw : w'.set = w.set) (name : String) (ch : Change)
    {result : Except Fault CapSet}
    (hresult : result = (CapSet.representation c).change c w.set name ch) :
    (w'.storeSet name result).1 =
        ((CapSet.representation c).step c w.set (name, ch)).1 ∧
      (w'.storeSet name result).2.set =
        ((CapSet.representation c).step c w.set (name, ch)).2 := by
  rw [SetOperations.step, ← hresult]
  cases result with
  | error f => exact ⟨rfl, hw⟩
  | ok s =>
      refine ⟨rfl, funext fun other => ?_⟩
      show (w'.putSet name s).set other = Function.update w.set name s other
      rw [set_putSet, hw, Function.update_apply]

theorem edit_change (w : Workspace) (name : String) (ch : Change) :
    (w.edit c (ch.edit name)).1 = ((CapSet.representation c).step c w.set (name, ch)).1 ∧
      (w.edit c (ch.edit name)).2.set =
        ((CapSet.representation c).step c w.set (name, ch)).2 := by
  have htouch (n : String) : (w.touchSet n).set = w.set := funext (set_touchSet w n)
  cases ch with
  | new => exact storeSet_change rfl name .new rfl
  | parse text => exact storeSet_change rfl name (.parse text) (CapSet.ofText_eq_parse text)
  | decodeExternal data => exact storeSet_change rfl name (.decodeExternal data) rfl
  | decodeAttribute data => exact storeSet_change rfl name (.decodeAttribute data) rfl
  | copy source => exact storeSet_change (htouch source) name (.copy source) rfl
  | set flag on values => exact storeSet_change (htouch name) name (.set flag on values) rfl
  | fill target source => exact storeSet_change rfl name (.fill target source) rfl
  | clearFlag flag => exact storeSet_change rfl name (.clearFlag flag) rfl
  | clear => exact storeSet_change rfl name .clear rfl
  | setOwner owner => exact storeSet_change rfl name (.setOwner owner) rfl

/-- The edits that make changes. -/
def edits (steps : List (String × Change)) : List Edit := steps.map fun st => st.2.edit st.1

theorem set_editAll (w : Workspace) (steps : List (String × Change)) :
    (w.editAll c (edits steps)).set = (CapSet.representation c).runFrom c w.set steps := by
  induction steps generalizing w with
  | nil => rfl
  | cons st steps ih =>
      have hstep := (edit_change (c := c) w st.1 st.2).2
      exact (ih (w.edit c (st.2.edit st.1)).2).trans
        (congrArg ((CapSet.representation c).runFrom c · steps) hstep)

/-- Whatever changes are made to the sets of a workspace, they are plain finite sets of
supported numbers to everyone who looks at them, and so are the sets that the same changes make
in machine words. Every further change succeeds or fails as it does with plain sets, it leaves
all other sets alone, and it leaves everything alone if it fails. -/
theorem editAll_mirrors_plain (c : Capacity) (steps : List (String × Change)) :
    let plain := (PlainSet.operations c).run c steps
    let packed := (PackedSet.representation c).run c steps
    let w := empty.editAll c (edits steps)
    (CapSet.representation c).Mirrors c w.set plain ∧
    (PackedSet.representation c).Mirrors c packed plain ∧
    ∀ name ch,
      (w.edit c (ch.edit name)).1 = ((PlainSet.operations c).step c plain (name, ch)).1 ∧
      ((PackedSet.representation c).step c packed (name, ch)).1 =
        ((PlainSet.operations c).step c plain (name, ch)).1 ∧
      (∀ other, other ≠ name → (w.edit c (ch.edit name)).2.set other = w.set other) ∧
      ∀ fault, (w.edit c (ch.edit name)).1 = .error fault →
        (w.edit c (ch.edit name)).2.set = w.set := by
  intro plain packed w
  have hw : w.set = (CapSet.representation c).run c steps := set_editAll empty steps
  have hmasks : ∀ name, (CapSet.representation c).Holds c (w.set name) (plain name) := by
    rw [hw]
    exact (CapSet.isLawful c).holds_run steps
  have hwords := (PackedSet.isLawful c).holds_run steps
  refine ⟨(CapSet.isLawful c).mirrors hmasks, (PackedSet.isLawful c).mirrors hwords, ?_⟩
  intro name ch
  obtain ⟨hresult, hcontents⟩ := edit_change (c := c) w name ch
  refine ⟨hresult.trans ((CapSet.isLawful c).step hmasks (name, ch)).1,
    ((PackedSet.isLawful c).step hwords (name, ch)).1, ?_, ?_⟩
  · intro other hother
    rw [hcontents, SetOperations.step_other hother]
  · intro fault hfault
    rw [hresult] at hfault
    rw [hcontents, SetOperations.step_error hfault]

/-- Values at the ends of words, one beyond the last, and a set that is copied before it is
changed. -/
def boundarySteps : List (String × Change) :=
  [("first", .set .effective true [31, 32, 42, 31]), ("second", .copy "first"),
    ("second", .set .effective false [31, 43]), ("second", .set .effective false [32]),
    ("first", .decodeExternal [0x90, 0xc2, 0x01, 0x51, 6, 0, 0, 0, 0, 0, 0, 0, 0, 0, 0, 0, 0,
      0, 0, 0, 8, 0, 0]), ("first", .fill .permitted .effective)]

example :
    ["first", "second"].map
        ((PackedSet.representation CapSet.beyondNames).run CapSet.beyondNames boundarySteps) =
      [⟨#v[⟨0x80000000#32, 0x80000000#32, 0#32⟩, ⟨0x401#32, 0x401#32, 0#32⟩], none⟩,
        ⟨#v[⟨0x80000000#32, 0#32, 0#32⟩, ⟨0x400#32, 0#32, 0#32⟩], none⟩] := by
  decide +kernel

end Workspace

end Capabilities
