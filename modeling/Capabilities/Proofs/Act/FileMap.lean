import Capabilities.Action
import Capabilities.Proofs.FileAttribute.RoundTrip
import Mathlib.Logic.Function.Basic

/-!
# Files as a map

What a process does with the capabilities of files comes to reading and updating a
plain map, as long as no failure is scripted. The map keeps sets, not bytes, so
neither the revisions of attributes nor the floor that was in force when one was
written play a part in it.
-/

namespace Capabilities

open FileAttribute (IsCarried)

/-- An operation on the capabilities of files, or on the floor that their bytes depend on. -/
inductive FileOp
  | get (target : Target)
  | put (target : Target) (caps : Option CapSet)
  | setFloor (n : Nat)

namespace FileOp

def action : FileOp → Action
  | get target => .readFileCaps target
  | put target caps => .setFileCaps target caps
  | setFloor n => .setFloor n

/-- A set to be attached raises supported values only. -/
def Fits (c : Capacity) : FileOp → Prop
  | put _ (some s) => s.fits c = true
  | _ => True

/-- What an operation with an answer leaves at a target, if it changes it. -/
def leaves (target : Target) : FileOp → Except Fault Reply → Option (Option CapSet)
  | put t caps, .ok _ => if t = target then some caps else none
  | _, _ => none

end FileOp

/-- What the last successful change in a run left at a target, if there was one. -/
def lastPut (target : Target) : List (FileOp × Except Fault Reply) → Option (Option CapSet)
  | [] => none
  | (op, answer) :: rest => (lastPut target rest).or (op.leaves target answer)

/-- What reading the capabilities of each target gives, as far as there are such targets. -/
abbrev FileMap := Target → Option (Except Fault (Option CapSet))

namespace FileMap

def get (m : FileMap) (target : Target) : Except Fault (Option CapSet) :=
  (m target).getD (.error (.os target.missing))

/-- Whether the capabilities of a target can be changed. The name is looked at first, then
the set, then the file, and then the rights of the process. -/
def verdict (m : FileMap) (privileged : Bool) (target : Target) (caps : Option CapSet) :
    Except Fault Unit :=
  if !target.isValid then .error (.os .invalidArgument)
  else if !caps.all fun s => decide (IsCarried s) then .error .badValue
  else if (m target).isNone then .error (.os target.missing)
  else if !privileged then .error (.os .notPermitted)
  else .ok ()

def put (m : FileMap) (privileged : Bool) (target : Target) (caps : Option CapSet) : FileMap :=
  if (m.verdict privileged target caps).isOk then Function.update m target (some (.ok caps)) else m

def perform (m : FileMap) (privileged : Bool) : FileOp → Except Fault Reply × FileMap
  | .get target => ((m.get target).map (Reply.ofOption .caps), m)
  | .put target caps =>
      ((m.verdict privileged target caps).map fun _ => .done, m.put privileged target caps)
  | .setFloor _ => (.ok .done, m)

/-- The answers to a run of operations, and the map after it. -/
def performAll (privileged : Bool) : FileMap → List FileOp → List (Except Fault Reply) × FileMap
  | m, [] => ([], m)
  | m, op :: rest =>
      let first := m.perform privileged op
      let later := performAll privileged first.2 rest
      (first.1 :: later.1, later.2)

variable {m : FileMap} {privileged : Bool}

theorem verdict_eq_ok_iff {target : Target} {caps : Option CapSet} :
    m.verdict privileged target caps = .ok () ↔
      target.isValid = true ∧ (∀ x, caps = some x → IsCarried x) ∧ m target ≠ none ∧
        privileged = true := by
  have hcarried : (caps.all fun x => decide (IsCarried x)) = true ↔
      ∀ x, caps = some x → IsCarried x := by
    simp [Option.all_eq_true]
  rw [verdict, ← hcarried, ← Option.isSome_iff_ne_none]
  cases target.isValid <;> cases caps.all fun x => decide (IsCarried x) <;>
    cases m target <;> cases privileged <;> simp

theorem verdict_of_not_isValid {target : Target} {caps : Option CapSet}
    (h : target.isValid = false) :
    m.verdict privileged target caps = .error (.os .invalidArgument) := by
  rw [verdict, h]
  rfl

/-- A set that no file can carry is refused before the file is looked for. -/
theorem verdict_of_not_isCarried {target : Target} {x : CapSet} (h : ¬ IsCarried x) :
    m.verdict privileged target (some x) =
      .error (if target.isValid then .badValue else .os .invalidArgument) := by
  have hall : ((some x).all fun x => decide (IsCarried x)) = false := decide_eq_false h
  rw [verdict, hall]
  cases target.isValid <;> rfl

/-- One operation changes a target only as its answer tells. -/
theorem perform_apply (m : FileMap) (privileged : Bool) (op : FileOp) (target : Target) :
    (m.perform privileged op).2 target =
      ((op.leaves target (m.perform privileged op).1).map fun caps => some (.ok caps)).getD
        (m target) := by
  cases op with
  | get t => rfl
  | setFloor n => rfl
  | put t caps =>
      simp only [perform, put]
      cases m.verdict privileged t caps with
      | error f => rfl
      | ok u =>
          by_cases ht : t = target
          · subst ht
            simp [Except.isOk, Except.toBool, Except.map, FileOp.leaves]
          · simp [Except.isOk, Except.toBool, Except.map, FileOp.leaves, ht,
              Function.update_of_ne (Ne.symm ht)]

theorem length_performAll (ops : List FileOp) :
    (m.performAll privileged ops).1.length = ops.length := by
  induction ops generalizing m with
  | nil => rfl
  | cons op rest ih => exact congrArg Nat.succ ih

/-- After a run a target is as the last successful change left it. -/
theorem performAll_apply (ops : List FileOp) (target : Target) :
    (m.performAll privileged ops).2 target =
      ((lastPut target (ops.zip (m.performAll privileged ops).1)).map
        fun caps => some (.ok caps)).getD (m target) := by
  induction ops generalizing m with
  | nil => rfl
  | cons op rest ih =>
      have hfirst := perform_apply m privileged op target
      simp only [performAll, List.zip_cons_cons, lastPut, ih, hfirst]
      cases lastPut target (rest.zip ((m.perform privileged op).2.performAll privileged rest).1) with
      | none => rfl
      | some caps => rfl

/-- What reading answers after a run: what the last successful change left, and as before
the run if there was none. -/
theorem get_performAll (ops : List FileOp) (target : Target) :
    ((m.performAll privileged ops).2.get target).map (Reply.ofOption .caps) =
      match lastPut target (ops.zip (m.performAll privileged ops).1) with
      | some caps => .ok (Reply.ofOption .caps caps)
      | none => (m.get target).map (Reply.ofOption .caps) := by
  rw [get, performAll_apply]
  cases lastPut target (ops.zip (m.performAll privileged ops).1) <;> rfl

end FileMap

end Capabilities
