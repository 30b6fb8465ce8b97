import Capabilities.Proofs.Inheritance.PackedTuple
import Capabilities.Proofs.Workspace.Tuples

/-!
# The tuples of a workspace in machine words

The words of a tuple stand for masks, and every operation on words commutes with
that. So a run of edits leads to the same tuples whether words or masks are kept,
and each edit fails with both or with none.
-/

namespace Capabilities

open Inheritance (Part)

namespace TupleOperations

/-- Operations that are the same after what is kept has been turned into something else. Tuples
are filled from supported values only. -/
structure Commutes {σ τ : Type} (c : Capacity) (O : TupleOperations σ) (P : TupleOperations τ)
    (view : σ → τ) : Prop where
  empty : view O.empty = P.empty
  parse : ∀ text, (O.parse text).map view = P.parse text
  set : ∀ x p on vs, (O.set x p on vs).map view = P.set (view x) p on vs
  fill : ∀ x p source, (∀ v, source.contains v = true → v < c.count) →
    view (O.fill x p source) = P.fill (view x) p source

variable {σ τ : Type} {c : Capacity} {O : TupleOperations σ} {P : TupleOperations τ}
  {view : σ → τ}

theorem Commutes.assigned (h : O.Commutes c P view) {sets : String → CapSet}
    (hsets : ∀ name, (sets name).fits c = true) (tuples : String → σ) (e : Edit) :
    (O.assigned sets tuples e).map (fun a => (a.1, a.2.map view)) =
      P.assigned sets (view ∘ tuples) e := by
  cases e with
  | newTuple name => exact congrArg (fun x => some (name, Except.ok x)) h.empty
  | parseTuple name text => exact congrArg (fun x => some (name, x)) (h.parse text)
  | copyTuple name source => rfl
  | assignTuple name part on values =>
      exact congrArg (fun x => some (name, x)) (h.set (tuples name) part on values)
  | fillTuple name part source flag =>
      exact congrArg (fun x => some (name, Except.ok x))
        (h.fill (tuples name) part _ fun v hv => CapSet.contains_of_fits (hsets source) hv)
  | _ => rfl

theorem Commutes.step (h : O.Commutes c P view) {sets : String → CapSet}
    (hsets : ∀ name, (sets name).fits c = true) (tuples : String → σ) (e : Edit) :
    view ∘ O.step sets tuples e = P.step sets (view ∘ tuples) e := by
  have hassigned := h.assigned hsets tuples e
  cases hown : O.assigned sets tuples e with
  | none =>
      rw [hown] at hassigned
      rw [step_of_none hown, step_of_none hassigned.symm]
  | some assigned =>
      obtain ⟨name, result⟩ := assigned
      rw [hown] at hassigned
      cases result with
      | error fault => rw [step_of_error hown, step_of_error hassigned.symm]
      | ok x => rw [step_of_ok hown, step_of_ok hassigned.symm, Function.comp_update]

theorem Commutes.run (h : O.Commutes c P view) {w : Workspace} (hsound : w.IsSound c)
    (edits : List Edit) (tuples : String → σ) :
    view ∘ O.run c w tuples edits = P.run c w (view ∘ tuples) edits := by
  -- The workspace stays sound, so tuples are always filled from supported values.
  induction edits generalizing w tuples with
  | nil => rfl
  | cons e edits ih =>
      rw [TupleOperations.run, TupleOperations.run, ih (hsound.edit e), h.step hsound.fits]

end TupleOperations

/-- Operations on tuples in words. A part is filled from the words of a mask. -/
def PackedTuple.operations (c : Capacity) : TupleOperations (PackedTuple c) where
  empty := empty c
  parse := ofText c
  set := set
  fill t p source := t.fill p fun i => BitVec.ofNat 32 (source.bits >>> (32 * i))

theorem PackedTuple.commutes (c : Capacity) :
    (operations c).Commutes c (Inheritance.operations c) toInheritance where
  empty := toInheritance_empty
  parse := map_ofText
  set := map_set
  fill t p source hsource := by
    apply toInheritance_fill
    · intro v
      have hmod : v % 32 < 32 := Nat.mod_lt v (by decide)
      rw [BitVec.getLsbD_ofNat, Nat.testBit_shiftRight, Nat.div_add_mod, decide_eq_true hmod,
        Bool.true_and, Mask.contains]
    · intro v hv
      exact Nat.lt_of_lt_of_le (hsource v hv) c.count_le

namespace Workspace

variable {c : Capacity} {w : Workspace}

theorem tuple_edit (e : Edit) :
    (w.edit c e).2.tuple = (Inheritance.operations c).step w.set w.tuple e := by
  cases hassigned : (Inheritance.operations c).assigned w.set w.tuple e with
  | none => rw [edit_of_not_assigned hassigned, TupleOperations.step_of_none hassigned]
  | some assigned =>
      obtain ⟨name, result⟩ := assigned
      obtain ⟨w', -, htuple, hedit⟩ := edit_of_assigned hassigned
      rw [hedit]
      cases result with
      | error fault => exact htuple.trans (TupleOperations.step_of_error hassigned).symm
      | ok x =>
          rw [TupleOperations.step_of_ok hassigned]
          funext other
          show (w'.putTuple name x).tuple other = _
          rw [tuple_putTuple, htuple, Function.update_apply]

theorem tuple_editAll (edits : List Edit) :
    (w.editAll c edits).tuple = (Inheritance.operations c).run c w w.tuple edits := by
  induction edits generalizing w with
  | nil => rfl
  | cons e edits ih =>
      show ((w.edit c e).2.editAll c edits).tuple = _
      rw [ih, tuple_edit]
      rfl

/-- An edit of a tuple comes out as it does with words. -/
theorem edit_of_assigned_words {tuples : String → PackedTuple c}
    (hsets : ∀ name, (w.set name).fits c = true)
    (htuples : ∀ name, w.tuple name = (tuples name).toInheritance) {e : Edit} {name : String}
    {result : Except Fault (PackedTuple c)}
    (h : (PackedTuple.operations c).assigned w.set tuples e = some (name, result)) :
    (w.edit c e).1 = result.map fun _ => () := by
  have hview : PackedTuple.toInheritance ∘ tuples = w.tuple :=
    funext fun name => (htuples name).symm
  have hassigned := (PackedTuple.commutes c).assigned hsets tuples e
  rw [h, hview] at hassigned
  obtain ⟨w', -, -, hedit⟩ := edit_of_assigned hassigned.symm
  rw [hedit]
  cases result <;> rfl

/-- Whatever edits are made in a workspace of supported sets that holds no tuples yet, its tuples
are what the words stand for that the same edits lead to. -/
theorem editAll_stands_for_words (hsets : ∀ name, (w.set name).fits c = true)
    (htuples : ∀ name, w.tuple name = Inheritance.empty) (edits : List Edit) (name : String) :
    (w.editAll c edits).tuple name =
      ((PackedTuple.operations c).run c w (fun _ => PackedTuple.empty c) edits
        name).toInheritance := by
  have hsound : w.IsSound c :=
    ⟨hsets, fun name => (htuples name).symm ▸ Inheritance.isValid_empty c⟩
  have hempty : PackedTuple.toInheritance ∘ (fun _ : String => PackedTuple.empty c) = w.tuple :=
    funext fun name => PackedTuple.toInheritance_empty.trans (htuples name).symm
  have hrun := (PackedTuple.commutes c).run hsound edits fun _ => PackedTuple.empty c
  rw [hempty, ← tuple_editAll] at hrun
  exact (congrFun hrun name).symm

end Workspace

end Capabilities
