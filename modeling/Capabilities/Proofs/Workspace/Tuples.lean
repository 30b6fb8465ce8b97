import Capabilities.Proofs.Inheritance.PlainTuple
import Capabilities.Proofs.Workspace.Contents
import Mathlib.Logic.Function.Basic

/-!
# The tuples of a workspace are plain tuples

Edits are made one after the other, whether they succeed or not, and edits of
sets may come between those of tuples. An edit of a tuple does to the masks what
its plain counterpart does to finite sets, because the tuples of a sound
workspace are valid. So a whole run does, and every edit of a tuple succeeds or
fails in the same way.
-/

namespace Capabilities

open Inheritance (Part)

/-- Operations on tuples, however these are kept. -/
structure TupleOperations (τ : Type) where
  empty : τ
  parse : String → Except Fault τ
  set : τ → Part → Bool → List Value → Except Fault τ
  fill : τ → Part → Mask → τ

def Inheritance.operations (c : Capacity) : TupleOperations Inheritance :=
  ⟨empty, ofText c, set c, fill c⟩

def PlainTuple.operations (c : Capacity) : TupleOperations PlainTuple :=
  ⟨empty, parse c, set c, fun t p source => t.fill c p source.members⟩

namespace TupleOperations

variable {τ : Type} (O : TupleOperations τ)

/-- The name of the tuple that an edit is about, if it is about one, and what becomes of it. -/
def assigned (sets : String → CapSet) (tuples : String → τ) :
    Edit → Option (String × Except Fault τ)
  | .newTuple name => some (name, .ok O.empty)
  | .parseTuple name text => some (name, O.parse text)
  | .copyTuple name source => some (name, .ok (tuples source))
  | .assignTuple name part on values => some (name, O.set (tuples name) part on values)
  | .fillTuple name part source flag =>
      some (name, .ok (O.fill (tuples name) part ((sets source).flag flag)))
  | _ => none

/-- The tuples after an edit; one that fails leaves all of them as they were. -/
def step (sets : String → CapSet) (tuples : String → τ) (e : Edit) : String → τ :=
  match O.assigned sets tuples e with
  | some (name, .ok x) => Function.update tuples name x
  | _ => tuples

/-- The tuples after a run of edits that starts in a workspace. -/
def run (c : Capacity) (w : Workspace) (tuples : String → τ) : List Edit → String → τ
  | [] => tuples
  | e :: edits => run c (w.edit c e).2 (O.step w.set tuples e) edits

variable {O} {sets : String → CapSet} {tuples : String → τ} {e : Edit} {name : String}

theorem step_of_ok {x : τ} (h : O.assigned sets tuples e = some (name, .ok x)) :
    O.step sets tuples e = Function.update tuples name x := by
  rw [step, h]

theorem step_of_error {fault : Fault} (h : O.assigned sets tuples e = some (name, .error fault)) :
    O.step sets tuples e = tuples := by
  rw [step, h]

theorem step_of_none (h : O.assigned sets tuples e = none) : O.step sets tuples e = tuples := by
  rw [step, h]

end TupleOperations

namespace Workspace

variable {c : Capacity} {w : Workspace} {e : Edit} {name : String}
  {result : Except Fault Inheritance}

@[simp] theorem tuple_storeSet (w : Workspace) (name : String) (result : Except Fault CapSet) :
    (w.storeSet name result).2.tuple = w.tuple := by
  cases result <;> rfl

/-- An edit of a tuple stores it, and touches other names at most. -/
theorem edit_of_assigned
    (h : (Inheritance.operations c).assigned w.set w.tuple e = some (name, result)) :
    ∃ w' : Workspace, w'.set = w.set ∧ w'.tuple = w.tuple ∧
      w.edit c e = w'.storeTuple name result := by
  have hset (n : String) : (w.touchSet n).set = w.set := funext (set_touchSet w n)
  have htuple (n : String) : (w.touchTuple n).tuple = w.tuple := funext (tuple_touchTuple w n)
  cases e <;> cases h
  case newTuple => exact ⟨w, rfl, rfl, rfl⟩
  case parseTuple => exact ⟨w, rfl, rfl, rfl⟩
  case copyTuple source => exact ⟨w.touchTuple source, rfl, htuple source, rfl⟩
  case assignTuple => exact ⟨w.touchTuple name, rfl, htuple name, rfl⟩
  case fillTuple part source flag => exact ⟨w.touchSet source, hset source, rfl, rfl⟩

theorem edit_of_not_assigned
    (h : (Inheritance.operations c).assigned w.set w.tuple e = none) :
    (w.edit c e).2.tuple = w.tuple := by
  cases e <;> first
    | exact tuple_storeSet _ _ _
    | cases h

end Workspace

namespace Inheritance

variable {c : Capacity} {tuples : String → Inheritance} {plain : String → PlainTuple}

theorem agrees_assigned (sets : String → CapSet) (hvalid : ∀ name, (tuples name).IsValid c)
    (hshows : ∀ name, (tuples name).Shows (plain name)) (e : Edit) :
    Option.Rel (fun x t => x.1 = t.1 ∧ Agrees x.2 t.2)
      ((operations c).assigned sets tuples e)
      ((PlainTuple.operations c).assigned sets plain e) := by
  cases e with
  | newTuple name => exact .some ⟨rfl, shows_empty⟩
  | parseTuple name text => exact .some ⟨rfl, agrees_parse text⟩
  | copyTuple name source => exact .some ⟨rfl, hshows source⟩
  | assignTuple name part on values =>
      exact .some ⟨rfl, (hshows name).set (hvalid name) part on values⟩
  | fillTuple name part source flag => exact .some ⟨rfl, (hshows name).fill part _⟩
  | _ => exact .none

end Inheritance

namespace Workspace

variable {c : Capacity} {w : Workspace} {plain : String → PlainTuple}

/-- An edit of a tuple comes out as its plain counterpart, and makes of the tuple what that makes of
the plain one. -/
theorem edit_shows (hsound : w.IsSound c) (hshows : ∀ name, (w.tuple name).Shows (plain name))
    {e : Edit} {name : String} {result : Except Fault PlainTuple}
    (hassigned : (PlainTuple.operations c).assigned w.set plain e = some (name, result)) :
    (w.edit c e).1 = result.map (fun _ => ()) ∧
      (∀ t, result = .ok t → ((w.edit c e).2.tuple name).Shows t) ∧
      (∀ other, other ≠ name → (w.edit c e).2.tuple other = w.tuple other) ∧
      ∀ fault, result = .error fault →
        (w.edit c e).2.tuple = w.tuple ∧ (w.edit c e).2.set = w.set := by
  have hrelated := Inheritance.agrees_assigned w.set hsound.isValid hshows e
  rw [hassigned] at hrelated
  obtain ⟨x, hmasks, hagrees⟩ : ∃ x, (Inheritance.operations c).assigned w.set w.tuple e =
      some (name, x) ∧ Inheritance.Agrees x result := by
    cases hmasks : (Inheritance.operations c).assigned w.set w.tuple e with
    | none =>
        rw [hmasks] at hrelated
        cases hrelated
    | some assigned =>
        obtain ⟨target, x⟩ := assigned
        rw [hmasks] at hrelated
        cases hrelated with
        | some h =>
            obtain rfl : target = name := h.1
            exact ⟨x, rfl, h.2⟩
  obtain ⟨w', hset, htuple, hedit⟩ := edit_of_assigned hmasks
  rw [hedit]
  cases x <;> cases result
  case ok.ok x t =>
    refine ⟨rfl, ?_, fun other hother => ?_, nofun⟩
    · rintro _ ⟨⟩
      show ((w'.putTuple name x).tuple name).Shows t
      rw [tuple_putTuple, if_pos rfl]
      exact hagrees
    · show (w'.putTuple name x).tuple other = w.tuple other
      rw [tuple_putTuple, if_neg hother, htuple]
  case error.error f g =>
    obtain rfl : f = g := hagrees
    exact ⟨rfl, nofun, fun other _ => congrFun htuple other, fun _ _ => ⟨htuple, hset⟩⟩
  case ok.error => exact hagrees.elim
  case error.ok => exact hagrees.elim

theorem shows_edit (hsound : w.IsSound c) (hshows : ∀ name, (w.tuple name).Shows (plain name))
    (e : Edit) (other : String) :
    ((w.edit c e).2.tuple other).Shows ((PlainTuple.operations c).step w.set plain e other) := by
  cases hassigned : (PlainTuple.operations c).assigned w.set plain e with
  | none =>
      have hrelated := Inheritance.agrees_assigned w.set hsound.isValid hshows e
      rw [hassigned] at hrelated
      rw [TupleOperations.step_of_none hassigned]
      cases hmasks : (Inheritance.operations c).assigned w.set w.tuple e with
      | none =>
          rw [edit_of_not_assigned hmasks]
          exact hshows other
      | some assigned =>
          rw [hmasks] at hrelated
          cases hrelated
  | some assigned =>
      obtain ⟨name, result⟩ := assigned
      obtain ⟨-, hshown, hothers, hfails⟩ := edit_shows hsound hshows hassigned
      cases result with
      | error fault =>
          rw [TupleOperations.step_of_error hassigned, (hfails fault rfl).1]
          exact hshows other
      | ok t =>
          rw [TupleOperations.step_of_ok hassigned]
          by_cases hother : other = name
          · subst hother
            simpa using hshown t rfl
          · simpa [hother, hothers other hother] using hshows other

theorem shows_run (hsound : w.IsSound c) (hshows : ∀ name, (w.tuple name).Shows (plain name))
    (edits : List Edit) (name : String) :
    ((w.editAll c edits).tuple name).Shows ((PlainTuple.operations c).run c w plain edits name) := by
  -- The masks and the finite sets have moved on together when the remaining edits are made.
  induction edits generalizing w plain with
  | nil => exact hshows name
  | cons e edits ih => exact ih (hsound.edit e) (shows_edit hsound hshows e)

/-- Everything that can be seen of the tuples is as the plain tuples say. -/
structure MirrorsTuples (c : Capacity) (w : Workspace) (plain : String → PlainTuple) : Prop where
  contains_iff : ∀ name p v, ((w.tuple name).part p).contains v = true ↔ v ∈ (plain name).members p
  ambient_subset : ∀ name, (plain name).ambient ⊆ (plain name).inheritable
  lt_count : ∀ name p v, v ∈ (plain name).members p → v < c.count
  get : ∀ name p v, (w.tuple name).get c p v =
    if v < c.count then .ok (decide (v ∈ (plain name).members p)) else .error .badValue
  differs : ∀ name other n, ((w.tuple name).difference (w.tuple other)).contains n = true ↔
    ∃ p : Part, p.position = n ∧ ∃ v, ¬ (v ∈ (plain name).members p ↔ v ∈ (plain other).members p)

theorem mirrorsTuples (hsound : w.IsSound c) (hshows : ∀ name, (w.tuple name).Shows (plain name)) :
    w.MirrorsTuples c plain where
  contains_iff name := hshows name
  ambient_subset name v hv :=
    (hshows name .inheritable v).mp ((hsound.isValid name).closed v ((hshows name .ambient v).mpr hv))
  lt_count name p v hv := (hsound.isValid name).lt_count p v ((hshows name p v).mpr hv)
  get name p v := by
    have hcontains : ((w.tuple name).part p).contains v = decide (v ∈ (plain name).members p) :=
      Bool.eq_iff_iff.mpr ((hshows name p v).trans decide_eq_true_iff.symm)
    rw [Inheritance.get, hcontains]
    simp [Capacity.admits]
  differs name other n := by
    have hdiffers (p : Part) (v : Nat) :
        ((w.tuple name).part p).contains v ≠ ((w.tuple other).part p).contains v ↔
          ¬ (v ∈ (plain name).members p ↔ v ∈ (plain other).members p) := by
      rw [ne_eq, Bool.eq_iff_iff, hshows name p v, hshows other p v]
    simp only [Inheritance.contains_difference, hdiffers]

/-- Whatever edits are made in a workspace of supported sets that holds no tuples yet, its tuples
are plain tuples of supported numbers to everyone who looks at them, and what is ambient is
inheritable. Every further edit of a tuple succeeds or fails as it does with plain tuples, and it
makes of the tuple what it makes of the plain one; it leaves all other tuples alone, and it leaves
everything alone if it fails. -/
theorem editAll_mirrors_plain_tuples (hsets : ∀ name, (w.set name).fits c = true)
    (htuples : ∀ name, w.tuple name = Inheritance.empty) (edits : List Edit) :
    let plain := (PlainTuple.operations c).run c w (fun _ => PlainTuple.empty) edits
    let w' := w.editAll c edits
    w'.MirrorsTuples c plain ∧
    ∀ e name result, (PlainTuple.operations c).assigned w'.set plain e = some (name, result) →
      (w'.edit c e).1 = result.map (fun _ => ()) ∧
      (∀ t, result = .ok t → ((w'.edit c e).2.tuple name).Shows t) ∧
      (∀ other, other ≠ name → (w'.edit c e).2.tuple other = w'.tuple other) ∧
      ∀ fault, result = .error fault →
        (w'.edit c e).2.tuple = w'.tuple ∧ (w'.edit c e).2.set = w'.set := by
  intro plain w'
  have hempty : w.IsSound c :=
    ⟨hsets, fun name => (htuples name).symm ▸ Inheritance.isValid_empty c⟩
  have hshows : ∀ name, (w'.tuple name).Shows (plain name) :=
    shows_run hempty (fun name => (htuples name).symm ▸ Inheritance.shows_empty) edits
  have hsound : w'.IsSound c := hempty.editAll edits
  exact ⟨mirrorsTuples hsound hshows, fun _ _ _ => edit_shows hsound hshows⟩

/-- Edits of tuples that are filled from a set with values at the ends of words; one of them
fails. -/
def refillingEdits : List Edit :=
  [.assignSet "granted" .permitted true [0, 31, 32, 42], .parseTuple "handed" "!cap_kill,^cap_chown",
    .fillTuple "handed" .ambient "granted" .permitted,
    .assignTuple "handed" .inheritable false [0, 43],
    .assignTuple "handed" .inheritable false [31], .copyTuple "kept" "handed",
    .fillTuple "handed" .blocked "granted" .permitted]

theorem editAll_mirrors_plain_tuples_refilled :
    let plain := (PlainTuple.operations CapSet.beyondNames).run CapSet.beyondNames empty
      (fun _ => PlainTuple.empty) refillingEdits
    (∀ v, v ∈ (plain "kept").ambient ↔ v ∈ [0, 32, 42]) ∧
      ∀ v, v ∈ (plain "handed").blocked ↔ v < 43 ∧ v ∉ [0, 31, 32, 42] := by
  intro plain
  obtain ⟨hmirrors, -⟩ := editAll_mirrors_plain_tuples (c := CapSet.beyondNames) (w := empty)
    (fun _ => CapSet.fits_empty _) (fun _ => rfl) refillingEdits
  have hkept : ((empty.editAll CapSet.beyondNames refillingEdits).tuple "kept").ambient =
      Mask.ofList [0, 32, 42] := by decide +kernel
  have hhanded : ((empty.editAll CapSet.beyondNames refillingEdits).tuple "handed").blocked =
      Mask.below 43 \ Mask.ofList [0, 31, 32, 42] := by decide +kernel
  constructor
  · intro v
    refine (hmirrors.contains_iff "kept" .ambient v).symm.trans ?_
    rw [Inheritance.part, hkept]
    simp
  · intro v
    refine (hmirrors.contains_iff "handed" .blocked v).symm.trans ?_
    rw [Inheritance.part, hhanded]
    simp

end Workspace

end Capabilities
