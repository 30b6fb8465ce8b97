import Capabilities.Kernel

/-!
# What a script makes of an attempt

A rule of a script may concern a single thread and a single one of its attempts. A
call that no rule concerns is decided by the kernel, and so is one that no rule
happens to fit; a refused call leaves the credentials as they were. Threads with the
same credentials that end a call with the same error number have the same
credentials afterwards, since every failure has an error number of its own.
-/

namespace Capabilities

namespace Failure

/-- Whether the rule fits some attempt of a thread to make a call. -/
def concerns (f : Failure) (kind : Call.Kind) (argument : Int) (thread : Nat) : Bool :=
  f.kind == kind && f.argument.all (· == argument) && f.thread.all (· == thread)

theorem fits_eq (f : Failure) (kind : Call.Kind) (argument : Int) (thread : Nat)
    (attempts : List Call.Kind) : f.fits kind argument thread attempts =
      (f.concerns kind argument thread && (f.nth == 0 || f.nth == attempts.count kind)) := by
  rw [fits, concerns]
  ac_rfl

end Failure

namespace FailureScript

variable {script : FailureScript} {kind : Call.Kind} {argument : Int} {thread : Nat}

/-- Whether every rule concerns all threads and all of their attempts. -/
def isImpartial (script : FailureScript) : Bool :=
  script.all fun f => f.nth == 0 && f.thread.isNone

theorem errno?_eq_of_isImpartial {script : FailureScript} (h : script.isImpartial = true)
    (kind : Call.Kind) (argument : Int) (i j : Nat) (first second : List Call.Kind) :
    script.errno? kind argument i first = script.errno? kind argument j second := by
  have hfits : ∀ f ∈ script,
      f.fits kind argument i first = f.fits kind argument j second := by
    intro f hf
    have himpartial := List.all_eq_true.mp h f hf
    simp only [Bool.and_eq_true, beq_iff_eq, Option.isNone_iff_eq_none] at himpartial
    obtain ⟨hnth, hthread⟩ := himpartial
    simp [Failure.fits, hnth, hthread]
  rw [errno?, errno?, ← List.head?_filter, ← List.head?_filter, List.filter_congr hfits]

/-- Whether no rule makes calls of a kind fail. -/
def spares (script : FailureScript) (kind : Call.Kind) : Bool :=
  script.all fun f => f.kind != kind

theorem errno?_of_spares {script : FailureScript} {kind : Call.Kind}
    (h : script.spares kind = true) (argument : Int) (thread : Nat) (attempts : List Call.Kind) :
    script.errno? kind argument thread attempts = none := by
  have hfits : ∀ f ∈ script, ¬ f.fits kind argument thread attempts = true := by
    intro f hf hfits
    have hkind := List.all_eq_true.mp h f hf
    simp only [Failure.fits, Bool.and_eq_true] at hfits
    simp [bne, hfits.1.1.1] at hkind
  rw [errno?, List.find?_eq_none.mpr hfits]
  rfl

/-- Whether some attempt of a thread to make a call can be made to fail. -/
def concerns (script : FailureScript) (kind : Call.Kind) (argument : Int) (thread : Nat) : Bool :=
  script.any fun f => f.concerns kind argument thread

/-- Whether every attempt of a thread to make a call is made to fail. -/
def denies (script : FailureScript) (kind : Call.Kind) (argument : Int) (thread : Nat) : Bool :=
  script.any fun f => f.concerns kind argument thread && f.nth == 0

theorem concerns_of_errno? {attempts : List Call.Kind} {e : Errno}
    (h : script.errno? kind argument thread attempts = some e) :
    script.concerns kind argument thread = true := by
  obtain ⟨f, hf, -⟩ := Option.map_eq_some_iff.mp h
  have hfits := List.find?_some hf
  rw [Failure.fits_eq, Bool.and_eq_true] at hfits
  exact List.any_eq_true.mpr ⟨f, List.mem_of_find?_eq_some hf, hfits.1⟩

theorem not_denies_of_errno? {attempts : List Call.Kind}
    (h : script.errno? kind argument thread attempts = none) :
    script.denies kind argument thread = false := by
  rw [errno?, Option.map_eq_none_iff, List.find?_eq_none] at h
  rw [denies, List.any_eq_false]
  intro f hf hdenied
  rw [Bool.and_eq_true] at hdenied
  apply h f hf
  rw [Failure.fits_eq, hdenied.1, hdenied.2]
  rfl

/-- Of rules that treat all attempts alike, every one that concerns a call denies it. -/
theorem concerns_eq_denies (h : script.isImpartial = true) :
    script.concerns kind argument thread = script.denies kind argument thread := by
  rw [Bool.eq_iff_iff, concerns, denies, List.any_eq_true, List.any_eq_true]
  refine exists_congr fun f => and_congr_right fun hf => ?_
  have hnth := (Bool.and_eq_true_iff.mp (List.all_eq_true.mp h f hf)).1
  rw [hnth, Bool.and_true]

end FailureScript

namespace Kernel

variable {k : Kernel}

/-- A call of a known kind, as the script or else the kernel's rule decides it. -/
theorem perform_eq (k : Kernel) {call : Call} {kind : Call.Kind} (hkind : call.kind? = some kind)
    (t : Thread) : k.perform call t =
      match k.script.errno? kind call.argument t.index (kind :: t.attempts),
        k.respond t.credentials call with
      | some e, _ => (.error e, { t with attempts := kind :: t.attempts })
      | none, .error e => (.error e, { t with attempts := kind :: t.attempts })
      | none, .ok (n, credentials) =>
          (.ok n, { t with attempts := kind :: t.attempts, credentials }) := by
  simp only [perform, hkind, attempt]
  cases k.script.errno? kind call.argument t.index (kind :: t.attempts) with
  | some e => rfl
  | none => cases k.respond t.credentials call <;> rfl

theorem index_perform (k : Kernel) (call : Call) (t : Thread) :
    (k.perform call t).2.index = t.index := by
  cases hkind : call.kind? with
  | none => rw [perform, hkind]
  | some kind =>
      rw [k.perform_eq hkind]
      split <;> rfl

/-- Whether the script concerns no call of the kind of a given one. -/
def spares (k : Kernel) (call : Call) : Bool := call.kind?.all k.script.spares

/-- A call is either granted by the rule of the kernel, or refused without any effect; and where
the script does not concern it, it is the kernel that refuses it. -/
theorem perform_cases (k : Kernel) (call : Call) (t : Thread) :
    (∃ n cr', k.respond t.credentials call = .ok (n, cr') ∧ (k.perform call t).1 = .ok n ∧
      (k.perform call t).2.credentials = cr') ∨
    ∃ e, (k.spares call = true → k.respond t.credentials call = .error e) ∧
      (k.perform call t).1 = .error e ∧ (k.perform call t).2.credentials = t.credentials := by
  cases hkind : call.kind? with
  | none =>
      cases call with
      | unknown => exact .inr ⟨_, fun _ => rfl, rfl, rfl⟩
      | _ => cases hkind
  | some kind =>
      rw [k.perform_eq hkind]
      cases hscript : k.script.errno? kind call.argument t.index (kind :: t.attempts) with
      | some e =>
          refine .inr ⟨e, fun hspared => ?_, rfl, rfl⟩
          rw [spares, hkind] at hspared
          rw [FailureScript.errno?_of_spares hspared] at hscript
          cases hscript
      | none =>
          cases hanswer : k.respond t.credentials call with
          | error e => exact .inr ⟨e, fun _ => rfl, rfl, rfl⟩
          | ok answer => exact .inl ⟨answer.1, answer.2, rfl, rfl, rfl⟩

/-- A refused call, scripted or not, leaves the credentials of a thread as they were; any
other call makes them what the kernel answers. -/
theorem credentials_perform (k : Kernel) (call : Call) (t : Thread) :
    (k.perform call t).2.credentials = t.credentials ∨
      ∃ n, k.respond t.credentials call = .ok (n, (k.perform call t).2.credentials) := by
  obtain ⟨n, cr', hrespond, -, hleft⟩ | ⟨e, -, -, hleft⟩ := k.perform_cases call t
  · exact .inr ⟨n, hleft ▸ hrespond⟩
  · exact .inl hleft

/-- Threads with the same credentials end a call in the same way. -/
theorem perform_eq_of_isImpartial (h : k.script.isImpartial = true) (call : Call)
    {t u : Thread} (hsame : t.credentials = u.credentials) :
    (k.perform call t).1 = (k.perform call u).1 ∧
      (k.perform call t).2.credentials = (k.perform call u).2.credentials := by
  cases hkind : call.kind? with
  | none =>
      rw [perform, perform, hkind]
      exact ⟨rfl, hsame⟩
  | some kind =>
      rw [k.perform_eq hkind, k.perform_eq hkind, hsame,
        FailureScript.errno?_eq_of_isImpartial h kind call.argument t.index u.index
          (kind :: t.attempts) (kind :: u.attempts)]
      split <;> exact ⟨rfl, rfl⟩

/-- The kernel refuses a call for the lack of a permission or for a bad operand. -/
theorem ne_success_of_respond {cr : Credentials} {call : Call} {e : Errno}
    (h : k.respond cr call = .error e) : e ≠ .success := by
  have hreason : e = .notPermitted ∨ e = .invalidArgument := by
    cases call <;> simp only [respond] at h <;> repeat' split at h
    all_goals cases h
    all_goals first
      | exact .inl rfl
      | exact .inr rfl
  rcases hreason with rfl | rfl <;> decide

theorem ne_success_of_perform {call : Call} {t : Thread} {e : Errno}
    (he : (k.perform call t).1 = .error e) : e ≠ .success := by
  cases hkind : call.kind? with
  | none =>
      rw [perform, hkind] at he
      cases he
      decide
  | some kind =>
      rw [k.perform_eq hkind] at he
      split at he
      next hscript =>
        cases he
        exact FailureScript.ne_success_of_errno? hscript
      next hanswer =>
        cases he
        exact ne_success_of_respond hanswer
      next => cases he

/-- Threads with the same credentials that end a call with the same error number go on with the
same credentials. -/
theorem credentials_perform_eq {call : Call} {t u : Thread}
    (hsame : t.credentials = u.credentials)
    (hagree : Errno.ofOutcome (k.perform call t).1 = Errno.ofOutcome (k.perform call u).1) :
    (k.perform call t).2.credentials = (k.perform call u).2.credentials := by
  obtain ⟨n, cr, ht, houtcome, hleft⟩ | ⟨e, -, houtcome, hleft⟩ := k.perform_cases call t <;>
    obtain ⟨m, cr', hu, houtcome', hleft'⟩ | ⟨e', -, houtcome', hleft'⟩ := k.perform_cases call u <;>
    rw [houtcome, houtcome'] at hagree
  · rw [hsame, hu] at ht
    cases ht
    rw [hleft, hleft']
  · exact absurd hagree.symm (ne_success_of_perform houtcome')
  · exact absurd hagree (ne_success_of_perform houtcome)
  · rw [hleft, hleft', hsame]

end Kernel

end Capabilities
