import Capabilities.Errno
import Capabilities.Kernel.Call

/-!
# Scripted failures

A script makes chosen calls fail before the kernel looks at them. The first
entry that fits a call decides. Every failure has an error number of its own.
-/

namespace Capabilities

/-- An error number that a failure can have: any but the one that stands for success. -/
structure Refusal where
  errno : Errno
  errno_ne : errno ≠ .success
deriving DecidableEq

namespace Refusal

def notPermitted : Refusal := ⟨.notPermitted, by decide⟩
def inputOutput : Refusal := ⟨.inputOutput, by decide⟩
def invalidArgument : Refusal := ⟨.invalidArgument, by decide⟩

end Refusal

/-- A rule that makes calls of one kind fail. -/
structure Failure where
  kind : Call.Kind
  /-- Which attempt of a thread fails, counted from one; zero means every attempt. -/
  nth : Nat
  argument : Option Int
  thread : Option Nat
  refusal : Refusal
deriving DecidableEq

namespace Failure

/-- Whether the rule applies to the latest of a thread's attempts. -/
def fits (f : Failure) (kind : Call.Kind) (argument : Int) (thread : Nat)
    (attempts : List Call.Kind) : Bool :=
  f.kind == kind && (f.nth == 0 || f.nth == attempts.count kind) &&
    f.argument.all (· == argument) && f.thread.all (· == thread)

end Failure

/-- Rules in the order in which they are tried. -/
abbrev FailureScript := List Failure

namespace FailureScript

def errno? (script : FailureScript) (kind : Call.Kind) (argument : Int) (thread : Nat)
    (attempts : List Call.Kind) : Option Errno :=
  (script.find? fun f => f.fits kind argument thread attempts).map (·.refusal.errno)

@[simp] theorem errno?_nil (kind : Call.Kind) (argument : Int) (thread : Nat)
    (attempts : List Call.Kind) : errno? [] kind argument thread attempts = none := rfl

theorem ne_success_of_errno? {script : FailureScript} {kind : Call.Kind} {argument : Int}
    {thread : Nat} {attempts : List Call.Kind} {e : Errno}
    (h : script.errno? kind argument thread attempts = some e) : e ≠ .success := by
  obtain ⟨f, -, rfl⟩ := Option.map_eq_some_iff.mp h
  exact f.refusal.errno_ne

end FailureScript

end Capabilities
