import Capabilities.Fault
import Capabilities.Machine

/-!
# Replaying a call

How a call comes to be made on every thread of a process. The calling thread
makes it first. It then has the call repeated by every other thread on the task
list of the process, and reads the list again until a reading shows no thread
that has not made the call. A thread that repeats the call only notes whether
its error number differs from that of the calling thread; what becomes of the
process is decided at the end.
-/

namespace Capabilities

/-- The task list of a process, as successive readings show it. A reading names threads by
number, in any order; the calling thread has the number zero. A number that belongs to no
thread is that of a thread that has ended since. -/
structure TaskList where
  /-- All numbers of threads are below this. -/
  bound : Nat
  read : Nat → Except Fault (List (Fin bound))

namespace Machine

/-- The thread with a number. -/
def thread? (s : Machine) (n : Nat) : Option Thread := s.threads[n]?

/-- Replace the thread with a number. -/
def putThread (s : Machine) (t : Thread) : Nat → Machine
  | 0 => { s with main := t }
  | n + 1 => { s with others := s.others.set n t }

theorem thread?_putThread (s : Machine) (t : Thread) (n m : Nat) :
    (s.putThread t n).thread? m = if n = m then (s.thread? m).map fun _ => t else s.thread? m := by
  cases n with
  | zero => cases m <;> simp [putThread, thread?, threads]
  | succ n =>
      cases m with
      | zero => simp [putThread, thread?, threads]
      | succ m =>
          simp only [putThread, thread?, threads, List.getElem?_cons_succ, Nat.add_right_cancel_iff]
          rw [List.getElem?_set']
          rfl

end Machine

/-- A call on its way through the threads of a process. -/
structure Replay where
  call : Call
  /-- How the call ended on the calling thread. -/
  outcome : Except Errno Nat
  /-- Whether it ended with another error number on some other thread. -/
  diverged : Bool
  machine : Machine
  /-- The calls made so far, each with the number of the thread that made it. -/
  journal : List (Nat × Call)

namespace Replay

/-- The calling thread makes the call. -/
def start (s : Machine) (call : Call) : Replay :=
  let reply := s.kernel.perform call s.main
  { call
    outcome := reply.1
    diverged := false
    machine := s.putThread reply.2 0
    journal := [(0, call)] }

/-- Have the thread with a number repeat the call, unless it has ended. -/
def signal (r : Replay) (n : Nat) : Replay :=
  match r.machine.thread? n with
  | none => r
  | some t =>
      let reply := r.machine.kernel.perform r.call t
      { r with
        diverged := r.diverged || Errno.ofOutcome reply.1 != Errno.ofOutcome r.outcome
        machine := r.machine.putThread reply.2 n
        journal := r.journal ++ [(n, r.call)] }

/-- Have threads repeat the call, one after the other. -/
def signalAll (r : Replay) (ns : List Nat) : Replay := ns.foldl signal r

/-- The numbers of a list that are not done yet. -/
def undone {bound : Nat} (done listed : List (Fin bound)) : List (Fin bound) :=
  listed.filter fun n => n ∉ done

theorem mem_undone {bound : Nat} {done listed : List (Fin bound)} {n : Fin bound} :
    n ∈ undone done listed ↔ n ∈ listed ∧ n ∉ done := by
  simp [undone]

/-- Of finitely many numbers, fewer are left after each reading that shows a new one. -/
theorem length_undone_lt {bound : Nat} {done listed : List (Fin bound)}
    (h : undone done listed ≠ []) :
    (undone (done ++ undone done listed) (List.finRange bound)).length <
      (undone done (List.finRange bound)).length := by
  obtain ⟨n, hn⟩ := List.exists_mem_of_ne_nil _ h
  have hsplit : undone (done ++ undone done listed) (List.finRange bound) =
      (undone done (List.finRange bound)).filter fun m => m ∉ undone done listed := by
    simp [undone, List.filter_filter, Bool.and_comm]
  rw [hsplit, List.length_filter_lt_length_iff_exists]
  have hfresh := mem_undone.mp hn
  exact ⟨n, mem_undone.mpr ⟨List.mem_finRange n, hfresh.2⟩, by simp [hn]⟩

/-- Have every thread repeat the call that a reading shows and that has not made it, until a
reading shows none. The walk is incomplete if a reading fails. -/
def walk (tasks : TaskList) (r : Replay) (done listed : List (Fin tasks.bound))
    (readings : Nat) : Replay × Bool :=
  if undone done listed = [] then (r, true)
  else
    let r := r.signalAll ((undone done listed).map Fin.val)
    match tasks.read readings with
    | .error _ => (r, false)
    | .ok next => walk tasks r (done ++ undone done listed) next (readings + 1)
termination_by (undone done (List.finRange tasks.bound)).length
decreasing_by exact length_undone_lt (by assumption)

end Replay

/-- What comes of a call that is replayed. There is no result if the process is aborted. -/
structure Report where
  journal : List (Nat × Call)
  result : Option (Except Fault Nat × Machine)

/-- The process is aborted if the call was not replayed everywhere or did not end alike. -/
def Replay.report (r : Replay) (complete : Bool) : Report where
  journal := r.journal
  result :=
    if complete && !r.diverged then
      let event : Event := ⟨.call r.call, Errno.ofOutcome r.outcome⟩
      some (r.outcome.mapError Fault.os, { r.machine with log := r.machine.log ++ [event] })
    else none

/-- Make a call on every thread that the task list shows. Without a first reading that shows
the calling thread the call is not made at all. -/
def Machine.replay (s : Machine) (tasks : TaskList) (call : Call) : Report :=
  match tasks.read 0 with
  | .error f => ⟨[], some (.error f, s)⟩
  | .ok listed =>
      match listed.find? fun n => n.val == 0 with
      | none => ⟨[], some (.error (.os .noSuchProcess), s)⟩
      | some self =>
          let walked := Replay.walk tasks (Replay.start s call) [self] listed 1
          walked.1.report walked.2

end Capabilities
