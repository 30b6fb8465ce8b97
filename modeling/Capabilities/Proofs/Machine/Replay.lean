import Capabilities.Act
import Capabilities.Machine.Replay

/-!
# A replayed call is made once on every thread

However the task list is ordered, and however often it is read, every thread
that it keeps showing makes a replayed call once, the calling thread first. So
a replayed call comes to what the machine makes of a call on all its threads:
the process is aborted exactly if some error number differs from that of the
calling thread, and otherwise the call ends as it ended there.
-/

namespace Capabilities

namespace Machine

variable {s t : Machine}

/-- Whether two machines differ in their threads alone. -/
def SameFrame (s t : Machine) : Prop :=
  s.kernel = t.kernel ∧ s.files = t.files ∧ s.floor = t.floor ∧ s.log = t.log

theorem SameFrame.trans {u : Machine} (first : s.SameFrame t) (second : t.SameFrame u) :
    s.SameFrame u :=
  ⟨first.1.trans second.1, first.2.1.trans second.2.1, first.2.2.1.trans second.2.2.1,
    first.2.2.2.trans second.2.2.2⟩

theorem sameFrame_putThread (s : Machine) (u : Thread) (n : Nat) :
    (s.putThread u n).SameFrame s := by
  cases n <;> exact ⟨rfl, rfl, rfl, rfl⟩

theorem SameFrame.eq_of_thread? (h : s.SameFrame t) (hthreads : ∀ n, s.thread? n = t.thread? n) :
    s = t := by
  obtain ⟨kernel, main, others, files, floor, log⟩ := s
  obtain ⟨kernel', main', others', files', floor', log'⟩ := t
  obtain ⟨rfl, rfl, rfl, rfl⟩ := h
  have hlist : main :: others = main' :: others' := List.ext_getElem? hthreads
  cases hlist
  rfl

end Machine

/-- Every reading succeeds, names no thread twice, and shows every thread of a machine. -/
def TaskList.Shows (tasks : TaskList) (s : Machine) : Prop :=
  ∀ i, ∃ listed, tasks.read i = .ok listed ∧ listed.Nodup ∧
    ∀ n, n < s.threads.length → ∃ m ∈ listed, m.val = n

namespace Replay

variable {r : Replay} {n m : Nat}

/-- What becomes of a thread that makes the call. -/
def reply (r : Replay) (t : Thread) : Except Errno Nat × Thread :=
  r.machine.kernel.perform r.call t

/-- Whether the thread with a number ends the call with another error number than expected. -/
def diverges (r : Replay) (n : Nat) : Bool :=
  (r.machine.thread? n).any fun t => Errno.ofOutcome (r.reply t).1 != Errno.ofOutcome r.outcome

def isLive (r : Replay) (n : Nat) : Bool := (r.machine.thread? n).isSome

/-- All that changes when threads repeat a call: each of them makes it once, if it has not
ended, and every other one is left alone. -/
structure Signalled (r r' : Replay) (ns : List Nat) : Prop where
  call : r'.call = r.call
  outcome : r'.outcome = r.outcome
  diverged : r'.diverged = (r.diverged || ns.any r.diverges)
  frame : r'.machine.SameFrame r.machine
  thread? : ∀ m, r'.machine.thread? m =
    if m ∈ ns then (r.machine.thread? m).map fun t => (r.reply t).2 else r.machine.thread? m
  journal : r'.journal = r.journal ++ (ns.filter r.isLive).map fun n => (n, r.call)

theorem signalled_nil (r : Replay) : r.Signalled r [] :=
  ⟨rfl, rfl, by simp, ⟨rfl, rfl, rfl, rfl⟩, by simp, by simp⟩

theorem signalled_signal (r : Replay) (n : Nat) : r.Signalled (r.signal n) [n] := by
  unfold signal
  cases hn : r.machine.thread? n with
  | none =>
      have hdead : r.isLive n = false := by rw [isLive, hn]; rfl
      have hsame : r.diverges n = false := by rw [diverges, hn]; rfl
      refine ⟨rfl, rfl, by simp [hsame], ⟨rfl, rfl, rfl, rfl⟩, fun m => ?_, by simp [hdead]⟩
      by_cases h : m = n
      · subst h
        simp [hn]
      · simp [h]
  | some t =>
      have hlive : r.isLive n = true := by rw [isLive, hn]; rfl
      have hdiverges : r.diverges n =
          (Errno.ofOutcome (r.reply t).1 != Errno.ofOutcome r.outcome) := by
        rw [diverges, hn]
        rfl
      refine ⟨rfl, rfl, by simp [hdiverges, reply], Machine.sameFrame_putThread _ _ _,
        fun m => ?_, by simp [hlive]⟩
      rw [Machine.thread?_putThread]
      by_cases h : n = m
      · subst h
        simp [hn, reply]
      · simp [h, Ne.symm h]

/-- Signals to other threads come to the same before and after. -/
theorem Signalled.trans {r r' r'' : Replay} {ns ms : List Nat} (first : r.Signalled r' ns)
    (second : r'.Signalled r'' ms) (hdisjoint : ∀ n ∈ ns, n ∉ ms) :
    r.Signalled r'' (ns ++ ms) := by
  have hreply : r'.reply = r.reply := by
    funext t
    rw [reply, reply, first.frame.1, first.call]
  have hlive : r'.isLive = r.isLive := by
    funext m
    rw [isLive, isLive, first.thread? m]
    split <;> simp
  have hkept (m : Nat) (hm : m ∈ ms) : r'.machine.thread? m = r.machine.thread? m := by
    rw [first.thread? m, if_neg fun hn => hdisjoint m hn hm]
  have hdiverges (m : Nat) (hm : m ∈ ms) : r'.diverges m = r.diverges m := by
    rw [diverges, diverges, hkept m hm, hreply, first.outcome]
  have hany : ms.any r'.diverges = ms.any r.diverges := by
    rw [Bool.eq_iff_iff, List.any_eq_true, List.any_eq_true]
    exact exists_congr fun m => and_congr_right fun hm => by rw [hdiverges m hm]
  constructor
  · rw [second.call, first.call]
  · rw [second.outcome, first.outcome]
  · rw [second.diverged, first.diverged, hany, List.any_append, Bool.or_assoc]
  · exact second.frame.trans first.frame
  · intro m
    rw [second.thread? m, hreply]
    by_cases hm : m ∈ ms
    · simp [hm, hkept m hm]
    · simp [hm, first.thread? m]
  · rw [second.journal, first.journal, first.call, hlive, List.filter_append, List.map_append,
      List.append_assoc]

theorem signalled_signalAll (r : Replay) {ns : List Nat} (hns : ns.Nodup) :
    r.Signalled (r.signalAll ns) ns := by
  induction ns generalizing r with
  | nil => exact r.signalled_nil
  | cons n rest ih =>
      obtain ⟨hn, hrest⟩ := List.nodup_cons.mp hns
      exact (r.signalled_signal n).trans (ih (r.signal n) hrest) (by simpa using hn)

/-- A walk signals each number once, and none that was done before. -/
theorem exists_walk_eq {tasks : TaskList}
    (hreads : ∀ i, ∃ listed, tasks.read i = .ok listed ∧ listed.Nodup)
    (r : Replay) (done : List (Fin tasks.bound)) {listed : List (Fin tasks.bound)}
    (hlisted : listed.Nodup) (i : Nat) :
    ∃ ns : List (Fin tasks.bound), ns.Nodup ∧ (∀ n ∈ ns, n ∉ done) ∧
      (∀ n ∈ listed, n ∈ done ∨ n ∈ ns) ∧
      walk tasks r done listed i = (r.signalAll (ns.map Fin.val), true) := by
  fun_induction walk tasks r done listed i with
  | case1 r done listed i hnothing =>
      refine ⟨[], by simp, by simp, fun n hn => ?_, rfl⟩
      by_cases hdone : n ∈ done
      · exact .inl hdone
      · have hfresh := mem_undone.mpr ⟨hn, hdone⟩
        rw [hnothing] at hfresh
        cases hfresh
  | case2 r done listed i _ r' f hfailed =>
      obtain ⟨next, hread, -⟩ := hreads i
      rw [hfailed] at hread
      cases hread
  | case3 r done listed i _ r' next hread ih =>
      obtain ⟨next', hread', hnext⟩ := hreads i
      rw [hread] at hread'
      cases hread'
      obtain ⟨ns, hns, hnew, -, hwalk⟩ := ih hnext
      have hlater (n : Fin tasks.bound) (hn : n ∈ ns) : n ∉ done ∧ n ∉ undone done listed := by
        simpa using hnew n hn
      refine ⟨undone done listed ++ ns, ?_, ?_, fun n hn => ?_, ?_⟩
      · refine List.nodup_append.mpr ⟨hlisted.filter _, hns, ?_⟩
        rintro n hn m hm rfl
        exact (hlater n hm).2 hn
      · intro n hn
        rcases List.mem_append.mp hn with hn | hn
        · exact (mem_undone.mp hn).2
        · exact (hlater n hn).1
      · by_cases hdone : n ∈ done
        · exact .inl hdone
        · exact .inr (List.mem_append_left _ (mem_undone.mpr ⟨hn, hdone⟩))
      · rw [hwalk, List.map_append, signalAll, signalAll, List.foldl_append]
        rfl

end Replay

namespace Machine

variable {s : Machine}

/-- A replay is a series of signals, which reach every thread but the calling one, and each of
them once. -/
theorem replay_eq {tasks : TaskList} (hshows : tasks.Shows s) (call : Call) :
    ∃ ns : List Nat, ns.Nodup ∧ 0 ∉ ns ∧ (∀ n, 0 < n → n < s.threads.length → n ∈ ns) ∧
      s.replay tasks call = ((Replay.start s call).signalAll ns).report true := by
  have hreads (i : Nat) : ∃ listed, tasks.read i = .ok listed ∧ listed.Nodup := by
    obtain ⟨listed, hread, hnodup, -⟩ := hshows i
    exact ⟨listed, hread, hnodup⟩
  obtain ⟨listed, hread, hlisted, hall⟩ := hshows 0
  obtain ⟨zero, hzero, hval⟩ := hall 0 (by simp [threads])
  cases hself : listed.find? fun n => n.val == 0 with
  | none => simpa [hval] using List.find?_eq_none.mp hself zero hzero
  | some self =>
      have hselfVal : self.val = 0 := by simpa using List.find?_some hself
      obtain ⟨ns, hns, hnew, hcovers, hwalk⟩ :=
        Replay.exists_walk_eq hreads (Replay.start s call) [self] hlisted 1
      refine ⟨ns.map Fin.val, ?_, ?_, ?_, ?_⟩
      · exact List.Pairwise.map Fin.val (fun n m hne heq => hne (Fin.ext heq)) hns
      · rw [List.mem_map]
        rintro ⟨n, hn, hnval⟩
        have hsame : n = self := Fin.ext (hnval.trans hselfVal.symm)
        exact hnew n hn (by simp [hsame])
      · intro n hpos hlt
        obtain ⟨m, hm, rfl⟩ := hall n hlt
        rcases hcovers m hm with hdone | hvisited
        · rw [List.mem_singleton.mp hdone, hselfVal] at hpos
          exact absurd hpos (Nat.lt_irrefl 0)
        · exact List.mem_map_of_mem hvisited
      · rw [replay, hread]
        simp only [hself, hwalk]

theorem thread?_succ_start (s : Machine) (call : Call) (n : Nat) :
    (Replay.start s call).machine.thread? (n + 1) = s.others[n]? := rfl

theorem isLive_start (s : Machine) (call : Call) (n : Nat) :
    (Replay.start s call).isLive n = decide (n < s.threads.length) := by
  cases n with
  | zero => rfl
  | succ n =>
      rw [Replay.isLive, thread?_succ_start, Bool.eq_iff_iff]
      simp [threads]

/-- Whether a thread, making a call, ends with another error number than the calling one. -/
def Disagrees (s : Machine) (call : Call) (t : Thread) : Prop :=
  Errno.ofOutcome (s.kernel.perform call t).1 ≠ Errno.ofOutcome (s.kernel.perform call s.main).1

instance (s : Machine) (call : Call) (t : Thread) : Decidable (s.Disagrees call t) :=
  inferInstanceAs (Decidable (¬ _ = _))

theorem agrees_round_iff (s : Machine) (call : Call) :
    (s.round call).agrees = true ↔ ∀ t ∈ s.others, ¬ s.Disagrees call t := by
  rw [Round.agrees, round, List.all_map, List.all_eq_true]
  refine forall₂_congr fun t _ => ?_
  rw [Function.comp_apply, decide_eq_true_iff, Disagrees, Decidable.not_not]

theorem diverges_succ_start_iff {call : Call} {n : Nat} :
    (Replay.start s call).diverges (n + 1) = true ↔
      ∃ t, s.others[n]? = some t ∧ s.Disagrees call t := by
  rw [Replay.diverges, thread?_succ_start, Option.any_eq_true]
  exact exists_congr fun t => and_congr_right fun _ => bne_iff_ne

/-- The threads that are signalled disagree exactly if the threads of the machine do. -/
theorem diverged_signalAll_start {ns : List Nat} (hns : ns.Nodup) (hzero : 0 ∉ ns)
    (hall : ∀ n, 0 < n → n < s.threads.length → n ∈ ns) (call : Call) :
    ((Replay.start s call).signalAll ns).diverged = true ↔ ∃ t ∈ s.others, s.Disagrees call t := by
  rw [((Replay.start s call).signalled_signalAll hns).diverged, Bool.or_eq_true, List.any_eq_true]
  constructor
  · rintro (hstart | ⟨n, hn, hdiverges⟩)
    · cases hstart
    · cases n with
      | zero => exact absurd hn hzero
      | succ n =>
          obtain ⟨t, ht, hdisagrees⟩ := diverges_succ_start_iff.mp hdiverges
          exact ⟨t, List.mem_of_getElem? ht, hdisagrees⟩
  · rintro ⟨t, ht, hdisagrees⟩
    obtain ⟨n, hn⟩ := List.getElem?_of_mem ht
    obtain ⟨hlt, -⟩ := List.getElem?_eq_some_iff.mp hn
    have hmem := hall (n + 1) (Nat.succ_pos n) (Nat.succ_lt_succ hlt)
    exact .inr ⟨n + 1, hmem, diverges_succ_start_iff.mpr ⟨t, hn, hdisagrees⟩⟩

/-- Signals change every thread as the call on all threads does. -/
theorem machine_signalAll_start {ns : List Nat} (hns : ns.Nodup) (hzero : 0 ∉ ns)
    (hall : ∀ n, 0 < n → n < s.threads.length → n ∈ ns) (call : Call) :
    ((Replay.start s call).signalAll ns).machine =
      { s with
        main := (s.round call).first.2
        others := (s.round call).others.map (·.2) } := by
  have hsignalled := (Replay.start s call).signalled_signalAll hns
  refine SameFrame.eq_of_thread? (hsignalled.frame.trans (s.sameFrame_putThread _ 0)) ?_
  intro n
  rw [hsignalled.thread?]
  cases n with
  | zero =>
      rw [if_neg hzero]
      rfl
  | succ n =>
      rw [thread?_succ_start]
      simp only [thread?, threads, List.getElem?_cons_succ, round, List.map_map,
        List.getElem?_map]
      split
      · rfl
      · next hmissing =>
          have hended : s.others.length ≤ n := by
            simpa [threads] using fun hlive => hmissing (hall (n + 1) (Nat.succ_pos n) hlive)
          rw [List.getElem?_eq_none hended, Option.map_none]

/-- A call on every thread ends in one of two ways. -/
theorem start_broadcast (s : Machine) (call : Call) :
    (Act.broadcast call).start s =
      if (s.round call).agrees then
        some ((s.kernel.perform call s.main).1.mapError Fault.os,
          { s with
            main := (s.round call).first.2
            others := (s.round call).others.map (·.2)
            log := s.log ++ [⟨.call call, Errno.ofOutcome (s.kernel.perform call s.main).1⟩] })
      else none := by
  rw [Act.broadcast, Act.start_request, broadcast]
  split <;> rfl

theorem start_broadcast_eq_none_iff {call : Call} :
    (Act.broadcast call).start s = none ↔ ∃ t ∈ s.others, s.Disagrees call t := by
  have hagrees := s.agrees_round_iff call
  rw [start_broadcast]
  split
  · next h => simpa using hagrees.mp h
  · next h => simpa using mt hagrees.mpr h

/-- Signals to all other threads come to what a call on every thread comes to. -/
theorem result_report_signalAll_start {ns : List Nat} (hns : ns.Nodup) (hzero : 0 ∉ ns)
    (hall : ∀ n, 0 < n → n < s.threads.length → n ∈ ns) (call : Call) :
    (((Replay.start s call).signalAll ns).report true).result = (Act.broadcast call).start s := by
  have hsignalled := (Replay.start s call).signalled_signalAll hns
  have hdiverged := diverged_signalAll_start hns hzero hall call
  rw [← start_broadcast_eq_none_iff] at hdiverged
  cases h : ((Replay.start s call).signalAll ns).diverged with
  | true =>
      rw [hdiverged.mp h, Replay.report, h]
      rfl
  | false =>
      rw [Replay.report, h, hsignalled.call, hsignalled.outcome,
        machine_signalAll_start hns hzero hall]
      rw [h, start_broadcast] at hdiverged
      rw [start_broadcast]
      split at hdiverged
      · next hagrees => rw [if_pos hagrees]; rfl
      · simp at hdiverged

/-- While every reading of the task list shows all threads, a replayed call is made first by the
calling thread and then once by every other thread, with the same operands and in some order,
whatever it came to on the threads before. The process is aborted exactly if the call ends with
another error number on some thread than on the calling one; otherwise it ends as it did there. -/
theorem replay_made_once {tasks : TaskList} (hshows : tasks.Shows s) (call : Call) :
    ∃ order : List Nat, order.Nodup ∧ (∀ n, n ∈ order ↔ 0 < n ∧ n < s.threads.length) ∧
      (s.replay tasks call).journal = (0, call) :: order.map (fun n => (n, call)) ∧
      (s.replay tasks call).result = (Act.broadcast call).start s ∧
      ((Act.broadcast call).start s = none ↔ ∃ t ∈ s.others, s.Disagrees call t) ∧
      ∀ outcome s', (Act.broadcast call).start s = some (outcome, s') →
        outcome = (s.kernel.perform call s.main).1.mapError Fault.os ∧
        s'.threads = s.threads.map fun t => (s.kernel.perform call t).2 := by
  obtain ⟨ns, hns, hzero, hall, hreplay⟩ := replay_eq hshows call
  refine ⟨ns.filter fun n => n < s.threads.length, hns.filter _, fun n => ?_, ?_, ?_,
    start_broadcast_eq_none_iff, fun outcome s' hstart => ?_⟩
  · rw [List.mem_filter, decide_eq_true_iff]
    constructor
    · rintro ⟨hn, hlive⟩
      exact ⟨Nat.pos_of_ne_zero fun h => hzero (h ▸ hn), hlive⟩
    · rintro ⟨hpos, hlive⟩
      exact ⟨hall n hpos hlive, hlive⟩
  · have hlive : (Replay.start s call).isLive = fun n => decide (n < s.threads.length) :=
      funext (isLive_start s call)
    rw [hreplay, Replay.report, ((Replay.start s call).signalled_signalAll hns).journal, hlive]
    rfl
  · rw [hreplay, result_report_signalAll_start hns hzero hall]
  · rw [start_broadcast] at hstart
    split at hstart
    · cases hstart
      exact ⟨rfl, by simp [threads, round]⟩
    · cases hstart

/-- Three threads with different credentials. Only the second one may change the switch for
keeping what is permitted; the third one is kept from it by the script. -/
def dividedMachine : Machine :=
  let credentials (secbits : Secbits) : Credentials :=
    { effective := ∅, permitted := ∅, inheritable := ∅, ambient := ∅, bounding := ∅, secbits,
      uid := 1000, gid := 100, groups := [] }
  { kernel :=
      { version := Abi.third.code, valueCount := 41, boundingSupported := true,
        ambientSupported := true, processes := []
        script := [⟨.setKeepCaps, 1, some 1, some 2, .notPermitted⟩] }
    main := ⟨0, credentials (Mask.single Secbits.keepCapsLocked), []⟩
    others := [⟨1, credentials ∅, []⟩, ⟨2, credentials (Mask.single Secbits.keepCaps), []⟩]
    files := Table.empty, floor := CapSet.External.defaultFloor, log := [] }

/-- Readings in different orders, the later ones with a thread that has ended. -/
def shuffledTasks : TaskList where
  bound := 5
  read i := .ok (if i = 0 then [2, 0, 1] else [4, 1, 0, 2])

theorem replay_made_once_dividedMachine :
    shuffledTasks.Shows dividedMachine ∧
      (dividedMachine.replay shuffledTasks (.setKeepCaps 1)).result = none ∧
      ∃ order : List Nat, order.Nodup ∧ (∀ n, n ∈ order ↔ 0 < n ∧ n < 3) ∧
        (dividedMachine.replay shuffledTasks (.setKeepCaps 1)).journal =
          (0, .setKeepCaps 1) :: order.map fun n => (n, .setKeepCaps 1) := by
  have hshows : shuffledTasks.Shows dividedMachine := by
    have hfirst : ([2, 0, 1] : List (Fin 5)).Nodup ∧
        ∀ n, n < 3 → ∃ m ∈ ([2, 0, 1] : List (Fin 5)), m.val = n := by decide
    have hlater : ([4, 1, 0, 2] : List (Fin 5)).Nodup ∧
        ∀ n, n < 3 → ∃ m ∈ ([4, 1, 0, 2] : List (Fin 5)), m.val = n := by decide
    intro i
    refine ⟨_, rfl, ?_⟩
    split
    · exact hfirst
    · exact hlater
  obtain ⟨order, hnodup, hmem, hjournal, hresult, habort, -⟩ :=
    replay_made_once hshows (.setKeepCaps 1)
  refine ⟨hshows, ?_, order, hnodup, hmem, hjournal⟩
  rw [hresult, habort]
  exact ⟨_, List.mem_cons_self, by decide⟩

end Machine

end Capabilities
