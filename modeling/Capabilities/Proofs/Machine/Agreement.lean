import Capabilities.Proofs.Act.Reachability

/-!
# All threads agree

A call that does not abort the process has ended on all threads with the same error
number, so it was granted on all of them or on none, and a new thread takes over the
credentials of the calling one. So the threads of a process that starts with a
single one have the same credentials for good. An impartial script decides a call by
its kind and its argument alone; under such a script no call ever aborts the process.
-/

namespace Capabilities

namespace Machine

/-- All threads have the given credentials. -/
def Shares (s : Machine) (cr : Credentials) : Prop :=
  ∀ t ∈ s.threads, t.credentials = cr

/-- The numbers of the threads. -/
def indices (s : Machine) : List Nat := s.threads.map Thread.index

variable {s t : Machine} {cr : Credentials}

theorem shares_iff :
    s.Shares cr ↔ s.credentials = cr ∧ ∀ t ∈ s.others, t.credentials = cr := by
  simp [Shares, threads, credentials]

theorem Shares.self (h : s.Shares cr) : s.Shares s.credentials := by
  obtain ⟨rfl, -⟩ := shares_iff.mp h
  exact h

theorem shares_of_others_eq_nil (h : s.others = []) : s.Shares s.credentials := by
  simp [shares_iff, h]

theorem Shares.changeAttribute (h : s.Shares cr) (kind : Call.Kind) (request : Request)
    (rule : Except Errno Files) : (s.changeAttribute kind request rule).2.Shares cr := by
  obtain ⟨hmain, hothers⟩ := shares_iff.mp h
  simp only [Machine.changeAttribute]
  split <;> exact shares_iff.mpr ⟨hmain, hothers⟩

/-- A new thread takes over what all the others have. -/
theorem Shares.spawn (h : s.Shares s.credentials) : s.spawn.Shares s.spawn.credentials := by
  obtain ⟨-, hothers⟩ := shares_iff.mp h
  refine shares_iff.mpr ⟨rfl, ?_⟩
  intro u hu
  rcases List.mem_append.mp hu with hold | hnew
  · exact hothers u hold
  · rw [List.mem_singleton.mp hnew]
    rfl

/-- What a call made on every thread comes to. -/
structure Broadcasts (s : Machine) (call : Call) (outcome : Except Errno Nat) (t : Machine) :
    Prop where
  answered : outcome = (s.kernel.perform call s.main).1
  agrees : ∀ u ∈ s.others, Errno.ofOutcome (s.kernel.perform call u).1 = Errno.ofOutcome outcome
  kernel : t.kernel = s.kernel
  threads : t.threads = s.threads.map fun u => (s.kernel.perform call u).2
  log : t.log = s.log ++ [⟨.call call, Errno.ofOutcome outcome⟩]

theorem broadcasts_of_broadcast {call : Call} {outcome : Except Errno Nat}
    (h : s.broadcast call = some (outcome, t)) : s.Broadcasts call outcome t := by
  rw [Machine.broadcast] at h
  split at h
  next hagrees =>
    cases h
    refine ⟨rfl, fun u hu => ?_, rfl, by simp [threads, round], rfl⟩
    simp only [round, Round.agrees, List.all_map, List.all_eq_true, Function.comp_apply] at hagrees
    exact of_decide_eq_true (hagrees u hu)
  next => cases h

theorem indices_of_broadcast {call : Call} {outcome : Except Errno Nat}
    (h : s.broadcast call = some (outcome, t)) : t.indices = s.indices := by
  simp [indices, (broadcasts_of_broadcast h).threads, Kernel.index_perform]

/-- A call on threads with the same credentials ends on all of them as on the calling one. -/
theorem Shares.broadcast (h : s.Shares cr) (hscript : s.kernel.script.isImpartial = true)
    (call : Call) :
    ∃ t, s.broadcast call = some ((s.kernel.perform call s.main).1, t) ∧
      t.kernel = s.kernel ∧ t.indices = s.indices ∧
      t.Shares (s.kernel.perform call s.main).2.credentials := by
  obtain ⟨hmain, hothers⟩ := shares_iff.mp h
  have hsame (u : Thread) (hu : u ∈ s.others) :=
    Kernel.perform_eq_of_isImpartial hscript call ((hothers u hu).trans hmain.symm)
  have hagrees : (s.round call).agrees = true := by
    simp only [round, Round.agrees, List.all_map, List.all_eq_true, Function.comp_apply]
    intro u hu
    simp [(hsame u hu).1]
  refine ⟨_, if_pos hagrees, rfl, indices_of_broadcast (if_pos hagrees), ?_⟩
  rw [shares_iff]
  refine ⟨rfl, ?_⟩
  simp only [round, List.map_map, List.mem_map, Function.comp_apply]
  rintro _ ⟨u, hu, rfl⟩
  exact (hsame u hu).2

/-- Whatever a call comes to, threads with the same credentials go on with the same ones, unless it
aborts the process. -/
theorem Shares.of_broadcast (hs : s.Shares s.credentials)
    {call : Call} {outcome : Except Errno Nat} (hcall : s.broadcast call = some (outcome, t)) :
    t.Shares t.credentials := by
  obtain ⟨houtcome, hagrees, -, hthreads, -⟩ := broadcasts_of_broadcast hcall
  obtain ⟨hmain, hothers⟩ := List.cons.inj hthreads
  refine shares_iff.mpr ⟨rfl, ?_⟩
  rw [hothers, credentials, hmain]
  simp only [List.mem_map]
  rintro _ ⟨u, hu, rfl⟩
  have hsame : u.credentials = s.main.credentials := (shares_iff.mp hs).2 u hu
  exact Kernel.credentials_perform_eq hsame ((hagrees u hu).trans (houtcome ▸ rfl))

/-- Whatever a request comes to, the threads go on with the same credentials: a new thread takes
over what all others have, and only calls on every thread change any credentials. -/
theorem Step.shares (h : s.Step t) (hs : s.Shares s.credentials) : t.Shares t.credentials := by
  obtain ⟨-, hothers⟩ := shares_iff.mp hs
  cases h with
  | ask call hcall =>
      have hmain : (s.ask call).2.credentials = s.credentials :=
        s.kernel.credentials_perform_of_isQuestion hcall s.main
      exact shares_iff.mpr ⟨rfl, hmain ▸ hothers⟩
  | broadcast call h => exact hs.of_broadcast h
  | writeAttribute target data => exact (hs.changeAttribute _ _ _).self
  | removeAttribute target => exact (hs.changeAttribute _ _ _).self
  | spawn => exact hs.spawn
  | _ => exact shares_iff.mpr ⟨rfl, hothers⟩

theorem Reaches.shares (run : s.Reaches t) (hs : s.Shares s.credentials) :
    t.Shares t.credentials := by
  induction run with
  | refl => exact hs
  | tail _ step ih => exact step.shares ih

/-- No thread is lost: a request leaves all threads there, and at most starts another one. -/
theorem Step.indices_kept (h : s.Step t) : s.indices <+: t.indices := by
  have hattribute (kind : Call.Kind) (request : Request) (rule : Except Errno Files) :
      (s.changeAttribute kind request rule).2.indices = s.indices := by
    simp only [changeAttribute]
    split <;> rfl
  cases h with
  | ask call hcall =>
      have hsame : (s.ask call).2.indices = s.indices := by
        simp [indices, threads, Machine.ask, Kernel.index_perform]
      exact hsame.symm ▸ List.prefix_rfl
  | inspect pid => exact List.prefix_rfl
  | broadcast call hcall => exact (indices_of_broadcast hcall).symm ▸ List.prefix_rfl
  | readAttribute target => exact List.prefix_rfl
  | writeAttribute target data => exact (hattribute _ _ _).symm ▸ List.prefix_rfl
  | removeAttribute target => exact (hattribute _ _ _).symm ▸ List.prefix_rfl
  | setFloor n => exact List.prefix_rfl
  | spawn => simp [indices, threads, Machine.spawn]

theorem Reaches.indices_kept (run : s.Reaches t) : s.indices <+: t.indices := by
  induction run with
  | refl => exact List.prefix_rfl
  | tail _ step ih => exact ih.trans step.indices_kept

theorem not_aborts (hscript : s.kernel.script.isImpartial = true)
    (hs : s.Shares s.credentials) : ¬ s.Aborts := by
  rintro ⟨t, call, run, habort⟩
  obtain ⟨u, hu, -⟩ := (run.shares hs).broadcast (run.kernel_eq ▸ hscript) call
  rw [habort] at hu
  cases hu

end Machine

/-- An act that goes by steps comes to an end, for better or worse. -/
theorem Act.BySteps.ends {α : Type} {x : Act α} (hx : BySteps x) {s : Machine}
    (hscript : s.kernel.script.isImpartial = true) (hs : s.Shares s.credentials) :
    ∃ outcome t, x.start s = some (outcome, t) ∧ s.Reaches t := by
  cases hstart : x.start s with
  | none => exact absurd (hx.aborts hstart) (Machine.not_aborts hscript hs)
  | some reply => exact ⟨reply.1, reply.2, rfl, hx.reaches hstart⟩

namespace Action

theorem exists_performAll {s : Machine} (hscript : s.kernel.script.isImpartial = true)
    (hs : s.Shares s.credentials) (actions : List Action) :
    ∃ t, performAll actions s = some t := by
  induction actions generalizing s with
  | nil => exact ⟨s, rfl⟩
  | cons a rest ih =>
      obtain ⟨outcome, t, hfirst, hreaches⟩ := a.bySteps_run.ends hscript hs
      obtain ⟨u, hrest⟩ := ih (hreaches.kernel_eq ▸ hscript) (hreaches.shares hs)
      refine ⟨u, ?_⟩
      rw [performAll, perform, hfirst]
      exact hrest

/-- A process that starts with a single thread is never aborted while the script of failures
treats all threads and attempts alike. After any run of actions, so after each step of a run,
all threads have the same credentials, whether the actions succeeded or failed half way. -/
theorem performAll_shares {s : Machine} (hsingle : s.others = [])
    (hscript : s.kernel.script.isImpartial = true) (actions : List Action) :
    ∃ s', performAll actions s = some s' ∧ ∀ t ∈ s'.threads, t.credentials = s'.credentials := by
  have hs := Machine.shares_of_others_eq_nil hsingle
  obtain ⟨s', hrun⟩ := exists_performAll hscript hs actions
  exact ⟨s', hrun, (reaches_of_performAll hrun).shares hs⟩

/-- A privileged process on a kernel that refuses every change of the secure bits and never
lets go of value 3. -/
def hinderedMachine : Machine :=
  Machine.start
    { version := Abi.third.code, valueCount := 41, boundingSupported := true,
      ambientSupported := true, processes := []
      script := [⟨.setSecbits, 0, none, none, .notPermitted⟩,
        ⟨.dropBounding, 0, some 3, none, .inputOutput⟩] }
    { effective := Mask.below 41, permitted := Mask.below 41, inheritable := ∅, ambient := ∅,
      bounding := Mask.below 41, secbits := ∅, uid := 0, gid := 0, groups := [] }
    Table.empty

/-- Actions between which threads start, some of which fail half way. -/
def hinderedActions : List Action :=
  [.spawn, .enterMode .pureInit, .spawn, .applyTuple ⟨∅, ∅, Mask.below 5⟩, .setUid 1000, .spawn]

theorem performAll_shares_hinderedMachine :
    hinderedMachine.others = [] ∧ hinderedMachine.kernel.script.isImpartial = true ∧
      ∃ s', performAll hinderedActions hinderedMachine = some s' ∧
        ∀ t ∈ s'.threads, t.credentials = s'.credentials :=
  ⟨rfl, rfl, performAll_shares rfl rfl hinderedActions⟩

end Action

end Capabilities
