import Capabilities.Proofs.Act.Outcome

/-!
# What holds of every thread, whatever fails

A script can make a call fail on some threads only, and with the error number of
success, so that nobody is told. Threads then go on with different credentials.
What can be said of them all is a property that every answer of the kernel keeps.
It is followed here together with the requests that the process makes: those are
logged in order, and never taken back.
-/

namespace Capabilities

/-- What is told about a process: a property of all its threads, and its requests so far. -/
structure Standing where
  holds : Credentials → Prop
  log : List Event

namespace Machine

/-- The kernel of a machine, the numbers of its threads, and how it stands. -/
structure Stands (k : Kernel) (indices : List Nat) (s : Machine) (c : Standing) : Prop where
  kernel : s.kernel = k
  indices : s.indices = indices
  threads : ∀ t ∈ s.threads, c.holds t.credentials
  log : s.log = c.log

end Machine

namespace Act

variable {α β : Type} {k : Kernel} {indices : List Nat} {c : Standing} {P : Credentials → Prop}

theorem stands_capacity {Q : Except Fault Capacity → Standing → Prop}
    (h : Q (.ok k.capacity) c) : Leads (Machine.Stands k indices) c capacity Q :=
  leads_capacity (fun _ hview => hview.kernel) h

/-- A question changes no thread and is not logged. If the script spares it, the answer is that of
the kernel to the calling thread. -/
theorem stands_ask {call : Call} (hcall : call.isQuestion = true)
    {Q : Except Fault Nat → Standing → Prop}
    (hanswered : ∀ n cr, c.holds cr → k.respond cr call = .ok (n, cr) → Q (.ok n) c)
    (hrefused : ∀ e cr, c.holds cr → (k.spares call = true → k.respond cr call = .error e) →
      Q (.error (.os e)) c) :
    Leads (Machine.Stands k indices) c (ask call) Q := by
  rintro s t outcome ⟨rfl, rfl, hthreads, hlog⟩ hstart
  rw [ask, start_request, Option.map_some] at hstart
  cases hstart
  have hmain : c.holds s.main.credentials := hthreads s.main List.mem_cons_self
  have hsame : (s.kernel.perform call s.main).2.credentials = s.main.credentials :=
    s.kernel.credentials_perform_of_isQuestion hcall s.main
  refine ⟨c, ⟨rfl, ?_, ?_, hlog⟩, ?_⟩
  · simp [Machine.indices, Machine.threads, Machine.ask, Kernel.index_perform]
  · intro u hu
    rcases List.mem_cons.mp hu with rfl | hother
    · exact hsame ▸ hmain
    · exact hthreads u (List.mem_cons_of_mem _ hother)
  · show Q ((s.kernel.perform call s.main).1.mapError Fault.os) c
    obtain ⟨n, cr', hrespond, houtcome, hleft⟩ | ⟨e, hrespond, houtcome, -⟩ :=
      s.kernel.perform_cases call s.main
    · rw [houtcome]
      rw [hsame] at hleft
      exact hanswered n _ hmain (hleft ▸ hrespond)
    · rw [houtcome]
      exact hrefused e _ hmain hrespond

/-- A call made on every thread is logged with its outcome on the calling thread. -/
theorem stands_broadcast {call : Call} (P' : Credentials → Prop)
    {Q : Except Fault Nat → Standing → Prop}
    (hkept : ∀ t : Thread, c.holds t.credentials → P' (k.perform call t).2.credentials)
    (h : ∀ t : Thread, c.holds t.credentials →
      Q ((k.perform call t).1.mapError Fault.os)
        ⟨P', c.log ++ [⟨.call call, Errno.ofOutcome (k.perform call t).1⟩]⟩) :
    Leads (Machine.Stands k indices) c (broadcast call) Q := by
  rintro s t outcome ⟨rfl, rfl, hthreads, hlog⟩ hstart
  rw [broadcast, start_request, Option.map_eq_some_iff] at hstart
  obtain ⟨⟨answer, t'⟩, hanswer, heq⟩ := hstart
  cases heq
  obtain ⟨rfl, -, hkernel, hthreads', hlog'⟩ := Machine.broadcasts_of_broadcast hanswer
  have hindices := Machine.indices_of_broadcast hanswer
  refine ⟨_, ⟨hkernel, hindices, ?_, hlog ▸ hlog'⟩, h s.main (hthreads _ List.mem_cons_self)⟩
  intro u hu
  rw [hthreads', List.mem_map] at hu
  obtain ⟨v, hv, rfl⟩ := hu
  exact hkept v (hthreads v hv)

/-- A call that the script spares is granted if the kernel grants it to all threads. -/
theorem stands_broadcast_of_granted {call : Call} (hspared : k.spares call = true)
    (P' : Credentials → Prop) {Q : Except Fault Nat → Standing → Prop}
    (hgranted : ∀ cr, c.holds cr → ∃ n cr', k.respond cr call = .ok (n, cr') ∧ P' cr')
    (h : ∀ n, Q (.ok n) ⟨P', c.log ++ [⟨.call call, .success⟩]⟩) :
    Leads (Machine.Stands k indices) c (broadcast call) Q := by
  have hperform (t : Thread) (ht : c.holds t.credentials) :
      ∃ n, (k.perform call t).1 = .ok n ∧ P' (k.perform call t).2.credentials := by
    obtain ⟨n, cr, hanswer, hcr⟩ := hgranted _ ht
    obtain ⟨n', cr', hrespond, houtcome, hleft⟩ | ⟨e, hrespond, -, -⟩ := k.perform_cases call t
    · rw [hanswer] at hrespond
      cases hrespond
      exact ⟨n, houtcome, hleft ▸ hcr⟩
    · cases hanswer.symm.trans (hrespond hspared)
  refine stands_broadcast P' (fun t ht => ?_) fun t ht => ?_
  · obtain ⟨n, -, hleft⟩ := hperform t ht
    exact hleft
  · obtain ⟨n, houtcome, -⟩ := hperform t ht
    rw [houtcome]
    exact h n

/-- And it is refused, without any effect, if the kernel refuses it to all threads. -/
theorem stands_broadcast_of_refused {call : Call} (hspared : k.spares call = true) {e : Errno}
    {Q : Except Fault Nat → Standing → Prop}
    (hrefused : ∀ cr, c.holds cr → k.respond cr call = .error e)
    (h : Q (.error (.os e)) ⟨c.holds, c.log ++ [⟨.call call, e⟩]⟩) :
    Leads (Machine.Stands k indices) c (broadcast call) Q := by
  have hperform (t : Thread) (ht : c.holds t.credentials) :
      (k.perform call t).1 = .error e ∧
        (k.perform call t).2.credentials = t.credentials := by
    obtain ⟨n, cr, hrespond, -, -⟩ | ⟨e', hrespond, houtcome, hleft⟩ := k.perform_cases call t
    · cases (hrefused _ ht).symm.trans hrespond
    · cases (hrefused _ ht).symm.trans (hrespond hspared)
      exact ⟨houtcome, hleft⟩
  refine stands_broadcast c.holds (fun t ht => ?_) fun t ht => ?_
  · exact (hperform t ht).2 ▸ ht
  · rw [(hperform t ht).1]
    exact h

/-- The request to give every thread the flags of a set. -/
def capsetOf (s : CapSet) : Request := .call (.capset s.effective s.permitted s.inheritable)

/-- A set is applied to all threads if each of them may have what the words of the interface show
of it. -/
theorem stands_applySet_of_granted (hcapset : k.script.spares .capset = true) {s t : CapSet}
    (ht : fitWords k.capacity s = t) (P' : Credentials → Prop)
    {Q : Except Fault Unit → Standing → Prop}
    (hgranted : ∀ cr, c.holds cr →
      Kernel.admitsFlags cr t.effective t.permitted t.inheritable = true ∧ P' (cr.withFlags t))
    (h : Q (.ok ()) ⟨P', c.log ++ [⟨capsetOf t, .success⟩]⟩) :
    Leads (Machine.Stands k indices) c (applySet s) Q := by
  subst ht
  refine leads_bind (stands_capacity (leads_bind ?_))
  refine stands_broadcast_of_granted ?_ P' (fun cr hcr => ?_) fun n => leads_pure h
  · exact hcapset
  · obtain ⟨hadmits, hleft⟩ := hgranted cr hcr
    refine ⟨0, _, ?_, hleft⟩
    rw [Kernel.respond_capset, if_pos hadmits]

theorem stands_applySet_of_refused (hcapset : k.script.spares .capset = true) {s t : CapSet}
    (ht : fitWords k.capacity s = t) {Q : Except Fault Unit → Standing → Prop}
    (hrefused : ∀ cr, c.holds cr →
      Kernel.admitsFlags cr t.effective t.permitted t.inheritable = false)
    (h : Q (.error (.os .notPermitted)) ⟨c.holds, c.log ++ [⟨capsetOf t, .notPermitted⟩]⟩) :
    Leads (Machine.Stands k indices) c (applySet s) Q := by
  subst ht
  refine leads_bind (stands_capacity (leads_bind ?_))
  refine stands_broadcast_of_refused ?_ (fun cr hcr => ?_) h
  · exact hcapset
  · rw [Kernel.respond_capset, if_neg (Bool.eq_false_iff.mp (hrefused cr hcr))]

/-- The calling thread sees its flags if the script spares the question. -/
theorem stands_readSet (hinspect : k.script.spares .inspect = true)
    {Q : Except Fault CapSet → Standing → Prop}
    (h : ∀ cr, c.holds cr → Q (.ok (k.shownFlags cr)) c) :
    Leads (Machine.Stands k indices) c readSet Q := by
  refine leads_bind ?_
  rintro s t outcome ⟨rfl, rfl, hthreads, hlog⟩ hstart
  simp only [start_request, Machine.inspect, Kernel.inspect, Kernel.attempt, if_true,
    FailureScript.errno?_of_spares hinspect, Option.map_some, Option.some.injEq,
    Prod.mk.injEq] at hstart
  obtain ⟨rfl, rfl⟩ := hstart
  have hmain : c.holds s.credentials := hthreads s.main List.mem_cons_self
  refine ⟨c, ⟨rfl, rfl, ?_, hlog⟩, leads_bind (stands_capacity (leads_pure (h _ hmain)))⟩
  intro u hu
  rcases List.mem_cons.mp hu with rfl | hother
  · exact hmain
  · exact hthreads u (List.mem_cons_of_mem _ hother)

/-- An outcome that the kernel or the script decides: if it is a fault, there is an error number. -/
def FromKernel : Except Fault α → Prop
  | .ok _ => True
  | .error f => f.errno?.isSome = true

theorem fromKernel_mapError (outcome : Except Errno α) :
    FromKernel (outcome.mapError Fault.os) := by
  cases outcome with
  | ok a => exact trivial
  | error e => rfl

/-- Whatever comes of it, an act keeps a property of all threads, and its requests come after those
before. It fails only if the kernel or the script makes it fail. -/
def Upholds (k : Kernel) (P : Credentials → Prop) (x : Act α) : Prop :=
  ∀ indices log, Leads (Machine.Stands k indices) ⟨P, log⟩ x fun outcome c =>
    c.holds = P ∧ log <+: c.log ∧ FromKernel outcome

theorem upholds_pure (a : α) : Upholds k P (pure a) :=
  fun _ _ => leads_pure ⟨rfl, List.prefix_rfl, trivial⟩

theorem upholds_bind {x : Act α} {f : α → Act β} (hx : Upholds k P x)
    (hf : ∀ a, Upholds k P (f a)) : Upholds k P (x >>= f) := by
  intro indices log
  refine leads_bind ((hx indices log).mono fun outcome c hfirst => ?_)
  obtain ⟨holds, log'⟩ := c
  obtain ⟨rfl, hgrows, hfault⟩ := hfirst
  cases outcome with
  | error e => exact ⟨rfl, hgrows, hfault⟩
  | ok a =>
      refine (hf a indices log').mono fun outcome c hnext => ?_
      obtain ⟨hholds, hgrows', hfault'⟩ := hnext
      exact ⟨hholds, hgrows.trans hgrows', hfault'⟩

theorem upholds_attempt {x : Act α} (hx : Upholds k P x) : Upholds k P (attempt x) := by
  intro indices log
  refine leads_attempt ((hx indices log).mono fun outcome c hfirst => ?_)
  obtain ⟨hholds, hgrows, -⟩ := hfirst
  exact ⟨hholds, hgrows, trivial⟩

theorem upholds_succeeds {x : Act α} (hx : Upholds k P x) : Upholds k P (succeeds x) :=
  upholds_bind (upholds_attempt hx) fun _ => upholds_pure _

theorem upholds_provided {condition : Bool} {question : Act Bool} (h : Upholds k P question) :
    Upholds k P (provided condition question) := by
  cases condition with
  | false => exact upholds_pure false
  | true => exact h

theorem upholds_capacity : Upholds k P capacity :=
  fun _ _ => stands_capacity ⟨rfl, List.prefix_rfl, trivial⟩

theorem upholds_ask {call : Call} (hcall : call.isQuestion = true) : Upholds k P (ask call) :=
  fun _ _ => stands_ask hcall (fun _ _ _ _ => ⟨rfl, List.prefix_rfl, trivial⟩)
    fun _ _ _ _ => ⟨rfl, List.prefix_rfl, rfl⟩

/-- A call made on every thread, for its effect alone, keeps what every answer keeps. -/
theorem upholds_command {call : Call}
    (h : ∀ cr n cr', P cr → k.respond cr call = .ok (n, cr') → P cr') :
    Upholds k P (do let _ ← broadcast call) := by
  refine upholds_bind (fun indices log => ?_) fun _ => upholds_pure ()
  refine stands_broadcast P (fun t ht => ?_) fun t _ => ?_
  · rcases k.credentials_perform call t with hsame | ⟨n, hanswer⟩
    · exact hsame ▸ ht
    · exact h _ n _ ht hanswer
  · exact ⟨rfl, List.prefix_append _ _, fromKernel_mapError _⟩

theorem upholds_readAmbient (v : Value) : Upholds k P (readAmbient v) :=
  upholds_bind (upholds_ask rfl) fun _ => upholds_pure _

theorem upholds_isBounding (v : Value) : Upholds k P (isBounding v) := by
  refine upholds_bind (upholds_bind (upholds_attempt (upholds_ask rfl)) fun outcome => ?_)
    fun _ => upholds_pure _
  cases outcome <;> exact upholds_pure _

end Act

end Capabilities
