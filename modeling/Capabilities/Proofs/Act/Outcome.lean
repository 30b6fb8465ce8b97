import Capabilities.Proofs.Act.Effect
import Capabilities.Proofs.Kernel.Changes

/-!
# What an act leaves to the calling thread, whatever fails

Any script of failures may be in force, and the threads of the process need not
have anything in common. So a call may be refused for no reason at all. But a
call that is granted is granted by the rule of the kernel, and one that no rule of
the script concerns is refused only if the kernel itself refuses it.
-/

namespace Capabilities

/-- The kernel of a machine, and the credentials of its calling thread. -/
structure Machine.Has (k : Kernel) (s : Machine) (cr : Credentials) : Prop where
  kernel : s.kernel = k
  credentials : s.credentials = cr

namespace Act

variable {α β γ : Type} {k : Kernel} {cr : Credentials}

/-- Started where the calling thread has the credentials `cr`, an act that does not abort the
process leaves it with credentials such that these and the outcome are as described. -/
abbrev Leaves (k : Kernel) (cr : Credentials) (x : Act α)
    (Q : Except Fault α → Credentials → Prop) : Prop :=
  Leads (Machine.Has k) cr x Q

theorem Leaves.ends {x : Act α} {s t : Machine} {outcome : Except Fault α}
    {Q : Except Fault α → Credentials → Prop} (h : Leaves s.kernel s.credentials x Q)
    (hstart : x.start s = some (outcome, t)) :
    t.kernel = s.kernel ∧ Q outcome t.credentials := by
  obtain ⟨cr, ⟨hkernel, rfl⟩, hQ⟩ := h s t outcome ⟨rfl, rfl⟩ hstart
  exact ⟨hkernel, hQ⟩

/-- What an act leaves to the calling thread it leaves to all threads, if they had the same
credentials before; and all threads are still there. -/
theorem Leaves.ends_shared {x : Act α} (hx : BySteps x) {s t : Machine} {outcome : Except Fault α}
    {Q : Except Fault α → Credentials → Prop} (h : Leaves s.kernel s.credentials x Q)
    (hshares : s.Shares s.credentials)
    (hstart : x.start s = some (outcome, t)) :
    s.indices <+: t.indices ∧ ∀ u ∈ t.threads, Q outcome u.credentials := by
  refine ⟨(hx.reaches hstart).indices_kept, fun u hu => ?_⟩
  rw [(hx.reaches hstart).shares hshares u hu]
  exact (h.ends hstart).2

theorem leaves_capacity {Q : Except Fault Capacity → Credentials → Prop}
    (h : Q (.ok k.capacity) cr) : Leaves k cr capacity Q :=
  leads_capacity (fun _ hview => hview.kernel) h

/-- What is left after a call does not depend on whether other threads make it as well. -/
theorem leaves_perform {request : Machine → Option (Except Errno Nat × Machine)} {call : Call}
    (hrequest : ∀ s t outcome, request s = some (outcome, t) →
      t.kernel = s.kernel ∧ outcome = (s.kernel.perform call s.main).1 ∧
        t.credentials = (s.kernel.perform call s.main).2.credentials)
    {Q : Except Fault Nat → Credentials → Prop}
    (hgranted : ∀ n cr', k.respond cr call = .ok (n, cr') → Q (.ok n) cr')
    (hrefused : ∀ e, (k.spares call = true → k.respond cr call = .error e) →
      Q (.error (.os e)) cr) : Leaves k cr (Act.request request) Q := by
  rintro s t outcome ⟨rfl, rfl⟩ hstart
  rw [start_request, Option.map_eq_some_iff] at hstart
  obtain ⟨⟨answer, t'⟩, hanswer, heq⟩ := hstart
  cases heq
  obtain ⟨hkernel, rfl, hcredentials⟩ := hrequest s t' answer hanswer
  refine ⟨_, ⟨hkernel, hcredentials⟩, ?_⟩
  obtain ⟨n, cr', hrespond, houtcome, hleft⟩ | ⟨e, hrespond, houtcome, hleft⟩ :=
    s.kernel.perform_cases call s.main
  · rw [houtcome, hleft]
    exact hgranted n cr' hrespond
  · rw [houtcome, hleft]
    exact hrefused e hrespond

theorem leaves_broadcast {call : Call} {Q : Except Fault Nat → Credentials → Prop}
    (hgranted : ∀ n cr', k.respond cr call = .ok (n, cr') → Q (.ok n) cr')
    (hrefused : ∀ e, (k.spares call = true → k.respond cr call = .error e) →
      Q (.error (.os e)) cr) : Leaves k cr (broadcast call) Q := by
  refine leaves_perform (fun s t outcome hbroadcast => ?_) hgranted hrefused
  have hcall := Machine.broadcasts_of_broadcast hbroadcast
  have hmain : t.main = (s.kernel.perform call s.main).2 := (List.cons.inj hcall.threads).1
  exact ⟨hcall.kernel, hcall.answered, congrArg Thread.credentials hmain⟩

theorem leaves_ask {call : Call} {Q : Except Fault Nat → Credentials → Prop}
    (hgranted : ∀ n cr', k.respond cr call = .ok (n, cr') → Q (.ok n) cr')
    (hrefused : ∀ e, (k.spares call = true → k.respond cr call = .error e) →
      Q (.error (.os e)) cr) : Leaves k cr (ask call) Q := by
  refine leaves_perform (fun s t outcome hask => ?_) hgranted hrefused
  cases hask
  exact ⟨rfl, rfl, rfl⟩

/-- A call made on every thread, for its effect alone. -/
theorem leaves_command {call : Call} {Q : Except Fault Unit → Credentials → Prop}
    (hgranted : ∀ n cr', k.respond cr call = .ok (n, cr') → Q (.ok ()) cr')
    (hrefused : ∀ e, (k.spares call = true → k.respond cr call = .error e) →
      Q (.error (.os e)) cr) : Leaves k cr (do let _ ← broadcast call) Q :=
  leads_bind (leaves_broadcast (fun n cr' h => leads_pure (hgranted n cr' h)) hrefused)

/-- A thread sees its flags, unless it is made to fail. -/
theorem leaves_readSet {Q : Except Fault CapSet → Credentials → Prop}
    (hshown : Q (.ok (k.shownFlags cr)) cr)
    (hfailed : k.script.spares .inspect = false → ∀ e, Q (.error (.os e)) cr) :
    Leaves k cr readSet Q := by
  refine leads_bind ?_
  rintro s t outcome ⟨rfl, rfl⟩ hstart
  simp only [start_request, Machine.inspect, Kernel.inspect, Kernel.attempt, if_true,
    Option.map_some, Option.some.injEq, Prod.mk.injEq] at hstart
  obtain ⟨rfl, rfl⟩ := hstart
  refine ⟨s.credentials, ⟨rfl, rfl⟩, ?_⟩
  cases hscript : s.kernel.script.errno? .inspect 0 s.main.index (.inspect :: s.main.attempts) with
  | none => exact leads_bind (leaves_capacity (leads_pure hshown))
  | some e =>
      refine hfailed ?_ e
      rw [Bool.eq_false_iff]
      intro hspared
      rw [FailureScript.errno?_of_spares hspared] at hscript
      cases hscript

/-- A set is applied as the words of the interface show it. -/
theorem leaves_applySet {s : CapSet} {Q : Except Fault Unit → Credentials → Prop}
    (hgranted : Q (.ok ()) (cr.withFlags (fitWords k.capacity s)))
    (hrefused : ∀ e, (k.script.spares .capset = true →
      Kernel.admitsFlags cr (fitWords k.capacity s).effective (fitWords k.capacity s).permitted
        (fitWords k.capacity s).inheritable = false) → Q (.error (.os e)) cr) :
    Leaves k cr (applySet s) Q := by
  refine leads_bind (leaves_capacity ?_)
  refine leaves_command (fun n cr' hanswer => ?_) fun e hspared => hrefused e fun hscript => ?_
  · rw [Kernel.respond_capset] at hanswer
    obtain ⟨-, rfl, -⟩ := Kernel.of_ite_eq_ok hanswer
    exact hgranted
  · have hanswer := hspared hscript
    rw [Kernel.respond_capset] at hanswer
    rw [Bool.eq_false_iff]
    intro hadmits
    rw [if_pos hadmits] at hanswer
    cases hanswer

/-- Raising a value either gives the thread the set with the value, or leaves its flags. -/
theorem leaves_raise {s : CapSet} {v : Value} {Q : Except Fault Unit → Credentials → Prop}
    (hgranted : v < k.capacity.count →
      Q (.ok ()) (cr.withFlags
        (fitWords k.capacity { s with effective := s.effective ∪ Mask.single v })))
    (hrefused : ∀ f, Q (.error f) cr) : Leaves k cr (raise s v) Q := by
  refine leads_bind (leaves_capacity ?_)
  simp only [CapSet.set_effective]
  rcases Nat.lt_or_ge v k.capacity.count with hv | hv
  · rw [if_pos hv]
    exact leaves_applySet (hgranted hv) fun e _ => hrefused _
  · rw [if_neg (Nat.not_lt.mpr hv)]
    exact leads_throw (hrefused _)

theorem has_raised {v : Value} (hv : v < k.capacity.count) (cr : Credentials) (s : CapSet) :
    (cr.withFlags
      (fitWords k.capacity { s with effective := s.effective ∪ Mask.single v })).has v = true := by
  have hword : v < k.capacity.width := Nat.lt_of_lt_of_le hv k.capacity.count_le
  simp [Credentials.has, Credentials.withFlags, fitWords, hword]

/-- There seems to be no ambient mask also where asking for one is made to fail. -/
theorem leaves_ambientSupported {Q : Except Fault Bool → Credentials → Prop}
    (hyes : k.ambients 0 = true → Q (.ok true) cr)
    (hno : (k.script.spares .readAmbient = true → k.ambients 0 = false) → Q (.ok false) cr) :
    Leaves k cr ambientSupported Q := by
  refine leads_succeeds (leads_bind (leaves_ask (fun n cr' hanswer => ?_) fun e he => ?_))
  · obtain ⟨hzero, rfl, -⟩ := Kernel.of_ite_eq_ok hanswer
    exact leads_pure (hyes hzero)
  · refine hno fun hspared => ?_
    have hrefused := he hspared
    simp only [Kernel.respond] at hrefused
    split at hrefused
    · cases hrefused
    next hzero => exact Bool.eq_false_iff.mpr hzero

/-- Whatever comes of it, an act leaves a part of the credentials as it was. -/
def Keeps (k : Kernel) (part : Credentials → γ) (x : Act α) : Prop :=
  ∀ cr, Leaves k cr x fun _ cr' => part cr' = part cr

variable {part : Credentials → γ}

theorem keeps_pure (a : α) : Keeps k part (pure a) := fun _ => leads_pure rfl

theorem keeps_throw (f : Fault) : Keeps k part (throw f : Act α) := fun _ => leads_throw rfl

theorem keeps_bind {x : Act α} {f : α → Act β} (hx : Keeps k part x)
    (hf : ∀ a, Keeps k part (f a)) : Keeps k part (x >>= f) := by
  intro cr
  refine leads_bind ((hx cr).mono fun outcome cr' hfirst => ?_)
  cases outcome with
  | error e => exact hfirst
  | ok a => exact (hf a cr').mono fun _ _ hnext => hnext.trans hfirst

theorem keeps_attempt {x : Act α} (hx : Keeps k part x) : Keeps k part (attempt x) :=
  fun cr => leads_attempt (hx cr)

theorem keeps_succeeds {x : Act α} (hx : Keeps k part x) : Keeps k part (succeeds x) :=
  keeps_bind (keeps_attempt hx) fun _ => keeps_pure _

theorem keeps_ignoring {x : Act α} (hx : Keeps k part x) : Keeps k part (ignoring x) :=
  keeps_bind (keeps_attempt hx) fun _ => keeps_pure _

theorem keeps_broadcast {call : Call}
    (h : ∀ cr n cr', k.respond cr call = .ok (n, cr') → part cr' = part cr) :
    Keeps k part (broadcast call) :=
  fun cr => leaves_broadcast (h cr) fun _ _ => rfl

theorem keeps_ask {call : Call} (hcall : call.isQuestion = true) : Keeps k part (ask call) :=
  fun _ => leaves_ask
    (fun _ _ hanswer => congrArg part (Kernel.eq_of_respond_of_isQuestion hcall hanswer))
    fun _ _ => rfl

theorem keeps_ambientSupported : Keeps k part ambientSupported :=
  keeps_succeeds (keeps_bind (keeps_ask rfl) fun _ => keeps_pure _)

end Act

end Capabilities
