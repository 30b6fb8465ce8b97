import Capabilities.Proofs.Act.Outcome
import Capabilities.Proofs.Act.Reachability

/-!
# Questions that a script concerns

Only the calling thread asks questions, and it stays the same thread. So whether a
question about a value can be made to fail depends on the rules that fit its kind,
the value and that thread: if there are none, it is answered by the kernel, and
if one of them is for every attempt, it fails.
-/

namespace Capabilities

/-- The kernel of a machine, and the number and the credentials of its calling thread. -/
structure Machine.Acts (k : Kernel) (index : Nat) (s : Machine) (cr : Credentials) : Prop
    extends s.Has k cr where
  index : s.main.index = index

namespace Act

variable {α : Type} {k : Kernel} {i : Nat} {cr : Credentials}

/-- Whatever is left to the calling thread is left to a thread with the same number. -/
theorem Leaves.acts {x : Act α} {Q : Except Fault α → Credentials → Prop} (hx : BySteps x)
    (h : Leaves k cr x Q) : Leads (Machine.Acts k i) cr x Q := by
  rintro s t outcome ⟨hhas, hindex⟩ hstart
  obtain ⟨cr', hhas', hQ⟩ := h s t outcome hhas hstart
  have hkept : s.main.index = t.main.index :=
    (List.cons_prefix_cons.mp (hx.reaches hstart).indices_kept).1
  exact ⟨cr', ⟨hhas', hkept.symm.trans hindex⟩, hQ⟩

theorem acts_ask {call : Call} {kind : Call.Kind} (hkind : call.kind? = some kind)
    (hcall : call.isQuestion = true) {Q : Except Fault Nat → Credentials → Prop}
    (hanswered : k.script.denies kind call.argument i = false →
      ∀ n cr', k.respond cr call = .ok (n, cr') → Q (.ok n) cr)
    (hrefused : ∀ e, (k.script.concerns kind call.argument i = false →
      k.respond cr call = .error e) → Q (.error (.os e)) cr) :
    Leads (Machine.Acts k i) cr (ask call) Q := by
  rintro s t outcome ⟨⟨rfl, rfl⟩, rfl⟩ hstart
  rw [ask, start_request, Option.map_some] at hstart
  cases hstart
  have hsame : (s.kernel.perform call s.main).2.credentials = s.credentials :=
    s.kernel.credentials_perform_of_isQuestion hcall s.main
  refine ⟨s.credentials, ⟨⟨rfl, hsame⟩, s.kernel.index_perform call s.main⟩, ?_⟩
  show Q ((s.kernel.perform call s.main).1.mapError Fault.os) s.credentials
  rw [s.kernel.perform_eq hkind]
  cases hscript : s.kernel.script.errno? kind call.argument s.main.index
      (kind :: s.main.attempts) with
  | some e =>
      refine hrefused e fun hspared => ?_
      rw [FailureScript.concerns_of_errno? hscript] at hspared
      cases hspared
  | none =>
      cases hanswer : s.kernel.respond s.main.credentials call with
      | error e => exact hrefused e fun _ => hanswer
      | ok answer =>
          exact hanswered (FailureScript.not_denies_of_errno? hscript) _ answer.2 hanswer

/-- A bounding value that is found is there; if the kernel answers for it, only a failure keeps one
that is there from being found. -/
theorem acts_isBounding (v : Value) {Q : Except Fault Bool → Credentials → Prop}
    (hfound : k.script.denies .readBounding v i = false → cr.bounding.contains v = true →
      Q (.ok true) cr)
    (hmissed : (k.bounds v = true → cr.bounding.contains v = true →
      k.script.concerns .readBounding v i = true) → Q (.ok false) cr) :
    Leads (Machine.Acts k i) cr (isBounding v) Q := by
  refine leads_bind (leads_bind (leads_attempt (acts_ask rfl rfl ?_ ?_)))
  · intro hspared n cr' hanswer
    obtain ⟨-, -, rfl⟩ := Kernel.of_ite_eq_ok hanswer
    cases hraised : cr.bounding.contains v with
    | true => exact leads_pure (leads_pure (hfound hspared hraised))
    | false =>
        refine leads_pure (leads_pure (hmissed fun _ hcontains => ?_))
        rw [hraised] at hcontains
        cases hcontains
  · intro e hrefused
    refine leads_pure (leads_pure (hmissed fun hv _ => ?_))
    cases hconcerned : k.script.concerns .readBounding v i with
    | true => rfl
    | false =>
        have hanswer := hrefused hconcerned
        simp only [Kernel.respond, if_pos hv] at hanswer
        cases hanswer

end Act

end Capabilities
