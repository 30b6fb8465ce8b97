import Capabilities.Machine
import Capabilities.Proofs.Kernel.Attempts

/-!
# What a machine can turn into

A step is one request to the machine, whatever its outcome is. Only questions
are asked on the calling thread alone. Of the credentials of the calling thread
a step makes only what the kernel answers to a call; so a property that every
answer preserves holds as long as the process runs. Scripts of failures are
arbitrary here.
-/

namespace Capabilities

/-- Whether a call leaves the credentials as they are, however it is answered. -/
def Call.isQuestion : Call → Bool
  | readBounding _ | readAmbient _ | getKeepCaps | getSecbits | unknown => true
  | _ => false

namespace Kernel

theorem eq_of_respond_of_isQuestion {k : Kernel} {cr cr' : Credentials} {call : Call} {n : Nat}
    (hcall : call.isQuestion = true) (h : k.respond cr call = .ok (n, cr')) : cr' = cr := by
  cases call with
  | readBounding v | readAmbient v =>
      simp only [respond] at h
      split at h
      · cases h
        rfl
      · cases h
  | getKeepCaps | getSecbits =>
      cases h
      rfl
  | unknown => cases h
  | _ => cases hcall

theorem credentials_perform_of_isQuestion (k : Kernel) {call : Call}
    (hcall : call.isQuestion = true) (t : Thread) :
    (k.perform call t).2.credentials = t.credentials := by
  rcases k.credentials_perform call t with h | ⟨n, h⟩
  · exact h
  · exact eq_of_respond_of_isQuestion hcall h

end Kernel

namespace Machine

/-- One request to the machine that does not abort the process. -/
inductive Step (s : Machine) : Machine → Prop
  | ask (call : Call) (h : call.isQuestion = true) : Step s (s.ask call).2
  | inspect (pid : Int) : Step s (s.inspect pid).2
  | broadcast (call : Call) {outcome : Except Errno Nat} {t : Machine}
      (h : s.broadcast call = some (outcome, t)) : Step s t
  | readAttribute (target : Target) : Step s (s.readAttribute target).2
  | writeAttribute (target : Target) (data : Bytes) : Step s (s.writeAttribute target data).2
  | removeAttribute (target : Target) : Step s (s.removeAttribute target).2
  | setFloor (n : Nat) : Step s { s with floor := min n CapSet.External.maxCount }
  | spawn : Step s s.spawn

/-- The machines that steps lead to. -/
inductive Reaches (s : Machine) : Machine → Prop
  | refl : Reaches s s
  | tail {t u : Machine} (run : Reaches s t) (step : Step t u) : Reaches s u

/-- Some machine that steps lead to has threads that do not agree about a call. -/
def Aborts (s : Machine) : Prop :=
  ∃ t call, s.Reaches t ∧ t.broadcast call = none

theorem Step.reaches {s t : Machine} (h : s.Step t) : s.Reaches t := .tail .refl h

theorem Reaches.trans {s t u : Machine} (first : s.Reaches t) (second : t.Reaches u) :
    s.Reaches u := by
  induction second with
  | refl => exact first
  | tail _ step ih => exact .tail ih step

theorem Reaches.aborts {s t : Machine} (run : s.Reaches t) (h : t.Aborts) : s.Aborts := by
  obtain ⟨u, call, hu, hcall⟩ := h
  exact ⟨u, call, run.trans hu, hcall⟩

theorem changeAttribute_frame (s : Machine) (kind : Call.Kind) (request : Request)
    (rule : Except Errno Files) :
    (s.changeAttribute kind request rule).2.kernel = s.kernel ∧
      (s.changeAttribute kind request rule).2.credentials = s.credentials := by
  simp only [changeAttribute]
  split <;> exact ⟨rfl, rfl⟩

/-- The kernel never changes, and the credentials of the calling thread change only as the
kernel answers. -/
theorem Step.cases_credentials {s t : Machine} (h : s.Step t) :
    t.kernel = s.kernel ∧
      (t.credentials = s.credentials ∨
        ∃ call n, s.kernel.respond s.credentials call = .ok (n, t.credentials)) := by
  cases h with
  | ask call h => exact ⟨rfl, .inl (s.kernel.credentials_perform_of_isQuestion h s.main)⟩
  | inspect pid => exact ⟨rfl, .inl rfl⟩
  | broadcast call h =>
      simp only [Machine.broadcast] at h
      split at h
      · cases h
        refine ⟨rfl, ?_⟩
        rcases s.kernel.credentials_perform call s.main with h | ⟨n, h⟩
        · exact .inl h
        · exact .inr ⟨call, n, h⟩
      · cases h
  | readAttribute target => exact ⟨rfl, .inl rfl⟩
  | writeAttribute target data =>
      obtain ⟨hkernel, hcredentials⟩ := s.changeAttribute_frame _ _ _
      exact ⟨hkernel, .inl hcredentials⟩
  | removeAttribute target =>
      obtain ⟨hkernel, hcredentials⟩ := s.changeAttribute_frame _ _ _
      exact ⟨hkernel, .inl hcredentials⟩
  | setFloor n => exact ⟨rfl, .inl rfl⟩
  | spawn => exact ⟨rfl, .inl rfl⟩

theorem Reaches.kernel_eq {s t : Machine} (run : s.Reaches t) : t.kernel = s.kernel := by
  induction run with
  | refl => rfl
  | tail _ step ih => exact step.cases_credentials.1.trans ih

/-- What every answer of the kernel preserves holds of the calling thread for good. -/
theorem Reaches.credentials_induction {s t : Machine} {P : Credentials → Prop}
    (run : s.Reaches t) (initial : P s.credentials)
    (preserved : ∀ cr call n cr', P cr → s.kernel.respond cr call = .ok (n, cr') → P cr') :
    P t.credentials := by
  induction run with
  | refl => exact initial
  | tail run step ih =>
      obtain ⟨-, hsame | ⟨call, n, hanswer⟩⟩ := step.cases_credentials
      · exact hsame ▸ ih
      · rw [run.kernel_eq] at hanswer
        exact preserved _ call n _ ih hanswer

end Machine

end Capabilities
