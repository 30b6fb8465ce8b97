import Capabilities.Act

/-!
# The course of an act

A view relates a machine to what is told about it. Started in one view of the
machine, an act ends in another one, for better or worse. Here is one rule for
each way to put acts together, whatever the view; the rules for the requests
that acts are made of depend on it.
-/

namespace Capabilities.Act

variable {α β σ : Type} {View : Machine → σ → Prop} {c : σ}

/-- Whether an act, started on a machine, ends with a given outcome. -/
def endsIn [DecidableEq α] (x : Act α) (s : Machine) (outcome : Except Fault α) : Bool :=
  (x.start s).any fun reply =>
    match reply.1, outcome with
    | .ok a, .ok b => decide (a = b)
    | .error e, .error f => decide (e = f)
    | _, _ => false

theorem exists_of_endsIn [DecidableEq α] {x : Act α} {s : Machine} {outcome : Except Fault α}
    (h : endsIn x s outcome = true) : ∃ s', x.start s = some (outcome, s') := by
  obtain ⟨⟨outcome', s'⟩, hstart, hsame⟩ := (Option.any_eq_true _ _).mp h
  refine ⟨s', hstart.trans ?_⟩
  cases outcome' <;> cases outcome <;> simp_all

/-- Started in the view `c` of the machine, an act that does not abort the process ends in a
view that is, together with the outcome, as described. -/
def Leads (View : Machine → σ → Prop) (c : σ) (x : Act α) (Q : Except Fault α → σ → Prop) : Prop :=
  ∀ (s t : Machine) (outcome : Except Fault α), View s c →
    x.start s = some (outcome, t) → ∃ c', View t c' ∧ Q outcome c'

theorem Leads.mono {x : Act α} {P Q : Except Fault α → σ → Prop} (h : Leads View c x P)
    (hPQ : ∀ outcome c', P outcome c' → Q outcome c') : Leads View c x Q := by
  intro s t outcome hview hstart
  obtain ⟨c', hview', hP⟩ := h s t outcome hview hstart
  exact ⟨c', hview', hPQ outcome c' hP⟩

theorem leads_pure {a : α} {Q : Except Fault α → σ → Prop} (h : Q (.ok a) c) :
    Leads View c (pure a) Q := by
  intro s t outcome hview hstart
  cases hstart
  exact ⟨c, hview, h⟩

theorem leads_throw {f : Fault} {Q : Except Fault α → σ → Prop} (h : Q (.error f) c) :
    Leads View c (throw f) Q := by
  intro s t outcome hview hstart
  cases hstart
  exact ⟨c, hview, h⟩

/-- An act goes on in the view in which the one before it ended. -/
theorem leads_bind {x : Act α} {f : α → Act β} {Q : Except Fault β → σ → Prop}
    (h : Leads View c x fun outcome c' =>
      match outcome with
      | .ok a => Leads View c' (f a) Q
      | .error e => Q (.error e) c') :
    Leads View c (x >>= f) Q := by
  intro s u outcome hview hstart
  rw [start_bind] at hstart
  cases hfirst : x.start s with
  | none =>
      rw [hfirst] at hstart
      cases hstart
  | some reply =>
      obtain ⟨first, t⟩ := reply
      rw [hfirst] at hstart
      obtain ⟨c', hview', hnext⟩ := h s t first hview hfirst
      cases first with
      | error e =>
          cases hstart
          exact ⟨c', hview', hnext⟩
      | ok a => exact hnext t u outcome hview' hstart

theorem leads_map {f : α → β} {x : Act α} {Q : Except Fault β → σ → Prop}
    (h : Leads View c x fun outcome c' => Q (outcome.map f) c') : Leads View c (f <$> x) Q := by
  intro s t outcome hview hstart
  rw [start_map, Option.map_eq_some_iff] at hstart
  obtain ⟨⟨outcome', t'⟩, hfirst, heq⟩ := hstart
  cases heq
  exact h s t' outcome' hview hfirst

theorem leads_attempt {x : Act α} {Q : Except Fault (Except Fault α) → σ → Prop}
    (h : Leads View c x fun outcome c' => Q (.ok outcome) c') : Leads View c (attempt x) Q := by
  intro s t outcome hview hstart
  rw [start_attempt, Option.map_eq_some_iff] at hstart
  obtain ⟨⟨outcome', t'⟩, hfirst, heq⟩ := hstart
  cases heq
  exact h s t' outcome' hview hfirst

theorem leads_succeeds {x : Act α} {Q : Except Fault Bool → σ → Prop}
    (h : Leads View c x fun outcome c' => Q (.ok outcome.isOk) c') :
    Leads View c (succeeds x) Q :=
  leads_bind (leads_attempt (h.mono fun _ _ hQ => leads_pure hQ))

theorem leads_ignoring {x : Act α} {Q : Except Fault Unit → σ → Prop}
    (h : Leads View c x fun _ c' => Q (.ok ()) c') : Leads View c (ignoring x) Q :=
  leads_bind (leads_attempt (h.mono fun _ _ hQ => leads_pure hQ))

/-- A guarded act either goes on, or ends with its fault after the clean-up. -/
theorem leads_onFault_bind {x : Act α} {cleanup : Act Unit} {f : α → Act β}
    {Q : Except Fault β → σ → Prop}
    (h : Leads View c x fun outcome c' =>
      match outcome with
      | .ok a => Leads View c' (f a) Q
      | .error e => Leads View c' cleanup fun _ c'' => Q (.error e) c'') :
    Leads View c (onFault x cleanup >>= f) Q := by
  refine leads_bind (leads_bind (leads_attempt (h.mono fun outcome c' hrest => ?_)))
  cases outcome with
  | ok a => exact leads_pure hrest
  | error e =>
      refine leads_bind (leads_ignoring (hrest.mono fun _ _ hQ => ?_))
      exact leads_throw hQ

theorem leads_capacity {k : Kernel} (hkernel : ∀ s, View s c → s.kernel = k)
    {Q : Except Fault Capacity → σ → Prop} (h : Q (.ok k.capacity) c) :
    Leads View c capacity Q := by
  intro s t outcome hview hstart
  cases hstart
  obtain rfl := hkernel s hview
  exact ⟨c, hview, h⟩

end Capabilities.Act
