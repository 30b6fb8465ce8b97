import Capabilities.Proofs.Act.Invariance
import Capabilities.Proofs.Inheritance.Application

/-!
# Putting the effective flag back

Applying a tuple replaces the flags once at the beginning and once at the end. In
between it works on the ambient and on the bounding mask, and there it can be made
to fail at any value, on all threads or on some of them. None of this keeps the
kernel from granting the last request: it takes back no more than what is still
permitted and inheritable. So every thread ends with the effective flag that it
had, whatever fails; and if the first request is refused, nothing has changed.
-/

namespace Capabilities

namespace Credentials

/-- A thread whose effective flag has not been put back yet. -/
def Underway (before : Credentials) (inheritable : Mask) (cr : Credentials) : Prop :=
  ∃ effective ambient bounding,
    cr = { before with effective, inheritable, ambient, bounding }

/-- A thread that differs only in the masks that a tuple is about. -/
def Restored (before cr : Credentials) : Prop :=
  ∃ inheritable ambient bounding, cr = { before with inheritable, ambient, bounding }

theorem restored_self (cr : Credentials) : cr.Restored cr :=
  ⟨cr.inheritable, cr.ambient, cr.bounding, rfl⟩

end Credentials

namespace Act

variable {k : Kernel} {cr : Credentials} {x : Inheritance} {i : Mask} {indices : List Nat}
  {log : List Event}

theorem upholds_setAmbient (v : Value) (on : Bool) :
    Upholds k (cr.Underway i) (setAmbient v on) := by
  refine upholds_command fun cr' n cr'' hunderway hanswer => ?_
  obtain ⟨effective, ambient, bounding, rfl⟩ := hunderway
  cases on with
  | true =>
      obtain ⟨-, hanswer⟩ := Kernel.of_ite_error_eq_ok hanswer
      obtain ⟨-, rfl, -⟩ := Kernel.of_ite_eq_ok hanswer
      exact ⟨effective, _, bounding, rfl⟩
  | false =>
      obtain ⟨-, rfl, -⟩ := Kernel.of_ite_eq_ok hanswer
      exact ⟨effective, _, bounding, rfl⟩

theorem upholds_dropBounding (v : Value) : Upholds k (cr.Underway i) (dropBounding v) := by
  refine upholds_command fun cr' n cr'' hunderway hanswer => ?_
  obtain ⟨effective, ambient, bounding, rfl⟩ := hunderway
  obtain ⟨-, hanswer⟩ := Kernel.of_ite_error_eq_ok hanswer
  obtain ⟨-, rfl, -⟩ := Kernel.of_ite_eq_ok hanswer
  exact ⟨effective, ambient, _, rfl⟩

theorem upholds_withdraw (supported : Bool) (x : Inheritance) (vs : List Value) :
    Upholds k (cr.Underway i) (withdraw supported x vs) := by
  induction vs with
  | nil => exact upholds_pure ()
  | cons v rest ih =>
      refine upholds_bind ?_ fun _ => upholds_bind ?_ fun _ => ih
      · refine upholds_bind (upholds_provided (upholds_readAmbient v)) fun raised => ?_
        cases raised with
        | true => exact upholds_setAmbient v false
        | false => exact upholds_pure ()
      · refine upholds_bind (upholds_provided (upholds_isBounding v)) fun held => ?_
        cases held with
        | true => exact upholds_dropBounding v
        | false => exact upholds_pure ()

theorem upholds_grantAmbient (supported : Bool) (x : Inheritance) (v : Value) :
    Upholds k (cr.Underway i) (grantAmbient supported x v) := by
  unfold grantAmbient
  split
  · refine upholds_bind (upholds_provided (upholds_readAmbient v)) fun raised => ?_
    cases raised with
    | true => exact upholds_pure ()
    | false => exact upholds_setAmbient v true
  · exact upholds_pure ()

theorem upholds_grant (supported : Bool) (x : Inheritance) (vs : List Value) :
    Upholds k (cr.Underway i) (grant supported x vs) := by
  induction vs with
  | nil => exact upholds_pure ()
  | cons v rest ih => exact upholds_bind (upholds_grantAmbient supported x v) fun _ => ih

theorem upholds_applyMasks (x : Inheritance) : Upholds k (cr.Underway i) (applyMasks x) :=
  upholds_bind (upholds_succeeds (upholds_readAmbient 0)) fun supported =>
    upholds_bind upholds_capacity fun c =>
      upholds_bind (upholds_withdraw supported x c.values) fun _ =>
        upholds_grant supported x c.values

/-- As the words of the interface show it, a tuple changes nothing but the inheritable flag. -/
theorem fitWords_targetFor (hfits : cr.fits k.capacity = true) (x : Inheritance)
    (effective : Mask) :
    fitWords k.capacity { cr.targetFor x with effective } =
      ⟨effective ∩ Mask.below k.capacity.width, cr.permitted,
        x.inheritable ∩ Mask.below k.capacity.width, none⟩ := by
  have hpermitted : cr.permitted ∩ Mask.below k.capacity.width = cr.permitted :=
    congrArg CapSet.permitted (shownFlags_of_fits hfits)
  simp only [fitWords, Credentials.targetFor, Credentials.holdings, hpermitted]

/-- Whatever comes of the masks, the effective flag is put back on every thread. -/
theorem stands_settle (hcapset : k.script.spares .capset = true)
    (hfits : cr.fits k.capacity = true) (heffective : cr.effective.isWithin cr.permitted = true)
    (hi : i = x.inheritable ∩ Mask.below k.capacity.width)
    {Q : Except Fault Unit → Standing → Prop}
    (h : ∀ outcome log', log <+: log' → FromKernel outcome → Q outcome ⟨cr.Restored, log'⟩) :
    Leads (Machine.Stands k indices) ⟨cr.Underway i, log⟩ (settle x (cr.targetFor x)) Q := by
  have hheld : cr.effective ∩ Mask.below k.capacity.width = cr.effective :=
    congrArg CapSet.effective (shownFlags_of_fits hfits)
  have htarget : fitWords k.capacity (cr.targetFor x) = ⟨cr.effective, cr.permitted, i, none⟩ := by
    rw [hi, ← hheld]
    exact (fitWords_targetFor hfits x cr.effective).trans (by rw [hheld])
  refine leads_bind (leads_attempt ((upholds_applyMasks x indices log).mono
    fun outcome c hkept => ?_))
  obtain ⟨holds, log'⟩ := c
  obtain ⟨rfl, hgrows, hfault⟩ := hkept
  refine leads_bind (leads_attempt (stands_applySet_of_granted hcapset htarget cr.Restored
    (fun cr' hunderway => ?_) ?_))
  · obtain ⟨effective, ambient, bounding, rfl⟩ := hunderway
    refine ⟨?_, i, _, bounding, rfl⟩
    exact Kernel.admitsFlags_of_isWithin heffective (Mask.isWithin_refl _) (Mask.isWithin_refl _)
  · have hgrows' := hgrows.trans (List.prefix_append log'
      [⟨capsetOf ⟨cr.effective, cr.permitted, i, none⟩, .success⟩])
    cases outcome with
    | ok a => exact leads_pure (h _ _ hgrows' hfault)
    | error f => exact leads_throw (h _ _ hgrows' hfault)

/-- The first request is not made at all, or refused to all threads, or granted to all. -/
theorem stands_prepare (hcapset : k.script.spares .capset = true)
    (hfits : cr.fits k.capacity = true) (hi : i = x.inheritable ∩ Mask.below k.capacity.width)
    {needed : Bool} {Q : Except Fault Unit → Standing → Prop}
    (hrange : needed = true → k.capacity.count ≤ Value.setpcap →
      Q (.error .badValue) ⟨(· = cr), log⟩)
    (hrefused : (needed = true → Value.setpcap < k.capacity.count) → ∀ t,
      Q (.error (.os .notPermitted)) ⟨(· = cr), log ++ [⟨capsetOf t, .notPermitted⟩]⟩)
    (hgranted : (needed = true → Value.setpcap < k.capacity.count) → ∀ t,
      Q (.ok ()) ⟨cr.Underway i, log ++ [⟨capsetOf t, .success⟩]⟩) :
    Leads (Machine.Stands k indices) ⟨(· = cr), log⟩ (prepare needed (cr.targetFor x)) Q := by
  -- All threads have the same credentials, so the kernel answers them alike.
  have happly (hable : needed = true → Value.setpcap < k.capacity.count) (effective : Mask) :
      Leads (Machine.Stands k indices) ⟨(· = cr), log⟩
        (applySet { cr.targetFor x with effective }) Q := by
    have hwords := fitWords_targetFor hfits x effective
    rw [← hi] at hwords
    cases hadmits : Kernel.admitsFlags cr (effective ∩ Mask.below k.capacity.width)
        cr.permitted i with
    | true =>
        refine stands_applySet_of_granted hcapset hwords (cr.Underway i) ?_ (hgranted hable _)
        rintro _ rfl
        exact ⟨hadmits, _, _, _, rfl⟩
    | false =>
        refine stands_applySet_of_refused hcapset hwords ?_ (hrefused hable _)
        rintro _ rfl
        exact hadmits
  cases needed with
  | false => exact happly (fun hneeded => nomatch hneeded) cr.effective
  | true =>
      refine leads_bind (stands_capacity ?_)
      simp only [CapSet.set_effective]
      rcases Nat.lt_or_ge Value.setpcap k.capacity.count with hv | hv
      · rw [if_pos hv]
        exact happly (fun _ => hv) _
      · rw [if_neg (Nat.not_lt.mpr hv)]
        exact leads_throw (hrange rfl hv)

/-- A bounding value is found if the kernel answers for it and the script does not interfere. -/
theorem stands_isBounding (v : Value) {Q : Except Fault Bool → Standing → Prop}
    (h : ∀ answer, (k.script.spares .readBounding = true →
      answer = (k.bounds v && cr.bounding.contains v)) → Q (.ok answer) ⟨(· = cr), log⟩) :
    Leads (Machine.Stands k indices) ⟨(· = cr), log⟩ (isBounding v) Q := by
  refine leads_bind (leads_bind (leads_attempt (stands_ask rfl ?_ ?_)))
  · rintro n cr rfl hanswer
    refine leads_pure (leads_pure (h _ fun _ => ?_))
    simp only [Kernel.respond] at hanswer
    split at hanswer
    next hbounds =>
      cases hanswer
      rw [hbounds]
      cases cr.bounding.contains v <;> rfl
    next => cases hanswer
  · rintro e cr rfl hrefused
    refine leads_pure (leads_pure (h _ fun hspared => ?_))
    have hanswer := hrefused hspared
    simp only [Kernel.respond] at hanswer
    split at hanswer
    next => cases hanswer
    next hbounds =>
      rw [Bool.eq_false_iff.mpr hbounds]
      rfl

theorem stands_blocksAnything (x : Inheritance) (vs : List Value)
    {Q : Except Fault Bool → Standing → Prop}
    (h : ∀ answer, (k.script.spares .readBounding = true → answer = vs.any fun v =>
      x.blocked.contains v && (k.bounds v && cr.bounding.contains v)) →
        Q (.ok answer) ⟨(· = cr), log⟩) :
    Leads (Machine.Stands k indices) ⟨(· = cr), log⟩ (blocksAnything x vs) Q := by
  induction vs with
  | nil => exact leads_pure (h false fun _ => rfl)
  | cons v rest ih =>
      simp only [List.any_cons] at h
      refine leads_bind ?_
      cases hv : x.blocked.contains v with
      | false =>
          rw [hv] at h
          exact leads_pure (ih h)
      | true =>
          rw [hv] at h
          refine stands_isBounding v fun answer hanswer => ?_
          cases answer with
          | true =>
              refine leads_pure (h true fun hspared => ?_)
              rw [← hanswer hspared]
              rfl
          | false =>
              refine ih fun answer hrest => h answer fun hspared => ?_
              rw [← hanswer hspared]
              exact hrest hspared

/-- How applying a tuple can go: the first request is not made, or it is refused, or all comes
after it. -/
inductive Applied (k : Kernel) (cr : Credentials) (log : List Event) :
    Except Fault Unit → Standing → Prop
  | unsupported (hrange : k.capacity.count ≤ Value.setpcap) :
      Applied k cr log (.error .badValue) ⟨(· = cr), log⟩
  | refused (t : CapSet) :
      Applied k cr log (.error (.os .notPermitted))
        ⟨(· = cr), log ++ [⟨capsetOf t, .notPermitted⟩]⟩
  | settled (t : CapSet) {outcome : Except Fault Unit} {log' : List Event}
      (hgrows : log ++ [⟨capsetOf t, .success⟩] <+: log') (hfault : FromKernel outcome) :
      Applied k cr log outcome ⟨cr.Restored, log'⟩

theorem stands_applyTuple (hinspect : k.script.spares .inspect = true)
    (hcapset : k.script.spares .capset = true) (hfits : cr.fits k.capacity = true)
    (heffective : cr.effective.isWithin cr.permitted = true) (x : Inheritance) :
    Leads (Machine.Stands k indices) ⟨(· = cr), log⟩ (applyTuple x) fun outcome c =>
      Applied k cr log outcome c ∧
      (k.capacity.count ≤ Value.setpcap →
        (cr.isExtendedBy x = true ∨ k.script.spares .readBounding = true ∧
          k.bounds 0 = true ∧ cr.isBlockedBy x = true) → outcome = .error .badValue) := by
  rw [applyTuple_eq]
  refine leads_bind (stands_capacity (leads_bind (stands_readSet hinspect ?_)))
  rintro cr rfl
  rw [shownFlags_of_fits hfits]
  refine leads_bind (stands_blocksAnything x _ fun blocks hblocks => leads_bind ?_)
  have hneeded : (cr.isExtendedBy x = true ∨ k.script.spares .readBounding = true ∧
      k.bounds 0 = true ∧ cr.isBlockedBy x = true) → (cr.isExtendedBy x || blocks) = true := by
    rintro (hextends | ⟨hspared, hbounding, hblocked⟩)
    · rw [hextends, Bool.true_or]
    · rw [hblocks hspared, any_values_eq_isBlockedBy hbounding hfits, hblocked, Bool.or_true]
  refine stands_prepare hcapset hfits rfl ?_ ?_ ?_
  · intro _ hrange
    exact ⟨.unsupported hrange, fun _ _ => rfl⟩
  · intro hable t
    refine ⟨.refused t, fun hrange hneeds => ?_⟩
    exact absurd (hable (hneeded hneeds)) (Nat.not_lt.mpr hrange)
  · intro hable t
    refine stands_settle hcapset hfits heffective rfl fun outcome log' hgrows hfault => ?_
    refine ⟨.settled t hgrows hfault, fun hrange hneeds => ?_⟩
    exact absurd (hable (hneeded hneeds)) (Nat.not_lt.mpr hrange)

/-- The first request is to replace the flags, and if it is not granted, nothing has changed. -/
theorem Applied.requests {outcome : Except Fault Unit} {c : Standing}
    (h : Applied k cr log outcome c) :
    ∃ requests, c.log = log ++ requests ∧
      (∀ first ∈ requests.head?, ∃ t, first.request = capsetOf t) ∧
      (outcome = .error .badValue ↔ requests = []) ∧
      (requests = [] → k.capacity.count ≤ Value.setpcap) ∧
      ((∀ first ∈ requests.head?, first.errno ≠ .success) → c.holds = (· = cr)) := by
  cases h with
  | unsupported hrange => exact ⟨[], by simp, by simp, by simp, fun _ => hrange, fun _ => rfl⟩
  | refused t =>
      refine ⟨_, rfl, ?_, by simp, by simp, fun _ => rfl⟩
      rintro _ ⟨⟩
      exact ⟨t, rfl⟩
  | settled t hgrows hfault =>
      obtain ⟨rest, rfl⟩ := hgrows
      refine ⟨⟨capsetOf t, .success⟩ :: rest, by simp, ?_, ?_, by simp, ?_⟩
      · rintro _ ⟨⟩
        exact ⟨t, rfl⟩
      · constructor
        · rintro rfl
          cases hfault
        · intro hnone
          cases hnone
      · intro hrefused
        exact absurd rfl (hrefused _ rfl)

theorem Applied.restored {outcome : Except Fault Unit} {c : Standing}
    (h : Applied k cr log outcome c) {cr' : Credentials} (hcr : c.holds cr') : cr.Restored cr' := by
  cases h with
  | unsupported =>
      obtain rfl : cr' = cr := hcr
      exact cr'.restored_self
  | refused t =>
      obtain rfl : cr' = cr := hcr
      exact cr'.restored_self
  | settled => exact hcr

/-- Whatever else fails, on whichever threads: if reading and replacing flags is not made to fail,
then a tuple that is applied to threads with the same credentials leaves each of them with the
effective and the permitted flag, the secure bits, the user and the groups that it had. The first
request is to replace the flags. It is left out, as the fault shows, only if the capability to change
masks is not supported, and always if it is needed then. If it is left out or refused, nothing at
all has changed. -/
theorem applyTuple_restores {s s' : Machine} {x : Inheritance} {outcome : Except Fault Unit}
    (hinspect : s.kernel.script.spares .inspect = true)
    (hcapset : s.kernel.script.spares .capset = true) (hshares : s.Shares s.credentials)
    (hfits : s.credentials.fits s.capacity = true)
    (heffective : s.credentials.effective.isWithin s.credentials.permitted = true)
    (h : (applyTuple x).start s = some (outcome, s')) :
    s'.indices = s.indices ∧
    (∀ t ∈ s'.threads, ∃ inheritable ambient bounding,
      t.credentials = { s.credentials with inheritable, ambient, bounding }) ∧
    ∃ requests, s'.log = s.log ++ requests ∧
      (∀ first ∈ requests.head?, ∃ e p i, first.request = .call (.capset e p i)) ∧
      (outcome = .error .badValue ↔ requests = []) ∧
      (requests = [] → s.capacity.count ≤ Value.setpcap) ∧
      (s.capacity.count ≤ Value.setpcap →
        (s.credentials.isExtendedBy x = true ∨
          s.kernel.script.spares .readBounding = true ∧ s.kernel.bounds 0 = true ∧
            s.credentials.isBlockedBy x = true) → requests = []) ∧
      ((∀ first ∈ requests.head?, first.errno ≠ .success) →
        ∀ t ∈ s'.threads, t.credentials = s.credentials) := by
  obtain ⟨c, hstands, happlied, hunsupported⟩ :=
    stands_applyTuple hinspect hcapset hfits heffective x s s' outcome
      ⟨rfl, rfl, hshares, rfl⟩ h
  obtain ⟨requests, hlog, hfirst, hbad, hrange, hrefused⟩ := happlied.requests
  refine ⟨hstands.indices, fun t ht => happlied.restored (hstands.threads t ht),
    requests, hstands.log.trans hlog, ?_, hbad, hrange, ?_, ?_⟩
  · intro first hmem
    obtain ⟨t, ht⟩ := hfirst first hmem
    exact ⟨_, _, _, ht⟩
  · intro hrange hneeds
    exact hbad.mp (hunsupported hrange hneeds)
  · intro hfailed t ht
    have hcr := hstands.threads t ht
    rw [hrefused hfailed] at hcr
    exact hcr

/-- A process of two threads on a kernel that does not let go of value 4. -/
def falteringMachine : Machine :=
  { handingMachine with
    kernel := { handingMachine.kernel with
      script := [⟨.dropBounding, 0, some 4, none, .inputOutput⟩] } }

/-- The capability that was raised to drop the value is not effective any more. -/
theorem applyTuple_restores_falteringMachine :
    ∃ s', (applyTuple ⟨Mask.ofList [1, 5], Mask.single 1, Mask.single 4⟩).start falteringMachine =
        some (.error (.os .inputOutput), s') ∧
      ∀ t ∈ s'.threads, ∃ inheritable ambient bounding,
        t.credentials = { falteringMachine.credentials with inheritable, ambient, bounding } := by
  have hends : endsIn (applyTuple ⟨Mask.ofList [1, 5], Mask.single 1, Mask.single 4⟩)
      falteringMachine (.error (.os .inputOutput)) = true := by decide +kernel
  have hshares : falteringMachine.Shares falteringMachine.credentials :=
    show handingMachine.Shares handingMachine.credentials from
      (Machine.shares_of_others_eq_nil rfl).spawn
  obtain ⟨s', hstart⟩ := exists_of_endsIn hends
  obtain ⟨-, hrestored, -⟩ := applyTuple_restores (by decide) (by decide) hshares
    (by decide +kernel) (by decide +kernel) hstart
  exact ⟨s', hstart, hrestored⟩

end Act

end Capabilities
