import Capabilities.Proofs.Act.Course
import Capabilities.Proofs.Act.Reading
import Capabilities.Proofs.Kernel.Support
import Capabilities.Proofs.Machine.Agreement

/-!
# What the acts of a process come to

All threads of a process have the same credentials before and after an act. So
an act is described by what may be its outcome and the credentials afterwards,
given those before. The rules follow the shape of acts: one for each way to put
acts together, and one for each request that acts are made of. The rules for
requests are those of a kernel without scripted failures.
-/

namespace Capabilities

namespace Kernel

variable {k : Kernel} {cr cr' : Credentials} {call : Call}

/-- Without scripted failures a thread ends a call as the kernel answers it. -/
theorem perform_of_script_eq_nil (hscript : k.script = []) (call : Call) (t : Thread) :
    match k.respond t.credentials call with
    | .ok answer =>
        (k.perform call t).1 = .ok answer.1 ∧ (k.perform call t).2.credentials = answer.2
    | .error e =>
        (k.perform call t).1 = .error e ∧ (k.perform call t).2.credentials = t.credentials := by
  cases hkind : call.kind? with
  | none =>
      cases call with
      | unknown => exact ⟨rfl, rfl⟩
      | _ => cases hkind
  | some kind =>
      rw [k.perform_eq hkind, hscript, FailureScript.errno?_nil]
      cases k.respond t.credentials call <;> exact ⟨rfl, rfl⟩

end Kernel

namespace Act

variable {α β : Type} {k : Kernel} {cr : Credentials}

/-- Started where all threads have the credentials `cr`, an act that does not abort the process
leaves the same threads, all of them with the same credentials again, such that these and the
outcome are as described. -/
def Ensures (k : Kernel) (cr : Credentials) (x : Act α)
    (Q : Except Fault α → Credentials → Prop) : Prop :=
  ∀ (s t : Machine) (outcome : Except Fault α), s.kernel = k → s.Shares cr →
    x.start s = some (outcome, t) →
      t.kernel = k ∧ t.indices = s.indices ∧ ∃ cr', t.Shares cr' ∧ Q outcome cr'

/-- The kernel and the numbers of all threads, and the credentials that they have in common. -/
structure Concurs (k : Kernel) (indices : List Nat) (s : Machine) (cr : Credentials) : Prop where
  kernel : s.kernel = k
  indices : s.indices = indices
  shares : s.Shares cr

theorem ensures_iff {x : Act α} {Q : Except Fault α → Credentials → Prop} :
    Ensures k cr x Q ↔ ∀ indices, Leads (Concurs k indices) cr x Q := by
  constructor
  · rintro h indices s t outcome ⟨hkernel, rfl, hshares⟩ hstart
    obtain ⟨hkernel', hindices, cr', hshares', hQ⟩ := h s t outcome hkernel hshares hstart
    exact ⟨cr', ⟨hkernel', hindices, hshares'⟩, hQ⟩
  · intro h s t outcome hkernel hshares hstart
    obtain ⟨cr', ⟨hkernel', hindices, hshares'⟩, hQ⟩ :=
      h s.indices s t outcome ⟨hkernel, rfl, hshares⟩ hstart
    exact ⟨hkernel', hindices, cr', hshares', hQ⟩

theorem Ensures.mono {x : Act α} {P Q : Except Fault α → Credentials → Prop}
    (h : Ensures k cr x P) (hPQ : ∀ outcome cr', P outcome cr' → Q outcome cr') :
    Ensures k cr x Q :=
  ensures_iff.mpr fun indices => (ensures_iff.mp h indices).mono hPQ

/-- An act that goes by steps comes to an end, and what is ensured holds there. -/
theorem Ensures.ends {x : Act α} {s : Machine} {Q : Except Fault α → Credentials → Prop}
    (h : Ensures s.kernel s.credentials x Q) (hx : BySteps x) (hscript : s.kernel.script = [])
    (hshares : s.Shares s.credentials) :
    ∃ outcome t, x.start s = some (outcome, t) ∧ t.kernel = s.kernel ∧ t.indices = s.indices ∧
      ∃ cr', t.Shares cr' ∧ Q outcome cr' := by
  have himpartial : s.kernel.script.isImpartial = true := by
    rw [hscript]
    rfl
  obtain ⟨outcome, t, hstart, -⟩ := hx.ends himpartial hshares
  exact ⟨outcome, t, hstart, h s t outcome rfl hshares hstart⟩

theorem ensures_pure {a : α} {Q : Except Fault α → Credentials → Prop} (h : Q (.ok a) cr) :
    Ensures k cr (pure a) Q :=
  ensures_iff.mpr fun _ => leads_pure h

theorem ensures_throw {f : Fault} {Q : Except Fault α → Credentials → Prop}
    (h : Q (.error f) cr) : Ensures k cr (throw f) Q :=
  ensures_iff.mpr fun _ => leads_throw h

/-- An act goes on with the credentials that the one before it left. -/
theorem ensures_bind {x : Act α} {f : α → Act β} {Q : Except Fault β → Credentials → Prop}
    (h : Ensures k cr x fun outcome cr' =>
      match outcome with
      | .ok a => Ensures k cr' (f a) Q
      | .error e => Q (.error e) cr') :
    Ensures k cr (x >>= f) Q := by
  refine ensures_iff.mpr fun indices => leads_bind ?_
  refine (ensures_iff.mp h indices).mono fun outcome cr' hnext => ?_
  cases outcome with
  | ok a => exact ensures_iff.mp hnext indices
  | error e => exact hnext

theorem ensures_attempt {x : Act α} {Q : Except Fault (Except Fault α) → Credentials → Prop}
    (h : Ensures k cr x fun outcome cr' => Q (.ok outcome) cr') : Ensures k cr (attempt x) Q :=
  ensures_iff.mpr fun indices => leads_attempt (ensures_iff.mp h indices)

theorem ensures_succeeds {x : Act α} {Q : Except Fault Bool → Credentials → Prop}
    (h : Ensures k cr x fun outcome cr' => Q (.ok outcome.isOk) cr') :
    Ensures k cr (succeeds x) Q :=
  ensures_iff.mpr fun indices => leads_succeeds (ensures_iff.mp h indices)

theorem ensures_ignoring {x : Act α} {Q : Except Fault Unit → Credentials → Prop}
    (h : Ensures k cr x fun _ cr' => Q (.ok ()) cr') : Ensures k cr (ignoring x) Q :=
  ensures_iff.mpr fun indices => leads_ignoring (ensures_iff.mp h indices)

/-- A guarded act either goes on, or ends with its fault after the clean-up. -/
theorem ensures_onFault_bind {x : Act α} {cleanup : Act Unit} {f : α → Act β}
    {Q : Except Fault β → Credentials → Prop}
    (h : Ensures k cr x fun outcome cr' =>
      match outcome with
      | .ok a => Ensures k cr' (f a) Q
      | .error e => Ensures k cr' cleanup fun _ cr'' => Q (.error e) cr'') :
    Ensures k cr (onFault x cleanup >>= f) Q := by
  refine ensures_iff.mpr fun indices => leads_onFault_bind ?_
  refine (ensures_iff.mp h indices).mono fun outcome cr' hrest => ?_
  cases outcome with
  | ok a => exact ensures_iff.mp hrest indices
  | error e => exact ensures_iff.mp hrest indices

/-- A question leaves the credentials as they are. -/
theorem Reads.ensures {x : Act α} {answer : Except Fault α} (h : Reads k cr x answer)
    (hscript : k.script = []) {Q : Except Fault α → Credentials → Prop} (hQ : Q answer cr) :
    Ensures k cr x Q := by
  intro s t outcome hkernel hshares hstart
  obtain ⟨hmain, hothers⟩ := Machine.shares_iff.mp hshares
  obtain ⟨attempts, hreads⟩ := h s hkernel hmain hscript
  rw [hstart] at hreads
  cases hreads
  exact ⟨hkernel, rfl, cr, Machine.shares_iff.mpr ⟨hmain, hothers⟩, hQ⟩

/-- An act goes on with the answer to a question. -/
theorem Reads.ensures_bind {x : Act α} {a : α} (h : Reads k cr x (.ok a))
    (hscript : k.script = []) {f : α → Act β} {Q : Except Fault β → Credentials → Prop}
    (hf : Ensures k cr (f a) Q) : Ensures k cr (x >>= f) Q :=
  Act.ensures_bind (h.ensures hscript hf)

/-- A call made on every thread ends as the kernel answers it to a thread with the common
credentials. -/
theorem ensures_broadcast (hscript : k.script = []) {call : Call}
    {Q : Except Fault Nat → Credentials → Prop}
    (h : match k.respond cr call with
      | .ok answer => Q (.ok answer.1) answer.2
      | .error e => Q (.error (.os e)) cr) :
    Ensures k cr (broadcast call) Q := by
  intro s t outcome hkernel hshares hstart
  subst hkernel
  have himpartial : s.kernel.script.isImpartial = true := by rw [hscript]; rfl
  obtain ⟨u, hbroadcast, hkernel, hindices, hshares'⟩ := hshares.broadcast himpartial call
  rw [broadcast, start_request, hbroadcast] at hstart
  cases hstart
  refine ⟨hkernel, hindices, _, hshares', ?_⟩
  have hperform := s.kernel.perform_of_script_eq_nil hscript call s.main
  have hmain : s.main.credentials = cr := (Machine.shares_iff.mp hshares).1
  rw [hmain] at hperform
  cases hanswer : s.kernel.respond cr call with
  | error e =>
      rw [hanswer] at h hperform
      rw [hperform.1, hperform.2]
      exact h
  | ok answer =>
      rw [hanswer] at h hperform
      rw [hperform.1, hperform.2]
      exact h

/-- A call made on every thread, for its effect alone. -/
theorem ensures_command (hscript : k.script = []) {call : Call}
    {Q : Except Fault Unit → Credentials → Prop}
    (h : match k.respond cr call with
      | .ok answer => Q (.ok ()) answer.2
      | .error e => Q (.error (.os e)) cr) :
    Ensures k cr (do let _ ← broadcast call) Q := by
  refine ensures_bind (ensures_broadcast hscript ?_)
  cases hanswer : k.respond cr call with
  | error e =>
      rw [hanswer] at h
      exact h
  | ok answer =>
      rw [hanswer] at h
      exact ensures_pure h

end Act

/-- What a thread is left with when its flags are replaced by those of a set. -/
def Credentials.withFlags (cr : Credentials) (s : CapSet) : Credentials :=
  { cr with
    effective := s.effective
    permitted := s.permitted
    inheritable := s.inheritable
    ambient := cr.ambient ∩ (s.permitted ∩ s.inheritable) }

/-- The flags of a thread with one more value effective. -/
def Credentials.holdingsWith (cr : Credentials) (v : Value) : CapSet :=
  { cr.holdings with effective := cr.effective ∪ Mask.single v }

@[simp] theorem Credentials.has_withFlags_holdingsWith (cr : Credentials) (v : Value) :
    (cr.withFlags (cr.holdingsWith v)).has v = true := by
  simp [has, withFlags, holdingsWith]

/-- Of flags that are given up in two steps, the second step decides. -/
theorem Credentials.withFlags_withFlags (cr : Credentials) {s t : CapSet}
    (hp : t.permitted.isWithin s.permitted = true)
    (hi : t.inheritable.isWithin s.inheritable = true) :
    (cr.withFlags s).withFlags t = cr.withFlags t := by
  have hambient : cr.ambient ∩ (s.permitted ∩ s.inheritable) ∩ (t.permitted ∩ t.inheritable) =
      cr.ambient ∩ (t.permitted ∩ t.inheritable) := by
    rw [Mask.isWithin_iff] at hp hi
    apply Mask.ext
    intro v
    simp only [Mask.contains_inter]
    cases hpermitted : t.permitted.contains v with
    | false => simp
    | true =>
        cases hinheritable : t.inheritable.contains v with
        | false => simp
        | true => simp [hp v hpermitted, hi v hinheritable]
  simp only [withFlags, hambient]

theorem Kernel.respond_capset (k : Kernel) (cr : Credentials) (s : CapSet) :
    k.respond cr (.capset s.effective s.permitted s.inheritable) =
      if admitsFlags cr s.effective s.permitted s.inheritable = true then
        .ok (0, cr.withFlags s)
      else .error .notPermitted := rfl

/-- Flags that add nothing to what is permitted and inheritable are always granted. -/
theorem Kernel.admitsFlags_of_isWithin {cr : Credentials} {e p i : Mask}
    (he : e.isWithin p = true) (hp : p.isWithin cr.permitted = true)
    (hi : i.isWithin cr.inheritable = true) : admitsFlags cr e p i = true := by
  have hwithin (m : Mask) : i.isWithin (cr.inheritable ∪ m) = true :=
    Mask.isWithin_union_left hi m
  simp [admitsFlags, he, hp, hwithin]

/-- A value is raised beside what is held exactly if it is permitted. -/
theorem Kernel.admitsFlags_raise {cr : Credentials}
    (heffective : cr.effective.isWithin cr.permitted = true) (v : Value) :
    admitsFlags cr (cr.effective ∪ Mask.single v) cr.permitted cr.inheritable =
      cr.permitted.contains v := by
  have hwithin (m : Mask) : cr.inheritable.isWithin (cr.inheritable ∪ m) = true :=
    Mask.isWithin_union_left (Mask.isWithin_refl _) m
  simp [admitsFlags, hwithin, Mask.union_isWithin, heffective]

namespace Act

variable {k : Kernel} {cr : Credentials}

theorem shownFlags_of_fits (h : cr.fits k.capacity = true) : k.shownFlags cr = cr.holdings :=
  fitWords_of_fits (Credentials.fits_holdings h)

/-- A set is applied to all threads or to none, as the words of the interface show it. -/
theorem ensures_applySet_words (hscript : k.script = []) {s : CapSet}
    {Q : Except Fault Unit → Credentials → Prop}
    (hgranted : Kernel.admitsFlags cr (fitWords k.capacity s).effective
        (fitWords k.capacity s).permitted (fitWords k.capacity s).inheritable = true →
      Q (.ok ()) (cr.withFlags (fitWords k.capacity s)))
    (hrefused : Kernel.admitsFlags cr (fitWords k.capacity s).effective
        (fitWords k.capacity s).permitted (fitWords k.capacity s).inheritable = false →
      Q (.error (.os .notPermitted)) cr) :
    Ensures k cr (applySet s) Q := by
  refine reads_capacity.ensures_bind hscript (ensures_command hscript ?_)
  rw [Kernel.respond_capset]
  cases hadmits : Kernel.admitsFlags cr (fitWords k.capacity s).effective
      (fitWords k.capacity s).permitted (fitWords k.capacity s).inheritable with
  | true => exact hgranted hadmits
  | false => exact hrefused hadmits

theorem ensures_applySet (hscript : k.script = []) {s : CapSet} (hs : s.fits k.capacity = true)
    {Q : Except Fault Unit → Credentials → Prop}
    (hgranted : Kernel.admitsFlags cr s.effective s.permitted s.inheritable = true →
      Q (.ok ()) (cr.withFlags s))
    (hrefused : Kernel.admitsFlags cr s.effective s.permitted s.inheritable = false →
      Q (.error (.os .notPermitted)) cr) :
    Ensures k cr (applySet s) Q := by
  have hwords := fitWords_of_fits hs
  refine ensures_applySet_words hscript ?_ ?_ <;> rw [hwords]
  · exact hgranted
  · exact hrefused

theorem ensures_lower (hscript : k.script = []) {s : CapSet} (hs : s.fits k.capacity = true)
    {Q : Except Fault Unit → Credentials → Prop}
    (hgranted : Kernel.admitsFlags cr ∅ s.permitted s.inheritable = true →
      Q (.ok ()) (cr.withFlags (s.clearFlag .effective)))
    (hrefused : Kernel.admitsFlags cr ∅ s.permitted s.inheritable = false →
      Q (.error (.os .notPermitted)) cr) :
    Ensures k cr (lower s) Q :=
  ensures_applySet hscript (CapSet.fits_clearFlag hs .effective) hgranted hrefused

/-- Giving up flags is always granted. -/
theorem ensures_lower_of_isWithin (hscript : k.script = []) {s : CapSet}
    (hs : s.fits k.capacity = true) (hp : s.permitted.isWithin cr.permitted = true)
    (hi : s.inheritable.isWithin cr.inheritable = true)
    {Q : Except Fault Unit → Credentials → Prop}
    (h : Q (.ok ()) (cr.withFlags (s.clearFlag .effective))) : Ensures k cr (lower s) Q := by
  have hadmits : Kernel.admitsFlags cr ∅ s.permitted s.inheritable = true :=
    Kernel.admitsFlags_of_isWithin (Mask.empty_isWithin _) hp hi
  exact ensures_lower hscript hs (fun _ => h) fun hrefused => by simp [hadmits] at hrefused

/-- Raising a supported value beside those of a set is applying the set with it. -/
theorem ensures_raise_of_applySet (hscript : k.script = []) {s : CapSet} {v : Value}
    {Q : Except Fault Unit → Credentials → Prop}
    (hrange : k.capacity.count ≤ v → Q (.error .badValue) cr)
    (hsupported : v < k.capacity.count →
      Ensures k cr (applySet { s with effective := s.effective ∪ Mask.single v }) Q) :
    Ensures k cr (raise s v) Q := by
  refine reads_capacity.ensures_bind hscript ?_
  rw [CapSet.set_effective]
  rcases Nat.lt_or_ge v k.capacity.count with hv | hv
  · rw [if_pos hv]
    exact hsupported hv
  · rw [if_neg (Nat.not_lt.mpr hv)]
    exact ensures_throw (hrange hv)

/-- A value is raised if the kernel supports it and grants the set with it. -/
theorem ensures_raise (hscript : k.script = []) {s : CapSet} (hs : s.fits k.capacity = true)
    {v : Value} {Q : Except Fault Unit → Credentials → Prop}
    (hrange : k.capacity.count ≤ v → Q (.error .badValue) cr)
    (hgranted : v < k.capacity.count →
      Kernel.admitsFlags cr (s.effective ∪ Mask.single v) s.permitted s.inheritable = true →
        Q (.ok ()) (cr.withFlags { s with effective := s.effective ∪ Mask.single v }))
    (hrefused : v < k.capacity.count →
      Kernel.admitsFlags cr (s.effective ∪ Mask.single v) s.permitted s.inheritable = false →
        Q (.error (.os .notPermitted)) cr) :
    Ensures k cr (raise s v) Q :=
  ensures_raise_of_applySet hscript hrange fun hv =>
    ensures_applySet hscript (CapSet.fits_raise hs hv) (hgranted hv) (hrefused hv)

/-- A value is raised beside what is held exactly if it is supported and permitted. -/
theorem ensures_raise_holdings (hscript : k.script = []) (hfits : cr.fits k.capacity = true)
    (heffective : cr.effective.isWithin cr.permitted = true) {v : Value}
    {Q : Except Fault Unit → Credentials → Prop}
    (hgranted : v < k.capacity.count → cr.permitted.contains v = true →
      Q (.ok ()) (cr.withFlags (cr.holdingsWith v)))
    (hrefused : ∀ f, f = .badValue ∨ f = .os .notPermitted →
      (v < k.capacity.count → cr.permitted.contains v = false) → Q (.error f) cr) :
    Ensures k cr (raise cr.holdings v) Q := by
  have hadmits : Kernel.admitsFlags cr (cr.holdings.effective ∪ Mask.single v)
      cr.holdings.permitted cr.holdings.inheritable = cr.permitted.contains v :=
    Kernel.admitsFlags_raise heffective v
  refine ensures_raise hscript (Credentials.fits_holdings hfits) ?_ ?_ ?_
  · intro hrange
    exact hrefused _ (.inl rfl) fun hv => absurd hv (Nat.not_lt.mpr hrange)
  · intro hv hgrant
    exact hgranted hv (hadmits ▸ hgrant)
  · intro _ hrefuse
    exact hrefused _ (.inr rfl) fun _ => hadmits ▸ hrefuse

theorem ensures_setSecbits (hscript : k.script = []) {bits : Secbits}
    (hbits : bits.isWithin Secbits.known = true) (hhas : cr.has Value.setpcap = true)
    {Q : Except Fault Unit → Credentials → Prop}
    (hgranted : cr.secbits.admitsChange bits = true → Q (.ok ()) { cr with secbits := bits })
    (hrefused : cr.secbits.admitsChange bits = false → Q (.error (.os .notPermitted)) cr) :
    Ensures k cr (setSecbits bits) Q := by
  apply ensures_command hscript
  simp only [Kernel.respond, Kernel.admitsSecbits, hhas, hbits, Bool.true_and]
  cases hadmits : cr.secbits.admitsChange bits with
  | true => exact hgranted hadmits
  | false => exact hrefused hadmits

theorem ensures_setKeepCaps (hscript : k.script = []) {keep : Bool}
    {Q : Except Fault Unit → Credentials → Prop}
    (hgranted : cr.secbits.contains Secbits.keepCapsLocked = false →
      Q (.ok ()) { cr with
        secbits := if keep then cr.secbits ∪ Mask.single Secbits.keepCaps
          else cr.secbits \ Mask.single Secbits.keepCaps })
    (hrefused : cr.secbits.contains Secbits.keepCapsLocked = true →
      Q (.error (.os .notPermitted)) cr) :
    Ensures k cr (setKeepCaps keep) Q := by
  apply ensures_command hscript
  cases hlocked : cr.secbits.contains Secbits.keepCapsLocked with
  | true => cases keep <;> simpa [Kernel.respond, hlocked] using hrefused hlocked
  | false => cases keep <;> simpa [Kernel.respond, hlocked] using hgranted hlocked

theorem ensures_clearAmbient (hscript : k.script = []) (hsupported : k.ambientSupported = true)
    {Q : Except Fault Unit → Credentials → Prop} (h : Q (.ok ()) { cr with ambient := ∅ }) :
    Ensures k cr clearAmbient Q := by
  apply ensures_command hscript
  rw [Kernel.respond, if_pos hsupported]
  exact h

theorem ensures_lowerAmbient (hscript : k.script = []) {v : Value} (hv : k.ambients v = true)
    {Q : Except Fault Unit → Credentials → Prop}
    (h : Q (.ok ()) { cr with ambient := cr.ambient \ Mask.single v }) :
    Ensures k cr (setAmbient v false) Q := by
  apply ensures_command hscript
  simp only [Bool.false_eq_true, if_false, Kernel.respond, hv, if_true]
  exact h

theorem ensures_raiseAmbient (hscript : k.script = []) {v : Value}
    {Q : Except Fault Unit → Credentials → Prop}
    (hgranted : k.ambients v = true → Kernel.admitsAmbient cr v = true →
      Q (.ok ()) { cr with ambient := cr.ambient ∪ Mask.single v })
    (hrefused : (k.ambients v && Kernel.admitsAmbient cr v) = false → ∀ f, Q (.error f) cr) :
    Ensures k cr (setAmbient v true) Q := by
  apply ensures_command hscript
  cases hv : k.ambients v with
  | false =>
      simp only [if_true, Kernel.respond, hv, Bool.not_false]
      exact hrefused (by rw [hv, Bool.false_and]) _
  | true =>
      simp only [if_true, Kernel.respond, hv, Bool.not_true, Bool.false_eq_true, if_false]
      cases hadmits : Kernel.admitsAmbient cr v with
      | false => exact hrefused (by rw [hadmits, Bool.and_false]) _
      | true => exact hgranted hv hadmits

theorem ensures_dropBounding (hscript : k.script = []) {v : Value} (hv : k.bounds v = true)
    (hhas : cr.has Value.setpcap = true) {Q : Except Fault Unit → Credentials → Prop}
    (h : Q (.ok ()) { cr with bounding := cr.bounding \ Mask.single v }) :
    Ensures k cr (dropBounding v) Q := by
  apply ensures_command hscript
  simp only [Kernel.respond, hhas, Bool.not_true, Bool.false_eq_true, if_false, hv, if_true]
  exact h

end Act

end Capabilities
