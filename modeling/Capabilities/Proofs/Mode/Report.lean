import Capabilities.Proofs.Act.Guard
import Capabilities.Proofs.Mode.Entry

/-!
# When the mode without privileges is reported as entered

Success means that no flag and no ambient value is left, and that the secure bits
are locked. But it does not depend on the bounding mask: values are dropped from it
until one cannot be dropped, and where the kernel has no bounding mask that
is the first one. Nor does it tell a kernel without an ambient mask from one that
was made to fail when it was asked for it. So the process may be in another mode.
-/

namespace Capabilities

/-- The machine as it goes on without scripted failures. -/
def Machine.unscripted (s : Machine) : Machine :=
  { s with kernel := { s.kernel with script := [] } }

namespace Kernel

variable {k : Kernel} {cr : Credentials}

/-- What success of entering the mode without privileges means for a thread. -/
structure IsStripped (k : Kernel) (cr : Credentials) : Prop where
  flags : ∀ f, cr.holdings.flag f = ∅
  ambient : cr.ambient = ∅
  secbits : cr.secbits = k.entryBits ∨
    cr.secbits = Secbits.secured ∧ k.script.spares .readAmbient = false
  bounding : k.script.spares .dropBounding = true → k.bounds 0 = true →
    ∀ v, v < k.capacity.count → cr.bounding.contains v = false

theorem IsStripped.secured (h : k.IsStripped cr) :
    Secbits.secured.isWithin cr.secbits = true := by
  rcases h.secbits with hbits | ⟨hbits, -⟩
  · rw [hbits, entryBits]
    split <;> decide
  · rw [hbits]
    decide

/-- The mode of a stripped thread depends on the lock of the ambient mask and on the
bounding mask. -/
theorem IsStripped.shownMode_eq_noPriv_iff (h : k.IsStripped cr) :
    k.shownMode cr = .noPriv ↔
      (k.ambients 0 = true → cr.secbits = Secbits.securedAmbient) ∧
        ∀ v, v < k.capacity.count → k.bounds v = true ∧ cr.bounding.contains v = false := by
  have hspent : k.IsSpent cr := fun f v _ => by rw [h.flags, Mask.contains_empty]
  have hambient : ∀ v, v < k.capacity.count → k.ambients v = true →
      cr.ambient.contains v = false := fun v _ _ => by rw [h.ambient, Mask.contains_empty]
  have hlocked : k.IsLocked cr ↔ (k.ambients 0 = true → cr.secbits = Secbits.securedAmbient) := by
    constructor
    · intro hlocked hzero
      rcases h.secbits with hbits | ⟨hbits, -⟩
      · rw [hbits, entryBits, if_pos hzero]
      · have hsealed := hlocked.sealed hzero
        rw [hbits] at hsealed
        exact absurd hsealed (by decide)
    · intro hsealed
      refine ⟨(Mask.isWithin_iff _ _).mp h.secured, fun hzero => ?_⟩
      rw [hsealed hzero]
      decide
  rw [Kernel.shownMode_eq_noPriv_iff, shownMode_ne_uncertain_iff, hlocked]
  constructor
  · rintro ⟨⟨hsealed, -⟩, -, hblocked⟩
    exact ⟨hsealed, hblocked⟩
  · rintro ⟨hsealed, hblocked⟩
    exact ⟨⟨hsealed, hambient⟩, hspent, hblocked⟩

/-- Where neither asking for the ambient mask nor dropping values is made to fail, a stripped
thread has no privileges. -/
theorem IsStripped.shownMode_of_spares (h : k.IsStripped cr) (hbounding : k.bounds 0 = true)
    (hambient : k.script.spares .readAmbient = true)
    (hdrop : k.script.spares .dropBounding = true) : k.shownMode cr = .noPriv := by
  rw [h.shownMode_eq_noPriv_iff]
  refine ⟨fun hzero => ?_, fun v hv => ?_⟩
  · rcases h.secbits with hbits | ⟨-, hfails⟩
    · rw [hbits, entryBits, if_pos hzero]
    · rw [hambient] at hfails
      cases hfails
  · exact ⟨bounds_of_lt_count hbounding hv, h.bounding hdrop hbounding v hv⟩

end Kernel

namespace Act

variable {k : Kernel} {cr : Credentials}

/-- If the secure bits are locked at all, then as it seems to be the right way. -/
theorem leaves_secure :
    Leaves k cr secure fun outcome cr' => outcome = .ok () →
      ∃ ambient secbits, cr' = { cr with ambient, secbits } ∧
        (secbits = k.entryBits ∨
          secbits = Secbits.secured ∧ k.script.spares .readAmbient = false) := by
  have hset (cr : Credentials) (bits : Secbits) :
      Leaves k cr (setSecbits bits) fun outcome cr' =>
        outcome = .ok () → cr' = { cr with secbits := bits } := by
    refine leaves_command (fun n cr' hanswer _ => ?_) fun e _ => nofun
    exact (Kernel.of_ite_eq_ok hanswer).2.1
  refine leads_bind (leaves_ambientSupported (fun hzero => ?_) fun hno => ?_)
  · refine leads_bind (leaves_command (fun n cr' hanswer => ?_) fun e _ => nofun)
    obtain ⟨-, rfl, -⟩ := Kernel.of_ite_eq_ok hanswer
    refine (hset _ _).mono fun outcome cr' hbits hok => ⟨∅, _, hbits hok, .inl ?_⟩
    rw [Kernel.entryBits, if_pos hzero]
  · refine (hset _ _).mono fun outcome cr' hbits hok => ⟨cr.ambient, _, hbits hok, ?_⟩
    cases hspared : k.script.spares .readAmbient with
    | false => exact .inr ⟨rfl, rfl⟩
    | true =>
        rw [Kernel.entryBits, hno hspared]
        exact .inl rfl

/-- A thread that has raised the capability for it is stripped, unless it is told of a fault. -/
theorem leaves_strip (hhas : cr.has Value.setpcap = true) (caps : CapSet) :
    Leaves k cr
      (do
        let kept := caps.clearFlag .inheritable
        Act.onFault secure (lower kept)
        dropWhilePossible (← Act.capacity).values
        lower (kept.clearFlag .permitted)) fun outcome cr' =>
      outcome = .ok () → k.IsStripped cr' := by
  refine leads_onFault_bind (leaves_secure.mono fun outcome cr₂ hsecured => ?_)
  cases outcome with
  | error f => exact leaves_applySet nofun fun _ _ => nofun
  | ok a =>
      obtain ⟨ambient, secbits, rfl, hbits⟩ := hsecured rfl
      refine leads_bind (leaves_capacity (leads_bind ?_))
      refine (leaves_dropWhilePossible _).mono fun outcome cr₃ hdropped => ?_
      obtain ⟨rfl, dropped, -, rfl, hall⟩ := hdropped
      refine leaves_applySet (fun _ => ?_) fun _ _ => nofun
      have hnothing : ∅ ∩ Mask.below k.capacity.width = ∅ := Mask.empty_inter _
      refine ⟨fun f => ?_, ?_, hbits, fun hspared hbounding v hv => ?_⟩
      · cases f <;> exact hnothing
      · show ambient ∩ (∅ ∩ Mask.below k.capacity.width ∩ (∅ ∩ Mask.below k.capacity.width)) = ∅
        rw [hnothing, Mask.empty_inter, Mask.inter_empty]
      · have hvalues : ∀ u ∈ k.capacity.values, k.bounds u = true := fun u hu =>
          Kernel.bounds_of_lt_count hbounding (Capacity.mem_values.mp hu)
        obtain rfl := hall hspared hhas hvalues
        show (cr.bounding \ Mask.ofList k.capacity.values).contains v = false
        simp [Capacity.ofList_values, hv]

theorem leaves_enterSecured_noPriv :
    Leaves k cr (enterSecured .noPriv) fun outcome cr' => outcome = .ok () → k.IsStripped cr' := by
  refine leads_bind (leaves_readSet ?_ fun _ e => nofun)
  refine leads_onFault_bind (leaves_raise (fun hrange => ?_) fun f => ?_)
  · exact leaves_strip (has_raised hrange _ _) _
  · exact leaves_applySet nofun fun _ _ => nofun

/-- If entering the mode without privileges is reported to have succeeded, whatever failed on the
way, then nothing is effective, permitted, inheritable or ambient any more and the secure bits are
locked. But the process is in the mode only if these seal the ambient mask, where there is one, and
if no supported value is left in the bounding mask. Both is sure only where the kernel has such a
mask and neither asking for the ambient mask nor dropping values was made to fail. -/
theorem enterMode_noPriv_reported {s s' : Machine}
    (h : (enterMode .noPriv).start s = some (.ok (), s')) :
    (∀ f, s'.credentials.holdings.flag f = ∅) ∧ s'.credentials.ambient = ∅ ∧
      Secbits.secured.isWithin s'.credentials.secbits = true ∧
      (currentMode.Yields s'.unscripted .noPriv ↔
        (s.kernel.ambients 0 = true → s'.credentials.secbits = Secbits.securedAmbient) ∧
        ∀ v, v < s.capacity.count →
          s.kernel.bounds v = true ∧ s'.credentials.bounding.contains v = false) ∧
      (s.kernel.bounds 0 = true → s.kernel.script.spares .readAmbient = true →
        s.kernel.script.spares .dropBounding = true →
          currentMode.Yields s'.unscripted .noPriv) := by
  have hleaves : Leaves s.kernel s.credentials (enterMode .noPriv) _ := leaves_enterSecured_noPriv
  obtain ⟨hkernel, hok⟩ := hleaves.ends h
  have hstripped := hok rfl
  have hyields : currentMode.Yields s'.unscripted .noPriv ↔
      s.kernel.shownMode s'.credentials = .noPriv := by
    rw [← hkernel]
    exact reads_currentMode.yields_iff rfl
  refine ⟨hstripped.flags, hstripped.ambient, hstripped.secured, ?_, ?_⟩
  · rw [hyields]
    exact hstripped.shownMode_eq_noPriv_iff
  · intro hbounding hambient hdrop
    exact hyields.mpr (hstripped.shownMode_of_spares hbounding hambient hdrop)

/-- A process of two threads at user 0 on a kernel without an ambient mask, where nothing can be
read from the bounding mask. -/
def blindMachine : Machine :=
  (Machine.start
    { version := Abi.third.code, valueCount := 38, boundingSupported := true,
      ambientSupported := false, processes := []
      script := [⟨.readBounding, 0, none, none, .inputOutput⟩] }
    { effective := ∅, permitted := Mask.below 38, inheritable := Mask.single 3, ambient := ∅,
      bounding := Mask.below 38, secbits := ∅, uid := 0, gid := 0, groups := [] }
    Table.empty).spawn

theorem enterMode_noPriv_reported_blindMachine :
    ∃ s', (enterMode .noPriv).start blindMachine = some (.ok (), s') ∧
      currentMode.Yields s'.unscripted .noPriv := by
  have hends : ((enterMode .noPriv).start blindMachine).any (fun reply => reply.1.isOk) = true := by
    decide +kernel
  obtain ⟨⟨outcome, s'⟩, hstart, hok⟩ := (Option.any_eq_true _ _).mp hends
  cases outcome with
  | error f => cases hok
  | ok a =>
      obtain ⟨-, -, -, -, hreached⟩ := enterMode_noPriv_reported hstart
      exact ⟨s', hstart, hreached (by decide +kernel) (by decide) (by decide)⟩

/-- A privileged process on a kernel that does not let go of value 3. -/
def clingingMachine : Machine :=
  Machine.start
    { version := Abi.third.code, valueCount := 41, boundingSupported := true,
      ambientSupported := true, processes := []
      script := [⟨.dropBounding, 0, some 3, none, .notPermitted⟩] }
    { effective := Mask.below 41, permitted := Mask.below 41, inheritable := ∅, ambient := ∅,
      bounding := Mask.below 41, secbits := ∅, uid := 0, gid := 0, groups := [] }
    Table.empty

/-- Success is reported, but value 3 is left and the process is in the initial pure mode. -/
theorem enterMode_noPriv_unreached_clingingMachine :
    ∃ s', (enterMode .noPriv).start clingingMachine = some (.ok (), s') ∧
      ¬ currentMode.Yields s'.unscripted .noPriv ∧ currentMode.Yields s'.unscripted .pureInit ∧
      3 < clingingMachine.capacity.count ∧ s'.credentials.bounding.contains 3 = true := by
  have hends : ((enterMode .noPriv).start clingingMachine).any (fun reply =>
      reply.1.isOk &&
        decide (reply.2.unscripted.kernel.shownMode reply.2.credentials = .pureInit) &&
        reply.2.credentials.bounding.contains 3) = true := by decide +kernel
  obtain ⟨⟨outcome, s'⟩, hstart, hleft⟩ := (Option.any_eq_true _ _).mp hends
  simp only [Bool.and_eq_true, decide_eq_true_eq] at hleft
  obtain ⟨⟨hok, hmode⟩, hcontains⟩ := hleft
  cases outcome with
  | error f => cases hok
  | ok a =>
      have hyields (m : Mode) : currentMode.Yields s'.unscripted m ↔ .pureInit = m := by
        rw [← hmode]
        exact reads_currentMode.yields_iff rfl
      refine ⟨s', hstart, ?_, (hyields _).mpr rfl, by decide +kernel, hcontains⟩
      rw [hyields]
      decide

end Act

end Capabilities
