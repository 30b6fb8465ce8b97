import Capabilities.Proofs.Act.Answers
import Capabilities.Proofs.Mode.Report

/-!
# What a mode is evidence of, whatever fails

The mode of a process is put together from many questions, and those about single
values make nothing of a failure but an ambient value or a blocked value that is
not shown. A failure can hide what makes a process uncertain, an ambient mask that is
not sealed. But it can only ever keep a process that has privileges from looking as
if it had none.
-/

namespace Capabilities

namespace Kernel

variable {k : Kernel} {cr : Credentials} {s : Snapshot}

/-- Nothing in a snapshot is made up: the flags and the secure bits are those that the thread
sees, and what there is to see of the two masks is all that may be missing. -/
structure Attests (k : Kernel) (cr : Credentials) (s : Snapshot) : Prop where
  secbits : s.secbits = Secbits.truncate cr.secbits
  ambientSupported : s.ambientSupported = true → k.ambients 0 = true
  caps : s.caps = k.shownFlags cr
  inheritable : s.tuple.inheritable = (k.shownTuple cr).inheritable
  ambient : s.tuple.ambient.isWithin (k.shownTuple cr).ambient = true
  blocked : s.tuple.blocked.isWithin (k.shownTuple cr).blocked = true

/-- The secure bits of every mode but the uncertain one are in place. -/
theorem Attests.secured (h : k.Attests cr s) (hsecured : s.isSecured = true) {v : Nat}
    (hv : Secbits.secured.contains v = true) : cr.secbits.contains v = true := by
  simp only [Snapshot.isSecured, Bool.and_eq_true] at hsecured
  rw [← Secbits.contains_truncate (Secbits.known_of_secured hv), ← h.secbits]
  exact (Mask.isWithin_iff _ _).mp hsecured.1 v hv

/-- Values that are all shown as blocked are all gone. -/
theorem Attests.lowered (h : k.Attests cr s) (hblocked : s.isBlocked k.capacity = true) {v : Nat}
    (hv : v < k.capacity.count) : k.bounds v = true ∧ cr.bounding.contains v = false := by
  have hshown : (k.shownTuple cr).blocked.contains v = true := by
    apply (Mask.isWithin_iff _ _).mp h.blocked v
    rw [beq_iff_eq.mp hblocked]
    simpa using hv
  rw [contains_shownTuple_blocked, decide_eq_true_eq] at hshown
  exact hshown.2

/-- Nothing is left in any mask of a thread. -/
structure IsDeprived (cr : Credentials) : Prop where
  flags : ∀ f, cr.holdings.flag f = ∅
  ambient : cr.ambient = ∅
  bounding : cr.bounding = ∅

/-- A thread that sees no flag and no bounding value has nothing left, if its masks have supported
values only, and nothing ambient that is not permitted and inheritable. -/
theorem isDeprived (hfits : cr.fits k.capacity = true)
    (hambient : cr.ambient.isWithin (cr.permitted ∩ cr.inheritable) = true)
    (hspent : k.IsSpent cr)
    (hlowered : ∀ v, v < k.capacity.count → cr.bounding.contains v = false) :
    IsDeprived cr := by
  have hwidth : k.capacity.count ≤ k.capacity.width := k.capacity.count_le
  have hflags (f : Flag) : cr.holdings.flag f = ∅ := by
    apply Mask.ext
    intro v
    rw [Mask.contains_empty, Bool.eq_false_iff]
    intro hv
    have hlt := CapSet.contains_of_fits (Credentials.fits_holdings hfits) hv
    rw [hspent f v (Nat.lt_of_lt_of_le hlt hwidth)] at hv
    cases hv
  refine ⟨hflags, ?_, ?_⟩
  · have hpermitted : cr.permitted = ∅ := hflags .permitted
    rw [hpermitted, Mask.empty_inter] at hambient
    rw [← Mask.inter_eq_left hambient, Mask.inter_empty]
  · apply Mask.ext
    intro v
    rw [Mask.contains_empty]
    by_cases hv : v < k.capacity.count
    · exact hlowered v hv
    · exact Mask.contains_eq_false_of_fits (Credentials.fits_bounding hfits) hv

end Kernel

namespace Act

variable {k : Kernel} {cr : Credentials}

/-- Whatever fails, a tuple that is read shows the inheritable values as they are, and no ambient
and no blocked value that the thread would not see. -/
theorem tells_readTuple :
    Tells k cr readTuple fun x =>
      x.inheritable = (k.shownTuple cr).inheritable ∧
        x.ambient.isWithin (k.shownTuple cr).ambient = true ∧
        x.blocked.isWithin (k.shownTuple cr).blocked = true := by
  refine tells_bind tells_capacity ?_
  rintro _ rfl
  refine tells_bind tells_readSet ?_
  rintro _ rfl
  refine tells_bind (tells_select tells_isAmbient _) fun ambient hambient => ?_
  refine tells_bind (tells_select tells_isBlocked _) fun blocked hblocked => ?_
  refine tells_pure ⟨rfl, ?_, ?_⟩
  · rw [Mask.isWithin_iff]
    intro v hv
    simp only [Mask.contains_ofList, decide_eq_true_eq] at hv
    rw [Kernel.contains_shownTuple_ambient, decide_eq_true_eq, ← Capacity.mem_values]
    exact hambient v hv
  · rw [Mask.isWithin_iff]
    intro v hv
    simp only [Mask.contains_ofList, decide_eq_true_eq] at hv
    rw [Kernel.contains_shownTuple_blocked, decide_eq_true_eq, ← Capacity.mem_values]
    exact hblocked v hv

theorem tells_snapshot : Tells k cr snapshot (k.Attests cr) := by
  refine tells_bind tells_readSecbits fun secbits hsecbits => ?_
  refine tells_bind tells_ambientSupported fun found hfound => ?_
  refine tells_bind tells_readSet fun caps hcaps => ?_
  refine tells_bind tells_readTuple fun tuple htuple => ?_
  obtain ⟨hinheritable, hambient, hblocked⟩ := htuple
  exact tells_pure ⟨hsecbits, hfound, hcaps, hinheritable, hambient, hblocked⟩

theorem tells_currentMode :
    Tells k cr currentMode fun m =>
      ∃ snapshot, k.Attests cr snapshot ∧ m = Mode.classify k.capacity snapshot := by
  refine tells_bind tells_snapshot fun snapshot hsnapshot => ?_
  refine tells_bind tells_capacity ?_
  rintro _ rfl
  exact tells_pure ⟨snapshot, hsnapshot, rfl⟩

/-- Whatever fails, if a process whose masks have supported values only, and nothing ambient that
is not permitted and inheritable, is reported to have no privileges, then nothing is left in any of
its masks and the secure bits of secured processes are set. What failures can hide is no more than
that there is an ambient mask and that the secure bits do not seal it. -/
theorem currentMode_noPriv_true {s s' : Machine} (hfits : s.credentials.fits s.capacity = true)
    (hambient : s.credentials.ambient.isWithin
      (s.credentials.permitted ∩ s.credentials.inheritable) = true)
    (h : currentMode.start s = some (.ok .noPriv, s')) :
    s'.credentials = s.credentials ∧
      (s.credentials.effective = ∅ ∧ s.credentials.permitted = ∅ ∧
        s.credentials.inheritable = ∅ ∧ s.credentials.ambient = ∅ ∧ s.credentials.bounding = ∅) ∧
      (∀ v ∈ [Secbits.noRoot, Secbits.noRootLocked, Secbits.noSetuidFixup,
          Secbits.noSetuidFixupLocked, Secbits.keepCapsLocked],
        s.credentials.secbits.contains v = true) ∧
      (currentMode.Yields s.unscripted .noPriv ↔
        (s.kernel.ambients 0 = true →
          Secbits.truncate s.credentials.secbits = Secbits.securedAmbient)) := by
  obtain ⟨hsame, snapshot, hattests, hmode⟩ := tells_currentMode.ends h
  obtain ⟨hcertain, hflags, hblocked⟩ := Mode.classify_eq_noPriv_iff.mp hmode.symm
  obtain ⟨hsecured, -⟩ := Mode.classify_ne_uncertain_iff.mp hcertain
  have hspent : s.kernel.IsSpent s.credentials := by
    rw [Kernel.isSpent_iff, ← hattests.caps]
    exact hflags
  have hgone : ∀ v, v < s.capacity.count →
      s.kernel.bounds v = true ∧ s.credentials.bounding.contains v = false :=
    fun v hv => hattests.lowered hblocked hv
  have hdeprived := Kernel.isDeprived hfits hambient hspent fun v hv => (hgone v hv).2
  have hbits : ∀ v, Secbits.secured.contains v = true →
      s.credentials.secbits.contains v = true := fun v hv => hattests.secured hsecured hv
  have hyields : currentMode.Yields s.unscripted .noPriv ↔
      s.kernel.shownMode s.credentials = .noPriv := reads_currentMode.yields_iff rfl
  refine ⟨hsame, ⟨hdeprived.flags .effective, hdeprived.flags .permitted,
    hdeprived.flags .inheritable, hdeprived.ambient, hdeprived.bounding⟩, ?_, ?_⟩
  · intro v hv
    apply hbits
    rw [Secbits.secured, Mask.contains_ofList, decide_eq_true_eq]
    exact hv
  · rw [hyields, Kernel.shownMode_eq_noPriv_iff, Kernel.shownMode_ne_uncertain_iff]
    constructor
    · rintro ⟨⟨hlocked, -⟩, -, -⟩
      exact hlocked.sealed
    · intro hsealed
      refine ⟨⟨⟨hbits, hsealed⟩, fun v _ _ => ?_⟩, hspent, hgone⟩
      rw [hdeprived.ambient, Mask.contains_empty]

/-- A process without privileges, whose ambient mask is not sealed and never answers. -/
def unsealedMachine : Machine :=
  Machine.start
    { version := Abi.third.code, valueCount := 41, boundingSupported := true,
      ambientSupported := true, processes := []
      script := [⟨.readAmbient, 0, none, none, .inputOutput⟩] }
    { effective := ∅, permitted := ∅, inheritable := ∅, ambient := ∅, bounding := ∅,
      secbits := Secbits.secured, uid := 1000, gid := 100, groups := [] }
    Table.empty

/-- The process is reported to have no privileges, which is true, but only because the failures hide
that its ambient mask is not sealed. -/
theorem currentMode_noPriv_true_unsealedMachine :
    ∃ s', currentMode.start unsealedMachine = some (.ok .noPriv, s') ∧
      unsealedMachine.credentials.bounding = ∅ ∧
      ¬ currentMode.Yields unsealedMachine.unscripted .noPriv := by
  obtain ⟨s', hstart⟩ : ∃ s', currentMode.start unsealedMachine = some (.ok .noPriv, s') :=
    exists_of_endsIn (by decide +kernel)
  obtain ⟨-, ⟨-, -, -, -, hbounding⟩, -, hyields⟩ :=
    currentMode_noPriv_true (by decide +kernel) (by decide +kernel) hstart
  refine ⟨s', hstart, hbounding, ?_⟩
  rw [hyields]
  exact fun hsealed => absurd (hsealed (by decide)) (by decide)

end Act

end Capabilities
