import Capabilities.Proofs.Act.Reachability
import Capabilities.Proofs.Act.Reading
import Capabilities.Proofs.Kernel.Changes
import Capabilities.Proofs.Mode.Classification
import Capabilities.Proofs.Secbits.Locks

/-!
# Locked modes

The secure bits of a process that is not uncertain lock themselves and, if there
is an ambient mask, keep it from growing. So such a process never becomes
uncertain. Once it has no privileges, there is nothing left from which a call
could give it any.
-/

namespace Capabilities

namespace Kernel

variable {k : Kernel} {cr cr' : Credentials}

/-- A kernel that answers for an ambient value answers for the first one. -/
theorem ambients_zero {v : Nat} (h : k.ambients v = true) : k.ambients 0 = true := by
  simp only [ambients, knows, Bool.and_eq_true, decide_eq_true_eq] at h ⊢
  obtain ⟨hsupported, hcount, -⟩ := h
  exact ⟨hsupported, by omega, by decide⟩

/-- The secure bits of a process that is not uncertain. -/
structure IsLocked (k : Kernel) (cr : Credentials) : Prop where
  secured : ∀ v, Secbits.secured.contains v = true → cr.secbits.contains v = true
  sealed : k.ambients 0 = true → Secbits.truncate cr.secbits = Secbits.securedAmbient

theorem IsLocked.of_secbits_eq (h : k.IsLocked cr) (hsame : cr'.secbits = cr.secbits) :
    k.IsLocked cr' :=
  ⟨hsame ▸ h.secured, hsame ▸ h.sealed⟩

theorem IsLocked.contains_of_sealed (h : k.IsLocked cr) (hzero : k.ambients 0 = true) {v : Nat}
    (hv : Secbits.securedAmbient.contains v = true) : cr.secbits.contains v = true := by
  rw [← h.sealed hzero, Secbits.truncate, Mask.contains_inter, Bool.and_eq_true] at hv
  exact hv.1

/-- The locks admit no change of the bits that a locked process relies on. -/
theorem IsLocked.of_admitsChange (h : k.IsLocked cr)
    (hadmits : cr.secbits.admitsChange cr'.secbits = true) : k.IsLocked cr' where
  secured v hv := by
    have hkept := Secbits.contains_of_guards Secbits.guards_secured h.secured hadmits
      (Secbits.known_of_secured hv) hv
    rw [hkept]
    exact h.secured v hv
  sealed hzero := by
    rw [← h.sealed hzero]
    apply Mask.ext
    intro v
    cases hknown : Secbits.known.contains v with
    | false => simp [Secbits.truncate, hknown]
    | true =>
        have hkept := Secbits.contains_of_guards Secbits.guards_securedAmbient
          (fun _ hlock => h.contains_of_sealed hzero hlock) hadmits hknown hknown
        rw [Secbits.contains_truncate hknown, Secbits.contains_truncate hknown, hkept]

theorem IsLocked.keepCapsLocked (h : k.IsLocked cr) :
    cr.secbits.contains Secbits.keepCapsLocked = true :=
  h.secured _ (by decide)

/-- No ambient value can be raised in a locked process. -/
theorem IsLocked.admitsAmbient_eq_false (h : k.IsLocked cr) {v : Nat}
    (hv : k.ambients v = true) : admitsAmbient cr v = false := by
  have hnoRaise : cr.secbits.contains Secbits.noAmbientRaise = true :=
    h.contains_of_sealed (ambients_zero hv) (by decide)
  rw [admitsAmbient, hnoRaise, Bool.not_true, Bool.and_false]

theorem Changes.isLocked (h : k.Changes cr cr') (hlocked : k.IsLocked cr) : k.IsLocked cr' := by
  cases h with
  | keepCaps secbits hfree _ => simp [hlocked.keepCapsLocked] at hfree
  | secbits hadmits =>
      simp only [admitsSecbits, Bool.and_eq_true] at hadmits
      exact hlocked.of_admitsChange hadmits.2
  | user _ => exact hlocked.of_secbits_eq (cr.secbits_switchUser _)
  | _ => exact hlocked.of_secbits_eq rfl

/-- Values leave the bounding mask for good, whatever the secure bits are. -/
theorem Changes.bounding_lowered (h : k.Changes cr cr') {v : Nat}
    (hv : cr.bounding.contains v = false) : cr'.bounding.contains v = false := by
  cases h with
  | dropBounding _ _ => rw [Mask.contains_sdiff, hv, Bool.false_and]
  | user _ => rw [cr.bounding_switchUser, hv]
  | _ => exact hv

/-- The ambient mask of a locked process only shrinks. -/
theorem Changes.ambient_lowered (h : k.Changes cr cr') (hlocked : k.IsLocked cr) {v : Nat}
    (hv : cr.ambient.contains v = false) : cr'.ambient.contains v = false := by
  cases h with
  | flags _ => rw [Mask.contains_inter, hv, Bool.false_and]
  | raiseAmbient hu hadmits =>
      rw [hlocked.admitsAmbient_eq_false hu] at hadmits
      cases hadmits
  | lowerAmbient _ => rw [Mask.contains_sdiff, hv, Bool.false_and]
  | clearAmbient _ => exact Mask.contains_empty v
  | user _ => exact (cr.switchUser_lowered _).1 hv
  | _ => exact hv

/-- No flag has a value that fits the words of the interface. -/
def IsSpent (k : Kernel) (cr : Credentials) : Prop :=
  ∀ f v, v < k.capacity.width → (cr.holdings.flag f).contains v = false

theorem IsSpent.has_setpcap (h : k.IsSpent cr) : cr.has Value.setpcap = false := by
  apply h .effective
  have hwords := k.capacity.abi.words_pos
  show 8 < 32 * k.capacity.abi.words
  omega

/-- From empty flags no call raises anything: what becomes effective or permitted is permitted
already, and what becomes inheritable is inheritable or permitted already. -/
theorem Changes.isSpent (h : k.Changes cr cr') (hspent : k.IsSpent cr) : k.IsSpent cr' := by
  cases h with
  | @flags e p i hadmits =>
      simp only [admitsFlags, hspent.has_setpcap, Bool.false_or, Bool.and_eq_true] at hadmits
      obtain ⟨⟨⟨hi, -⟩, hp⟩, he⟩ := hadmits
      intro f v hv
      have hpermitted : p.contains v = false :=
        Mask.contains_eq_false_of_isWithin hp (hspent .permitted v hv)
      cases f with
      | effective => exact Mask.contains_eq_false_of_isWithin he hpermitted
      | permitted => exact hpermitted
      | inheritable =>
          have hinheritable : cr.inheritable.contains v = false := hspent .inheritable v hv
          have hheld : cr.permitted.contains v = false := hspent .permitted v hv
          apply Mask.contains_eq_false_of_isWithin hi
          rw [Mask.contains_union, hinheritable, hheld, Bool.or_self]
  | @user uid _ =>
      intro f v hv
      obtain ⟨-, hpermitted, heffective⟩ := cr.switchUser_lowered uid (v := v)
      cases f with
      | effective => exact heffective (hspent .effective v hv) (hspent .permitted v hv)
      | permitted => exact hpermitted (hspent .permitted v hv)
      | inheritable =>
          show (cr.switchUser uid).inheritable.contains v = false
          rw [cr.inheritable_switchUser]
          exact hspent .inheritable v hv
  | _ => exact hspent

/-- What is left to a process that was locked before. -/
structure Retains (k : Kernel) (old new : Credentials) : Prop where
  locked : k.IsLocked new
  ambient : ∀ v, old.ambient.contains v = false → new.ambient.contains v = false
  bounding : ∀ v, old.bounding.contains v = false → new.bounding.contains v = false
  spent : k.IsSpent old → k.IsSpent new

theorem Retains.changes {old : Credentials} (hold : k.Retains old cr) (h : k.Changes cr cr') :
    k.Retains old cr' where
  locked := h.isLocked hold.locked
  ambient v hv := h.ambient_lowered hold.locked (hold.ambient v hv)
  bounding v hv := h.bounding_lowered (hold.bounding v hv)
  spent hspent := h.isSpent (hold.spent hspent)

end Kernel

/-- Whatever a locked process does, it stays locked and gets nothing back. -/
theorem Machine.Reaches.retains {s t : Machine} (run : s.Reaches t)
    (hlocked : s.kernel.IsLocked s.credentials) :
    s.kernel.Retains s.credentials t.credentials := by
  apply run.credentials_induction (P := fun cr => s.kernel.Retains s.credentials cr)
  · exact ⟨hlocked, fun _ h => h, fun _ h => h, fun h => h⟩
  · intro cr call n cr' hold hanswer
    exact hold.changes (Kernel.changes_of_respond hanswer)

namespace Kernel

variable {k : Kernel} {cr : Credentials}

theorem isSecured_shownSnapshot_iff :
    (k.shownSnapshot cr).isSecured = true ↔ k.IsLocked cr := by
  simp only [Snapshot.isSecured, shownSnapshot, Bool.and_eq_true, Mask.isWithin_iff,
    Bool.or_eq_true, Bool.not_eq_true', beq_iff_eq]
  constructor
  · rintro ⟨hsecured, hsealed⟩
    constructor
    · intro v hv
      rw [← Secbits.contains_truncate (Secbits.known_of_secured hv)]
      exact hsecured v hv
    · intro hzero
      rcases hsealed with hnone | hsealed
      · rw [hzero] at hnone
        cases hnone
      · exact hsealed
  · intro h
    constructor
    · intro v hv
      rw [Secbits.contains_truncate (Secbits.known_of_secured hv)]
      exact h.secured v hv
    · cases hzero : k.ambients 0 with
      | false => exact .inl rfl
      | true => exact .inr (h.sealed hzero)

theorem shownMode_ne_uncertain_iff :
    k.shownMode cr ≠ .uncertain ↔ k.IsLocked cr ∧
      ∀ v, v < k.capacity.count → k.ambients v = true → cr.ambient.contains v = false := by
  have hambient : (k.shownTuple cr).ambient = ∅ ↔
      ∀ v, v < k.capacity.count → k.ambients v = true → cr.ambient.contains v = false := by
    constructor
    · intro h v hv hanswers
      have hshown := k.contains_shownTuple_ambient cr v
      simpa [h, hv, hanswers] using hshown
    · intro h
      apply Mask.ext
      intro v
      rw [contains_shownTuple_ambient, Mask.contains_empty, decide_eq_false_iff_not]
      rintro ⟨hv, hanswers, hraised⟩
      rw [h v hv hanswers] at hraised
      cases hraised
  rw [shownMode, Mode.classify_ne_uncertain_iff, isSecured_shownSnapshot_iff, ← hambient]
  rfl

theorem isSpent_iff : k.IsSpent cr ↔ ∀ f, (k.shownFlags cr).flag f = ∅ := by
  have hcontains (f : Flag) (v : Nat) : ((k.shownFlags cr).flag f).contains v =
      ((cr.holdings.flag f).contains v && decide (v < k.capacity.width)) := by
    cases f <;> simp [shownFlags, Act.fitWords, CapSet.flag]
  constructor
  · intro h f
    apply Mask.ext
    intro v
    rw [hcontains, Mask.contains_empty]
    by_cases hv : v < k.capacity.width
    · rw [h f v hv, Bool.false_and]
    · simp [hv]
  · intro h f v hv
    have hshown := hcontains f v
    simpa [h f, hv] using hshown

theorem isBlocked_shownSnapshot_iff :
    (k.shownSnapshot cr).isBlocked k.capacity = true ↔
      ∀ v, v < k.capacity.count → k.bounds v = true ∧ cr.bounding.contains v = false := by
  simp only [Snapshot.isBlocked, shownSnapshot, beq_iff_eq]
  constructor
  · intro h v hv
    have hshown := k.contains_shownTuple_blocked cr v
    rw [h, Mask.contains_below, decide_eq_decide] at hshown
    exact (hshown.mp hv).2
  · intro h
    apply Mask.ext
    intro v
    rw [contains_shownTuple_blocked, Mask.contains_below, decide_eq_decide]
    exact ⟨fun hv => hv.1, fun hv => ⟨hv, h v hv⟩⟩

theorem shownMode_eq_noPriv_iff :
    k.shownMode cr = .noPriv ↔ k.shownMode cr ≠ .uncertain ∧ k.IsSpent cr ∧
      ∀ v, v < k.capacity.count → k.bounds v = true ∧ cr.bounding.contains v = false := by
  rw [isSpent_iff, ← isBlocked_shownSnapshot_iff]
  exact Mode.classify_eq_noPriv_iff

/-- What is retained of a mode other than the uncertain one is such a mode. -/
theorem Retains.shownMode_ne_uncertain {old new : Credentials} (h : k.Retains old new)
    (hold : k.shownMode old ≠ .uncertain) : k.shownMode new ≠ .uncertain := by
  obtain ⟨-, hambient⟩ := shownMode_ne_uncertain_iff.mp hold
  apply shownMode_ne_uncertain_iff.mpr
  refine ⟨h.locked, ?_⟩
  intro v hv hanswers
  exact h.ambient v (hambient v hv hanswers)

theorem Retains.shownMode_eq_noPriv {old new : Credentials} (h : k.Retains old new)
    (hold : k.shownMode old = .noPriv) : k.shownMode new = .noPriv := by
  obtain ⟨hcertain, hspent, hblocked⟩ := shownMode_eq_noPriv_iff.mp hold
  apply shownMode_eq_noPriv_iff.mpr
  refine ⟨h.shownMode_ne_uncertain hcertain, h.spent hspent, ?_⟩
  intro v hv
  obtain ⟨hbounds, hlowered⟩ := hblocked v hv
  exact ⟨hbounds, h.bounding v hlowered⟩

end Kernel

namespace Action

/-- No run of actions, whichever of them succeed, leaves the modes other than the uncertain
one. From the mode without privileges it does not even lead to another mode: all flags stay
empty, and no ambient or bounding value is ever raised again. -/
theorem performAll_stays_locked {s s' : Machine} {m : Mode} {actions : List Action}
    (hscript : s.kernel.script = []) (hmode : Act.currentMode.Yields s m) (hm : m ≠ .uncertain)
    (hrun : performAll actions s = some s') :
    ∃ m', Act.currentMode.Yields s' m' ∧ m' ≠ .uncertain ∧
      (m = .noPriv →
        m' = .noPriv ∧
        (∃ caps, Act.readSet.Yields s' caps ∧ ∀ f, caps.flag f = ∅) ∧
        ∀ v, v < s.capacity.count →
          s'.credentials.bounding.contains v = false ∧
          (s.kernel.ambients v = true → s'.credentials.ambient.contains v = false) ∧
          (s.credentials.ambient.contains v = false →
            s'.credentials.ambient.contains v = false)) := by
  have hshown := (Act.reads_currentMode.yields_iff hscript).mp hmode
  subst hshown
  have hreaches := reaches_of_performAll hrun
  have hkernel := hreaches.kernel_eq
  have hscript' : s'.kernel.script = [] := by rw [hkernel, hscript]
  obtain ⟨hlocked, hambient⟩ := Kernel.shownMode_ne_uncertain_iff.mp hm
  have hretains := hreaches.retains hlocked
  refine ⟨s'.kernel.shownMode s'.credentials,
    (Act.reads_currentMode.yields_iff hscript').mpr rfl, ?_, ?_⟩
  · rw [hkernel]
    exact hretains.shownMode_ne_uncertain hm
  · intro hnoPriv
    obtain ⟨-, hspent, hblocked⟩ := Kernel.shownMode_eq_noPriv_iff.mp hnoPriv
    refine ⟨?_, ?_, ?_⟩
    · rw [hkernel]
      exact hretains.shownMode_eq_noPriv hnoPriv
    · refine ⟨_, (Act.reads_readSet.yields_iff hscript').mpr rfl, ?_⟩
      rw [hkernel]
      exact Kernel.isSpent_iff.mp (hretains.spent hspent)
    · intro v hv
      refine ⟨hretains.bounding v (hblocked v hv).2, ?_, hretains.ambient v⟩
      intro hanswers
      exact hretains.ambient v (hambient v hv hanswers)

/-- A process without privileges on a kernel that answers for every value of its vectors. -/
def spentMachine : Machine :=
  Machine.start
    { version := Abi.third.code, valueCount := 64, boundingSupported := true,
      ambientSupported := true, processes := [], script := [] }
    { effective := ∅, permitted := ∅, inheritable := ∅, ambient := ∅, bounding := ∅,
      secbits := Secbits.securedAmbient, uid := 1000, gid := 100, groups := [] }
    Table.empty

/-- An attempt at each way to gain something. -/
def vainActions : List Action :=
  [.spawn, .setUid 0, .applySet ⟨Mask.single 7, Mask.single 7, ∅, none⟩, .setKeepCaps true,
   .setSecbits ∅, .setAmbient 7 true, .applyTuple ⟨Mask.single 7, ∅, ∅⟩, .enterMode .pure]

theorem performAll_stays_locked_spentMachine :
    ∃ s', performAll vainActions spentMachine = some s' ∧ Act.currentMode.Yields s' .noPriv := by
  have hends : (performAll vainActions spentMachine).isSome = true := by decide +kernel
  have hshown : spentMachine.kernel.shownMode spentMachine.credentials = .noPriv := by
    decide +kernel
  have hmode : Act.currentMode.Yields spentMachine .noPriv :=
    (Act.reads_currentMode.yields_iff rfl).mpr hshown
  obtain ⟨s', hrun⟩ := Option.isSome_iff_exists.mp hends
  obtain ⟨m', hyields, -, hkept⟩ := performAll_stays_locked rfl hmode (by decide) hrun
  obtain ⟨rfl, -⟩ := hkept rfl
  exact ⟨s', hrun, hyields⟩

end Action

end Capabilities
