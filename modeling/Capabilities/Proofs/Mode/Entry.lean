import Capabilities.Proofs.Act.Effect
import Capabilities.Proofs.Mode.Lock

/-!
# Entering a mode

A mode can be entered where the capability to do so is permitted and the locks
admit the secure bits of a secured process. Whoever enters it is left with
nothing effective, and with as much of the other masks as the mode stands for.
-/

namespace Capabilities

namespace Mode

/-- What is kept of a set until a mode is entered. -/
def kept (m : Mode) (s : CapSet) : CapSet := if m = .pure then s else s.clearFlag .inheritable

theorem fits_kept {c : Capacity} {s : CapSet} (hs : s.fits c = true) (m : Mode) :
    (m.kept s).fits c = true := by
  unfold kept
  split
  · exact hs
  · exact CapSet.fits_clearFlag hs _

theorem permitted_kept (m : Mode) (s : CapSet) : (m.kept s).permitted = s.permitted := by
  unfold kept
  split <;> rfl

theorem inheritable_kept (m : Mode) (s : CapSet) :
    (m.kept s).inheritable = if m = .pure then s.inheritable else ∅ := by
  unfold kept
  split <;> rfl

end Mode

namespace Kernel

variable {k : Kernel} {cr : Credentials} {m : Mode}

/-- The secure bits that a thread gets on entering a mode. -/
def entryBits (k : Kernel) : Secbits :=
  if k.ambients 0 then Secbits.securedAmbient else Secbits.secured

/-- A thread without its ambient mask, if the kernel has such masks. -/
def withoutAmbient (k : Kernel) (cr : Credentials) : Credentials :=
  { cr with ambient := if k.ambients 0 then ∅ else cr.ambient }

/-- Whether a thread can enter a mode. -/
def admitsEntry (k : Kernel) (cr : Credentials) : Bool :=
  k.capacity.admits Value.setpcap && cr.permitted.contains Value.setpcap &&
    cr.secbits.admitsChange k.entryBits

theorem admitsEntry_iff :
    k.admitsEntry cr = true ↔
      Value.setpcap < k.capacity.count ∧ cr.permitted.contains Value.setpcap = true ∧
      cr.secbits.admitsChange k.entryBits = true := by
  simp only [admitsEntry, Capacity.admits, Bool.and_eq_true, decide_eq_true_eq, and_assoc]

/-- What a thread is left with when it has entered a mode. -/
def entered (k : Kernel) (m : Mode) (cr : Credentials) : Credentials :=
  let permitted := if m = .noPriv then ∅ else cr.permitted
  let inheritable := if m = .pure then cr.inheritable else ∅
  { cr with
    effective := ∅
    permitted
    inheritable
    ambient := if k.ambients 0 then ∅ else cr.ambient ∩ (permitted ∩ inheritable)
    bounding := if m = .noPriv then ∅ else cr.bounding
    secbits := k.entryBits }

theorem withoutAmbient_withFlags (k : Kernel) (cr : Credentials) (s : CapSet) :
    k.withoutAmbient (cr.withFlags s) = (k.withoutAmbient cr).withFlags s := by
  cases hzero : k.ambients 0 <;> simp [withoutAmbient, Credentials.withFlags, hzero]

/-- It does not matter what was raised in between: of the flags, those that are left decide. -/
theorem entered_eq (k : Kernel) (m : Mode) (cr : Credentials) {s t : CapSet}
    (he : t.effective = ∅) (hp : t.permitted = if m = .noPriv then ∅ else cr.permitted)
    (hi : t.inheritable = if m = .pure then cr.inheritable else ∅)
    (hpermitted : t.permitted.isWithin s.permitted = true)
    (hinheritable : t.inheritable.isWithin s.inheritable = true) :
    k.entered m cr =
      { (k.withoutAmbient (cr.withFlags s)).withFlags t with
        bounding := if m = .noPriv then ∅ else cr.bounding
        secbits := k.entryBits } := by
  rw [withoutAmbient_withFlags, Credentials.withFlags_withFlags _ hpermitted hinheritable]
  cases hzero : k.ambients 0 <;>
    simp [entered, withoutAmbient, Credentials.withFlags, he, hp, hi, hzero]

end Kernel

namespace Act

variable {k : Kernel} {cr : Credentials}

/-- The ambient mask is cleared whether or not the secure bits can be changed. -/
theorem ensures_secure (hscript : k.script = []) (hhas : cr.has Value.setpcap = true)
    {Q : Except Fault Unit → Credentials → Prop}
    (hgranted : cr.secbits.admitsChange k.entryBits = true →
      Q (.ok ()) { k.withoutAmbient cr with secbits := k.entryBits })
    (hrefused : cr.secbits.admitsChange k.entryBits = false →
      Q (.error (.os .notPermitted)) (k.withoutAmbient cr)) :
    Ensures k cr secure Q := by
  refine reads_ambientSupported.ensures_bind hscript ?_
  cases hzero : k.ambients 0 with
  | false =>
      have hbits : k.entryBits = Secbits.secured := by simp [Kernel.entryBits, hzero]
      have hambient : k.withoutAmbient cr = cr := by simp [Kernel.withoutAmbient, hzero]
      rw [hbits, hambient] at hgranted hrefused
      have hknown : Secbits.secured.isWithin Secbits.known = true := by decide
      exact ensures_setSecbits hscript hknown hhas hgranted hrefused
  | true =>
      have hbits : k.entryBits = Secbits.securedAmbient := by simp [Kernel.entryBits, hzero]
      have hambient : k.withoutAmbient cr = { cr with ambient := ∅ } := by
        simp [Kernel.withoutAmbient, hzero]
      have hsupported : k.ambientSupported = true := by
        simp only [Kernel.ambients, Bool.and_eq_true] at hzero
        exact hzero.1
      rw [hbits, hambient] at hgranted hrefused
      have hknown : Secbits.securedAmbient.isWithin Secbits.known = true := by decide
      have hhas' : Credentials.has { cr with ambient := ∅ } Value.setpcap = true := hhas
      refine ensures_bind (ensures_clearAmbient hscript hsupported ?_)
      exact ensures_setSecbits hscript hknown hhas' hgranted hrefused

theorem ensures_dropWhilePossible (hscript : k.script = []) {vs : List Value}
    (hvs : ∀ v ∈ vs, k.bounds v = true) (hhas : cr.has Value.setpcap = true)
    {Q : Except Fault Unit → Credentials → Prop}
    (h : Q (.ok ()) { cr with bounding := cr.bounding \ Mask.ofList vs }) :
    Ensures k cr (dropWhilePossible vs) Q := by
  induction vs generalizing cr with
  | nil =>
      rw [Mask.ofList_nil, Mask.sdiff_empty] at h
      exact ensures_pure h
  | cons v rest ih =>
      rw [Mask.ofList_cons, Mask.sdiff_union] at h
      obtain ⟨hv, hrest⟩ := List.forall_mem_cons.mp hvs
      refine ensures_bind (ensures_succeeds (ensures_dropBounding hscript hv hhas ?_))
      exact ih hrest hhas h

/-- Whatever was raised to get there, a mode is entered by lowering the flags to those that
belong to it. -/
theorem ensures_lower_entered (hscript : k.script = []) {m : Mode} {s t : CapSet}
    {before : Credentials}
    (hbefore : before = { k.withoutAmbient (cr.withFlags s) with
      bounding := if m = .noPriv then ∅ else cr.bounding
      secbits := k.entryBits })
    (ht : t.fits k.capacity = true)
    (hp : t.permitted = if m = .noPriv then ∅ else cr.permitted)
    (hi : t.inheritable = if m = .pure then cr.inheritable else ∅)
    (hsp : s.permitted = cr.permitted) (hsi : s.inheritable = cr.inheritable)
    {Q : Except Fault Unit → Credentials → Prop} (h : Q (.ok ()) (k.entered m cr)) :
    Ensures k before (lower t) Q := by
  subst hbefore
  have hpermitted : t.permitted.isWithin s.permitted = true := by
    rw [hp, hsp]
    split <;> simp
  have hinheritable : t.inheritable.isWithin s.inheritable = true := by
    rw [hi, hsi]
    split <;> simp
  rw [k.entered_eq m cr (t := t.clearFlag .effective) rfl hp hi hpermitted hinheritable] at h
  exact ensures_lower_of_isWithin hscript ht hpermitted hinheritable h

/-- The last part of entering a mode: give up what does not belong to it. -/
def relinquish (m : Mode) (kept : CapSet) : Act Unit := do
  if m = .noPriv then
    dropWhilePossible (← Act.capacity).values
    lower (kept.clearFlag .permitted)
  else
    lower kept

theorem enterSecured_eq (m : Mode) :
    enterSecured m = (do
      let caps ← readSet
      Act.onFault (raise caps Value.setpcap) (lower caps)
      Act.onFault secure (lower (m.kept caps))
      relinquish m (m.kept caps)) := rfl

/-- Entering a mode is given up where the capability for it cannot be raised, and where the locks
refuse its secure bits. What was raised is lowered in either case, which is always granted. -/
theorem ensures_enterSecured_of_relinquish (hscript : k.script = [])
    (hfits : cr.fits k.capacity = true) (heffective : cr.effective.isWithin cr.permitted = true)
    {m : Mode} {Q : Except Fault Unit → Credentials → Prop}
    (hunraised : ∀ f, f = .badValue ∨ f = .os .notPermitted →
      (Value.setpcap < k.capacity.count → cr.permitted.contains Value.setpcap = false) →
      Q (.error f) (cr.withFlags (cr.holdings.clearFlag .effective)))
    (hlocked : Value.setpcap < k.capacity.count → cr.permitted.contains Value.setpcap = true →
      cr.secbits.admitsChange k.entryBits = false →
      Q (.error (.os .notPermitted))
        ((k.withoutAmbient cr).withFlags ((m.kept cr.holdings).clearFlag .effective)))
    (hsecured : Value.setpcap < k.capacity.count → cr.permitted.contains Value.setpcap = true →
      cr.secbits.admitsChange k.entryBits = true →
      Ensures k
        { k.withoutAmbient (cr.withFlags (cr.holdingsWith Value.setpcap)) with
          secbits := k.entryBits }
        (relinquish m (m.kept cr.holdings)) Q) :
    Ensures k cr (enterSecured m) Q := by
  have hholdings := Credentials.fits_holdings hfits
  have hkept := m.fits_kept hholdings
  have hpermitted : (m.kept cr.holdings).permitted.isWithin cr.permitted = true := by
    rw [m.permitted_kept]
    exact Mask.isWithin_refl _
  have hinheritable : (m.kept cr.holdings).inheritable.isWithin cr.inheritable = true := by
    rw [m.inheritable_kept]
    split
    · exact Mask.isWithin_refl _
    · exact Mask.empty_isWithin _
  rw [enterSecured_eq]
  refine reads_readSet.ensures_bind hscript ?_
  rw [shownFlags_of_fits hfits]
  refine ensures_onFault_bind (ensures_raise_holdings hscript hfits heffective ?_ ?_)
  · intro hrange hheld
    refine ensures_onFault_bind (ensures_secure hscript ?_ (hsecured hrange hheld) ?_)
    · exact cr.has_withFlags_holdingsWith _
    · intro hlocks
      -- What was raised in between does not show any more.
      have hsame : (k.withoutAmbient (cr.withFlags (cr.holdingsWith Value.setpcap))).withFlags
          ((m.kept cr.holdings).clearFlag .effective) =
            (k.withoutAmbient cr).withFlags ((m.kept cr.holdings).clearFlag .effective) := by
        rw [k.withoutAmbient_withFlags]
        exact Credentials.withFlags_withFlags _ hpermitted hinheritable
      have hleft := hlocked hrange hheld hlocks
      rw [← hsame] at hleft
      refine ensures_lower_of_isWithin hscript hkept ?_ ?_ hleft
      · exact hpermitted
      · exact hinheritable
  · intro f hreason hdenied
    exact ensures_lower_of_isWithin hscript hholdings (Mask.isWithin_refl _)
      (Mask.isWithin_refl _) (hunraised f hreason hdenied)

/-- A secured mode is entered or not, depending on the credentials before. -/
theorem ensures_enterSecured (hscript : k.script = []) (hbounding : k.bounds 0 = true)
    (hfits : cr.fits k.capacity = true) (heffective : cr.effective.isWithin cr.permitted = true)
    (m : Mode) :
    Ensures k cr (enterSecured m) fun outcome cr' =>
      (outcome = .ok () ↔ k.admitsEntry cr = true) ∧
      (outcome = .ok () → cr' = k.entered m cr) := by
  have hkept := m.fits_kept (Credentials.fits_holdings hfits)
  refine ensures_enterSecured_of_relinquish hscript hfits heffective ?_ ?_ ?_
  · -- The capability cannot be raised, whether it is unknown or not permitted.
    intro f _ hdenied
    have hentry : k.admitsEntry cr = false := by
      rw [Bool.eq_false_iff]
      intro h
      obtain ⟨hrange, hpermitted, -⟩ := Kernel.admitsEntry_iff.mp h
      simp [hdenied hrange] at hpermitted
    simp [hentry]
  · intro _ _ hlocks
    have hentry : k.admitsEntry cr = false := by
      simp [Kernel.admitsEntry, hlocks]
    simp [hentry]
  · intro hrange hpermitted hlocks
    have hinheritable := m.inheritable_kept cr.holdings
    have hentry : k.admitsEntry cr = true :=
      Kernel.admitsEntry_iff.mpr ⟨hrange, hpermitted, hlocks⟩
    simp only [hentry, iff_true]
    unfold relinquish
    split
    next hm =>
      refine reads_capacity.ensures_bind hscript (ensures_bind ?_)
      refine ensures_dropWhilePossible hscript ?_ ?_ ?_
      · intro v hv
        exact Kernel.bounds_of_lt_count hbounding (Capacity.mem_values.mp hv)
      · exact cr.has_withFlags_holdingsWith _
      · have hdropped : (if m = .noPriv then ∅ else cr.bounding) =
            cr.bounding \ Mask.ofList k.capacity.values := by
          rw [if_pos hm, Capacity.ofList_values]
          exact (Mask.sdiff_eq_empty (Credentials.fits_bounding hfits)).symm
        have hnothing : ((m.kept cr.holdings).clearFlag .permitted).permitted =
            if m = .noPriv then ∅ else cr.permitted := by
          rw [if_pos hm]
          rfl
        exact ensures_lower_entered hscript (s := cr.holdingsWith Value.setpcap)
          (by rw [hdropped]; rfl) (CapSet.fits_clearFlag hkept .permitted) hnothing
          hinheritable rfl rfl ⟨rfl, fun _ => rfl⟩
    next hm =>
      have hundropped : (if m = .noPriv then ∅ else cr.bounding) = cr.bounding := if_neg hm
      have hall : (m.kept cr.holdings).permitted = if m = .noPriv then ∅ else cr.permitted := by
        rw [if_neg hm]
        exact m.permitted_kept cr.holdings
      exact ensures_lower_entered hscript (s := cr.holdingsWith Value.setpcap)
        (by rw [hundropped]; rfl) hkept hall hinheritable rfl rfl ⟨rfl, fun _ => rfl⟩

end Act

namespace Kernel

variable {k : Kernel} {cr : Credentials} {m : Mode}

theorem isLocked_entered (k : Kernel) (m : Mode) (cr : Credentials) :
    k.IsLocked (k.entered m cr) where
  secured v hv := by
    have hwithin : Secbits.secured.isWithin k.entryBits = true := by
      unfold entryBits
      split <;> decide
    exact (Mask.isWithin_iff _ _).mp hwithin v hv
  sealed hzero := by
    have hbits : (k.entered m cr).secbits = Secbits.securedAmbient := if_pos hzero
    rw [hbits]
    decide

/-- Nothing is raised in a flag on entering a mode but what was raised before. -/
theorem contains_of_contains_entered {f : Flag} {v : Value}
    (h : ((k.entered m cr).holdings.flag f).contains v = true) :
    (cr.holdings.flag f).contains v = true := by
  cases f with
  | effective => simp [entered, Credentials.holdings, CapSet.flag] at h
  | permitted =>
      simp only [entered, Credentials.holdings, CapSet.flag] at h ⊢
      split at h
      · simp at h
      · exact h
  | inheritable =>
      simp only [entered, Credentials.holdings, CapSet.flag] at h ⊢
      split at h
      · exact h
      · simp at h

/-- A thread that has entered a mode sees itself in it; without anything to hand on, the pure
mode is the initial one. -/
theorem shownMode_entered (hm : m ≠ .uncertain) (hbounding : k.bounds 0 = true)
    (hfits : cr.fits k.capacity = true) (hpermitted : cr.permitted.contains Value.setpcap = true) :
    k.shownMode (k.entered m cr) = if m = .pure ∧ cr.inheritable = ∅ then .pureInit else m := by
  have hcertain : k.shownMode (k.entered m cr) ≠ .uncertain := by
    refine shownMode_ne_uncertain_iff.mpr ⟨k.isLocked_entered m cr, ?_⟩
    intro v _ hv
    simp [entered, ambients_zero hv]
  have hflags : k.shownFlags (k.entered m cr) = (k.entered m cr).holdings := by
    refine Act.fitWords_of_fits (CapSet.fits_iff.mpr ?_)
    intro f v hv
    exact CapSet.contains_of_fits (Credentials.fits_holdings hfits)
      (contains_of_contains_entered hv)
  have hheld : cr.permitted.isEmpty = false := (Mask.isEmpty_eq_false_iff _).mpr ⟨_, hpermitted⟩
  obtain ⟨hsecured, hambient⟩ := Mode.classify_ne_uncertain_iff.mp hcertain
  have hcaps : (k.shownSnapshot (k.entered m cr)).caps = (k.entered m cr).holdings := hflags
  rw [shownMode, Mode.classify_of_isSecured hsecured hambient, hcaps]
  cases m with
  | uncertain => exact absurd rfl hm
  | noPriv =>
      have hblocked : (k.shownSnapshot (k.entered .noPriv cr)).isBlocked k.capacity = true := by
        refine isBlocked_shownSnapshot_iff.mpr fun v hv => ?_
        exact ⟨bounds_of_lt_count hbounding hv, Mask.contains_empty v⟩
      rw [hblocked]
      rfl
  | pureInit =>
      have hempty : (∅ : Mask).isEmpty = true := rfl
      simp [entered, Credentials.holdings, hheld, hempty]
  | pure =>
      have hheldAfter : (k.entered .pure cr).holdings.permitted.isEmpty = false := hheld
      have hinheritable : (k.entered .pure cr).holdings.inheritable = cr.inheritable := rfl
      rw [hheldAfter, hinheritable]
      by_cases hnothing : cr.inheritable = ∅
      · have hempty := (Mask.isEmpty_iff _).mpr hnothing
        simp [hnothing]
      · have hsome : cr.inheritable.isEmpty = false := by
          rw [Bool.eq_false_iff]
          exact fun h => hnothing ((Mask.isEmpty_iff _).mp h)
        simp [hnothing, hsome]

end Kernel

namespace Act

/-- On a kernel that answers for the bounding mask and has no scripted failures, a process whose
threads have the same credentials can enter a mode exactly if the capability to do so is
supported and permitted, and if the locks admit the secure bits of the mode. All threads are then
left with what belongs to the mode, and the mode is the one that was asked for, except that the
pure mode without anything to hand on is the initial one. -/
theorem enterMode_entered {s : Machine} {m : Mode} (hm : m ≠ .uncertain)
    (hscript : s.kernel.script = []) (hbounding : s.kernel.bounds 0 = true)
    (hshares : s.Shares s.credentials) (hfits : s.credentials.fits s.capacity = true)
    (heffective : s.credentials.effective.isWithin s.credentials.permitted = true) :
    ∃ outcome s', (enterMode m).start s = some (outcome, s') ∧
      (outcome = .ok () ↔
        Value.setpcap < s.capacity.count ∧
        s.credentials.permitted.contains Value.setpcap = true ∧
        s.credentials.secbits.admitsChange s.kernel.entryBits = true) ∧
      (outcome = .ok () →
        s'.indices = s.indices ∧
        (∀ t ∈ s'.threads, t.credentials = s.kernel.entered m s.credentials) ∧
        currentMode.Yields s'
          (if m = .pure ∧ s.credentials.inheritable = ∅ then .pureInit else m)) := by
  have hsecured : enterMode m = enterSecured m := by
    cases m with
    | uncertain => exact absurd rfl hm
    | _ => rfl
  have hensures : Ensures s.kernel s.credentials (enterMode m) _ :=
    hsecured ▸ ensures_enterSecured hscript hbounding hfits heffective m
  obtain ⟨outcome, s', hstart, hkernel, hindices, cr, hshares', hentry, hentered⟩ :=
    hensures.ends (bySteps_enterMode m) hscript hshares
  refine ⟨outcome, s', hstart, hentry.trans Kernel.admitsEntry_iff, fun hok => ?_⟩
  obtain ⟨-, hpermitted, -⟩ := Kernel.admitsEntry_iff.mp (hentry.mp hok)
  have hleft := hentered hok
  subst hleft
  refine ⟨hindices, hshares', ?_⟩
  have hscript' : s'.kernel.script = [] := by rw [hkernel, hscript]
  rw [reads_currentMode.yields_iff hscript', hkernel, (Machine.shares_iff.mp hshares').1]
  exact Kernel.shownMode_entered hm hbounding hfits hpermitted

/-- A process of two threads that may do all that a mode takes away. -/
def unlockedMachine : Machine :=
  (Machine.start
    { version := Abi.third.code, valueCount := 41, boundingSupported := true,
      ambientSupported := true, processes := [], script := [] }
    { effective := ∅, permitted := Mask.ofList [0, Value.setpcap], inheritable := Mask.single 0,
      ambient := Mask.single 0, bounding := Mask.below 41, secbits := ∅, uid := 1000, gid := 100,
      groups := [10] }
    Table.empty).spawn

theorem enterMode_entered_unlockedMachine :
    ∃ s', (enterMode .noPriv).start unlockedMachine = some (.ok (), s') ∧
      s'.indices = [0, 1] ∧
      (∀ t ∈ s'.threads, t.credentials =
        { effective := ∅, permitted := ∅, inheritable := ∅, ambient := ∅, bounding := ∅,
          secbits := Secbits.securedAmbient, uid := 1000, gid := 100, groups := [10] }) ∧
      currentMode.Yields s' .noPriv := by
  have hshares : unlockedMachine.Shares unlockedMachine.credentials :=
    (Machine.shares_of_others_eq_nil rfl).spawn
  obtain ⟨outcome, s', hstart, hok, hentered⟩ :=
    enterMode_entered (m := .noPriv) (by decide) rfl (by decide +kernel) hshares
      (by decide +kernel) (by decide +kernel)
  have hentry : outcome = .ok () := hok.mpr (by decide +kernel)
  obtain ⟨hindices, hshares', hyields⟩ := hentered hentry
  subst hentry
  exact ⟨s', hstart, hindices, hshares', hyields⟩

end Act

end Capabilities
