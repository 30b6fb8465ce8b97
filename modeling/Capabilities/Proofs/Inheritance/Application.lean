import Capabilities.Proofs.Inheritance.Alignment

/-!
# Applying a tuple

A tuple is applied in three steps. The inheritable mask is replaced, together
with raising the capability that this or the blocking may need; the ambient and
the bounding mask are brought in line; and the effective flag is put back. The
kernel judges the first step by the effective flag before it, so a capability
that is only permitted does not help to get new inheritable values.
-/

namespace Capabilities

namespace Credentials

variable {cr : Credentials} {x : Inheritance}

/-- What a thread is left with when a tuple has been applied. -/
def withTuple (cr : Credentials) (x : Inheritance) : Credentials :=
  { cr with
    inheritable := x.inheritable
    ambient := x.ambient
    bounding := cr.bounding \ x.blocked }

/-- Whether a tuple has inheritable values that are neither inheritable nor permitted. -/
def isExtendedBy (cr : Credentials) (x : Inheritance) : Bool :=
  !x.inheritable.isWithin (cr.inheritable ∪ cr.permitted)

/-- The flags when a tuple has been applied. -/
def targetFor (cr : Credentials) (x : Inheritance) : CapSet :=
  { cr.holdings with inheritable := x.inheritable }

/-- The effective flag while a tuple is being applied. -/
def effectiveFor (cr : Credentials) (x : Inheritance) : Mask :=
  if cr.isExtendedBy x || cr.isBlockedBy x then cr.effective ∪ Mask.single Value.setpcap
  else cr.effective

/-- What a thread has while the masks are brought in line with a tuple. -/
def preparedFor (cr : Credentials) (x : Inheritance) : Credentials :=
  cr.withFlags { cr.targetFor x with effective := cr.effectiveFor x }

theorem fits_targetFor {c : Capacity} (hfits : cr.fits c = true) (hx : x.fits c = true) :
    (cr.targetFor x).fits c = true := by
  have hheld := CapSet.fits_iff.mp (fits_holdings hfits)
  simp only [Inheritance.fits, Bool.and_eq_true] at hx
  rw [CapSet.fits_iff]
  intro f v hv
  cases f with
  | effective => exact hheld .effective v hv
  | permitted => exact hheld .permitted v hv
  | inheritable => exact Mask.fits_iff.mp hx.1.1 v hv

end Credentials

/-- What a tuple grants is permitted and inheritable once its own flags are in place. -/
theorem Kernel.isWithin_of_grantsAmbient_preparedFor {supported : Bool} {cr : Credentials}
    {x : Inheritance} (h : ∀ v, grantsAmbient supported (cr.preparedFor x) x v = true) :
    x.ambient.isWithin (cr.permitted ∩ x.inheritable) = true := by
  refine isWithin_of_grantsAmbient ?_ h
  rw [Mask.isWithin_iff]
  intro v hv
  simp only [Credentials.preparedFor, Credentials.withFlags, Mask.contains_inter,
    Bool.and_eq_true] at hv ⊢
  exact hv.2

namespace Act

variable {k : Kernel} {cr : Credentials} {x : Inheritance}

/-- The first step: replace the flags, and raise what the other steps need. -/
def prepare (needed : Bool) (target : CapSet) : Act Unit :=
  if needed then raise target Value.setpcap else applySet target

/-- The other steps: bring the masks in line, and put the effective flag back. -/
def settle (x : Inheritance) (target : CapSet) : Act Unit := do
  let outcome ← Act.attempt (applyMasks x)
  let restored ← Act.attempt (applySet target)
  match outcome, restored with
  | .error f, _ => throw f
  | .ok (), .error f => throw f
  | .ok (), .ok () => return ()

theorem applyTuple_eq (x : Inheritance) :
    applyTuple x = (do
      let c ← Act.capacity
      let held ← readSet
      let target := { held with inheritable := x.inheritable }
      let blocks ← blocksAnything x c.values
      prepare (!x.inheritable.isWithin (held.inheritable ∪ held.permitted) || blocks) target
      settle x target) := by
  refine bind_congr fun c => bind_congr fun held => bind_congr fun blocks => ?_
  unfold prepare
  split <;> rfl

theorem ensures_prepare (hscript : k.script = []) {s : CapSet} (hs : s.fits k.capacity = true)
    {needed : Bool} {effective : Mask}
    (heffective : effective =
      if needed then s.effective ∪ Mask.single Value.setpcap else s.effective)
    {Q : Except Fault Unit → Credentials → Prop}
    (hrange : needed = true → k.capacity.count ≤ Value.setpcap → Q (.error .badValue) cr)
    (hgranted : Kernel.admitsFlags cr effective s.permitted s.inheritable = true →
      Q (.ok ()) (cr.withFlags { s with effective }))
    (hrefused : Kernel.admitsFlags cr effective s.permitted s.inheritable = false →
      Q (.error (.os .notPermitted)) cr) :
    Ensures k cr (prepare needed s) Q := by
  subst heffective
  cases needed with
  | false => exact ensures_applySet hscript hs hgranted hrefused
  | true => exact ensures_raise hscript hs (hrange rfl) (fun _ => hgranted) fun _ => hrefused

/-- Once the flags are replaced, it is the ambient values that decide. -/
theorem ensures_settle (hscript : k.script = []) (hbounding : k.bounds 0 = true)
    (hfits : cr.fits k.capacity = true) (hx : x.fits k.capacity = true)
    (heffective : cr.effective.isWithin cr.permitted = true)
    (hnone : k.ambients 0 = false → cr.ambient = ∅)
    {Q : Except Fault Unit → Credentials → Prop}
    (hgranted : (∀ v, Kernel.grantsAmbient (k.ambients 0) (cr.preparedFor x) x v = true) →
      Q (.ok ()) (cr.withTuple x))
    (hrefused : ∀ v, Kernel.grantsAmbient (k.ambients 0) (cr.preparedFor x) x v = false →
      ∀ f cr', Q (.error f) cr') :
    Ensures k (cr.preparedFor x) (settle x (cr.targetFor x)) Q := by
  have htarget := Credentials.fits_targetFor hfits hx
  simp only [Inheritance.fits, Bool.and_eq_true] at hx
  have hambient : (cr.preparedFor x).ambient.fits k.capacity = true := by
    have hheld := Mask.fits_iff.mp (Credentials.fits_ambient hfits)
    refine Mask.fits_iff.mpr fun v hv => hheld v ?_
    simp only [Credentials.preparedFor, Credentials.withFlags, Mask.contains_inter,
      Bool.and_eq_true] at hv
    exact hv.1
  have hbound : cr.bounding.fits k.capacity = true := Credentials.fits_bounding hfits
  have hnone' : k.ambients 0 = false → (cr.preparedFor x).ambient = ∅ := by
    intro hunsupported
    simp [Credentials.preparedFor, Credentials.withFlags, hnone hunsupported]
  have hhas : (cr.preparedFor x).isBlockedBy x = true →
      (cr.preparedFor x).has Value.setpcap = true := by
    intro hblocked
    have hblocked' : cr.isBlockedBy x = true := hblocked
    simp [Credentials.preparedFor, Credentials.withFlags, Credentials.has,
      Credentials.effectiveFor, hblocked']
  refine ensures_bind (ensures_attempt ?_)
  refine ensures_applyMasks hscript hbounding hambient hbound hx.1.2 hnone' hhas ?_ ?_
  · intro hall
    refine ensures_bind (ensures_attempt (ensures_applySet hscript htarget ?_ ?_))
    · intro _
      refine ensures_pure ?_
      have hclosed : x.ambient ∩ (cr.permitted ∩ x.inheritable) = x.ambient :=
        Mask.inter_eq_left (Kernel.isWithin_of_grantsAmbient_preparedFor hall)
      have hleft : cr.withTuple x = { cr with
          inheritable := x.inheritable
          ambient := x.ambient ∩ (cr.permitted ∩ x.inheritable)
          bounding := cr.bounding \ x.blocked } := by
        rw [hclosed]
        rfl
      rw [hleft] at hgranted
      exact hgranted hall
    · -- Putting the effective flag back adds nothing to what is held, so it is granted.
      intro hdenied
      have hadmits : Kernel.admitsFlags
          { cr.preparedFor x with ambient := x.ambient, bounding := cr.bounding \ x.blocked }
          cr.effective cr.permitted x.inheritable = true :=
        Kernel.admitsFlags_of_isWithin heffective (Mask.isWithin_refl _) (Mask.isWithin_refl _)
      cases hadmits.symm.trans hdenied
  · intro v hdenied f cr'
    refine ensures_bind (ensures_attempt (ensures_applySet hscript htarget ?_ ?_))
    · intro _
      exact ensures_throw (hrefused v hdenied f _)
    · intro _
      exact ensures_throw (hrefused v hdenied f _)

/-- Where the kernel answers for the bounding mask, all that a tuple blocks is found there. -/
theorem any_values_eq_isBlockedBy (hbounding : k.bounds 0 = true)
    (hfits : cr.fits k.capacity = true) :
    (k.capacity.values.any fun v =>
      x.blocked.contains v && (k.bounds v && cr.bounding.contains v)) = cr.isBlockedBy x := by
  rw [Bool.eq_iff_iff, List.any_eq_true, Credentials.isBlockedBy_iff]
  simp only [Bool.and_eq_true]
  constructor
  · rintro ⟨v, -, hx, -, hv⟩
    exact ⟨v, hx, hv⟩
  · rintro ⟨v, hx, hv⟩
    have hcount := Mask.fits_iff.mp (Credentials.fits_bounding hfits) v hv
    exact ⟨v, Capacity.mem_values.mpr hcount, hx,
      Kernel.bounds_of_lt_count hbounding hcount, hv⟩

/-- A tuple is applied, or refused for the flags, or given up for an ambient value. That the
capability for it is not supported matters only if it is needed. -/
theorem ensures_applyTuple_if_needed (hscript : k.script = []) (hbounding : k.bounds 0 = true)
    (hfits : cr.fits k.capacity = true) (hx : x.fits k.capacity = true)
    (heffective : cr.effective.isWithin cr.permitted = true)
    (hnone : k.ambients 0 = false → cr.ambient = ∅)
    {Q : Except Fault Unit → Credentials → Prop}
    (hrange : (cr.isExtendedBy x || cr.isBlockedBy x) = true →
      k.capacity.count ≤ Value.setpcap → Q (.error .badValue) cr)
    (hrefused : Kernel.admitsFlags cr (cr.effectiveFor x) cr.permitted x.inheritable = false →
      Q (.error (.os .notPermitted)) cr)
    (hungranted : ∀ v, Kernel.grantsAmbient (k.ambients 0) (cr.preparedFor x) x v = false →
      ∀ f cr', Q (.error f) cr')
    (hgranted : Kernel.admitsFlags cr (cr.effectiveFor x) cr.permitted x.inheritable = true →
      (∀ v, Kernel.grantsAmbient (k.ambients 0) (cr.preparedFor x) x v = true) →
      Q (.ok ()) (cr.withTuple x)) :
    Ensures k cr (applyTuple x) Q := by
  rw [applyTuple_eq]
  refine reads_capacity.ensures_bind hscript ?_
  refine reads_readSet.ensures_bind hscript ?_
  rw [shownFlags_of_fits hfits]
  refine (reads_blocksAnything x _).ensures_bind hscript (ensures_bind ?_)
  rw [any_values_eq_isBlockedBy hbounding hfits]
  refine ensures_prepare hscript (Credentials.fits_targetFor hfits hx) rfl hrange ?_ hrefused
  intro hadmits
  exact ensures_settle hscript hbounding hfits hx heffective hnone (hgranted hadmits) hungranted

theorem ensures_applyTuple (hscript : k.script = []) (hbounding : k.bounds 0 = true)
    (hfits : cr.fits k.capacity = true) (hx : x.fits k.capacity = true)
    (heffective : cr.effective.isWithin cr.permitted = true)
    (hnone : k.ambients 0 = false → cr.ambient = ∅)
    {Q : Except Fault Unit → Credentials → Prop}
    (hrange : k.capacity.count ≤ Value.setpcap → Q (.error .badValue) cr)
    (hrefused : Kernel.admitsFlags cr (cr.effectiveFor x) cr.permitted x.inheritable = false →
      Q (.error (.os .notPermitted)) cr)
    (hungranted : ∀ v, Kernel.grantsAmbient (k.ambients 0) (cr.preparedFor x) x v = false →
      ∀ f cr', Q (.error f) cr')
    (hgranted : Kernel.admitsFlags cr (cr.effectiveFor x) cr.permitted x.inheritable = true →
      (∀ v, Kernel.grantsAmbient (k.ambients 0) (cr.preparedFor x) x v = true) →
      Q (.ok ()) (cr.withTuple x)) :
    Ensures k cr (applyTuple x) Q :=
  ensures_applyTuple_if_needed hscript hbounding hfits hx heffective hnone (fun _ => hrange)
    hrefused hungranted hgranted

end Act

namespace Kernel

variable {k : Kernel} {cr : Credentials} {x : Inheritance}

theorem shownTuple_withTuple (hbounding : k.bounds 0 = true) (hfits : cr.fits k.capacity = true)
    (hx : x.fits k.capacity = true) (hnone : k.ambients 0 = false → x.ambient = ∅) :
    k.shownTuple (cr.withTuple x) =
      ⟨x.inheritable, x.ambient, x.blocked ∪ (Mask.below k.capacity.count \ cr.bounding)⟩ := by
  have hflags : (k.shownFlags (cr.withTuple x)).inheritable = x.inheritable := by
    have hholdings : (cr.withTuple x).holdings.fits k.capacity = true :=
      Credentials.fits_targetFor hfits hx
    have hshown : k.shownFlags (cr.withTuple x) = (cr.withTuple x).holdings :=
      Act.fitWords_of_fits hholdings
    rw [hshown]
    rfl
  simp only [Inheritance.fits, Bool.and_eq_true] at hx
  have hambient : (k.shownTuple (cr.withTuple x)).ambient = x.ambient := by
    apply Mask.ext
    intro v
    rw [contains_shownTuple_ambient]
    show decide (v < k.capacity.count ∧ k.ambients v = true ∧ x.ambient.contains v = true) = _
    cases hv : x.ambient.contains v with
    | false => simp
    | true =>
        have hcount := Mask.fits_iff.mp hx.1.2 v hv
        have hambients := ambients_of_lt_count hbounding hcount
        cases hzero : k.ambients 0 with
        | false => simp [hnone hzero] at hv
        | true => simp [hcount, hambients, hzero]
  have hblocked : (k.shownTuple (cr.withTuple x)).blocked =
      x.blocked ∪ (Mask.below k.capacity.count \ cr.bounding) := by
    apply Mask.ext
    intro v
    rw [contains_shownTuple_blocked]
    show decide (v < k.capacity.count ∧ k.bounds v = true ∧
      (cr.bounding \ x.blocked).contains v = false) = _
    by_cases hcount : v < k.capacity.count
    · have hbounds := bounds_of_lt_count hbounding hcount
      cases hv : x.blocked.contains v <;> simp [hcount, hbounds, hv]
    · have hv := Mask.contains_eq_false_of_fits hx.2 hcount
      simp [hcount, hv]
  show Inheritance.mk (k.shownFlags (cr.withTuple x)).inheritable
    (k.shownTuple (cr.withTuple x)).ambient (k.shownTuple (cr.withTuple x)).blocked = _
  rw [hflags, hambient, hblocked]

/-- With the capability to change masks permitted, the flags for applying a tuple are granted
if that capability is effective already or not needed for the inheritable values. -/
theorem admitsFlags_effectiveFor (heffective : cr.effective.isWithin cr.permitted = true)
    (hsetpcap : cr.permitted.contains Value.setpcap = true)
    (hinheritable : x.inheritable.isWithin (cr.inheritable ∪ cr.bounding) = true) :
    admitsFlags cr (cr.effectiveFor x) cr.permitted x.inheritable =
      (cr.has Value.setpcap || !cr.isExtendedBy x) := by
  have hwithin : (cr.effectiveFor x).isWithin cr.permitted = true := by
    unfold Credentials.effectiveFor
    split
    · simp [Mask.union_isWithin, heffective, hsetpcap]
    · exact heffective
  simp [admitsFlags, Credentials.isExtendedBy, hinheritable, hwithin]

theorem grantsAmbient_preparedFor (hclosed : x.isClosed = true)
    (hambient : x.ambient.isWithin cr.permitted = true)
    (hraise : cr.secbits.contains Secbits.noAmbientRaise = false) (v : Value) :
    grantsAmbient true (cr.preparedFor x) x v = true := by
  cases hv : x.ambient.contains v with
  | false => simp [grantsAmbient, hv]
  | true =>
      have hpermitted := (Mask.isWithin_iff _ _).mp hambient v hv
      have hinheritable := (Mask.isWithin_iff _ _).mp hclosed v hv
      have hadmits : admitsAmbient (cr.preparedFor x) v = true := by
        simp [admitsAmbient, Credentials.preparedFor, Credentials.withFlags, Credentials.targetFor,
          Credentials.holdings, hpermitted, hinheritable, hraise]
      simp [grantsAmbient, hadmits]

end Kernel

namespace Act

/-- On a kernel that answers for the bounding mask and has no scripted failures, applying a tuple
to threads with the same credentials comes to an end. If it succeeds, it does to each thread what
the tuple says, and nothing else; the tuple that is read afterwards is the one that was applied,
except that the values that were gone from the bounding mask before are blocked as well. -/
theorem applyTuple_applies {s : Machine} {x : Inheritance} (hscript : s.kernel.script = [])
    (hbounding : s.kernel.bounds 0 = true) (hshares : s.Shares s.credentials)
    (hfits : s.credentials.fits s.capacity = true)
    (heffective : s.credentials.effective.isWithin s.credentials.permitted = true)
    (hnone : s.kernel.ambients 0 = false → s.credentials.ambient = ∅)
    (hx : x.fits s.capacity = true) :
    ∃ outcome s', (applyTuple x).start s = some (outcome, s') ∧
      (outcome = .ok () →
        s'.indices = s.indices ∧
        (∀ t ∈ s'.threads, t.credentials =
          { s.credentials with
            inheritable := x.inheritable
            ambient := x.ambient
            bounding := s.credentials.bounding \ x.blocked }) ∧
        readTuple.Yields s'
          ⟨x.inheritable, x.ambient,
            x.blocked ∪ (Mask.below s.capacity.count \ s.credentials.bounding)⟩) := by
  have hensures : Ensures s.kernel s.credentials (applyTuple x) fun outcome cr =>
      outcome = .ok () →
        cr = s.credentials.withTuple x ∧ (s.kernel.ambients 0 = false → x.ambient = ∅) := by
    refine ensures_applyTuple hscript hbounding hfits hx heffective hnone ?_ ?_ ?_ ?_
    · intro _ hfault
      cases hfault
    · intro _ hfault
      cases hfault
    · intro v _ f cr hfault
      cases hfault
    · intro _ hgrants _
      refine ⟨rfl, fun hunsupported => ?_⟩
      apply Mask.ext
      intro v
      have hv := hgrants v
      simpa [Kernel.grantsAmbient, hunsupported] using hv
  obtain ⟨outcome, s', hstart, hkernel, hindices, cr, hshares', hresult⟩ :=
    hensures.ends (bySteps_applyTuple x) hscript hshares
  refine ⟨outcome, s', hstart, fun hok => ?_⟩
  obtain ⟨rfl, hnone'⟩ := hresult hok
  refine ⟨hindices, hshares', ?_⟩
  have hscript' : s'.kernel.script = [] := by rw [hkernel, hscript]
  rw [reads_readTuple.yields_iff hscript', hkernel, (Machine.shares_iff.mp hshares').1]
  exact Kernel.shownTuple_withTuple hbounding hfits hx hnone'

/-- A process of two threads that may hand on what it has, but may not use anything now. -/
def handingMachine : Machine :=
  (Machine.start
    { version := Abi.third.code, valueCount := 41, boundingSupported := true,
      ambientSupported := true, processes := [], script := [] }
    { effective := ∅, permitted := Mask.ofList [1, 2, Value.setpcap],
      inheritable := Mask.ofList [2, 5], ambient := Mask.single 2,
      bounding := Mask.below 41 \ Mask.single 3, secbits := ∅, uid := 1000, gid := 100,
      groups := [10] }
    Table.empty).spawn

theorem applyTuple_applies_handingMachine :
    ∃ s', (applyTuple ⟨Mask.ofList [1, 5], Mask.single 1, Mask.single 4⟩).start handingMachine =
        some (.ok (), s') ∧
      (∀ t ∈ s'.threads, t.credentials =
        { handingMachine.credentials with
          inheritable := Mask.ofList [1, 5]
          ambient := Mask.single 1
          bounding := handingMachine.credentials.bounding \ Mask.single 4 }) ∧
      readTuple.Yields s' ⟨Mask.ofList [1, 5], Mask.single 1, Mask.ofList [3, 4]⟩ := by
  have hends : ((applyTuple ⟨Mask.ofList [1, 5], Mask.single 1, Mask.single 4⟩).start
      handingMachine).any (fun reply => reply.1.isOk) = true := by decide +kernel
  have hshares : handingMachine.Shares handingMachine.credentials :=
    (Machine.shares_of_others_eq_nil rfl).spawn
  obtain ⟨outcome, s', hstart, happlied⟩ :=
    applyTuple_applies (x := ⟨Mask.ofList [1, 5], Mask.single 1, Mask.single 4⟩) rfl
      (by decide +kernel) hshares (by decide +kernel) (by decide +kernel) (by decide +kernel)
      (by decide +kernel)
  have hblocked : Mask.single 4 ∪ (Mask.below handingMachine.capacity.count \
      handingMachine.credentials.bounding) = Mask.ofList [3, 4] := by decide +kernel
  rw [hstart] at hends
  cases outcome with
  | error f => cases hends
  | ok =>
      obtain ⟨-, hshares', hyields⟩ := happlied rfl
      exact ⟨s', hstart, hshares', hblocked ▸ hyields⟩

/-- With the capability to change masks permitted, a tuple that the ambient and the bounding mask
admit is applied exactly if the capability is effective already, or if the tuple has no
inheritable values that are neither inheritable nor permitted. Otherwise it is refused, and all
threads keep their credentials: the capability is raised too late for the kernel to see it. -/
theorem applyTuple_isOk_iff {s : Machine} {x : Inheritance} (hscript : s.kernel.script = [])
    (hbounding : s.kernel.bounds 0 = true) (hambients : s.kernel.ambients 0 = true)
    (hshares : s.Shares s.credentials) (hfits : s.credentials.fits s.capacity = true)
    (heffective : s.credentials.effective.isWithin s.credentials.permitted = true)
    (hsetpcap : s.credentials.permitted.contains Value.setpcap = true)
    (hraise : s.credentials.secbits.contains Secbits.noAmbientRaise = false)
    (hx : x.fits s.capacity = true) (hclosed : x.isClosed = true)
    (hinheritable :
      x.inheritable.isWithin (s.credentials.inheritable ∪ s.credentials.bounding) = true)
    (hambient : x.ambient.isWithin s.credentials.permitted = true) :
    ∃ outcome s', (applyTuple x).start s = some (outcome, s') ∧
      (outcome = .ok () ↔
        s.credentials.has Value.setpcap = true ∨
        x.inheritable.isWithin (s.credentials.inheritable ∪ s.credentials.permitted) = true) ∧
      (outcome ≠ .ok () →
        outcome = .error (.os .notPermitted) ∧
        ∀ t ∈ s'.threads, t.credentials = s.credentials) := by
  have hadmits := Kernel.admitsFlags_effectiveFor (x := x) heffective hsetpcap hinheritable
  have hneeds : (s.credentials.has Value.setpcap || !s.credentials.isExtendedBy x) = true ↔
      s.credentials.has Value.setpcap = true ∨
      x.inheritable.isWithin (s.credentials.inheritable ∪ s.credentials.permitted) = true := by
    rw [Credentials.isExtendedBy, Bool.not_not, Bool.or_eq_true]
  have hensures : Ensures s.kernel s.credentials (applyTuple x) fun outcome cr =>
      (outcome = .ok () ↔
        (s.credentials.has Value.setpcap || !s.credentials.isExtendedBy x) = true) ∧
      (outcome ≠ .ok () → outcome = .error (.os .notPermitted) ∧ cr = s.credentials) := by
    have hnone : s.kernel.ambients 0 = false → s.credentials.ambient = ∅ := by
      simp [hambients]
    refine ensures_applyTuple hscript hbounding hfits hx heffective hnone ?_ ?_ ?_ ?_
    · intro hcount
      have hlt := CapSet.contains_of_fits (f := .permitted) (Credentials.fits_holdings hfits)
        hsetpcap
      exact absurd hlt (Nat.not_lt.mpr hcount)
    · intro hrefused
      rw [hadmits] at hrefused
      simp [hrefused]
    · intro v hdenied
      rw [hambients, Kernel.grantsAmbient_preparedFor hclosed hambient hraise] at hdenied
      cases hdenied
    · intro hgranted _
      rw [hadmits] at hgranted
      simp [hgranted]
  obtain ⟨outcome, s', hstart, -, -, cr, hshares', hok, hkept⟩ :=
    hensures.ends (bySteps_applyTuple x) hscript hshares
  refine ⟨outcome, s', hstart, hok.trans hneeds, fun hfault => ?_⟩
  obtain ⟨hrefused, hsame⟩ := hkept hfault
  subst hsame
  exact ⟨hrefused, hshares'⟩

theorem applyTuple_isOk_iff_handingMachine :
    ∃ s', (applyTuple ⟨Mask.ofList [1, 5], Mask.single 1, Mask.single 4⟩).start handingMachine =
      some (.ok (), s') := by
  have hshares : handingMachine.Shares handingMachine.credentials :=
    (Machine.shares_of_others_eq_nil rfl).spawn
  obtain ⟨outcome, s', hstart, hok, -⟩ :=
    applyTuple_isOk_iff (x := ⟨Mask.ofList [1, 5], Mask.single 1, Mask.single 4⟩) rfl
      (by decide +kernel) (by decide +kernel) hshares (by decide +kernel) (by decide +kernel)
      (by decide +kernel) (by decide +kernel) (by decide +kernel) (by decide +kernel)
      (by decide +kernel) (by decide +kernel)
  have hadmitted : outcome = .ok () := hok.mpr (.inr (by decide +kernel))
  subst hadmitted
  exact ⟨s', hstart⟩

/-- A process that has nothing permitted but the capability to change masks. -/
def extendingMachine : Machine :=
  Machine.start
    { version := Abi.third.code, valueCount := 41, boundingSupported := true,
      ambientSupported := true, processes := [], script := [] }
    { effective := ∅, permitted := Mask.single Value.setpcap, inheritable := ∅, ambient := ∅,
      bounding := Mask.below 9, secbits := ∅, uid := 0, gid := 0, groups := [] }
    Table.empty

/-- The only permitted value is the capability to change masks, and the tuple asks for nothing
but a bounding value to be inheritable. It is refused although the capability is permitted. -/
theorem applyTuple_refused_extendingMachine :
    (extendingMachine.kernel.script = [] ∧ extendingMachine.kernel.bounds 0 = true ∧
        extendingMachine.kernel.ambients 0 = true ∧ extendingMachine.others = []) ∧
      (extendingMachine.credentials.fits extendingMachine.capacity = true ∧
        extendingMachine.credentials.effective = ∅ ∧ extendingMachine.credentials.ambient = ∅ ∧
        extendingMachine.credentials.secbits = ∅ ∧
        extendingMachine.credentials.permitted.contains Value.setpcap = true) ∧
      (Mask.single 0).isWithin extendingMachine.credentials.bounding = true ∧
      ¬ ∃ s', (applyTuple ⟨Mask.single 0, ∅, ∅⟩).start extendingMachine = some (.ok (), s') := by
  have hends : ((applyTuple ⟨Mask.single 0, ∅, ∅⟩).start extendingMachine).any
      (fun reply => reply.1.isOk) = false := by decide +kernel
  refine ⟨⟨rfl, by decide +kernel, by decide +kernel, rfl⟩,
    ⟨by decide +kernel, rfl, rfl, rfl, by decide +kernel⟩, by decide +kernel, ?_⟩
  rintro ⟨s', hstart⟩
  rw [hstart] at hends
  cases hends

end Act

end Capabilities
