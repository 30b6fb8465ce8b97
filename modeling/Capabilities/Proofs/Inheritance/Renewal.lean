import Capabilities.Proofs.Inheritance.Application

/-!
# Applying a tuple that holds

A tuple holds for a thread that has its inheritable and its ambient values, and
nothing that it blocks. Applying it needs no capability and changes nothing. The
tuple that a thread reads holds for it, and so does one that was just applied: to
apply what was read is to do nothing, and to apply a tuple again as well.
-/

namespace Capabilities

namespace Credentials

variable {cr : Credentials} {x : Inheritance}

/-- What a tuple asks for is so already. -/
structure Honours (cr : Credentials) (x : Inheritance) : Prop where
  inheritable : x.inheritable = cr.inheritable
  ambient : x.ambient = cr.ambient
  blocked : ∀ v, x.blocked.contains v = true → cr.bounding.contains v = false

theorem honours_withTuple (cr : Credentials) (x : Inheritance) : (cr.withTuple x).Honours x where
  inheritable := rfl
  ambient := rfl
  blocked v hv := by simp [withTuple, hv]

theorem Honours.withTuple_eq (h : cr.Honours x) : cr.withTuple x = cr := by
  have hbounding : cr.bounding \ x.blocked = cr.bounding := Mask.sdiff_eq_left h.blocked
  rw [withTuple, h.inheritable, h.ambient, hbounding]

/-- Nothing has to be raised for a tuple that holds. -/
theorem Honours.unneeded (h : cr.Honours x) :
    (cr.isExtendedBy x || cr.isBlockedBy x) = false := by
  have hwithin : x.inheritable.isWithin (cr.inheritable ∪ cr.permitted) = true := by
    rw [h.inheritable]
    exact Mask.isWithin_union_left (Mask.isWithin_refl _) _
  have hblocked : ¬ cr.isBlockedBy x = true := by
    rw [isBlockedBy_iff]
    rintro ⟨v, hx, hv⟩
    cases (h.blocked v hx).symm.trans hv
  rw [Bool.not_eq_true] at hblocked
  rw [isExtendedBy, hwithin, hblocked]
  rfl

theorem Honours.effectiveFor_eq (h : cr.Honours x) : cr.effectiveFor x = cr.effective := by
  rw [effectiveFor, h.unneeded]
  rfl

theorem Honours.preparedFor_eq (h : cr.Honours x)
    (hambient : cr.ambient.isWithin (cr.permitted ∩ cr.inheritable) = true) :
    cr.preparedFor x = cr := by
  have hkept : cr.ambient ∩ (cr.permitted ∩ cr.inheritable) = cr.ambient :=
    Mask.inter_eq_left hambient
  simp only [preparedFor, targetFor, withFlags, holdings, h.effectiveFor_eq, h.inheritable, hkept]

end Credentials

namespace Kernel

variable {k : Kernel} {cr : Credentials} {x : Inheritance}

/-- Credentials that a kernel can come to record: the masks have supported values only, what is
effective is permitted, and what is ambient is permitted and inheritable. -/
structure IsCoherent (k : Kernel) (cr : Credentials) : Prop where
  fits : cr.fits k.capacity = true
  effective : cr.effective.isWithin cr.permitted = true
  ambient : cr.ambient.isWithin (cr.permitted ∩ cr.inheritable) = true
  unsupported : k.ambients 0 = false → cr.ambient = ∅

theorem grantsAmbient_of_honours (hcoherent : k.IsCoherent cr) (h : cr.Honours x) (v : Value) :
    grantsAmbient (k.ambients 0) (cr.preparedFor x) x v = true := by
  rw [h.preparedFor_eq hcoherent.ambient, grantsAmbient, h.ambient]
  cases hv : cr.ambient.contains v with
  | false => rfl
  | true =>
      cases hzero : k.ambients 0 with
      | false =>
          rw [hcoherent.unsupported hzero, Mask.contains_empty] at hv
          cases hv
      | true => rfl

/-- Threads to which a tuple is applied stay coherent. -/
theorem IsCoherent.withTuple (hcoherent : k.IsCoherent cr) (hx : x.fits k.capacity = true)
    (hgrants : ∀ v, grantsAmbient (k.ambients 0) (cr.preparedFor x) x v = true) :
    k.IsCoherent (cr.withTuple x) where
  fits := by
    have htarget := Credentials.fits_targetFor hcoherent.fits hx
    simp only [Inheritance.fits, Bool.and_eq_true] at hx
    have hbounding : (cr.bounding \ x.blocked).fits k.capacity = true := by
      rw [Mask.fits_iff]
      intro v hv
      simp only [Mask.contains_sdiff, Bool.and_eq_true] at hv
      exact Mask.fits_iff.mp (Credentials.fits_bounding hcoherent.fits) v hv.1
    simp only [Credentials.fits, Bool.and_eq_true]
    exact ⟨⟨htarget, hx.1.2⟩, hbounding⟩
  effective := hcoherent.effective
  ambient := by
    have hwithin : x.ambient.isWithin (cr.permitted ∩ x.inheritable) = true :=
      isWithin_of_grantsAmbient_preparedFor hgrants
    exact hwithin
  unsupported hzero := by
    have hnothing : x.ambient = ∅ := by
      apply Mask.ext
      intro v
      simpa [grantsAmbient, hzero] using hgrants v
    exact hnothing

/-- The tuple that a coherent thread reads holds for it. -/
theorem honours_shownTuple (hbounding : k.bounds 0 = true) (hcoherent : k.IsCoherent cr) :
    (k.shownTuple cr).fits k.capacity = true ∧ cr.Honours (k.shownTuple cr) := by
  have hinheritable : cr.inheritable.fits k.capacity = true := by
    rw [Mask.fits_iff]
    intro v hv
    exact CapSet.contains_of_fits (f := .inheritable) (Credentials.fits_holdings hcoherent.fits) hv
  have hambient := Credentials.fits_ambient hcoherent.fits
  have hshown : k.shownTuple cr =
      ⟨cr.inheritable, cr.ambient, Mask.below k.capacity.count \ cr.bounding⟩ := by
    have hholds : cr.Honours ⟨cr.inheritable, cr.ambient, ∅⟩ := ⟨rfl, rfl, by simp⟩
    have hfits : Inheritance.fits k.capacity ⟨cr.inheritable, cr.ambient, ∅⟩ = true := by
      rw [Inheritance.fits, hinheritable, hambient]
      exact Mask.empty_isWithin _
    have htuple := shownTuple_withTuple hbounding hcoherent.fits hfits hcoherent.unsupported
    rwa [hholds.withTuple_eq, Mask.empty_union] at htuple
  rw [hshown]
  constructor
  · have hblocked : (Mask.below k.capacity.count \ cr.bounding).fits k.capacity = true := by
      rw [Mask.fits_iff]
      intro v hv
      simp only [Mask.contains_sdiff, Mask.contains_below, Bool.and_eq_true,
        decide_eq_true_eq] at hv
      exact hv.1
    rw [Inheritance.fits, hinheritable, hambient, hblocked]
    rfl
  · refine ⟨rfl, rfl, fun v hv => ?_⟩
    simp only [Mask.contains_sdiff, Bool.and_eq_true, Bool.not_eq_true'] at hv
    exact hv.2

end Kernel

/-- Threads with the same credentials are told apart by their numbers alone. -/
theorem Machine.Shares.map_credentials {s : Machine} {cr : Credentials} (h : s.Shares cr) :
    s.threads.map Thread.credentials = List.replicate s.indices.length cr := by
  rw [List.eq_replicate_iff]
  refine ⟨by simp [Machine.indices], fun c hc => ?_⟩
  obtain ⟨t, ht, rfl⟩ := List.mem_map.mp hc
  exact h t ht

namespace Act

variable {k : Kernel} {cr : Credentials} {x : Inheritance}

/-- Started on a machine, an act succeeds and leaves every thread with the credentials it had. -/
def Idles (x : Act Unit) (s : Machine) : Prop :=
  ∃ s', x.start s = some (.ok (), s') ∧ s'.indices = s.indices ∧
    s'.threads.map Thread.credentials = s.threads.map Thread.credentials

theorem Ensures.idles {x : Act Unit} {s : Machine}
    (h : Ensures s.kernel s.credentials x fun outcome cr => outcome = .ok () ∧ cr = s.credentials)
    (hx : BySteps x) (hscript : s.kernel.script = []) (hshares : s.Shares s.credentials) :
    x.Idles s := by
  obtain ⟨outcome, s', hstart, -, hindices, cr, hshares', rfl, rfl⟩ := h.ends hx hscript hshares
  refine ⟨s', hstart, hindices, ?_⟩
  rw [hshares.map_credentials, hshares'.map_credentials, hindices]

/-- No step of applying a tuple that holds can be refused, and none changes anything. -/
theorem ensures_applyTuple_of_honours (hscript : k.script = []) (hbounding : k.bounds 0 = true)
    (hcoherent : k.IsCoherent cr) (hx : x.fits k.capacity = true) (hholds : cr.Honours x) :
    Ensures k cr (applyTuple x) fun outcome cr' => outcome = .ok () ∧ cr' = cr := by
  refine ensures_applyTuple_if_needed hscript hbounding hcoherent.fits hx hcoherent.effective
    hcoherent.unsupported ?_ ?_ ?_ ?_
  · intro hneeded
    cases hholds.unneeded.symm.trans hneeded
  · intro hrefused
    have hadmits : Kernel.admitsFlags cr cr.effective cr.permitted cr.inheritable = true :=
      Kernel.admitsFlags_of_isWithin hcoherent.effective (Mask.isWithin_refl _)
        (Mask.isWithin_refl _)
    rw [hholds.effectiveFor_eq, hholds.inheritable, hadmits] at hrefused
    cases hrefused
  · intro v hdenied
    cases (Kernel.grantsAmbient_of_honours hcoherent hholds v).symm.trans hdenied
  · intro _ _
    exact ⟨rfl, hholds.withTuple_eq⟩

/-- A tuple that was applied holds for threads that are coherent again. -/
theorem ensures_applyTuple_honours (hscript : k.script = []) (hbounding : k.bounds 0 = true)
    (hcoherent : k.IsCoherent cr) (hx : x.fits k.capacity = true) :
    Ensures k cr (applyTuple x) fun outcome cr' =>
      outcome = .ok () → k.IsCoherent cr' ∧ cr'.Honours x := by
  refine ensures_applyTuple hscript hbounding hcoherent.fits hx hcoherent.effective
    hcoherent.unsupported ?_ ?_ ?_ ?_
  · exact fun _ => nofun
  · exact fun _ => nofun
  · exact fun _ _ _ _ => nofun
  · intro _ hgrants _
    exact ⟨hcoherent.withTuple hx hgrants, cr.honours_withTuple x⟩

/-- On a kernel that answers for the bounding mask and has no scripted failures, applying a tuple
that holds for threads with the same coherent credentials always succeeds, whatever they may do,
and changes nothing. So it is with the tuple that is read from the process, and with one that has
just been applied with success. -/
theorem applyTuple_idles {s : Machine} (hscript : s.kernel.script = [])
    (hbounding : s.kernel.bounds 0 = true) (hshares : s.Shares s.credentials)
    (hfits : s.credentials.fits s.capacity = true)
    (heffective : s.credentials.effective.isWithin s.credentials.permitted = true)
    (hambient : s.credentials.ambient.isWithin
      (s.credentials.permitted ∩ s.credentials.inheritable) = true)
    (hnone : s.kernel.ambients 0 = false → s.credentials.ambient = ∅) :
    (∀ x : Inheritance, x.fits s.capacity = true → s.credentials.Honours x →
      (applyTuple x).Idles s) ∧
    Idles (readTuple >>= applyTuple) s ∧
    ∀ (x : Inheritance) (s' : Machine), x.fits s.capacity = true →
      (applyTuple x).start s = some (.ok (), s') → (applyTuple x).Idles s' := by
  have hcoherent : s.kernel.IsCoherent s.credentials := ⟨hfits, heffective, hambient, hnone⟩
  refine ⟨fun x hx hholds => ?_, ?_, fun x s' hx hstart => ?_⟩
  · exact (ensures_applyTuple_of_honours hscript hbounding hcoherent hx hholds).idles
      (bySteps_applyTuple x) hscript hshares
  · obtain ⟨hx, hholds⟩ := Kernel.honours_shownTuple hbounding hcoherent
    have hensures := reads_readTuple.ensures_bind hscript
      (ensures_applyTuple_of_honours hscript hbounding hcoherent hx hholds)
    exact hensures.idles (bySteps_bind bySteps_readTuple bySteps_applyTuple) hscript hshares
  · obtain ⟨hkernel, -, cr, hshares', hresult⟩ :=
      ensures_applyTuple_honours hscript hbounding hcoherent hx s s' (.ok ()) rfl hshares hstart
    obtain ⟨hcoherent', hholds⟩ := hresult rfl
    obtain ⟨rfl, -⟩ := Machine.shares_iff.mp hshares'
    rw [← hkernel] at hscript hbounding hcoherent'
    rw [Machine.capacity, ← hkernel] at hx
    exact (ensures_applyTuple_of_honours hscript hbounding hcoherent' hx hholds).idles
      (bySteps_applyTuple x) hscript hshares'

/-- A process of two threads that may not change the masks of other processes or its own bounding
mask, from which value 3 is gone. -/
def holdingMachine : Machine :=
  (Machine.start
    { version := Abi.third.code, valueCount := 41, boundingSupported := true,
      ambientSupported := true, processes := [], script := [] }
    { effective := Mask.single 1, permitted := Mask.ofList [1, 2],
      inheritable := Mask.ofList [2, 5], ambient := Mask.single 2,
      bounding := Mask.below 41 \ Mask.single 3, secbits := ∅, uid := 1000, gid := 100,
      groups := [10] }
    Table.empty).spawn

theorem applyTuple_idles_holdingMachine :
    (applyTuple ⟨Mask.ofList [2, 5], Mask.single 2, Mask.single 3⟩).Idles holdingMachine ∧
      Idles (readTuple >>= applyTuple) holdingMachine ∧
      ∃ s', (applyTuple ⟨Mask.ofList [1, 2], Mask.single 1, Mask.single 3⟩).start holdingMachine =
          some (.ok (), s') ∧
        (applyTuple ⟨Mask.ofList [1, 2], Mask.single 1, Mask.single 3⟩).Idles s' := by
  have hends : endsIn (applyTuple ⟨Mask.ofList [1, 2], Mask.single 1, Mask.single 3⟩)
      holdingMachine (.ok ()) = true := by decide +kernel
  have hholds : holdingMachine.credentials.Honours
      ⟨Mask.ofList [2, 5], Mask.single 2, Mask.single 3⟩ := by
    refine ⟨rfl, rfl, fun v hv => ?_⟩
    obtain rfl : 3 = v := by simpa using hv
    decide
  obtain ⟨hidles, hread, hagain⟩ := applyTuple_idles (s := holdingMachine) rfl
    (by decide +kernel) (Machine.shares_of_others_eq_nil rfl).spawn (by decide +kernel)
    (by decide +kernel) (by decide +kernel) (by decide +kernel)
  obtain ⟨s', hstart⟩ := exists_of_endsIn hends
  exact ⟨hidles _ (by decide +kernel) hholds, hread, s', hstart,
    hagain _ s' (by decide +kernel) hstart⟩

end Act

end Capabilities
