import Capabilities.Proofs.Act.Identity
import Capabilities.Proofs.Mode.Entry

/-!
# When a mode cannot be entered

Entering a mode can fail in two places: at raising the capability for it, and at
locking the secure bits. Both come before any permitted or bounding value is
given up. After them nothing fails: dropping bounding values never does, and
giving up flags is always granted. But a failure leaves nothing effective, and
where the secure bits are refused, the ambient mask and most inheritable values
are gone already.
-/

namespace Capabilities

/-- What is permitted, the bounding mask, the secure bits and who the thread is are as before. -/
structure Credentials.Retained (before after : Credentials) : Prop where
  permitted : after.permitted = before.permitted
  bounding : after.bounding = before.bounding
  secbits : after.secbits = before.secbits
  uid : after.uid = before.uid
  gid : after.gid = before.gid
  groups : after.groups = before.groups

namespace Act

variable {k : Kernel} {cr : Credentials}

/-- Whether or not values can be dropped, dropping them does not fail. -/
theorem ensures_dropWhilePossible_isOk (hscript : k.script = []) (vs : List Value)
    {Q : Except Fault Unit → Credentials → Prop}
    (h : ∀ bounding, Q (.ok ()) { cr with bounding }) : Ensures k cr (dropWhilePossible vs) Q := by
  induction vs generalizing cr with
  | nil => exact ensures_pure (h cr.bounding)
  | cons v rest ih =>
      refine ensures_bind (ensures_succeeds (ensures_command hscript ?_))
      cases hanswer : k.respond cr (.dropBounding v) with
      | error e => exact ensures_pure (h cr.bounding)
      | ok answer =>
          obtain ⟨n, cr'⟩ := answer
          obtain ⟨-, hanswer⟩ := Kernel.of_ite_error_eq_ok hanswer
          obtain ⟨-, rfl, -⟩ := Kernel.of_ite_eq_ok hanswer
          exact ih fun bounding => h bounding

/-- Once the secure bits are locked, a mode is entered. -/
theorem ensures_relinquish_isOk (hscript : k.script = []) (m : Mode) {kept : CapSet}
    (hkept : kept.fits k.capacity = true) (hp : kept.permitted.isWithin cr.permitted = true)
    (hi : kept.inheritable.isWithin cr.inheritable = true) :
    Ensures k cr (relinquish m kept) fun outcome _ => outcome = .ok () := by
  unfold relinquish
  split
  · refine reads_capacity.ensures_bind hscript (ensures_bind ?_)
    refine ensures_dropWhilePossible_isOk hscript _ fun bounding => ?_
    refine ensures_lower_of_isWithin hscript (CapSet.fits_clearFlag hkept .permitted) ?_ ?_ rfl
    · exact Mask.empty_isWithin _
    · exact hi
  · exact ensures_lower_of_isWithin hscript hkept hp hi rfl

/-- How entering a secured mode can fail: `f` is the fault, and `after` what the thread is left
with. -/
inductive EntryRefused (k : Kernel) (m : Mode) (cr : Credentials) (f : Fault)
    (after : Credentials) : Prop
  | unraised (hreason : f = .badValue ∨ f = .os .notPermitted)
      (hunable : cr.canRaise k.capacity Value.setpcap = false)
      (hleft : after = cr.withFlags (cr.holdings.clearFlag .effective))
  | locked (hreason : f = .os .notPermitted)
      (hable : cr.canRaise k.capacity Value.setpcap = true)
      (hlocks : cr.secbits.admitsChange k.entryBits = false)
      (hleft : after =
        (k.withoutAmbient cr).withFlags ((m.kept cr.holdings).clearFlag .effective))

theorem ensures_enterSecured_refused (hscript : k.script = []) (hfits : cr.fits k.capacity = true)
    (heffective : cr.effective.isWithin cr.permitted = true) (m : Mode) :
    Ensures k cr (enterSecured m) fun outcome cr' =>
      ∀ f, outcome = .error f → EntryRefused k m cr f cr' := by
  refine ensures_enterSecured_of_relinquish hscript hfits heffective ?_ ?_ ?_
  · rintro f hreason hdenied _ ⟨⟩
    refine .unraised hreason ?_ rfl
    rw [Bool.eq_false_iff, Ne, Credentials.canRaise_iff]
    rintro ⟨hrange, hheld⟩
    cases (hdenied hrange).symm.trans hheld
  · rintro hrange hheld hlocks _ ⟨⟩
    exact .locked rfl (Credentials.canRaise_iff.mpr ⟨hrange, hheld⟩) hlocks rfl
  · intro _ _ _
    have hkept := m.fits_kept (Credentials.fits_holdings hfits)
    have hentered : Ensures k
        { k.withoutAmbient (cr.withFlags (cr.holdingsWith Value.setpcap)) with
          secbits := k.entryBits } (relinquish m (m.kept cr.holdings))
        fun outcome _ => outcome = .ok () := by
      refine ensures_relinquish_isOk hscript m hkept ?_ ?_
      · rw [m.permitted_kept]
        exact Mask.isWithin_refl _
      · rw [m.inheritable_kept]
        split
        · exact Mask.isWithin_refl _
        · exact Mask.empty_isWithin _
    refine hentered.mono fun outcome cr' hok f hfault => ?_
    cases hok.symm.trans hfault

namespace EntryRefused

variable {m : Mode} {f : Fault} {after : Credentials}

theorem ne_badMode (h : EntryRefused k m cr f after) : f ≠ .badMode := by
  rintro rfl
  cases h with
  | unraised hreason => simp at hreason
  | locked hreason => cases hreason

theorem retained (h : EntryRefused k m cr f after) : cr.Retained after := by
  cases h with
  | unraised _ _ hleft =>
      subst hleft
      exact ⟨rfl, rfl, rfl, rfl, rfl, rfl⟩
  | locked _ _ _ hleft =>
      subst hleft
      exact ⟨m.permitted_kept _, rfl, rfl, rfl, rfl, rfl⟩

/-- Where the capability could not be raised, nothing but the effective flag is given up. -/
theorem of_unraised (h : EntryRefused k m cr f after)
    (hunable : cr.canRaise k.capacity Value.setpcap = false)
    (hambient : cr.ambient.isWithin (cr.permitted ∩ cr.inheritable) = true) :
    after = { cr with effective := ∅ } := by
  cases h with
  | unraised _ _ hleft =>
      have hkept : cr.ambient ∩ (cr.permitted ∩ cr.inheritable) = cr.ambient :=
        Mask.inter_eq_left hambient
      calc
        after = cr.withFlags (cr.holdings.clearFlag .effective) := hleft
        _ = { cr with effective := ∅, ambient := cr.ambient ∩ (cr.permitted ∩ cr.inheritable) } :=
            rfl
        _ = { cr with effective := ∅ } := by rw [hkept]
  | locked _ hable => cases hunable.symm.trans hable

/-- Where the secure bits are refused, the ambient mask is cleared before. -/
theorem of_locked (h : EntryRefused k m cr f after)
    (hable : cr.canRaise k.capacity Value.setpcap = true) :
    cr.secbits.admitsChange k.entryBits = false ∧ after.effective = ∅ ∧
      (k.ambients 0 = true → after.ambient = ∅) ∧
      after.inheritable = if m = .pure then cr.inheritable else ∅ := by
  cases h with
  | unraised _ hunable => cases hunable.symm.trans hable
  | locked _ _ hlocks hleft =>
      subst hleft
      refine ⟨hlocks, rfl, fun hzero => ?_, m.inheritable_kept _⟩
      simp [Credentials.withFlags, Kernel.withoutAmbient, hzero]

end EntryRefused

/-- Where no failure is scripted, entering a mode comes to an end. If it fails, every thread has
kept what is permitted, its bounding mask, its secure bits, its user and its groups. The uncertain
mode is refused before anything is done. Otherwise nothing is effective any more: if the capability
to enter a mode cannot be raised, the rest is as it was; if the locks refuse the secure bits, the
ambient mask is empty, and so is the inheritable one except for the pure mode. -/
theorem enterMode_failed {s : Machine} {m : Mode} (hscript : s.kernel.script = [])
    (hshares : s.Shares s.credentials) (hfits : s.credentials.fits s.capacity = true)
    (heffective : s.credentials.effective.isWithin s.credentials.permitted = true)
    (hambient : s.credentials.ambient.isWithin
      (s.credentials.permitted ∩ s.credentials.inheritable) = true) :
    ∃ outcome s', (enterMode m).start s = some (outcome, s') ∧ s'.indices = s.indices ∧
      ∀ f, outcome = .error f →
        (∀ t ∈ s'.threads, s.credentials.Retained t.credentials) ∧
        (f = .badMode ↔ m = .uncertain) ∧
        (f = .badMode → s' = s) ∧
        (f ≠ .badMode →
          (s.credentials.canRaise s.capacity Value.setpcap = false →
            ∀ t ∈ s'.threads, t.credentials = { s.credentials with effective := ∅ }) ∧
          (s.credentials.canRaise s.capacity Value.setpcap = true →
            s.credentials.secbits.admitsChange s.kernel.entryBits = false ∧
            ∀ t ∈ s'.threads, t.credentials.effective = ∅ ∧
              (s.kernel.ambients 0 = true → t.credentials.ambient = ∅) ∧
              t.credentials.inheritable =
                if m = .pure then s.credentials.inheritable else ∅)) := by
  by_cases hm : m = .uncertain
  · subst hm
    refine ⟨.error .badMode, s, rfl, rfl, ?_⟩
    rintro f ⟨⟩
    refine ⟨fun t ht => ?_, by simp, fun _ => rfl, fun hne => absurd rfl hne⟩
    rw [hshares t ht]
    exact ⟨rfl, rfl, rfl, rfl, rfl, rfl⟩
  · have hsecured : enterMode m = enterSecured m := by
      cases m with
      | uncertain => exact absurd rfl hm
      | _ => rfl
    have hensures : Ensures s.kernel s.credentials (enterMode m) _ :=
      hsecured ▸ ensures_enterSecured_refused hscript hfits heffective m
    obtain ⟨outcome, s', hstart, -, hindices, cr, hshares', hrefused⟩ :=
      hensures.ends (bySteps_enterMode m) hscript hshares
    refine ⟨outcome, s', hstart, hindices, fun f hfault => ?_⟩
    have hentry := hrefused f hfault
    have hnamed := hentry.ne_badMode
    refine ⟨fun t ht => ?_, by simp [hnamed, hm], fun h => absurd h hnamed, fun _ => ⟨?_, ?_⟩⟩
    · rw [hshares' t ht]
      exact hentry.retained
    · intro hunable t ht
      rw [hshares' t ht]
      exact hentry.of_unraised hunable hambient
    · intro hable
      obtain ⟨hlocks, hleft⟩ := hentry.of_locked hable
      refine ⟨hlocks, fun t ht => ?_⟩
      rw [hshares' t ht]
      exact hleft

/-- A process of two threads whose secure bits are locked as they are. -/
def latchedMachine : Machine :=
  (Machine.start
    { version := Abi.third.code, valueCount := 41, boundingSupported := true,
      ambientSupported := true, processes := [], script := [] }
    { effective := ∅, permitted := Mask.ofList [0, Value.setpcap], inheritable := Mask.single 0,
      ambient := Mask.single 0, bounding := Mask.below 41,
      secbits := Mask.single Secbits.noRootLocked, uid := 1000, gid := 100, groups := [10] }
    Table.empty).spawn

/-- It keeps all that is permitted and the whole bounding mask, but the ambient and the inheritable
values are gone. -/
theorem enterMode_failed_latchedMachine :
    ∃ s', (enterMode .noPriv).start latchedMachine = some (.error (.os .notPermitted), s') ∧
      ∀ t ∈ s'.threads, latchedMachine.credentials.Retained t.credentials ∧
        t.credentials.inheritable = ∅ ∧ t.credentials.ambient = ∅ := by
  have hends : endsIn (enterMode .noPriv) latchedMachine (.error (.os .notPermitted)) = true := by
    decide +kernel
  have hshares : latchedMachine.Shares latchedMachine.credentials :=
    (Machine.shares_of_others_eq_nil rfl).spawn
  obtain ⟨outcome, s', hstart, -, hfailed⟩ := enterMode_failed (m := .noPriv) rfl hshares
    (by decide +kernel) (by decide +kernel) (by decide +kernel)
  obtain ⟨s'', hstart'⟩ := exists_of_endsIn hends
  cases hstart.symm.trans hstart'
  obtain ⟨hretained, -, -, hleft⟩ := hfailed _ rfl
  obtain ⟨-, hlost⟩ := (hleft (by decide)).2 (by decide +kernel)
  refine ⟨s', hstart, fun t ht => ?_⟩
  obtain ⟨-, hambient, hinheritable⟩ := hlost t ht
  exact ⟨hretained t ht, hinheritable, hambient (by decide +kernel)⟩

end Act

end Capabilities
