import Capabilities.Proofs.Act.Guard

/-!
# What changing the user or the groups changes

Both acts raise a capability, make their change, and lower what they read at
first. So the last of these calls decides the flags, whatever the change of the
user did to them: either it restores what was permitted, or it is refused and
the act fails. Whether the user has changed then is another matter.
-/

namespace Capabilities

namespace Credentials

/-- What is left of credentials without the flags, the ambient mask, and the switch that keeps
what is permitted. -/
def bare (cr : Credentials) : Credentials :=
  { cr with
    effective := ∅, permitted := ∅, inheritable := ∅, ambient := ∅
    secbits := cr.secbits \ Mask.single Secbits.keepCaps }

@[simp] theorem bare_withFlags (cr : Credentials) (s : CapSet) : (cr.withFlags s).bare = cr.bare :=
  rfl

theorem bare_switchUser (cr : Credentials) (uid : UserId) :
    (cr.switchUser uid).bare = { cr.bare with uid } := by
  unfold switchUser
  repeat' split
  all_goals rfl

/-- Only the user is another one, and nothing is effective. -/
structure UserChanged (before after : Credentials) (uid : UserId) : Prop where
  uid : after.uid = uid
  effective : after.effective = ∅
  permitted : after.permitted = before.permitted
  inheritable : after.inheritable = before.inheritable
  bounding : after.bounding = before.bounding
  gid : after.gid = before.gid
  groups : after.groups = before.groups
  secbits : ∀ v, v ≠ Secbits.keepCaps → after.secbits.contains v = before.secbits.contains v

/-- Only the groups are other ones, and nothing is effective. -/
structure GroupsChanged (before after : Credentials) (gid : GroupId) (groups : List GroupId) :
    Prop where
  gid : after.gid = gid
  groups : after.groups = groups
  effective : after.effective = ∅
  permitted : after.permitted = before.permitted
  inheritable : after.inheritable = before.inheritable
  bounding : after.bounding = before.bounding
  uid : after.uid = before.uid
  secbits : after.secbits = before.secbits

theorem userChanged_of_bare {cr cr' : Credentials} {uid : UserId}
    (h : cr'.bare = { cr.bare with uid }) :
    cr.UserChanged (cr'.withFlags (cr.holdings.clearFlag .effective)) uid := by
  simp only [bare, mk.injEq, true_and] at h
  obtain ⟨hbounding, hsecbits, huid, hgid, hgroups⟩ := h
  refine ⟨huid, rfl, rfl, rfl, hbounding, hgid, hgroups, fun v hv => ?_⟩
  have hcontains := congrArg (fun m => m.contains v) hsecbits
  simpa [withFlags, Ne.symm hv] using hcontains

end Credentials

namespace Act

variable {k : Kernel} {cr : Credentials}

/-- If an act succeeds, it leaves the calling thread with credentials as described. -/
abbrev Achieves (k : Kernel) (cr : Credentials) (x : Act Unit) (P : Credentials → Prop) : Prop :=
  Leaves k cr x fun outcome cr' => outcome = .ok () → P cr'

theorem BySteps.leaves {α : Type} {x : Act α} (hx : BySteps x) :
    Leaves k cr x fun _ _ => True := by
  rintro s t outcome ⟨rfl, -⟩ hstart
  exact ⟨t.credentials, ⟨(hx.reaches hstart).kernel_eq, rfl⟩, trivial⟩

/-- If its guarded part fails, so does the act. -/
theorem achieves_guarded {body cleanup rest : Act Unit} (hcleanup : BySteps cleanup)
    {P : Credentials → Prop} (h : Achieves k cr body fun cr' => Achieves k cr' rest P) :
    Achieves k cr (do Act.onFault body cleanup; rest) P := by
  refine leads_onFault_bind (h.mono fun outcome cr' hrest => ?_)
  cases outcome with
  | ok a => exact hrest rfl
  | error f => exact hcleanup.leaves.mono fun _ _ _ hok => nomatch hok

theorem achieves_lower {s : CapSet} (hs : s.fits k.capacity = true) {P : Credentials → Prop}
    (h : P (cr.withFlags (s.clearFlag .effective))) : Achieves k cr (lower s) P := by
  refine leaves_applySet (fun _ => ?_) fun e _ hok => nomatch hok
  rw [fitWords_of_fits (CapSet.fits_clearFlag hs .effective)]
  exact h

/-- What is done while a value is raised may do anything to the flags: if the act succeeds, the
thread holds again what it held before, with nothing effective. -/
theorem achieves_while_raised (hfits : cr.fits k.capacity = true) {v : Value} {body : Act Unit}
    {P : Credentials → Prop}
    (hbody : Achieves k (cr.withFlags (cr.holdingsWith v)) body fun cr' =>
      P (cr'.withFlags (cr.holdings.clearFlag .effective))) :
    Achieves k cr
      (do
        let caps ← readSet
        Act.onFault (raise caps v) (lower caps)
        Act.onFault body (lower caps)
        lower caps) P := by
  have hholdings := Credentials.fits_holdings hfits
  refine leads_bind (leaves_readSet ?_ fun _ e hok => nomatch hok)
  rw [shownFlags_of_fits hfits]
  refine achieves_guarded (bySteps_lower _) (leaves_raise (fun hv _ => ?_) fun f hok => nomatch hok)
  rw [fitWords_of_fits (CapSet.fits_raise hholdings hv)]
  exact achieves_guarded (bySteps_lower _)
    (hbody.mono fun _ _ hP hok => achieves_lower hholdings (hP hok))

theorem keepsBare_setKeepCaps (keep : Bool) : Keeps k Credentials.bare (setKeepCaps keep) := by
  refine keeps_bind (keeps_broadcast fun cr n cr' hanswer => ?_) fun _ => keeps_pure ()
  obtain ⟨-, hanswer⟩ := Kernel.of_ite_error_eq_ok hanswer
  obtain ⟨-, hanswer⟩ := Kernel.of_ite_error_eq_ok hanswer
  cases hanswer
  have hsame (secbits : Secbits)
      (h : secbits \ Mask.single Secbits.keepCaps = cr.secbits \ Mask.single Secbits.keepCaps) :
      Credentials.bare { cr with secbits } = cr.bare := by
    simp only [Credentials.bare, h]
  refine hsame _ (Mask.ext fun v => ?_)
  split <;> by_cases hv : Secbits.keepCaps = v <;> simp [hv]

/-- The last step restores what was permitted, or the act does not succeed; so it does not matter
whether it could be asked for to keep that. -/
theorem achieves_setUid (hfits : cr.fits k.capacity = true) (uid : UserId) :
    Achieves k cr (setUid uid) fun cr' => cr.UserChanged cr' uid := by
  refine achieves_while_raised hfits ?_
  refine leads_bind ((keeps_succeeds (keepsBare_setKeepCaps true) _).mono fun answer cr₂ hbare => ?_)
  cases answer with
  | error f => exact fun hok => nomatch hok
  | ok kept =>
      refine leads_bind (leads_attempt (leaves_broadcast (fun n cr₃ hanswer => ?_) fun e _ => ?_))
      · obtain ⟨-, rfl, -⟩ := Kernel.of_ite_eq_ok hanswer
        have hchanged : (cr₂.switchUser uid).bare = { cr.bare with uid } := by
          rw [Credentials.bare_switchUser, hbare, Credentials.bare_withFlags]
        cases kept with
        | false => exact leads_pure fun _ => Credentials.userChanged_of_bare hchanged
        | true =>
            refine leads_bind ((keeps_ignoring (keepsBare_setKeepCaps false) _).mono
              fun answer cr₄ hsame => ?_)
            cases answer with
            | error f => exact fun hok => nomatch hok
            | ok a =>
                exact leads_pure fun _ => Credentials.userChanged_of_bare (hsame.trans hchanged)
      · cases kept with
        | false => exact leads_throw fun hok => nomatch hok
        | true =>
            refine leads_bind ((bySteps_ignoring (bySteps_setKeepCaps false)).leaves.mono
              fun answer _ _ => ?_)
            cases answer with
            | error f => exact fun hok => nomatch hok
            | ok a => exact leads_throw fun hok => nomatch hok

theorem achieves_setGroups (hfits : cr.fits k.capacity = true) (gid : GroupId)
    (groups : List GroupId) :
    Achieves k cr (setGroups gid groups) fun cr' => cr.GroupsChanged cr' gid groups := by
  refine achieves_while_raised hfits ?_
  refine leads_bind (leaves_broadcast (fun n cr₂ hgid => ?_) fun e _ hok => nomatch hok)
  obtain ⟨-, rfl, -⟩ := Kernel.of_ite_eq_ok hgid
  refine leaves_command (fun n cr₃ hgroups _ => ?_) fun e _ hok => nomatch hok
  obtain ⟨-, hgroups⟩ := Kernel.of_ite_error_eq_ok hgroups
  obtain ⟨-, hgroups⟩ := Kernel.of_ite_error_eq_ok hgroups
  cases hgroups
  exact ⟨rfl, rfl, rfl, rfl, rfl, rfl, rfl, rfl⟩

/-- Whatever the script makes fail, and on whichever threads: where all threads have the same
credentials, changing the user changes nothing else of any thread if it succeeds, except that
nothing stays effective; and so it is with changing the groups. -/
theorem ids_change_alone {s : Machine} (hshares : s.Shares s.credentials)
    (hfits : s.credentials.fits s.capacity = true) :
    (∀ uid s', (setUid uid).start s = some (.ok (), s') →
      s.indices <+: s'.indices ∧
        ∀ t ∈ s'.threads, s.credentials.UserChanged t.credentials uid) ∧
    ∀ gid groups s', (setGroups gid groups).start s = some (.ok (), s') →
      s.indices <+: s'.indices ∧
        ∀ t ∈ s'.threads, s.credentials.GroupsChanged t.credentials gid groups := by
  constructor
  · intro uid s' hstart
    obtain ⟨hindices, hchanged⟩ :=
      (achieves_setUid hfits uid).ends_shared (bySteps_setUid uid) hshares hstart
    exact ⟨hindices, fun t ht => hchanged t ht rfl⟩
  · intro gid groups s' hstart
    obtain ⟨hindices, hchanged⟩ := (achieves_setGroups hfits gid groups).ends_shared
      (bySteps_setGroups gid groups) hshares hstart
    exact ⟨hindices, fun t ht => hchanged t ht rfl⟩

/-- A process of two threads at user 0 on a kernel that never takes back the switch to keep what is
permitted, and that fails a thread at an attempt it does not come to. -/
def keepingMachine : Machine :=
  (Machine.start
    { version := Abi.third.code, valueCount := 41, boundingSupported := true,
      ambientSupported := true, processes := []
      script := [⟨.setKeepCaps, 0, some 0, none, .notPermitted⟩,
        ⟨.capset, 7, none, some 1, .inputOutput⟩] }
    { effective := ∅, permitted := Mask.ofList [0, Value.setgid, Value.setuid],
      inheritable := Mask.single 3, ambient := ∅, bounding := Mask.below 41, secbits := ∅,
      uid := 0, gid := 0, groups := [5] }
    Table.empty).spawn

theorem ids_change_alone_keepingMachine :
    (∃ s', (setUid 1000).start keepingMachine = some (.ok (), s') ∧
      ∀ t ∈ s'.threads, keepingMachine.credentials.UserChanged t.credentials 1000) ∧
    ∃ s', (setGroups 100 [7, 8]).start keepingMachine = some (.ok (), s') ∧
      ∀ t ∈ s'.threads, keepingMachine.credentials.GroupsChanged t.credentials 100 [7, 8] := by
  have hsucceeds {x : Act Unit} (h : (x.start keepingMachine).any (·.1.isOk) = true) :
      ∃ s', x.start keepingMachine = some (.ok (), s') := by
    obtain ⟨⟨outcome, s'⟩, hstart, hok⟩ := (Option.any_eq_true _ _).mp h
    cases outcome with
    | ok a => exact ⟨s', hstart⟩
    | error f => cases hok
  obtain ⟨s₁, huser⟩ := hsucceeds (x := setUid 1000) (by decide +kernel)
  obtain ⟨s₂, hgroups⟩ := hsucceeds (x := setGroups 100 [7, 8]) (by decide +kernel)
  have hchange := ids_change_alone (s := keepingMachine)
    (Machine.shares_of_others_eq_nil rfl).spawn (by decide +kernel)
  exact ⟨⟨s₁, huser, (hchange.1 1000 s₁ huser).2⟩, s₂, hgroups,
    (hchange.2 100 [7, 8] s₂ hgroups).2⟩

end Act

namespace Credentials

/-- Whether a value is supported and permitted, so that it can be made effective. -/
def canRaise (c : Capacity) (cr : Credentials) (v : Value) : Bool :=
  c.admits v && cr.permitted.contains v

theorem canRaise_iff {c : Capacity} {cr : Credentials} {v : Value} :
    cr.canRaise c v = true ↔ v < c.count ∧ cr.permitted.contains v = true := by
  simp [canRaise, Capacity.admits]

/-- Whether changing the user gives up what is permitted. -/
def forfeits (cr : Credentials) (uid : UserId) : Bool :=
  !cr.secbits.contains Secbits.noSetuidFixup && decide (cr.uid = 0 ∧ uid ≠ 0) &&
    !cr.secbits.contains Secbits.keepCaps

theorem permitted_switchUser (cr : Credentials) (uid : UserId) :
    (cr.switchUser uid).permitted = if cr.forfeits uid then ∅ else cr.permitted := by
  unfold switchUser forfeits
  cases cr.secbits.contains Secbits.noSetuidFixup with
  | true => rfl
  | false =>
      by_cases hleaves : cr.uid = 0 ∧ uid ≠ 0
      · cases cr.secbits.contains Secbits.keepCaps <;> simp [hleaves]
      · rw [if_neg Bool.false_ne_true, if_neg hleaves, decide_eq_false hleaves]
        split <;> rfl

/-- Whether changing the user gives up what is permitted and it cannot be asked for to keep it. -/
def strandedBy (cr : Credentials) (uid : UserId) : Bool :=
  cr.secbits.contains Secbits.keepCapsLocked && cr.forfeits uid

end Credentials

namespace Act

variable {k : Kernel} {cr : Credentials}

/-- How a change of the user comes out. -/
inductive UserOutcome (k : Kernel) (cr : Credentials) (uid : UserId) :
    Except Fault Unit → Credentials → Prop
  /-- The capability for it could not be raised. -/
  | refused (f : Fault) {cr' : Credentials} (hable : cr.canRaise k.capacity Value.setuid = false)
      (huid : cr'.uid = cr.uid) (hpermitted : cr'.permitted = cr.permitted) :
      UserOutcome k cr uid (.error f) cr'
  /-- The user has changed, but what was permitted is lost and cannot be restored. -/
  | stranded {cr' : Credentials} (hable : cr.canRaise k.capacity Value.setuid = true)
      (hstranded : cr.strandedBy uid = true) (huid : cr'.uid = uid)
      (hpermitted : cr'.permitted = ∅) : UserOutcome k cr uid (.error (.os .notPermitted)) cr'
  | changed {cr' : Credentials} (hable : cr.canRaise k.capacity Value.setuid = true)
      (hstranded : cr.strandedBy uid = false) (huid : cr'.uid = uid)
      (hpermitted : cr'.permitted = cr.permitted) : UserOutcome k cr uid (.ok ()) cr'

/-- The last step tries to restore what was permitted at first. -/
theorem ensures_settle_user (hscript : k.script = []) (hfits : cr.fits k.capacity = true)
    {uid : UserId} (hable : cr.canRaise k.capacity Value.setuid = true) {cr' : Credentials}
    (huid : cr'.uid = uid) (hinheritable : cr'.inheritable = cr.inheritable)
    (hpermitted : cr'.permitted = if cr.strandedBy uid then ∅ else cr.permitted) :
    Ensures k cr' (lower cr.holdings) (UserOutcome k cr uid) := by
  have hholdings := Credentials.fits_holdings hfits
  cases hstranded : cr.strandedBy uid with
  | true =>
      rw [hstranded, if_pos rfl] at hpermitted
      refine ensures_lower hscript hholdings (fun hgranted => ?_) fun _ => ?_
      · -- The capability itself would have to be permitted still.
        simp only [Kernel.admitsFlags, Bool.and_eq_true, Mask.isWithin_iff] at hgranted
        have hkept := hgranted.1.2 _ (Credentials.canRaise_iff.mp hable).2
        rw [hpermitted, Mask.contains_empty] at hkept
        cases hkept
      · exact .stranded hable hstranded huid hpermitted
  | false =>
      rw [hstranded, if_neg Bool.false_ne_true] at hpermitted
      refine ensures_lower_of_isWithin hscript hholdings ?_ ?_ ?_
      · rw [hpermitted]
        exact Mask.isWithin_refl _
      · rw [hinheritable]
        exact Mask.isWithin_refl _
      · exact .changed hable hstranded huid rfl

theorem ensures_switchUser (hscript : k.script = []) (hhas : cr.has Value.setuid = true)
    {uid : UserId} {Q : Except Fault Nat → Credentials → Prop}
    (h : Q (.ok 0) (cr.switchUser uid)) : Ensures k cr (broadcast (.setUid uid)) Q := by
  apply ensures_broadcast hscript
  rw [Kernel.respond, hhas, Bool.true_or, if_pos rfl]
  exact h

/-- The change itself; where it cannot be asked for to keep what is permitted, that may be lost. -/
theorem ensures_switch_keeping (hscript : k.script = []) (hhas : cr.has Value.setuid = true)
    {uid : UserId} {Q : Except Fault Unit → Credentials → Prop}
    (h : ∀ cr', cr'.uid = uid → cr'.inheritable = cr.inheritable →
      cr'.permitted = (if cr.strandedBy uid then ∅ else cr.permitted) → Q (.ok ()) cr') :
    Ensures k cr
      (do
        let kept ← Act.succeeds (setKeepCaps true)
        let outcome ← Act.attempt (Act.broadcast (.setUid uid))
        if kept then Act.ignoring (setKeepCaps false)
        match outcome with
        | .ok _ => return ()
        | .error f => throw f) Q := by
  refine ensures_bind (ensures_succeeds
    (ensures_setKeepCaps hscript (fun hunlocked => ?_) fun hlocked => ?_))
  · have hkept : Credentials.forfeits
        { cr with secbits := cr.secbits ∪ Mask.single Secbits.keepCaps } uid = false := by
      simp [Credentials.forfeits]
    have hpermitted : (Credentials.switchUser
        { cr with secbits := cr.secbits ∪ Mask.single Secbits.keepCaps } uid).permitted =
          if cr.strandedBy uid then ∅ else cr.permitted := by
      rw [Credentials.permitted_switchUser, hkept, Credentials.strandedBy, hunlocked]
      rfl
    refine ensures_bind (ensures_attempt (ensures_switchUser hscript ?_ ?_))
    · exact hhas
    -- Taking back the switch changes nothing that matters, whether or not it is granted.
    refine ensures_bind (ensures_ignoring (ensures_setKeepCaps hscript (fun _ => ?_) fun _ => ?_))
    · exact ensures_pure (h _ (Credentials.uid_switchUser _ uid)
        (Credentials.inheritable_switchUser _ uid) hpermitted)
    · exact ensures_pure (h _ (Credentials.uid_switchUser _ uid)
        (Credentials.inheritable_switchUser _ uid) hpermitted)
  · refine ensures_bind (ensures_attempt (ensures_switchUser hscript hhas ?_))
    refine ensures_pure (h _ (cr.uid_switchUser uid) (cr.inheritable_switchUser uid) ?_)
    rw [Credentials.permitted_switchUser, Credentials.strandedBy, hlocked, Bool.true_and]

/-- Where the switch to keep what is permitted is locked, it is locked for the whole act. -/
theorem ensures_setUid (hscript : k.script = []) (hfits : cr.fits k.capacity = true)
    (heffective : cr.effective.isWithin cr.permitted = true) (uid : UserId) :
    Ensures k cr (setUid uid) (UserOutcome k cr uid) := by
  refine reads_readSet.ensures_bind hscript ?_
  rw [shownFlags_of_fits hfits]
  refine ensures_onFault_bind (ensures_raise_holdings hscript hfits heffective ?_ ?_)
  · intro hsupported hheld
    have hhas := cr.has_withFlags_holdingsWith Value.setuid
    exact ensures_onFault_bind (ensures_switch_keeping hscript hhas fun cr' =>
      ensures_settle_user hscript hfits (Credentials.canRaise_iff.mpr ⟨hsupported, hheld⟩))
  · intro f _ hunraised
    refine ensures_lower_of_isWithin hscript (Credentials.fits_holdings hfits)
      (Mask.isWithin_refl _) (Mask.isWithin_refl _) (.refused f ?_ rfl rfl)
    rw [Bool.eq_false_iff, Ne, Credentials.canRaise_iff]
    rintro ⟨hsupported, hheld⟩
    rw [hunraised hsupported] at hheld
    cases hheld

/-- Where no failure is scripted, the change of the user comes to an end and fails on all threads in
the same way. If it fails, the user has not changed and what was permitted still is, with one
exception: a privileged process that leaves user 0, and cannot ask to keep what is permitted because
that switch is locked, is told that the change is not permitted, although it was made and has left
the process with nothing. -/
theorem setUid_failed {s : Machine} (hscript : s.kernel.script = [])
    (hshares : s.Shares s.credentials) (hfits : s.credentials.fits s.capacity = true)
    (heffective : s.credentials.effective.isWithin s.credentials.permitted = true)
    (uid : UserId) :
    ∃ outcome s', (setUid uid).start s = some (outcome, s') ∧ s'.indices = s.indices ∧
      (outcome = .ok () ↔ s.credentials.canRaise s.capacity Value.setuid = true ∧
        s.credentials.strandedBy uid = false) ∧
      ∀ f, outcome = .error f → ∀ t ∈ s'.threads,
        if s.credentials.canRaise s.capacity Value.setuid ∧ s.credentials.strandedBy uid then
          f = .os .notPermitted ∧ t.credentials.uid = uid ∧ t.credentials.permitted = ∅
        else
          t.credentials.uid = s.credentials.uid ∧
            t.credentials.permitted = s.credentials.permitted := by
  obtain ⟨outcome, s', hstart, -, hindices, cr', hshares', houtcome⟩ :=
    (ensures_setUid hscript hfits heffective uid).ends (bySteps_setUid uid) hscript hshares
  refine ⟨outcome, s', hstart, hindices, ?_, fun f hf t ht => ?_⟩
  · cases houtcome with
    | refused f hable =>
        exact ⟨nofun, fun h => Bool.noConfusion (hable.symm.trans h.1)⟩
    | stranded hable hstranded =>
        exact ⟨nofun, fun h => Bool.noConfusion (hstranded.symm.trans h.2)⟩
    | changed hable hstranded => exact ⟨fun _ => ⟨hable, hstranded⟩, fun _ => rfl⟩
  · rw [hshares' t ht]
    cases houtcome with
    | refused f hable huid hpermitted =>
        refine (if_neg fun h => ?_).mpr ⟨huid, hpermitted⟩
        exact Bool.noConfusion (hable.symm.trans h.1)
    | stranded hable hstranded huid hpermitted =>
        cases hf
        exact (if_pos ⟨hable, hstranded⟩).mpr ⟨rfl, huid, hpermitted⟩
    | changed => cases hf

/-- A process of two threads at user 0 that may change its user, and whose switch to keep what is
permitted is locked. -/
def strandingMachine : Machine :=
  (Machine.start
    { version := Abi.third.code, valueCount := 41, boundingSupported := true,
      ambientSupported := true, processes := [], script := [] }
    { effective := ∅, permitted := Mask.single Value.setuid, inheritable := ∅, ambient := ∅,
      bounding := Mask.below 41, secbits := Mask.single Secbits.keepCapsLocked, uid := 0, gid := 0,
      groups := [] }
    Table.empty).spawn

theorem strandingMachine_shares : strandingMachine.Shares strandingMachine.credentials :=
  (Machine.shares_of_others_eq_nil rfl).spawn

/-- Staying at user 0 succeeds. -/
theorem setUid_failed_strandingMachine :
    ∃ s', (setUid 0).start strandingMachine = some (.ok (), s') ∧
      s'.indices = strandingMachine.indices := by
  obtain ⟨outcome, s', hstart, hindices, hok, -⟩ :=
    setUid_failed (s := strandingMachine) rfl strandingMachine_shares (by decide +kernel)
      (by decide) 0
  obtain rfl := hok.mpr ⟨by decide +kernel, by decide⟩
  exact ⟨s', hstart, hindices⟩

/-- The process is told that the change is not permitted, but has left user 0 with nothing. -/
theorem setUid_stranded_strandingMachine :
    ∃ s', (setUid 1000).start strandingMachine = some (.error (.os .notPermitted), s') ∧
      ∀ t ∈ s'.threads, t.credentials.uid = 1000 ∧
        strandingMachine.credentials.permitted.contains Value.setuid = true ∧
        t.credentials.permitted = ∅ := by
  have hends : ((setUid 1000).start strandingMachine).any (fun reply =>
      match reply.1 with
      | .ok _ => false
      | .error f => decide (f = .os .notPermitted) &&
          reply.2.threads.all fun t => decide (t.credentials.uid = 1000 ∧
            strandingMachine.credentials.permitted.contains Value.setuid = true ∧
            t.credentials.permitted = ∅)) = true := by decide +kernel
  obtain ⟨⟨outcome, s'⟩, hstart, hleft⟩ := (Option.any_eq_true _ _).mp hends
  cases outcome with
  | ok a => cases hleft
  | error f =>
      simp only [Bool.and_eq_true, decide_eq_true_eq, List.all_eq_true] at hleft
      obtain ⟨rfl, hthreads⟩ := hleft
      exact ⟨s', hstart, hthreads⟩

end Act

end Capabilities
