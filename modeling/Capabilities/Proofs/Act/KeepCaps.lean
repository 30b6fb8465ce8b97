import Capabilities.Proofs.Act.Identity

/-!
# The switch to keep what is permitted

Changing the user raises this switch for the duration, and lowers it afterwards
whatever it was before. So a process that had raised it finds it lowered, unless
the act ends before it gets to the switch, or the switch is locked. All other
secure bits stay as they are.
-/

namespace Capabilities

/-- The secure bits of a thread after the switch to keep what is permitted has been raised and
lowered again, as far as it is not locked. -/
def Credentials.secbitsAfterKeeping (cr : Credentials) : Secbits :=
  if cr.secbits.contains Secbits.keepCapsLocked then cr.secbits
  else cr.secbits \ Mask.single Secbits.keepCaps

theorem Credentials.secbitsAfterKeeping_eq_iff {cr : Credentials} :
    cr.secbitsAfterKeeping = cr.secbits ↔
      ¬ (cr.secbits.contains Secbits.keepCaps = true ∧
        cr.secbits.contains Secbits.keepCapsLocked = false) := by
  unfold secbitsAfterKeeping
  split
  next hlocked => simp [hlocked]
  next hunlocked => simp [hunlocked, Mask.sdiff_single_eq_iff]

namespace Kernel

variable {k : Kernel} {cr : Credentials} {v : Value}

/-- Whether a value can be raised beside what a thread sees of itself: it is supported and
permitted, and all that is effective is permitted. -/
def admitsRaise (k : Kernel) (cr : Credentials) (v : Value) : Bool :=
  cr.canRaise k.capacity v && (k.shownFlags cr).effective.isWithin cr.permitted

theorem admitsRaise_of_le (hv : k.capacity.count ≤ v) : k.admitsRaise cr v = false := by
  simp [admitsRaise, Credentials.canRaise, Capacity.admits, Nat.not_lt.mpr hv]

theorem admitsFlags_shownFlags_raised (hv : v < k.capacity.count) {s : CapSet}
    (hs : s = Act.fitWords k.capacity { k.shownFlags cr with
      effective := (k.shownFlags cr).effective ∪ Mask.single v }) :
    admitsFlags cr s.effective s.permitted s.inheritable = k.admitsRaise cr v := by
  have hword : v < k.capacity.width := Nat.lt_of_lt_of_le hv k.capacity.count_le
  obtain ⟨hpermitted, hinheritable⟩ := k.covers_shownFlags cr
  have hp : s.permitted.isWithin cr.permitted = true := by rw [hs]; exact hpermitted
  have hi (m : Mask) : s.inheritable.isWithin (cr.inheritable ∪ m) = true := by
    rw [hs]
    exact Mask.isWithin_union_left hinheritable m
  have he : s.effective.isWithin s.permitted = true ↔ k.admitsRaise cr v = true := by
    simp only [admitsRaise, Bool.and_eq_true, Credentials.canRaise_iff, Mask.isWithin_iff, hs,
      Act.fitWords, shownFlags, Credentials.holdings, Mask.contains_inter, Mask.contains_union,
      Mask.contains_single, Mask.contains_below, Bool.or_eq_true, decide_eq_true_eq]
    constructor
    · intro h
      exact ⟨⟨hv, (h v ⟨.inr rfl, hword⟩).1.1⟩, fun u hu => (h u ⟨.inl hu, hu.2⟩).1.1⟩
    · rintro ⟨⟨-, hheld⟩, heffective⟩ u ⟨hu | rfl, hword⟩
      · exact ⟨⟨heffective u hu, hword⟩, hword⟩
      · exact ⟨⟨hheld, hword⟩, hword⟩
  rw [Bool.eq_iff_iff, ← he]
  simp [admitsFlags, hp, hi]

end Kernel

namespace Act

variable {k : Kernel} {cr : Credentials}

theorem ensures_lower_secbits (hscript : k.script = []) (s : CapSet) :
    Ensures k cr (lower s) fun _ cr' => cr'.secbits = cr.secbits :=
  ensures_applySet_words hscript (fun _ => rfl) fun _ => rfl

theorem ensures_switchUser_secbits (hscript : k.script = []) (uid : UserId) :
    Ensures k cr (broadcast (.setUid uid)) fun _ cr' => cr'.secbits = cr.secbits := by
  apply ensures_broadcast hscript
  rw [Kernel.respond]
  by_cases hgranted : cr.has Value.setuid || uid = cr.uid
  · rw [if_pos hgranted]
    exact cr.secbits_switchUser uid
  · rw [if_neg hgranted]

/-- The switch is lowered after the change if it could be raised before it. -/
theorem ensures_switch_secbits (hscript : k.script = []) (uid : UserId) :
    Ensures k cr
      (do
        let kept ← Act.succeeds (setKeepCaps true)
        let outcome ← Act.attempt (Act.broadcast (.setUid uid))
        if kept then Act.ignoring (setKeepCaps false)
        match outcome with
        | .ok _ => return ()
        | .error f => throw f)
      fun _ cr' => cr'.secbits = cr.secbitsAfterKeeping := by
  refine ensures_bind (ensures_succeeds
    (ensures_setKeepCaps hscript (fun hunlocked => ?_) fun hlocked => ?_))
  · have hlowered : (cr.secbits ∪ Mask.single Secbits.keepCaps) \ Mask.single Secbits.keepCaps =
        cr.secbitsAfterKeeping := by
      rw [Mask.union_sdiff, Mask.sdiff_eq_empty (Mask.isWithin_refl _), Mask.union_empty,
        Credentials.secbitsAfterKeeping, hunlocked]
      rfl
    refine ensures_bind (ensures_attempt ((ensures_switchUser_secbits hscript uid).mono
      fun outcome cr' hraised => ?_))
    refine ensures_bind (ensures_ignoring
      (ensures_setKeepCaps hscript (fun _ => ?_) fun hlocked => ?_))
    · have hend := hlowered
      rw [← show cr'.secbits = cr.secbits ∪ Mask.single Secbits.keepCaps from hraised] at hend
      cases outcome with
      | ok n => exact ensures_pure hend
      | error f => exact ensures_throw hend
    · -- Neither raising the switch nor changing the user locks it.
      have hunlocked' : cr'.secbits.contains Secbits.keepCapsLocked = false := by
        rw [hraised]
        show (cr.secbits ∪ Mask.single Secbits.keepCaps).contains Secbits.keepCapsLocked = false
        rw [Mask.contains_union, hunlocked]
        decide
      cases hlocked.symm.trans hunlocked'
  · have hsame : cr.secbits = cr.secbitsAfterKeeping := (if_pos hlocked).symm
    refine ensures_bind (ensures_attempt ((ensures_switchUser_secbits hscript uid).mono
      fun outcome cr' hkept => ?_))
    cases outcome with
    | ok n => exact ensures_pure (hkept.trans hsame)
    | error f => exact ensures_throw (hkept.trans hsame)

theorem ensures_setUid_secbits (hscript : k.script = []) (uid : UserId) :
    Ensures k cr (setUid uid) fun _ cr' => cr'.secbits =
      if k.admitsRaise cr Value.setuid then cr.secbitsAfterKeeping else cr.secbits := by
  have hunraised (h : k.admitsRaise cr Value.setuid = false) (s : CapSet) :
      Ensures k cr (lower s) fun _ cr' => cr'.secbits =
        if k.admitsRaise cr Value.setuid then cr.secbitsAfterKeeping else cr.secbits := by
    rw [h]
    exact ensures_lower_secbits hscript s
  refine reads_readSet.ensures_bind hscript (ensures_onFault_bind
    (ensures_raise_of_applySet hscript (fun hrange => ?_) fun hsupported =>
      ensures_applySet_words hscript (fun hgranted => ?_) fun hrefused => ?_))
  · exact hunraised (Kernel.admitsRaise_of_le hrange) _
  · rw [Kernel.admitsFlags_shownFlags_raised hsupported rfl] at hgranted
    rw [hgranted]
    refine ensures_onFault_bind ((ensures_switch_secbits hscript uid).mono
      fun outcome cr₂ hswitched => ?_)
    have hend (s : CapSet) : Ensures k cr₂ (lower s) fun _ cr' =>
        cr'.secbits = cr.secbitsAfterKeeping :=
      (ensures_lower_secbits hscript s).mono fun _ _ hsame => hsame.trans hswitched
    cases outcome with
    | ok a => exact hend _
    | error f => exact hend _
  · rw [Kernel.admitsFlags_shownFlags_raised hsupported rfl] at hrefused
    exact hunraised hrefused _

/-- Where no failure is scripted, changing the user comes to an end with the same secure bits on all
threads, whether or not it succeeds. They are those before, except that the switch to keep what is
permitted is lowered if the act got to it and it is not locked. So they are restored exactly if the
switch was not raised before, or could not be moved. -/
theorem setUid_restores_secbits_iff {s : Machine} (hscript : s.kernel.script = [])
    (hshares : s.Shares s.credentials) (uid : UserId) :
    ∃ outcome s', (setUid uid).start s = some (outcome, s') ∧ s'.indices = s.indices ∧
      (∀ t ∈ s'.threads, ∀ v, v ≠ Secbits.keepCaps →
        t.credentials.secbits.contains v = s.credentials.secbits.contains v) ∧
      ((∀ t ∈ s'.threads, t.credentials.secbits = s.credentials.secbits) ↔
        ¬ (s.credentials.secbits.contains Secbits.keepCaps = true ∧
          s.credentials.secbits.contains Secbits.keepCapsLocked = false ∧
          s.kernel.admitsRaise s.credentials Value.setuid = true)) := by
  obtain ⟨outcome, s', hstart, -, hindices, cr', hshares', hleft⟩ :=
    (ensures_setUid_secbits hscript uid).ends (bySteps_setUid uid) hscript hshares
  refine ⟨outcome, s', hstart, hindices, fun t ht v hv => ?_, ?_⟩
  · rw [hshares' t ht, hleft, Credentials.secbitsAfterKeeping]
    repeat' split
    all_goals simp [Ne.symm hv]
  · have hsame : (∀ t ∈ s'.threads, t.credentials.secbits = s.credentials.secbits) ↔
        cr'.secbits = s.credentials.secbits := by
      constructor
      · intro h
        rw [← h s'.main List.mem_cons_self, hshares' s'.main List.mem_cons_self]
      · intro h t ht
        rw [hshares' t ht, h]
    rw [hsame, hleft]
    split
    next hraise => simp [Credentials.secbitsAfterKeeping_eq_iff, hraise]
    next hraise => simp [hraise]

/-- A process of two threads at user 0 that may change its user. -/
def retainingMachine (secbits : Secbits) : Machine :=
  (Machine.start
    { version := Abi.third.code, valueCount := 41, boundingSupported := true,
      ambientSupported := true, processes := [], script := [] }
    { effective := ∅, permitted := Mask.single Value.setuid, inheritable := ∅, ambient := ∅,
      bounding := Mask.below 41, secbits, uid := 0, gid := 0, groups := [] }
    Table.empty).spawn

/-- A switch that is raised and locked stays so. -/
theorem setUid_restores_secbits_iff_retainingMachine :
    ∃ outcome s', (setUid 1000).start
        (retainingMachine (Mask.ofList [Secbits.keepCaps, Secbits.keepCapsLocked])) =
        some (outcome, s') ∧
      ∀ t ∈ s'.threads, t.credentials.secbits =
        Mask.ofList [Secbits.keepCaps, Secbits.keepCapsLocked] := by
  obtain ⟨outcome, s', hstart, -, -, hrestored⟩ := setUid_restores_secbits_iff
    (s := retainingMachine (Mask.ofList [Secbits.keepCaps, Secbits.keepCapsLocked])) rfl
    (Machine.shares_of_others_eq_nil rfl).spawn 1000
  exact ⟨outcome, s', hstart, hrestored.mpr (by decide +kernel)⟩

/-- A switch that is raised and not locked is lowered by a change of the user that succeeds. -/
theorem setUid_lowers_keepCaps_retainingMachine :
    ∃ s', (setUid 1000).start (retainingMachine (Mask.single Secbits.keepCaps)) =
        some (.ok (), s') ∧
      ∀ t ∈ s'.threads, t.credentials.secbits = ∅ ∧
        t.credentials.secbits ≠
          (retainingMachine (Mask.single Secbits.keepCaps)).credentials.secbits := by
  have hends : ((setUid 1000).start (retainingMachine (Mask.single Secbits.keepCaps))).any
      (fun reply => reply.1.isOk &&
        reply.2.threads.all fun t => t.credentials.secbits.isEmpty) = true := by decide +kernel
  obtain ⟨⟨outcome, s'⟩, hstart, hleft⟩ := (Option.any_eq_true _ _).mp hends
  rw [Bool.and_eq_true, List.all_eq_true] at hleft
  obtain ⟨hok, hthreads⟩ := hleft
  cases outcome with
  | error f => cases hok
  | ok a =>
      refine ⟨s', hstart, fun t ht => ?_⟩
      have hnothing := (Mask.isEmpty_iff _).mp (hthreads t ht)
      refine ⟨hnothing, ?_⟩
      rw [hnothing]
      decide

end Act

end Capabilities
