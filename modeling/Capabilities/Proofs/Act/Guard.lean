import Capabilities.Action
import Capabilities.Proofs.Act.Outcome

/-!
# Nothing stays raised

Entering a mode, changing the user and changing the groups raise a capability for
their duration. They all end by lowering the set that they read at first, or what
is left of it. The kernel grants this whenever it takes back no more than the
thread holds; and where it does not, as after a change of the user that gave up
everything, nothing is effective any more.
-/

namespace Capabilities

namespace Kernel

variable {k : Kernel} {cr cr' : Credentials} {s held : CapSet}

/-- A thread that holds the given flags still has what the interface shows of a set. -/
structure Covers (k : Kernel) (s held : CapSet) : Prop where
  permitted : (Act.fitWords k.capacity s).permitted.isWithin held.permitted = true
  inheritable : (Act.fitWords k.capacity s).inheritable.isWithin held.inheritable = true

/-- Lowering a set will leave nothing effective: either nothing is effective anyway, or the thread
has what the set asks for. -/
def Releases (k : Kernel) (s held : CapSet) : Prop :=
  held.effective = ∅ ∨ k.Covers s held

theorem Covers.clearFlag (h : k.Covers s held) (f : Flag) : k.Covers (s.clearFlag f) held := by
  have hnothing (m : Mask) : (∅ ∩ Mask.below k.capacity.width).isWithin m = true := by
    rw [Mask.empty_inter]
    exact Mask.empty_isWithin m
  cases f with
  | effective => exact ⟨h.permitted, h.inheritable⟩
  | permitted => exact ⟨hnothing _, h.inheritable⟩
  | inheritable => exact ⟨h.permitted, hnothing _⟩

theorem Releases.clearFlag (h : k.Releases s held) (f : Flag) :
    k.Releases (s.clearFlag f) held :=
  h.imp_right fun hcovers => hcovers.clearFlag f

/-- A thread has what it sees of itself. -/
theorem covers_shownFlags (k : Kernel) (cr : Credentials) :
    k.Covers (k.shownFlags cr) cr.holdings := by
  have hwithin (m words : Mask) : (m ∩ words ∩ words).isWithin m = true := by
    rw [Mask.isWithin_iff]
    intro v hv
    simp only [Mask.contains_inter, Bool.and_eq_true] at hv
    exact hv.1.1
  exact ⟨hwithin _ _, hwithin _ _⟩

/-- Raising a value takes nothing away from a set. -/
theorem covers_raised (k : Kernel) (cr : Credentials) (s : CapSet) (effective : Mask) :
    k.Covers s (cr.withFlags (Act.fitWords k.capacity { s with effective })).holdings :=
  ⟨Mask.isWithin_refl _, Mask.isWithin_refl _⟩

/-- A change of the user gives up permitted values only together with all effective ones. -/
theorem Covers.switchUser (h : k.Covers s cr.holdings) (uid : UserId) :
    k.Releases s (cr.switchUser uid).holdings := by
  unfold Credentials.switchUser
  split
  · exact .inr h
  · split
    · exact .inl rfl
    · split <;> exact .inr ⟨h.permitted, h.inheritable⟩

end Kernel

/-- Whether a call leaves the flags as they are, however it is answered. -/
def Call.keepsFlags : Call → Bool
  | capset .. | setUid _ => false
  | _ => true

theorem Kernel.holdings_of_respond {k : Kernel} {cr cr' : Credentials} {call : Call} {n : Nat}
    (hcall : call.keepsFlags = true) (h : k.respond cr call = .ok (n, cr')) :
    cr'.holdings = cr.holdings := by
  cases call with
  | capset e p i => cases hcall
  | setUid uid => cases hcall
  | _ =>
      simp only [respond] at h
      repeat' split at h
      all_goals
        cases h
        try rfl

namespace Act

variable {α : Type} {k : Kernel} {cr : Credentials} {s caps : CapSet}

/-- Whatever comes of it, an act leaves the flags of the calling thread as they were. -/
abbrev KeepsFlags (k : Kernel) (x : Act α) : Prop := Keeps k Credentials.holdings x

theorem keepsFlags_broadcast {call : Call} (hcall : call.keepsFlags = true) :
    KeepsFlags k (broadcast call) :=
  keeps_broadcast fun _ _ _ => Kernel.holdings_of_respond hcall

theorem keepsFlags_command {call : Call} (hcall : call.keepsFlags = true) :
    KeepsFlags k (do let _ ← broadcast call) :=
  keeps_bind (keepsFlags_broadcast hcall) fun _ => keeps_pure ()

theorem keepsFlags_secure : KeepsFlags k secure := by
  refine keeps_bind keeps_ambientSupported fun supported => ?_
  cases supported with
  | true =>
      exact keeps_bind (keepsFlags_command rfl) fun _ => keepsFlags_command rfl
  | false => exact keepsFlags_command rfl

/-- Values are dropped from the bounding mask in their order, until one cannot be dropped; this
never fails, and nothing else is changed. -/
theorem leaves_dropWhilePossible (vs : List Value) :
    Leaves k cr (dropWhilePossible vs) fun outcome cr' =>
      outcome = .ok () ∧ ∃ dropped, dropped <+: vs ∧
        cr' = { cr with bounding := cr.bounding \ Mask.ofList dropped } ∧
        (k.script.spares .dropBounding = true → cr.has Value.setpcap = true →
          (∀ v ∈ vs, k.bounds v = true) → dropped = vs) := by
  have hnothing : cr = { cr with bounding := cr.bounding \ Mask.ofList [] } := by
    rw [Mask.ofList_nil, Mask.sdiff_empty]
  induction vs generalizing cr with
  | nil => exact leads_pure ⟨rfl, [], List.prefix_rfl, hnothing, fun _ _ _ => rfl⟩
  | cons v rest ih =>
      refine leads_bind (leads_succeeds (leaves_command (fun n cr' hanswer => ?_) fun e he => ?_))
      · obtain ⟨-, hanswer⟩ := Kernel.of_ite_error_eq_ok hanswer
        obtain ⟨-, rfl, -⟩ := Kernel.of_ite_eq_ok hanswer
        refine (ih (by rw [Mask.ofList_nil, Mask.sdiff_empty])).mono fun outcome cr'' hrest => ?_
        obtain ⟨hok, dropped, hprefix, rfl, hall⟩ := hrest
        refine ⟨hok, v :: dropped, List.prefix_cons_inj v |>.mpr hprefix, ?_, ?_⟩
        · rw [Mask.ofList_cons, Mask.sdiff_union]
        · intro hscript hhas hbounds
          rw [hall hscript hhas fun u hu => hbounds u (List.mem_cons_of_mem v hu)]
      · refine leads_pure ⟨rfl, [], List.nil_prefix, hnothing, fun hscript hhas hbounds => ?_⟩
        have hanswer := he hscript
        simp [Kernel.respond, hhas, hbounds v List.mem_cons_self] at hanswer

/-- Lowering a set leaves nothing effective: if it is refused, nothing is effective anyway. -/
theorem leaves_lower (hcapset : k.script.spares .capset = true)
    (h : k.Releases s cr.holdings) : Leaves k cr (lower s) fun _ cr' => cr'.effective = ∅ := by
  have hnothing : (fitWords k.capacity (s.clearFlag .effective)).effective = ∅ :=
    Mask.empty_inter _
  refine leaves_applySet hnothing fun e hrefused => ?_
  rcases h with hlowered | hcovers
  · exact hlowered
  · have hadmits := Kernel.admitsFlags_of_isWithin (Mask.empty_isWithin _) hcovers.permitted
      hcovers.inheritable
    have hdenied := hrefused hcapset
    rw [hnothing] at hdenied
    exact absurd hadmits (Bool.eq_false_iff.mp hdenied)

/-- Where the guarded part of an act leaves what lowering a set releases, the act goes on with
that, or ends with nothing effective. -/
theorem leaves_guarded (hcapset : k.script.spares .capset = true) {body rest : Act Unit}
    (hbody : Leaves k cr body fun _ cr' => k.Releases s cr'.holdings)
    (hrest : ∀ cr', k.Releases s cr'.holdings →
      Leaves k cr' rest fun _ cr'' => cr''.effective = ∅) :
    Leaves k cr (do Act.onFault body (lower s); rest) fun _ cr' => cr'.effective = ∅ := by
  refine leads_onFault_bind (hbody.mono fun outcome cr' hreleases => ?_)
  cases outcome with
  | ok a => exact hrest cr' hreleases
  | error e => exact leaves_lower hcapset hreleases

/-- An act that raises a value first goes on as a thread that has what it saw of itself. -/
theorem leaves_raised (hinspect : k.script.spares .inspect = true)
    (hcapset : k.script.spares .capset = true) {v : Value} {rest : CapSet → Act Unit}
    (hrest : ∀ caps cr', k.Covers caps cr'.holdings →
      Leaves k cr' (rest caps) fun _ cr'' => cr''.effective = ∅) :
    Leaves k cr
      (do
        let caps ← readSet
        Act.onFault (raise caps v) (lower caps)
        rest caps) fun _ cr' => cr'.effective = ∅ := by
  refine leads_bind (leaves_readSet ?_ fun hfails => by simp [hinspect] at hfails)
  have hcovers := k.covers_shownFlags cr
  refine leads_onFault_bind (leaves_raise (fun _ => ?_) fun f => ?_)
  · exact hrest _ _ (k.covers_raised cr _ _)
  · exact leaves_lower hcapset (.inr hcovers)

theorem leaves_enterSecured (hinspect : k.script.spares .inspect = true)
    (hcapset : k.script.spares .capset = true) (m : Mode) :
    Leaves k cr (enterSecured m) fun _ cr' => cr'.effective = ∅ := by
  refine leaves_raised hinspect hcapset fun caps cr₁ hcovers => ?_
  have hkept : k.Covers (if m = .pure then caps else caps.clearFlag .inheritable) cr₁.holdings := by
    split
    · exact hcovers
    · exact hcovers.clearFlag _
  refine leaves_guarded hcapset ?_ fun cr₂ hreleases => ?_
  · exact (keepsFlags_secure cr₁).mono fun _ cr₂ hsame => .inr (hsame ▸ hkept)
  · split
    · refine leads_bind (leaves_capacity (leads_bind ?_))
      refine (leaves_dropWhilePossible _).mono fun outcome cr₃ hdropped => ?_
      obtain ⟨rfl, dropped, -, rfl, -⟩ := hdropped
      exact leaves_lower hcapset (hreleases.clearFlag .permitted)
    · exact leaves_lower hcapset hreleases

/-- Whether or not it could be asked for to keep what is permitted, the change of the user leaves
what lowering the set releases. -/
theorem leaves_setUid (hinspect : k.script.spares .inspect = true)
    (hcapset : k.script.spares .capset = true) (uid : UserId) :
    Leaves k cr (setUid uid) fun _ cr' => cr'.effective = ∅ := by
  have hkeep (on : Bool) : KeepsFlags k (setKeepCaps on) := keepsFlags_command rfl
  have hsettle (kept : Bool) {ending : Act Unit} (hending : KeepsFlags k ending) :
      KeepsFlags k (do
        if kept then Act.ignoring (setKeepCaps false)
        ending) := by
    cases kept with
    | false => exact hending
    | true => exact keeps_bind (keeps_ignoring (hkeep false)) fun _ => hending
  refine leaves_raised hinspect hcapset fun caps cr₁ hcovers => ?_
  refine leaves_guarded hcapset ?_ fun cr₂ hreleases => leaves_lower hcapset hreleases
  refine leads_bind ((keeps_succeeds (hkeep true) cr₁).mono fun answer cr₂ hsame => ?_)
  have hcovers₂ : k.Covers caps cr₂.holdings := hsame ▸ hcovers
  cases answer with
  | error f => exact .inr hcovers₂
  | ok kept =>
      refine leads_bind (leads_attempt (leaves_broadcast (fun n cr₃ hanswer => ?_) fun e _ => ?_))
      · obtain ⟨-, rfl, -⟩ := Kernel.of_ite_eq_ok hanswer
        refine (hsettle kept (keeps_pure ()) _).mono fun _ cr₄ hsame => ?_
        exact hsame ▸ hcovers₂.switchUser uid
      · refine (hsettle kept (keeps_throw (.os e)) cr₂).mono fun _ cr₄ hsame => ?_
        exact .inr (hsame ▸ hcovers₂)

theorem leaves_setGroups (hinspect : k.script.spares .inspect = true)
    (hcapset : k.script.spares .capset = true) (gid : GroupId) (groups : List GroupId) :
    Leaves k cr (setGroups gid groups) fun _ cr' => cr'.effective = ∅ := by
  refine leaves_raised hinspect hcapset fun caps cr₁ hcovers => ?_
  refine leaves_guarded hcapset ?_ fun cr₂ hreleases => leaves_lower hcapset hreleases
  have hbody : KeepsFlags k (do
      let _ ← broadcast (.setGid gid)
      let _ ← broadcast (.setGroups groups)) :=
    keeps_bind (keepsFlags_broadcast rfl) fun _ => keepsFlags_command rfl
  exact (hbody cr₁).mono fun _ cr₂ hsame => .inr (hsame ▸ hcovers)

end Act

namespace Action

/-- Whether an action raises a capability for its duration and lowers everything afterwards. -/
def isGuarded : Action → Bool
  | enterMode m => m != .uncertain
  | setUid _ | setGroups .. => true
  | _ => false

/-- Whatever else fails, on whichever threads: if reading and replacing flags is not made to fail,
then an action that raises a capability leaves nothing effective, whether it succeeds or not. -/
theorem perform_leaves_nothing_effective {a : Action} (ha : a.isGuarded = true) {s s' : Machine}
    {outcome : Except Fault Reply} (hinspect : s.kernel.script.spares .inspect = true)
    (hcapset : s.kernel.script.spares .capset = true)
    (h : a.perform s = some (outcome, s')) : s'.credentials.effective = ∅ := by
  have hleaves : Act.Leaves s.kernel s.credentials a.run fun _ cr => cr.effective = ∅ := by
    cases a with
    | enterMode m =>
        apply Act.leads_map
        cases m with
        | uncertain => cases ha
        | _ => exact Act.leaves_enterSecured hinspect hcapset _
    | setUid uid => exact Act.leads_map (Act.leaves_setUid hinspect hcapset uid)
    | setGroups gid groups => exact Act.leads_map (Act.leaves_setGroups hinspect hcapset gid groups)
    | _ => cases ha
  exact (hleaves.ends h).2

/-- A process of two threads at user 0 that cannot ask to keep what is permitted. -/
def unkeepingMachine : Machine :=
  (Machine.start
    { version := Abi.third.code, valueCount := 41, boundingSupported := true,
      ambientSupported := true, processes := []
      script := [⟨.setSecbits, 0, none, some 1, .notPermitted⟩] }
    { effective := Mask.single 3, permitted := Mask.below 41, inheritable := Mask.single 0,
      ambient := ∅, bounding := Mask.below 41, secbits := Mask.single Secbits.keepCapsLocked,
      uid := 0, gid := 0, groups := [] }
    Table.empty).spawn

/-- The user is changed, but the last step is refused, since nothing is permitted any more. -/
theorem perform_leaves_nothing_effective_unkeepingMachine :
    ∃ s', (setUid 1000).perform unkeepingMachine = some (.error (.os .notPermitted), s') ∧
      s'.credentials.effective = ∅ := by
  have hrefused : ((setUid 1000).perform unkeepingMachine).any (fun reply =>
      match reply.1 with
      | .ok _ => false
      | .error f => decide (f = .os .notPermitted)) = true := by decide +kernel
  obtain ⟨⟨outcome, s'⟩, hrun, houtcome⟩ := (Option.any_eq_true _ _).mp hrefused
  cases outcome with
  | ok reply => cases houtcome
  | error f =>
      obtain rfl := of_decide_eq_true houtcome
      exact ⟨s', hrun, perform_leaves_nothing_effective rfl (by decide) (by decide) hrun⟩

end Action

end Capabilities
