import Capabilities.Action
import Capabilities.Proofs.Machine.Reachability

/-!
# Acts go by steps

Every act, however it ends, leaves a machine that steps lead to; and it aborts
the process only where some call on every thread does. The acts are taken in
the order of their definitions, each from the acts that it is made of.
-/

namespace Capabilities

namespace Act

/-- Whatever an act does to its machine, it does by steps. -/
def BySteps {α : Type} (x : Act α) : Prop :=
  ∀ s : Machine,
    match x.start s with
    | some reply => s.Reaches reply.2
    | none => s.Aborts

variable {α β : Type}

theorem BySteps.reaches {x : Act α} (h : BySteps x) {s t : Machine} {outcome : Except Fault α}
    (hx : x.start s = some (outcome, t)) : s.Reaches t := by
  have hs := h s
  rw [hx] at hs
  exact hs

theorem BySteps.aborts {x : Act α} (h : BySteps x) {s : Machine} (hx : x.start s = none) :
    s.Aborts := by
  have hs := h s
  rw [hx] at hs
  exact hs

theorem bySteps_pure (a : α) : BySteps (pure a) := fun _ => .refl

theorem bySteps_throw (f : Fault) : BySteps (throw f : Act α) := fun _ => .refl

/-- An act that starts where another one ended goes on from there. -/
theorem bySteps_bind {x : Act α} {f : α → Act β} (hx : BySteps x) (hf : ∀ a, BySteps (f a)) :
    BySteps (x >>= f) := by
  intro s
  rw [start_bind]
  cases hstart : x.start s with
  | none => exact hx.aborts hstart
  | some reply =>
      obtain ⟨outcome, t⟩ := reply
      have hrun := hx.reaches hstart
      cases outcome with
      | error f => exact hrun
      | ok a =>
          dsimp only [Option.bind_some]
          cases hnext : (f a).start t with
          | none => exact hrun.aborts ((hf a).aborts hnext)
          | some next => exact hrun.trans ((hf a).reaches hnext)

theorem bySteps_attempt {x : Act α} (hx : BySteps x) : BySteps (attempt x) := by
  intro s
  rw [start_attempt]
  cases hstart : x.start s with
  | none => exact hx.aborts hstart
  | some reply => exact hx.reaches hstart

theorem bySteps_map (f : α → β) {x : Act α} (hx : BySteps x) : BySteps (f <$> x) := by
  intro s
  rw [start_map]
  cases hstart : x.start s with
  | none => exact hx.aborts hstart
  | some reply => exact hx.reaches hstart

/-- A request whose outcome comes with a machine one step ahead. -/
theorem bySteps_request {f : Machine → Except Errno α × Machine}
    (h : ∀ s : Machine, s.Step (f s).2) : BySteps (request fun s => some (f s)) :=
  fun s => (h s).reaches

theorem bySteps_ask {call : Call} (h : call.isQuestion = true) : BySteps (ask call) :=
  bySteps_request fun _ => .ask call h

theorem bySteps_broadcast (call : Call) : BySteps (broadcast call) := by
  intro s
  rw [broadcast, start_request]
  cases hreply : s.broadcast call with
  | none => exact ⟨s, call, .refl, hreply⟩
  | some reply => exact (Machine.Step.broadcast call hreply).reaches

theorem bySteps_capacity : BySteps capacity := fun _ => .refl

theorem bySteps_get : BySteps (get : Act Machine) := fun _ => .refl

theorem bySteps_succeeds {x : Act α} (hx : BySteps x) : BySteps (succeeds x) :=
  bySteps_bind (bySteps_attempt hx) fun _ => bySteps_pure _

theorem bySteps_ignoring {x : Act α} (hx : BySteps x) : BySteps (ignoring x) :=
  bySteps_bind (bySteps_attempt hx) fun _ => bySteps_pure _

theorem bySteps_ite {condition : Prop} [Decidable condition] {x y : Act α} (hx : BySteps x)
    (hy : BySteps y) : BySteps (if condition then x else y) := by
  split
  · exact hx
  · exact hy

theorem bySteps_provided (condition : Bool) {question : Act Bool} (h : BySteps question) :
    BySteps (provided condition question) :=
  bySteps_ite h (bySteps_pure false)

theorem bySteps_onFault {x : Act α} {cleanup : Act Unit} (hx : BySteps x)
    (hcleanup : BySteps cleanup) : BySteps (onFault x cleanup) := by
  apply bySteps_bind (bySteps_attempt hx)
  intro outcome
  cases outcome with
  | ok a => exact bySteps_pure a
  | error f => exact bySteps_bind (bySteps_ignoring hcleanup) fun _ => bySteps_throw f

theorem bySteps_readSetOf (pid : Int) : BySteps (readSetOf pid) :=
  bySteps_bind (bySteps_request fun _ => .inspect pid) fun _ =>
    bySteps_bind bySteps_capacity fun _ => bySteps_pure _

theorem bySteps_readSet : BySteps readSet := bySteps_readSetOf 0

theorem bySteps_applySet (s : CapSet) : BySteps (applySet s) :=
  bySteps_bind bySteps_capacity fun _ => bySteps_bind (bySteps_broadcast _) fun _ => bySteps_pure _

theorem bySteps_raise (s : CapSet) (v : Value) : BySteps (raise s v) := by
  apply bySteps_bind bySteps_capacity
  intro c
  cases s.set c .effective true [v] with
  | ok t => exact bySteps_applySet t
  | error f => exact bySteps_throw f

theorem bySteps_lower (s : CapSet) : BySteps (lower s) := bySteps_applySet _

theorem bySteps_readKeepCaps : BySteps readKeepCaps :=
  bySteps_bind (bySteps_ask rfl) fun _ => bySteps_pure _

theorem bySteps_setKeepCaps (keep : Bool) : BySteps (setKeepCaps keep) :=
  bySteps_bind (bySteps_broadcast _) fun _ => bySteps_pure _

theorem bySteps_readSecbits : BySteps readSecbits :=
  bySteps_bind (bySteps_ask rfl) fun _ => bySteps_pure _

theorem bySteps_setSecbits (bits : Secbits) : BySteps (setSecbits bits) :=
  bySteps_bind (bySteps_broadcast _) fun _ => bySteps_pure _

theorem bySteps_readAmbient (v : Value) : BySteps (readAmbient v) :=
  bySteps_bind (bySteps_ask rfl) fun _ => bySteps_pure _

theorem bySteps_setAmbient (v : Value) (on : Bool) : BySteps (setAmbient v on) :=
  bySteps_bind (bySteps_broadcast _) fun _ => bySteps_pure _

theorem bySteps_clearAmbient : BySteps clearAmbient :=
  bySteps_bind (bySteps_broadcast _) fun _ => bySteps_pure _

theorem bySteps_ambientSupported : BySteps ambientSupported :=
  bySteps_succeeds (bySteps_readAmbient 0)

theorem bySteps_collectAmbient (vs : List Value) : BySteps (collectAmbient vs) := by
  induction vs with
  | nil => exact bySteps_pure []
  | cons v rest ih =>
      apply bySteps_bind (bySteps_attempt (bySteps_readAmbient v))
      intro outcome
      match outcome with
      | .ok true => exact bySteps_bind ih fun _ => bySteps_pure _
      | .ok false => exact ih
      | .error _ => exact bySteps_pure []

theorem bySteps_listAmbient : BySteps listAmbient := by
  apply bySteps_bind bySteps_capacity
  intro c
  cases c.values with
  | nil => exact bySteps_pure _
  | cons v rest =>
      apply bySteps_bind (bySteps_attempt (bySteps_readAmbient v))
      intro outcome
      have hrest := bySteps_collectAmbient rest
      match outcome with
      | .ok true => exact bySteps_bind hrest fun _ => bySteps_pure _
      | .ok false => exact bySteps_bind hrest fun _ => bySteps_pure _
      | .error _ => exact bySteps_pure none

theorem bySteps_readBounding (v : Value) : BySteps (readBounding v) := by
  apply bySteps_bind (bySteps_attempt (bySteps_ask rfl))
  intro outcome
  cases outcome with
  | ok n => exact bySteps_pure _
  | error f => exact bySteps_pure none

theorem bySteps_dropBounding (v : Value) : BySteps (dropBounding v) :=
  bySteps_bind (bySteps_broadcast _) fun _ => bySteps_pure _

theorem bySteps_collectBounding (vs : List Value) : BySteps (collectBounding vs) := by
  induction vs with
  | nil => exact bySteps_pure []
  | cons v rest ih =>
      apply bySteps_bind (bySteps_readBounding v)
      intro answer
      match answer with
      | some true => exact bySteps_bind ih fun _ => bySteps_pure _
      | some false => exact ih
      | none => exact bySteps_pure []

theorem bySteps_listBounding : BySteps listBounding :=
  bySteps_bind bySteps_capacity fun _ => bySteps_collectBounding _

theorem bySteps_isSupported (v : Value) : BySteps (isSupported v) :=
  bySteps_bind (bySteps_readBounding v) fun _ => bySteps_pure _

theorem bySteps_select {question : Value → Act Bool} (h : ∀ v, BySteps (question v))
    (vs : List Value) : BySteps (select question vs) := by
  induction vs with
  | nil => exact bySteps_pure []
  | cons v rest ih =>
      apply bySteps_bind (h v)
      intro answer
      cases answer with
      | true => exact bySteps_bind ih fun _ => bySteps_pure _
      | false => exact ih

theorem bySteps_isAmbient (v : Value) : BySteps (isAmbient v) := by
  apply bySteps_bind (bySteps_attempt (bySteps_readAmbient v))
  intro outcome
  cases outcome with
  | ok on => exact bySteps_pure on
  | error f => exact bySteps_pure false

theorem bySteps_isBlocked (v : Value) : BySteps (isBlocked v) :=
  bySteps_bind (bySteps_readBounding v) fun _ => bySteps_pure _

theorem bySteps_isBounding (v : Value) : BySteps (isBounding v) :=
  bySteps_bind (bySteps_readBounding v) fun _ => bySteps_pure _

theorem bySteps_readTuple : BySteps readTuple :=
  bySteps_bind bySteps_capacity fun _ =>
    bySteps_bind bySteps_readSet fun _ =>
      bySteps_bind (bySteps_select bySteps_isAmbient _) fun _ =>
        bySteps_bind (bySteps_select bySteps_isBlocked _) fun _ => bySteps_pure _

theorem bySteps_blocksAnything (x : Inheritance) (vs : List Value) :
    BySteps (blocksAnything x vs) := by
  induction vs with
  | nil => exact bySteps_pure false
  | cons v rest ih =>
      apply bySteps_bind (bySteps_provided _ (bySteps_isBounding v))
      intro answer
      cases answer with
      | true => exact bySteps_pure true
      | false => exact ih

theorem bySteps_withdrawAmbient (supported : Bool) (x : Inheritance) (v : Value) :
    BySteps (withdrawAmbient supported x v) := by
  apply bySteps_bind (bySteps_provided _ (bySteps_readAmbient v))
  intro answer
  cases answer with
  | true => exact bySteps_setAmbient v false
  | false => exact bySteps_pure ()

theorem bySteps_withdrawBounding (x : Inheritance) (v : Value) :
    BySteps (withdrawBounding x v) := by
  apply bySteps_bind (bySteps_provided _ (bySteps_isBounding v))
  intro answer
  cases answer with
  | true => exact bySteps_dropBounding v
  | false => exact bySteps_pure ()

theorem bySteps_grantAmbient (supported : Bool) (x : Inheritance) (v : Value) :
    BySteps (grantAmbient supported x v) := by
  rw [grantAmbient]
  cases x.ambient.contains v with
  | false => exact bySteps_pure ()
  | true =>
      apply bySteps_bind (bySteps_provided _ (bySteps_readAmbient v))
      intro answer
      cases answer with
      | true => exact bySteps_pure ()
      | false => exact bySteps_setAmbient v true

theorem bySteps_withdraw (supported : Bool) (x : Inheritance) (vs : List Value) :
    BySteps (withdraw supported x vs) := by
  induction vs with
  | nil => exact bySteps_pure ()
  | cons v rest ih =>
      exact bySteps_bind (bySteps_withdrawAmbient supported x v) fun _ =>
        bySteps_bind (bySteps_withdrawBounding x v) fun _ => ih

theorem bySteps_grant (supported : Bool) (x : Inheritance) (vs : List Value) :
    BySteps (grant supported x vs) := by
  induction vs with
  | nil => exact bySteps_pure ()
  | cons v rest ih =>
      exact bySteps_bind (bySteps_grantAmbient supported x v) fun _ => ih

theorem bySteps_applyMasks (x : Inheritance) : BySteps (applyMasks x) :=
  bySteps_bind bySteps_ambientSupported fun supported =>
    bySteps_bind bySteps_capacity fun _ =>
      bySteps_bind (bySteps_withdraw supported x _) fun _ => bySteps_grant supported x _

theorem bySteps_applyTuple (x : Inheritance) : BySteps (applyTuple x) := by
  refine bySteps_bind bySteps_capacity fun c => bySteps_bind bySteps_readSet fun held =>
    bySteps_bind (bySteps_blocksAnything x c.values) fun blocks => ?_
  dsimp only
  -- Both branches go on with the same rest.
  refine (fun hrest : BySteps _ => bySteps_ite (bySteps_bind (bySteps_raise _ _) fun _ => hrest)
    (bySteps_bind (bySteps_applySet _) fun _ => hrest)) ?_
  refine bySteps_bind (bySteps_attempt (bySteps_applyMasks x)) fun outcome =>
    bySteps_bind (bySteps_attempt (bySteps_applySet _)) fun restored => ?_
  cases outcome with
  | error f => exact bySteps_throw f
  | ok u =>
      cases restored with
      | error f => exact bySteps_throw f
      | ok u => exact bySteps_pure ()

theorem bySteps_setUid (uid : UserId) : BySteps (setUid uid) := by
  refine bySteps_bind bySteps_readSet fun caps =>
    bySteps_bind (bySteps_onFault (bySteps_raise _ _) (bySteps_lower _)) fun _ =>
      bySteps_bind (bySteps_onFault ?_ (bySteps_lower _)) fun _ => bySteps_lower _
  refine bySteps_bind (bySteps_succeeds (bySteps_setKeepCaps true)) fun kept =>
    bySteps_bind (bySteps_attempt (bySteps_broadcast _)) fun outcome => ?_
  have hkept := bySteps_ignoring (bySteps_setKeepCaps false)
  cases outcome with
  | ok n => exact bySteps_ite (bySteps_bind hkept fun _ => bySteps_pure ()) (bySteps_pure ())
  | error f => exact bySteps_ite (bySteps_bind hkept fun _ => bySteps_throw f) (bySteps_throw f)

theorem bySteps_setGroups (gid : GroupId) (groups : List GroupId) :
    BySteps (setGroups gid groups) := by
  refine bySteps_bind bySteps_readSet fun caps =>
    bySteps_bind (bySteps_onFault (bySteps_raise _ _) (bySteps_lower _)) fun _ =>
      bySteps_bind (bySteps_onFault ?_ (bySteps_lower _)) fun _ => bySteps_lower _
  exact bySteps_bind (bySteps_broadcast _) fun _ =>
    bySteps_bind (bySteps_broadcast _) fun _ => bySteps_pure ()

theorem bySteps_snapshot : BySteps snapshot :=
  bySteps_bind bySteps_readSecbits fun _ =>
    bySteps_bind bySteps_ambientSupported fun _ =>
      bySteps_bind bySteps_readSet fun _ =>
        bySteps_bind bySteps_readTuple fun _ => bySteps_pure _

theorem bySteps_currentMode : BySteps currentMode :=
  bySteps_bind bySteps_snapshot fun _ => bySteps_bind bySteps_capacity fun _ => bySteps_pure _

theorem bySteps_secure : BySteps secure := by
  apply bySteps_bind bySteps_ambientSupported
  intro supported
  cases supported with
  | true => exact bySteps_bind bySteps_clearAmbient fun _ => bySteps_setSecbits _
  | false => exact bySteps_setSecbits _

theorem bySteps_dropWhilePossible (vs : List Value) : BySteps (dropWhilePossible vs) := by
  induction vs with
  | nil => exact bySteps_pure ()
  | cons v rest ih =>
      apply bySteps_bind (bySteps_succeeds (bySteps_dropBounding v))
      intro dropped
      cases dropped with
      | true => exact ih
      | false => exact bySteps_pure ()

theorem bySteps_enterSecured (m : Mode) : BySteps (enterSecured m) := by
  refine bySteps_bind bySteps_readSet fun caps =>
    bySteps_bind (bySteps_onFault (bySteps_raise _ _) (bySteps_lower _)) fun _ =>
      bySteps_bind (bySteps_onFault bySteps_secure (bySteps_lower _)) fun _ => ?_
  refine bySteps_ite ?_ (bySteps_lower _)
  exact bySteps_bind bySteps_capacity fun _ =>
    bySteps_bind (bySteps_dropWhilePossible _) fun _ => bySteps_lower _

theorem bySteps_enterMode (m : Mode) : BySteps (enterMode m) := by
  cases m with
  | uncertain => exact bySteps_throw _
  | noPriv => exact bySteps_enterSecured _
  | pureInit => exact bySteps_enterSecured _
  | pure => exact bySteps_enterSecured _

theorem bySteps_checkTarget (target : Target) : BySteps (checkTarget target) :=
  bySteps_ite (bySteps_pure ()) (bySteps_throw _)

theorem bySteps_readFileCaps (target : Target) : BySteps (readFileCaps target) := by
  refine bySteps_bind (bySteps_checkTarget target) fun _ =>
    bySteps_bind (bySteps_attempt (bySteps_request fun _ => .readAttribute target))
      fun outcome => ?_
  cases outcome with
  | ok data =>
      apply bySteps_bind bySteps_capacity
      intro c
      cases FileAttribute.decode c data with
      | ok s => exact bySteps_pure _
      | error f => exact bySteps_throw f
  | error f => exact bySteps_ite (bySteps_pure none) (bySteps_throw f)

theorem bySteps_acceptNoData {x : Act Unit} (hx : BySteps x) : BySteps (acceptNoData x) := by
  apply bySteps_bind (bySteps_attempt hx)
  intro outcome
  cases outcome with
  | ok u => exact bySteps_pure ()
  | error f => exact bySteps_ite (bySteps_pure ()) (bySteps_throw f)

theorem bySteps_setFileCaps (target : Target) (caps : Option CapSet) :
    BySteps (setFileCaps target caps) := by
  apply bySteps_bind (bySteps_checkTarget target)
  intro _
  cases caps with
  | none => exact bySteps_acceptNoData (bySteps_request fun _ => .removeAttribute target)
  | some s =>
      refine bySteps_bind bySteps_capacity fun c => bySteps_bind bySteps_get fun machine => ?_
      cases FileAttribute.encode c machine.floor s with
      | ok data =>
          exact bySteps_acceptNoData (bySteps_request fun _ => .writeAttribute target data)
      | error f => exact bySteps_throw f

theorem bySteps_readFloor : BySteps readFloor :=
  bySteps_bind bySteps_get fun _ => bySteps_pure _

theorem bySteps_setFloor (n : Nat) : BySteps (setFloor n) :=
  fun _ => (Machine.Step.setFloor n).reaches

theorem bySteps_spawn : BySteps (modify Machine.spawn : Act Unit) :=
  fun _ => Machine.Step.spawn.reaches

end Act

namespace Action

theorem bySteps_run (a : Action) : Act.BySteps a.run := by
  cases a with
  | readSet pid => exact Act.bySteps_map _ (Act.bySteps_readSetOf pid)
  | applySet s => exact Act.bySteps_map _ (Act.bySteps_applySet s)
  | readTuple => exact Act.bySteps_map _ Act.bySteps_readTuple
  | applyTuple x => exact Act.bySteps_map _ (Act.bySteps_applyTuple x)
  | currentMode => exact Act.bySteps_map _ Act.bySteps_currentMode
  | enterMode m => exact Act.bySteps_map _ (Act.bySteps_enterMode m)
  | snapshot => exact Act.bySteps_map _ Act.bySteps_snapshot
  | setUid uid => exact Act.bySteps_map _ (Act.bySteps_setUid uid)
  | setGroups gid groups => exact Act.bySteps_map _ (Act.bySteps_setGroups gid groups)
  | readKeepCaps => exact Act.bySteps_map _ Act.bySteps_readKeepCaps
  | setKeepCaps keep => exact Act.bySteps_map _ (Act.bySteps_setKeepCaps keep)
  | readSecbits => exact Act.bySteps_map _ Act.bySteps_readSecbits
  | setSecbits bits => exact Act.bySteps_map _ (Act.bySteps_setSecbits _)
  | readAmbient v => exact Act.bySteps_map _ (Act.bySteps_readAmbient v)
  | setAmbient v on => exact Act.bySteps_map _ (Act.bySteps_setAmbient v on)
  | clearAmbient => exact Act.bySteps_map _ Act.bySteps_clearAmbient
  | ambientSupported => exact Act.bySteps_map _ Act.bySteps_ambientSupported
  | listAmbient => exact Act.bySteps_map _ Act.bySteps_listAmbient
  | readBounding v => exact Act.bySteps_map _ (Act.bySteps_readBounding v)
  | dropBounding v => exact Act.bySteps_map _ (Act.bySteps_dropBounding v)
  | listBounding => exact Act.bySteps_map _ Act.bySteps_listBounding
  | isSupported v => exact Act.bySteps_map _ (Act.bySteps_isSupported v)
  | readFileCaps target => exact Act.bySteps_map _ (Act.bySteps_readFileCaps target)
  | setFileCaps target caps => exact Act.bySteps_map _ (Act.bySteps_setFileCaps target caps)
  | readFloor => exact Act.bySteps_map _ Act.bySteps_readFloor
  | setFloor n => exact Act.bySteps_map _ (Act.bySteps_setFloor n)
  | call c => exact Act.bySteps_map _ (Act.bySteps_broadcast c)
  | spawn => exact Act.bySteps_map _ Act.bySteps_spawn

/-- A run of actions goes by steps, whichever of the actions succeed. -/
theorem reaches_of_performAll {actions : List Action} {s t : Machine}
    (h : performAll actions s = some t) : s.Reaches t := by
  induction actions generalizing s with
  | nil =>
      cases h
      exact .refl
  | cons a rest ih =>
      rw [performAll] at h
      cases hfirst : a.perform s with
      | none =>
          rw [hfirst] at h
          cases h
      | some reply =>
          rw [hfirst] at h
          exact (a.bySteps_run.reaches hfirst).trans (ih h)

end Action

end Capabilities
