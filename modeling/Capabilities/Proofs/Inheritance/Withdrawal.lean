import Capabilities.Proofs.Act.Calling
import Capabilities.Proofs.Inheritance.Application

/-!
# What is still there after a tuple was applied

A value that a tuple blocks is dropped from the bounding mask if it is found there,
and a fault of dropping it becomes a fault of the whole. But a value for which
asking fails is taken for one that the kernel does not know, and is passed over
without a fault. So success means that the blocked values are gone, those
for which asking could fail apart.
-/

namespace Capabilities

namespace Kernel

variable {k : Kernel} {i : Nat} {v : Value} {cr cr' cr'' : Credentials}

/-- What becomes of a bounding value while tuples are applied: it is never raised again, and stays
as it is if every attempt to ask for it is made to fail. -/
structure Lowers (k : Kernel) (i : Nat) (v : Value) (old new : Credentials) : Prop where
  lowered : old.bounding.contains v = false → new.bounding.contains v = false
  kept : k.script.denies .readBounding v i = true →
    new.bounding.contains v = old.bounding.contains v

/-- A bounding value is gone, unless some attempt to ask for it can be made to fail. -/
def HasWithdrawn (k : Kernel) (i : Nat) (v : Value) (cr : Credentials) : Prop :=
  cr.bounding.contains v = true → k.script.concerns .readBounding v i = true

theorem lowers_of_eq (h : cr'.bounding.contains v = cr.bounding.contains v) :
    k.Lowers i v cr cr' :=
  ⟨h.trans, fun _ => h⟩

theorem Lowers.trans (first : k.Lowers i v cr cr') (second : k.Lowers i v cr' cr'') :
    k.Lowers i v cr cr'' where
  lowered hv := second.lowered (first.lowered hv)
  kept hdenied := (second.kept hdenied).trans (first.kept hdenied)

/-- A value that is still there was there before. -/
theorem Lowers.raised (h : k.Lowers i v cr cr') (hleft : cr'.bounding.contains v = true) :
    cr.bounding.contains v = true := by
  rw [← Bool.not_eq_false] at hleft ⊢
  exact mt h.lowered hleft

theorem HasWithdrawn.lowers (h : k.HasWithdrawn i v cr) (hlowers : k.Lowers i v cr cr') :
    k.HasWithdrawn i v cr' :=
  fun hleft => h (hlowers.raised hleft)

end Kernel

namespace Act

variable {α β : Type} {k : Kernel} {i : Nat} {v : Value}

/-- Whatever comes of it, an act leaves the bounding mask of the calling thread as it was. -/
abbrev KeepsBounding (k : Kernel) (x : Act α) : Prop := Keeps k Credentials.bounding x

theorem keeps_provided {γ : Type} {part : Credentials → γ} {condition : Bool} {question : Act Bool}
    (h : Keeps k part question) : Keeps k part (provided condition question) := by
  cases condition with
  | false => exact keeps_pure false
  | true => exact h

theorem keepsBounding_applySet (s : CapSet) : KeepsBounding k (applySet s) :=
  fun _ => leaves_applySet rfl fun _ _ => rfl

theorem keepsBounding_prepare (needed : Bool) (target : CapSet) :
    KeepsBounding k (prepare needed target) := by
  cases needed with
  | false => exact keepsBounding_applySet target
  | true => exact fun _ => leaves_raise (fun _ => rfl) fun _ => rfl

theorem keepsBounding_readAmbient (v : Value) : KeepsBounding k (readAmbient v) :=
  keeps_bind (keeps_ask rfl) fun _ => keeps_pure _

theorem keepsBounding_setAmbient (v : Value) (on : Bool) : KeepsBounding k (setAmbient v on) := by
  refine keeps_bind (keeps_broadcast fun cr n cr' hanswer => ?_) fun _ => keeps_pure ()
  cases on with
  | true =>
      obtain ⟨-, hanswer⟩ := Kernel.of_ite_error_eq_ok hanswer
      obtain ⟨-, rfl, -⟩ := Kernel.of_ite_eq_ok hanswer
      rfl
  | false =>
      obtain ⟨-, rfl, -⟩ := Kernel.of_ite_eq_ok hanswer
      rfl

theorem keepsBounding_withdrawAmbient (supported : Bool) (x : Inheritance) (v : Value) :
    KeepsBounding k (withdrawAmbient supported x v) := by
  refine keeps_bind (keeps_provided (keepsBounding_readAmbient v)) fun raised => ?_
  cases raised with
  | true => exact keepsBounding_setAmbient v false
  | false => exact keeps_pure ()

theorem keepsBounding_grantAmbient (supported : Bool) (x : Inheritance) (v : Value) :
    KeepsBounding k (grantAmbient supported x v) := by
  unfold grantAmbient
  split
  · refine keeps_bind (keeps_provided (keepsBounding_readAmbient v)) fun raised => ?_
    cases raised with
    | true => exact keeps_pure ()
    | false => exact keepsBounding_setAmbient v true
  · exact keeps_pure ()

theorem keepsBounding_grant (supported : Bool) (x : Inheritance) (vs : List Value) :
    KeepsBounding k (grant supported x vs) := by
  induction vs with
  | nil => exact keeps_pure ()
  | cons v rest ih => exact keeps_bind (keepsBounding_grantAmbient supported x v) fun _ => ih

theorem keepsBounding_isBounding (v : Value) : KeepsBounding k (isBounding v) := by
  have hread : KeepsBounding k (readBounding v) := by
    refine keeps_bind (keeps_attempt (keeps_ask rfl)) fun outcome => ?_
    cases outcome <;> exact keeps_pure _
  exact keeps_bind hread fun _ => keeps_pure _

theorem keepsBounding_blocksAnything (x : Inheritance) (vs : List Value) :
    KeepsBounding k (blocksAnything x vs) := by
  induction vs with
  | nil => exact keeps_pure false
  | cons v rest ih =>
      refine keeps_bind (keeps_provided (keepsBounding_isBounding v)) fun found => ?_
      cases found with
      | true => exact keeps_pure true
      | false => exact ih

/-- Whatever comes of it, an act only lowers a bounding value. -/
def OnlyLowers (k : Kernel) (i : Nat) (v : Value) (x : Act α) : Prop :=
  ∀ cr, Leads (Machine.Acts k i) cr x fun _ cr' => k.Lowers i v cr cr'

/-- An act only lowers a bounding value, and has withdrawn it if there is no fault. -/
def Withdraws (k : Kernel) (i : Nat) (v : Value) (x : Act α) : Prop :=
  ∀ cr, Leads (Machine.Acts k i) cr x fun outcome cr' =>
    k.Lowers i v cr cr' ∧ (outcome.isOk = true → k.HasWithdrawn i v cr')

theorem KeepsBounding.onlyLowers {x : Act α} (h : KeepsBounding k x) (hx : BySteps x) :
    OnlyLowers k i v x :=
  fun cr => ((h cr).acts hx).mono fun _ _ hsame => Kernel.lowers_of_eq (by rw [hsame])

theorem onlyLowers_bind {x : Act α} {f : α → Act β} (hx : OnlyLowers k i v x)
    (hf : ∀ a, OnlyLowers k i v (f a)) : OnlyLowers k i v (x >>= f) := by
  intro cr
  refine leads_bind ((hx cr).mono fun outcome cr' hfirst => ?_)
  cases outcome with
  | error e => exact hfirst
  | ok a => exact (hf a cr').mono fun _ _ hnext => hfirst.trans hnext

/-- Nothing that comes before withdrawing a value matters. -/
theorem OnlyLowers.withdraws_bind {x : Act α} {f : α → Act β} (hx : OnlyLowers k i v x)
    (hf : ∀ a, Withdraws k i v (f a)) : Withdraws k i v (x >>= f) := by
  intro cr
  refine leads_bind ((hx cr).mono fun outcome cr' hfirst => ?_)
  cases outcome with
  | error e => exact ⟨hfirst, nofun⟩
  | ok a => exact (hf a cr').mono fun _ _ hnext => ⟨hfirst.trans hnext.1, hnext.2⟩

/-- And what comes after it does not undo it. -/
theorem Withdraws.bind {x : Act α} {f : α → Act β} (hx : Withdraws k i v x)
    (hf : ∀ a, OnlyLowers k i v (f a)) : Withdraws k i v (x >>= f) := by
  intro cr
  refine leads_bind ((hx cr).mono fun outcome cr' hfirst => ?_)
  obtain ⟨hlowers, hdone⟩ := hfirst
  cases outcome with
  | error e => exact ⟨hlowers, nofun⟩
  | ok a =>
      exact (hf a cr').mono fun _ _ hnext =>
        ⟨hlowers.trans hnext, fun _ => (hdone rfl).lowers hnext⟩

theorem leaves_dropBounding {cr : Credentials} (u : Value) :
    Leaves k cr (dropBounding u) fun outcome cr' =>
      match outcome with
      | .ok _ => cr' = { cr with bounding := cr.bounding \ Mask.single u }
      | .error _ => cr' = cr := by
  refine leaves_command (fun n cr' hanswer => ?_) fun e _ => rfl
  obtain ⟨-, hanswer⟩ := Kernel.of_ite_error_eq_ok hanswer
  obtain ⟨-, rfl, -⟩ := Kernel.of_ite_eq_ok hanswer
  rfl

/-- A value is dropped only if it was found, and a blocked value that is found is dropped. -/
theorem acts_withdrawBounding {cr : Credentials} (x : Inheritance) (u : Value) :
    Leads (Machine.Acts k i) cr (withdrawBounding x u) fun outcome cr' =>
      k.Lowers i v cr cr' ∧
        (u = v → x.blocked.contains v = true → k.bounds v = true → outcome.isOk = true →
          k.HasWithdrawn i v cr') := by
  have hsame : k.Lowers i v cr cr := Kernel.lowers_of_eq rfl
  refine leads_bind ?_
  cases hblocked : x.blocked.contains u with
  | false =>
      refine leads_pure (leads_pure ⟨hsame, ?_⟩)
      rintro rfl hv
      rw [hblocked] at hv
      cases hv
  | true =>
      refine acts_isBounding u (fun hspared hraised => ?_) fun hmissed => ?_
      · refine ((leaves_dropBounding u).acts (bySteps_dropBounding u)).mono
          fun outcome cr' hdropped => ?_
        cases outcome with
        | error e =>
            obtain rfl := hdropped
            exact ⟨hsame, fun _ _ _ => nofun⟩
        | ok a =>
            obtain rfl := hdropped
            by_cases huv : u = v
            · subst huv
              refine ⟨⟨by simp, fun hdenied => ?_⟩, fun _ _ _ _ hleft => ?_⟩
              · rw [hspared] at hdenied
                cases hdenied
              · simp at hleft
            · exact ⟨Kernel.lowers_of_eq (by simp [huv]), fun heq => absurd heq huv⟩
      · refine leads_pure ⟨hsame, ?_⟩
        rintro rfl _ hbounds _
        exact hmissed hbounds

theorem onlyLowers_withdrawBounding (x : Inheritance) (u : Value) :
    OnlyLowers k i v (withdrawBounding x u) :=
  fun _ => (acts_withdrawBounding x u).mono fun _ _ h => h.1

theorem withdraws_withdrawBounding {x : Inheritance} (hv : x.blocked.contains v = true)
    (hbounds : k.bounds v = true) : Withdraws k i v (withdrawBounding x v) :=
  fun _ => (acts_withdrawBounding x v).mono fun _ _ h => ⟨h.1, h.2 rfl hv hbounds⟩

theorem onlyLowers_withdraw (supported : Bool) (x : Inheritance) (vs : List Value) :
    OnlyLowers k i v (withdraw supported x vs) := by
  induction vs with
  | nil => exact KeepsBounding.onlyLowers (keeps_pure ()) (bySteps_pure ())
  | cons u rest ih =>
      exact onlyLowers_bind
        ((keepsBounding_withdrawAmbient supported x u).onlyLowers (bySteps_withdrawAmbient _ x u))
        fun _ => onlyLowers_bind (onlyLowers_withdrawBounding x u) fun _ => ih

/-- A blocked value is withdrawn when its turn comes. -/
theorem withdraws_withdraw {supported : Bool} {x : Inheritance} {vs : List Value}
    (hmem : v ∈ vs) (hv : x.blocked.contains v = true) (hbounds : k.bounds v = true) :
    Withdraws k i v (withdraw supported x vs) := by
  induction vs with
  | nil => cases hmem
  | cons u rest ih =>
      refine ((keepsBounding_withdrawAmbient supported x u).onlyLowers
        (bySteps_withdrawAmbient _ x u)).withdraws_bind fun _ => ?_
      rcases List.mem_cons.mp hmem with rfl | hrest
      · exact (withdraws_withdrawBounding hv hbounds).bind fun _ => onlyLowers_withdraw _ x rest
      · exact (onlyLowers_withdrawBounding x u).withdraws_bind fun _ => ih hrest

theorem withdraws_applyMasks {x : Inheritance} (hmem : v ∈ k.capacity.values)
    (hv : x.blocked.contains v = true) (hbounds : k.bounds v = true) :
    Withdraws k i v (applyMasks x) := by
  have hask : OnlyLowers k i v ambientSupported :=
    KeepsBounding.onlyLowers keeps_ambientSupported bySteps_ambientSupported
  refine hask.withdraws_bind fun supported cr =>
    leads_bind (leads_capacity (fun _ hview => hview.kernel) ?_)
  refine (withdraws_withdraw hmem hv hbounds).bind (fun _ => ?_) cr
  exact (keepsBounding_grant supported x _).onlyLowers (bySteps_grant supported x _)

theorem withdraws_settle {x : Inheritance} (hmem : v ∈ k.capacity.values)
    (hv : x.blocked.contains v = true) (hbounds : k.bounds v = true) (target : CapSet) :
    Withdraws k i v (settle x target) := by
  have hrestored : OnlyLowers k i v (applySet target) :=
    (keepsBounding_applySet target).onlyLowers (bySteps_applySet target)
  intro cr
  refine leads_bind (leads_attempt ((withdraws_applyMasks hmem hv hbounds cr).mono
    fun outcome cr₁ haligned => ?_))
  refine leads_bind (leads_attempt ((hrestored cr₁).mono fun restored cr₂ hlowers => ?_))
  have hall := haligned.1.trans hlowers
  cases outcome with
  | error f => exact leads_throw ⟨hall, nofun⟩
  | ok a =>
      cases restored with
      | error f => exact leads_throw ⟨hall, nofun⟩
      | ok b => exact leads_pure ⟨hall, fun _ => (haligned.2 rfl).lowers hlowers⟩

/-- Applying a tuple withdraws each value that it blocks. -/
theorem withdraws_applyTuple {x : Inheritance} (hmem : v ∈ k.capacity.values)
    (hv : x.blocked.contains v = true) (hbounds : k.bounds v = true) :
    Withdraws k i v (applyTuple x) := by
  have hread : KeepsBounding k readSet := fun _ => leaves_readSet rfl fun _ _ => rfl
  have hprepare (needed : Bool) (target : CapSet) : BySteps (prepare needed target) :=
    bySteps_ite (bySteps_raise target _) (bySteps_applySet target)
  rw [applyTuple_eq]
  refine fun cr => leads_bind (leads_capacity (fun _ hview => hview.kernel) ?_)
  refine (hread.onlyLowers bySteps_readSet).withdraws_bind (fun held => ?_) cr
  refine ((keepsBounding_blocksAnything x _).onlyLowers
    (bySteps_blocksAnything x _)).withdraws_bind fun blocks => ?_
  exact ((keepsBounding_prepare _ _).onlyLowers (hprepare _ _)).withdraws_bind fun _ =>
    withdraws_settle hmem hv hbounds _

/-- Whatever fails, on whichever threads: if a tuple is reported to be applied to threads with the
same credentials, a value that it blocks is left in the bounding mask of a thread only if it was
there before and some rule of the script is about asking for it. If such a rule is for every
attempt, the value is left for sure; so a script that treats all attempts alike decides which values
are left. -/
theorem applyTuple_reported {s s' : Machine} {x : Inheritance}
    (hbounding : s.kernel.bounds 0 = true)
    (hshares : s.Shares s.credentials) (hx : x.blocked.fits s.capacity = true)
    (h : (applyTuple x).start s = some (.ok (), s')) :
    s.indices <+: s'.indices ∧
      ∀ t ∈ s'.threads, ∀ v, x.blocked.contains v = true →
        (t.credentials.bounding.contains v = true →
          s.credentials.bounding.contains v = true ∧
            s.kernel.script.concerns .readBounding v s.main.index = true) ∧
        (s.kernel.script.denies .readBounding v s.main.index = true →
          t.credentials.bounding.contains v = s.credentials.bounding.contains v) ∧
        (s.kernel.script.isImpartial = true →
          (t.credentials.bounding.contains v = true ↔ s.credentials.bounding.contains v = true ∧
            s.kernel.script.denies .readBounding v s.main.index = true)) := by
  have hreaches := (bySteps_applyTuple x).reaches h
  refine ⟨hreaches.indices_kept, fun t ht v hv => ?_⟩
  have hcount : v < s.kernel.capacity.count := Mask.fits_iff.mp hx v hv
  have hwithdraws : Withdraws s.kernel s.main.index v (applyTuple x) :=
    withdraws_applyTuple (Capacity.mem_values.mpr hcount) hv
      (Kernel.bounds_of_lt_count hbounding hcount)
  obtain ⟨cr, hacts, hlowers, hdone⟩ := hwithdraws s.credentials s s' _ ⟨⟨rfl, rfl⟩, rfl⟩ h
  have hthread : t.credentials = cr :=
    (hreaches.shares hshares t ht).trans hacts.credentials
  have hleft : cr.bounding.contains v = true → s.credentials.bounding.contains v = true ∧
      s.kernel.script.concerns .readBounding v s.main.index = true :=
    fun hstays => ⟨hlowers.raised hstays, hdone rfl hstays⟩
  rw [hthread]
  refine ⟨hleft, hlowers.kept, fun himpartial => ?_⟩
  rw [FailureScript.concerns_eq_denies himpartial] at hleft
  refine ⟨hleft, ?_⟩
  rintro ⟨hraised, hdenied⟩
  rw [hlowers.kept hdenied, hraised]

/-- A privileged process on a kernel that does not tell whether value 3 is in the bounding mask. -/
def unansweringMachine : Machine :=
  Machine.start
    { version := Abi.third.code, valueCount := 41, boundingSupported := true,
      ambientSupported := true, processes := []
      script := [⟨.readBounding, 0, some 3, none, .invalidArgument⟩] }
    { effective := Mask.below 41, permitted := Mask.below 41, inheritable := ∅, ambient := ∅,
      bounding := Mask.below 41, secbits := ∅, uid := 0, gid := 0, groups := [] }
    Table.empty

/-- Of the values 3 and 5, both blocked, only the one that the script is not about is gone. -/
theorem applyTuple_reported_unansweringMachine :
    ∃ s', (applyTuple ⟨∅, ∅, Mask.ofList [3, 5]⟩).start unansweringMachine.spawn =
        some (.ok (), s') ∧
      ∀ t ∈ s'.threads, t.credentials.bounding.contains 3 = true ∧
        t.credentials.bounding.contains 5 = false := by
  have hends : endsIn (applyTuple ⟨∅, ∅, Mask.ofList [3, 5]⟩) unansweringMachine.spawn
      (.ok ()) = true := by decide +kernel
  obtain ⟨s', hstart⟩ := exists_of_endsIn hends
  obtain ⟨-, hleft⟩ := applyTuple_reported (by decide +kernel)
    (Machine.shares_of_others_eq_nil rfl).spawn (by decide +kernel) hstart
  refine ⟨s', hstart, fun t ht => ⟨?_, ?_⟩⟩
  · rw [(hleft t ht 3 (by decide)).2.1 (by decide)]
    decide
  · rw [Bool.eq_false_iff]
    intro hraised
    exact absurd ((hleft t ht 5 (by decide)).1 hraised).2 (by decide)

/-- The tuple is reported to be applied, but the only value that it blocks is still there. -/
theorem applyTuple_retains_unansweringMachine :
    (unansweringMachine.kernel.bounds 0 = true ∧ unansweringMachine.others = []) ∧
      Inheritance.fits unansweringMachine.capacity ⟨∅, ∅, Mask.single 3⟩ = true ∧
      ∃ s', (applyTuple ⟨∅, ∅, Mask.single 3⟩).start unansweringMachine = some (.ok (), s') ∧
        ∃ t ∈ s'.threads, ∃ v, (Mask.single 3).contains v = true ∧
          t.credentials.bounding.contains v = true := by
  have hends : ((applyTuple ⟨∅, ∅, Mask.single 3⟩).start unansweringMachine).any (fun reply =>
      reply.1.isOk && reply.2.credentials.bounding.contains 3) = true := by decide +kernel
  obtain ⟨⟨outcome, s'⟩, hstart, hleft⟩ := (Option.any_eq_true _ _).mp hends
  rw [Bool.and_eq_true] at hleft
  obtain ⟨hok, hraised⟩ := hleft
  refine ⟨⟨by decide +kernel, rfl⟩, by decide +kernel, s', ?_, s'.main, List.mem_cons_self, 3,
    by decide, hraised⟩
  cases outcome with
  | error f => cases hok
  | ok a => exact hstart

end Act

end Capabilities
