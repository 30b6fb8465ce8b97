import Capabilities.Proofs.Act.Outcome
import Capabilities.Proofs.Act.Reading

/-!
# What answers can be relied on

Any script of failures may be in force. A question that fails does not change
anything, and most questions about a value make nothing of a failure but the
answer no. So not every no is to be believed, but every yes is.
-/

namespace Capabilities.Act

variable {α β : Type} {k : Kernel} {cr : Credentials}

/-- Whatever fails, a question does not change the credentials of the calling thread, and a result
that it ends with is as described. -/
def Tells (k : Kernel) (cr : Credentials) (x : Act α) (P : α → Prop) : Prop :=
  Leaves k cr x fun outcome cr' => cr' = cr ∧ ∀ a, outcome = .ok a → P a

theorem Tells.mono {x : Act α} {P Q : α → Prop} (h : Tells k cr x P) (hPQ : ∀ a, P a → Q a) :
    Tells k cr x Q :=
  Leads.mono h fun _ _ hP => ⟨hP.1, fun a ha => hPQ a (hP.2 a ha)⟩

theorem Tells.ends {s s' : Machine} {x : Act α} {P : α → Prop} {a : α}
    (h : Tells s.kernel s.credentials x P) (hstart : x.start s = some (.ok a, s')) :
    s'.credentials = s.credentials ∧ P a := by
  obtain ⟨-, hsame, hP⟩ := Leaves.ends h hstart
  exact ⟨hsame, hP a rfl⟩

theorem tells_pure {P : α → Prop} {a : α} (h : P a) : Tells k cr (pure a) P := by
  refine leads_pure ⟨rfl, ?_⟩
  rintro _ ⟨⟩
  exact h

/-- A question that is asked after another one may rely on what that one told. -/
theorem tells_bind {x : Act α} {f : α → Act β} {P : α → Prop} {Q : β → Prop}
    (hx : Tells k cr x P) (hf : ∀ a, P a → Tells k cr (f a) Q) : Tells k cr (x >>= f) Q := by
  refine leads_bind (Leads.mono hx fun outcome cr' hfirst => ?_)
  obtain ⟨rfl, hP⟩ := hfirst
  cases outcome with
  | error e => exact ⟨rfl, nofun⟩
  | ok a => exact hf a (hP a rfl)

theorem tells_attempt {x : Act α} {P : α → Prop} (hx : Tells k cr x P) :
    Tells k cr (attempt x) fun outcome => ∀ a, outcome = .ok a → P a := by
  refine leads_attempt (Leads.mono hx fun outcome cr' htold => ?_)
  obtain ⟨rfl, hP⟩ := htold
  refine ⟨rfl, ?_⟩
  rintro _ ⟨⟩
  exact hP

theorem tells_capacity : Tells k cr capacity (· = k.capacity) := by
  refine leaves_capacity ⟨rfl, ?_⟩
  rintro _ ⟨⟩
  rfl

/-- A call that asks is granted by the rule of the kernel, if at all. -/
theorem tells_ask {call : Call} {P : Nat → Prop} (hcall : call.isQuestion = true)
    (h : ∀ n cr', k.respond cr call = .ok (n, cr') → P n) : Tells k cr (ask call) P := by
  refine leaves_ask (fun n cr' hanswer => ?_) fun e _ => ⟨rfl, nofun⟩
  refine ⟨Kernel.eq_of_respond_of_isQuestion hcall hanswer, ?_⟩
  rintro _ ⟨⟩
  exact h n cr' hanswer

theorem tells_readSet : Tells k cr readSet (· = k.shownFlags cr) := by
  refine leaves_readSet ⟨rfl, ?_⟩ fun _ e => ⟨rfl, nofun⟩
  rintro _ ⟨⟩
  rfl

theorem tells_readSecbits : Tells k cr readSecbits (· = Secbits.truncate cr.secbits) := by
  refine tells_bind (P := (· = cr.secbits.bits)) (tells_ask rfl fun n cr' hanswer => ?_) ?_
  · cases hanswer
    rfl
  · rintro _ rfl
    exact tells_pure rfl

theorem tells_readAmbient (v : Value) :
    Tells k cr (readAmbient v) fun on => k.ambients v = true ∧ on = cr.ambient.contains v := by
  have hasked : Tells k cr (ask (.readAmbient v))
      fun n => k.ambients v = true ∧ n = (cr.ambient.contains v).toNat :=
    tells_ask rfl fun _ _ hanswer => (Kernel.of_ite_eq_ok hanswer).imp_right And.right
  refine tells_bind hasked ?_
  rintro _ ⟨hv, rfl⟩
  exact tells_pure ⟨hv, by cases cr.ambient.contains v <;> rfl⟩

theorem tells_readBounding (v : Value) :
    Tells k cr (readBounding v) fun answer =>
      ∀ on, answer = some on → k.bounds v = true ∧ on = cr.bounding.contains v := by
  have hasked : Tells k cr (ask (.readBounding v))
      fun n => k.bounds v = true ∧ n = (cr.bounding.contains v).toNat :=
    tells_ask rfl fun _ _ hanswer => (Kernel.of_ite_eq_ok hanswer).imp_right And.right
  refine tells_bind (tells_attempt hasked) fun outcome htold => ?_
  cases outcome with
  | error e =>
      refine tells_pure ?_
      rintro _ ⟨⟩
  | ok n =>
      obtain ⟨hv, rfl⟩ := htold n rfl
      refine tells_pure ?_
      rintro _ ⟨⟩
      exact ⟨hv, by cases cr.bounding.contains v <;> rfl⟩

/-- An ambient mask that answers is there. -/
theorem tells_ambientSupported :
    Tells k cr ambientSupported fun found => found = true → k.ambients 0 = true := by
  refine tells_bind (tells_attempt (tells_readAmbient 0)) fun outcome htold => ?_
  cases outcome with
  | error e => exact tells_pure nofun
  | ok on => exact tells_pure fun _ => (htold on rfl).1

theorem tells_isAmbient (v : Value) :
    Tells k cr (isAmbient v) fun on =>
      on = true → k.ambients v = true ∧ cr.ambient.contains v = true := by
  refine tells_bind (tells_attempt (tells_readAmbient v)) fun outcome htold => ?_
  cases outcome with
  | error e => exact tells_pure nofun
  | ok on =>
      obtain ⟨hv, rfl⟩ := htold on rfl
      exact tells_pure fun hraised => ⟨hv, hraised⟩

theorem tells_isBlocked (v : Value) :
    Tells k cr (isBlocked v) fun gone =>
      gone = true → k.bounds v = true ∧ cr.bounding.contains v = false := by
  refine tells_bind (tells_readBounding v) fun answer htold => tells_pure fun hgone => ?_
  obtain ⟨hv, hlowered⟩ := htold false (beq_iff_eq.mp hgone)
  exact ⟨hv, hlowered.symm⟩

/-- Values are selected for a reason. -/
theorem tells_select {question : Value → Act Bool} {P : Value → Prop}
    (h : ∀ v, Tells k cr (question v) fun yes => yes = true → P v) (vs : List Value) :
    Tells k cr (select question vs) fun chosen => ∀ v ∈ chosen, v ∈ vs ∧ P v := by
  induction vs with
  | nil => exact tells_pure nofun
  | cons v rest ih =>
      refine tells_bind (h v) fun yes hyes => ?_
      cases yes with
      | false =>
          refine ih.mono fun chosen hchosen u hu => ?_
          exact ⟨List.mem_cons_of_mem v (hchosen u hu).1, (hchosen u hu).2⟩
      | true =>
          refine tells_bind ih fun chosen hchosen => tells_pure fun u hu => ?_
          rcases List.mem_cons.mp hu with rfl | hu
          · exact ⟨List.mem_cons_self, hyes rfl⟩
          · exact ⟨List.mem_cons_of_mem v (hchosen u hu).1, (hchosen u hu).2⟩

end Capabilities.Act
