import Capabilities.Act.Modes

/-!
# What the questions of a process tell

As long as no failure is scripted, a question is answered from the kernel and
the credentials of the calling thread alone, and the machine changes in nothing
but the count of attempts.
-/

namespace Capabilities

namespace Machine

/-- The machine with another record of what the calling thread has attempted. -/
def counting (s : Machine) (attempts : List Call.Kind) : Machine :=
  { s with main := { s.main with attempts } }

end Machine

namespace Kernel

variable (k : Kernel) (cr : Credentials)

/-- The flags that a thread sees of itself. -/
def shownFlags : CapSet := Act.fitWords k.capacity cr.holdings

/-- The tuple that a thread sees of itself. -/
def shownTuple : Inheritance where
  inheritable := (k.shownFlags cr).inheritable
  ambient := Mask.ofList
    (k.capacity.values.filter fun v => k.ambients v && cr.ambient.contains v)
  blocked := Mask.ofList
    (k.capacity.values.filter fun v => k.bounds v && !cr.bounding.contains v)

/-- All that the mode of a thread depends on, as the thread sees it. -/
def shownSnapshot : Snapshot where
  secbits := Secbits.truncate cr.secbits
  ambientSupported := k.ambients 0
  caps := k.shownFlags cr
  tuple := k.shownTuple cr

def shownMode : Mode := Mode.classify k.capacity (k.shownSnapshot cr)

theorem contains_shownTuple_ambient (v : Nat) :
    (k.shownTuple cr).ambient.contains v =
      decide (v < k.capacity.count ∧ k.ambients v = true ∧ cr.ambient.contains v = true) := by
  simp [shownTuple, Capacity.values]

theorem contains_shownTuple_blocked (v : Nat) :
    (k.shownTuple cr).blocked.contains v =
      decide (v < k.capacity.count ∧ k.bounds v = true ∧ cr.bounding.contains v = false) := by
  simp [shownTuple, Capacity.values]

end Kernel

namespace Act

/-- Started on a machine, an act succeeds with a result. -/
def Yields {α : Type} (x : Act α) (s : Machine) (a : α) : Prop :=
  ∃ t, x.start s = some (.ok a, t)

/-- Where no failure is scripted, an act is answered from the kernel and the credentials of
the calling thread, and changes no more than the count of attempts. -/
def Reads {α : Type} (k : Kernel) (cr : Credentials) (x : Act α) (answer : Except Fault α) :
    Prop :=
  ∀ s : Machine, s.kernel = k → s.credentials = cr → k.script = [] →
    ∃ attempts, x.start s = some (answer, s.counting attempts)

variable {α β : Type} {k : Kernel} {cr : Credentials}

theorem Reads.yields_iff {x : Act α} {s : Machine} {a b : α}
    (h : Reads s.kernel s.credentials x (.ok a)) (hscript : s.kernel.script = []) :
    x.Yields s b ↔ a = b := by
  obtain ⟨attempts, hstart⟩ := h s rfl rfl hscript
  rw [Yields, hstart]
  constructor
  · rintro ⟨t, ht⟩
    cases ht
    rfl
  · rintro rfl
    exact ⟨_, rfl⟩

theorem reads_pure (a : α) : Reads k cr (pure a) (.ok a) :=
  fun s _ _ _ => ⟨s.main.attempts, rfl⟩

/-- A question asked after another one finds what that one found. -/
theorem reads_bind {x : Act α} {f : α → Act β} {a : α} {answer : Except Fault β}
    (hx : Reads k cr x (.ok a)) (hf : Reads k cr (f a) answer) :
    Reads k cr (x >>= f) answer := by
  intro s hkernel hcredentials hscript
  obtain ⟨first, hfirst⟩ := hx s hkernel hcredentials hscript
  obtain ⟨second, hsecond⟩ := hf (s.counting first) hkernel hcredentials hscript
  refine ⟨second, ?_⟩
  rw [start_bind, hfirst]
  exact hsecond

theorem reads_bind_error {x : Act α} (f : α → Act β) {fault : Fault}
    (hx : Reads k cr x (.error fault)) : Reads k cr (x >>= f) (.error fault) := by
  intro s hkernel hcredentials hscript
  obtain ⟨attempts, hstart⟩ := hx s hkernel hcredentials hscript
  refine ⟨attempts, ?_⟩
  rw [start_bind, hstart]
  rfl

theorem reads_attempt {x : Act α} {answer : Except Fault α} (hx : Reads k cr x answer) :
    Reads k cr (attempt x) (.ok answer) := by
  intro s hkernel hcredentials hscript
  obtain ⟨attempts, hstart⟩ := hx s hkernel hcredentials hscript
  refine ⟨attempts, ?_⟩
  rw [start_attempt, hstart]
  rfl

theorem reads_succeeds {x : Act α} {answer : Except Fault α} (hx : Reads k cr x answer) :
    Reads k cr (succeeds x) (.ok answer.isOk) :=
  reads_bind (reads_attempt hx) (reads_pure _)

theorem reads_provided {condition answer : Bool} {question : Act Bool}
    (h : condition = true → Reads k cr question (.ok answer)) :
    Reads k cr (provided condition question) (.ok (condition && answer)) := by
  cases condition with
  | false => exact reads_pure false
  | true => exact h rfl

theorem reads_capacity : Reads k cr capacity (.ok k.capacity) := by
  rintro s rfl _ _
  exact ⟨s.main.attempts, rfl⟩

/-- A call that, granted or refused, does not change the credentials. -/
theorem reads_ask {call : Call} {kind : Call.Kind} (answer : Except Errno Nat)
    (hkind : call.kind? = some kind)
    (hanswer : k.respond cr call = answer.map fun n => (n, cr)) :
    Reads k cr (ask call) (answer.mapError Fault.os) := by
  rintro s rfl rfl hscript
  refine ⟨kind :: s.main.attempts, ?_⟩
  simp only [Machine.credentials] at hanswer
  simp only [ask, start_request, Machine.ask, Kernel.perform, hkind, Kernel.attempt, hscript,
    FailureScript.errno?_nil, hanswer]
  cases answer with
  | ok n => rfl
  | error e => rfl

theorem reads_readSet : Reads k cr readSet (.ok (k.shownFlags cr)) := by
  rintro s rfl rfl hscript
  refine ⟨.inspect :: s.main.attempts, ?_⟩
  simp only [readSet, readSetOf, start_bind, start_request, Machine.inspect, Kernel.attempt,
    hscript, FailureScript.errno?_nil, Kernel.inspect]
  rfl

theorem reads_readSecbits : Reads k cr readSecbits (.ok (Secbits.truncate cr.secbits)) :=
  reads_bind (reads_ask (.ok _) rfl rfl) (reads_pure _)

theorem reads_readAmbient (v : Value) :
    Reads k cr (readAmbient v)
      (if k.ambients v then .ok (cr.ambient.contains v) else .error (.os .invalidArgument)) := by
  cases hv : k.ambients v with
  | true =>
      have hask : Reads k cr (ask (.readAmbient v)) (.ok (cr.ambient.contains v).toNat) :=
        reads_ask (.ok _) rfl (by simp [Kernel.respond, hv, Except.map])
      have hread := reads_bind (f := fun n => pure (n != 0)) hask (reads_pure _)
      cases hcontains : cr.ambient.contains v <;> rw [hcontains] at hread <;> exact hread
  | false =>
      have hask : Reads k cr (ask (.readAmbient v)) (.error (.os .invalidArgument)) :=
        reads_ask (.error _) rfl (by simp [Kernel.respond, hv, Except.map])
      exact reads_bind_error _ hask

/-- A question that is asked only if the kernel answers it. -/
theorem reads_provided_readAmbient {condition : Bool} {v : Value}
    (h : condition = true → k.ambients v = true) :
    Reads k cr (provided condition (readAmbient v))
      (.ok (condition && cr.ambient.contains v)) := by
  refine reads_provided fun hasked => ?_
  have hanswer : Reads k cr (readAmbient v) _ := reads_readAmbient v
  rwa [if_pos (h hasked)] at hanswer

theorem reads_ambientSupported : Reads k cr ambientSupported (.ok (k.ambients 0)) := by
  have hread : Reads k cr ambientSupported _ := reads_succeeds (reads_readAmbient 0)
  cases hzero : k.ambients 0 <;> rw [hzero] at hread <;> exact hread

theorem reads_isAmbient (v : Value) :
    Reads k cr (isAmbient v) (.ok (k.ambients v && cr.ambient.contains v)) := by
  refine reads_bind (reads_attempt (reads_readAmbient v)) ?_
  cases k.ambients v <;> exact reads_pure _

theorem reads_readBounding (v : Value) :
    Reads k cr (readBounding v)
      (.ok (if k.bounds v then some (cr.bounding.contains v) else none)) := by
  cases hv : k.bounds v with
  | true =>
      have hask : Reads k cr (ask (.readBounding v)) (.ok (cr.bounding.contains v).toNat) :=
        reads_ask (.ok _) rfl (by simp [Kernel.respond, hv, Except.map])
      refine reads_bind (reads_attempt hask) ?_
      cases cr.bounding.contains v <;> exact reads_pure _
  | false =>
      have hask : Reads k cr (ask (.readBounding v)) (.error (.os .invalidArgument)) :=
        reads_ask (.error _) rfl (by simp [Kernel.respond, hv, Except.map])
      exact reads_bind (reads_attempt hask) (reads_pure _)

theorem reads_isBlocked (v : Value) :
    Reads k cr (isBlocked v) (.ok (k.bounds v && !cr.bounding.contains v)) := by
  refine reads_bind (reads_readBounding v) ?_
  cases k.bounds v <;> cases cr.bounding.contains v <;> exact reads_pure _

theorem reads_isBounding (v : Value) :
    Reads k cr (isBounding v) (.ok (k.bounds v && cr.bounding.contains v)) := by
  refine reads_bind (reads_readBounding v) ?_
  cases k.bounds v <;> cases cr.bounding.contains v <;> exact reads_pure _

/-- A selection by a question is the filter by its answers. -/
theorem reads_select {question : Value → Act Bool} {answer : Value → Bool}
    (h : ∀ v, Reads k cr (question v) (.ok (answer v))) (vs : List Value) :
    Reads k cr (select question vs) (.ok (vs.filter answer)) := by
  induction vs with
  | nil => exact reads_pure []
  | cons v rest ih =>
      refine reads_bind (h v) ?_
      rw [List.filter_cons]
      cases answer v with
      | true => exact reads_bind ih (reads_pure _)
      | false => exact ih

theorem reads_readTuple : Reads k cr readTuple (.ok (k.shownTuple cr)) :=
  reads_bind reads_capacity
    (reads_bind reads_readSet
      (reads_bind (reads_select reads_isAmbient _)
        (reads_bind (reads_select reads_isBlocked _) (reads_pure _))))

theorem reads_blocksAnything (x : Inheritance) (vs : List Value) :
    Reads k cr (blocksAnything x vs)
      (.ok (vs.any fun v => x.blocked.contains v && (k.bounds v && cr.bounding.contains v))) := by
  induction vs with
  | nil => exact reads_pure false
  | cons v rest ih =>
      refine reads_bind (reads_provided fun _ => reads_isBounding v) ?_
      rw [List.any_cons]
      cases x.blocked.contains v && (k.bounds v && cr.bounding.contains v) with
      | true => exact reads_pure true
      | false => exact ih

theorem reads_snapshot : Reads k cr snapshot (.ok (k.shownSnapshot cr)) :=
  reads_bind reads_readSecbits
    (reads_bind reads_ambientSupported
      (reads_bind reads_readSet (reads_bind reads_readTuple (reads_pure _))))

/-- The mode of a process is read without fail. -/
theorem reads_currentMode : Reads k cr currentMode (.ok (k.shownMode cr)) :=
  reads_bind reads_snapshot (reads_bind reads_capacity (reads_pure _))

end Act

end Capabilities
