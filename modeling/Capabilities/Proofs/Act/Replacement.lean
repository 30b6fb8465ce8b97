import Capabilities.Proofs.Act.Effect
import Capabilities.Proofs.Act.Records

/-!
# Replacing the flags of a process

As long as no failure is scripted, the words of a set replace the flags of all
threads or of none, and every thread then reads exactly these words, those of bits
beyond the supported values included. What a thread reads of itself can always be
applied again if nothing is effective that is not permitted, and changes nothing
that can be read.
-/

namespace Capabilities

/-- The machine as one of its threads calls it. -/
def Machine.calledBy (s : Machine) (t : Thread) : Machine := { s with main := t }

namespace PackedSet

variable {c : Capacity}

/-- The set without its owner. -/
def unowned (s : PackedSet c) : PackedSet c := { s with owner := none }

theorem toCapSet_unowned (s : PackedSet c) : s.unowned.toCapSet = s.toCapSet.unowned := rfl

end PackedSet

namespace Act

variable {k : Kernel} {cr : Credentials} {c : Capacity}

theorem bySteps_applyPacked (x : PackedSet c) : BySteps (applyPacked x) :=
  bySteps_bind (bySteps_broadcast _) fun _ => bySteps_pure _

theorem ensures_applyPacked (hscript : k.script = []) {x : PackedSet c}
    {Q : Except Fault Unit → Credentials → Prop}
    (hgranted : Kernel.admitsFlags cr x.toCapSet.effective x.toCapSet.permitted
      x.toCapSet.inheritable = true → Q (.ok ()) (cr.withFlags x.toCapSet))
    (hrefused : Kernel.admitsFlags cr x.toCapSet.effective x.toCapSet.permitted
      x.toCapSet.inheritable = false → Q (.error (.os .notPermitted)) cr) :
    Ensures k cr (applyPacked x) Q := by
  refine ensures_command hscript ?_
  simp only [Records.mask_toRecords, CapSet.flag]
  rw [Kernel.respond_capset]
  cases hadmits : Kernel.admitsFlags cr x.toCapSet.effective x.toCapSet.permitted
      x.toCapSet.inheritable with
  | true => exact hgranted hadmits
  | false => exact hrefused hadmits

/-- The words that a thread sees of itself. -/
def shownWords (k : Kernel) (cr : Credentials) : PackedSet k.capacity :=
  PackedSet.ofRecords k.capacity (Records.ofFlags k.capacity.abi cr.holdings)

theorem toCapSet_shownWords (k : Kernel) (cr : Credentials) :
    (shownWords k cr).toCapSet = k.shownFlags cr :=
  Records.toCapSet_ofRecords cr.holdings

/-- The words of a set that was applied are seen again. -/
theorem shownWords_withFlags (x : PackedSet k.capacity) :
    shownWords k (cr.withFlags x.toCapSet) = x.unowned := by
  apply PackedSet.toCapSet_injective
  rw [toCapSet_shownWords, PackedSet.toCapSet_unowned]
  exact fitWords_toCapSet x

/-- What a thread sees of itself is granted, and seen again. -/
theorem admitsFlags_shownFlags (heffective : cr.effective.isWithin cr.permitted = true) :
    Kernel.admitsFlags cr (k.shownFlags cr).effective (k.shownFlags cr).permitted
      (k.shownFlags cr).inheritable = true := by
  have hwords {a b : Mask} (h : a.isWithin b = true) :
      (a ∩ Mask.below k.capacity.width).isWithin (b ∩ Mask.below k.capacity.width) = true := by
    rw [Mask.isWithin_iff] at h ⊢
    intro v hv
    simp only [Mask.contains_inter, Bool.and_eq_true] at hv ⊢
    exact ⟨h v hv.1, hv.2⟩
  have hheld (m : Mask) : (m ∩ Mask.below k.capacity.width).isWithin m = true := by
    rw [Mask.isWithin_iff]
    intro v hv
    rw [Mask.contains_inter, Bool.and_eq_true] at hv
    exact hv.1
  exact Kernel.admitsFlags_of_isWithin (hwords heffective) (hheld _) (hheld _)

/-- On every thread, reading finds the words that the common credentials show. -/
theorem yields_calledBy {s s' : Machine} (hscript : s.kernel.script = [])
    (hkernel : s'.kernel = s.kernel) {cr : Credentials} (hshares : s'.Shares cr) {t : Thread}
    (ht : t ∈ s'.threads) :
    (readPacked s.capacity).Yields (s'.calledBy t) (shownWords s.kernel cr) ∧
      readSet.Yields (s'.calledBy t) (shownWords s.kernel cr).toCapSet := by
  have hmain : (s'.calledBy t).credentials = cr := hshares t ht
  have hpacked : Reads s.kernel cr (readPacked s.capacity) (.ok (shownWords s.kernel cr)) :=
    reads_readPacked
  have hflags : Reads s.kernel cr readSet (.ok (shownWords s.kernel cr).toCapSet) := by
    rw [toCapSet_shownWords]
    exact reads_readSet
  obtain ⟨_, hwords⟩ := hpacked (s'.calledBy t) hkernel hmain hscript
  obtain ⟨_, hmasks⟩ := hflags (s'.calledBy t) hkernel hmain hscript
  exact ⟨⟨_, hwords⟩, ⟨_, hmasks⟩⟩

/-- The words that a thread reads of itself are applied without fail. -/
theorem exists_applyPacked_shownWords {s : Machine} (hscript : s.kernel.script = [])
    (hshares : s.Shares s.credentials)
    (heffective : s.credentials.effective.isWithin s.credentials.permitted = true) :
    let shown := shownWords s.kernel s.credentials
    ∃ s₁ s₂, (readPacked s.capacity).start s = some (.ok shown, s₁) ∧
      (applyPacked shown).start s₁ = some (.ok (), s₂) ∧ s₂.kernel = s.kernel ∧
      s₂.indices = s.indices ∧ s₂.Shares (s.credentials.withFlags shown.toCapSet) := by
  intro shown
  have hreads : Reads s.kernel s.credentials (readPacked s.capacity) (.ok shown) :=
    reads_readPacked
  have hensures : Ensures s.kernel s.credentials (applyPacked shown) fun outcome cr =>
      outcome = .ok () ∧ cr = s.credentials.withFlags shown.toCapSet := by
    refine ensures_applyPacked hscript (fun _ => ⟨rfl, rfl⟩) fun hrefused => ?_
    rw [toCapSet_shownWords, admitsFlags_shownFlags heffective] at hrefused
    cases hrefused
  obtain ⟨attempts, hread⟩ := hreads s rfl rfl hscript
  have hshares₁ : (s.counting attempts).Shares s.credentials :=
    Machine.shares_iff.mpr ⟨rfl, (Machine.shares_iff.mp hshares).2⟩
  obtain ⟨outcome, s₂, hstart, hkernel, hindices, cr, hshares₂, rfl, rfl⟩ :=
    Ensures.ends (s := s.counting attempts) hensures (bySteps_applyPacked _) hscript hshares₁
  exact ⟨_, s₂, hread, hstart, hkernel, hindices, hshares₂⟩

/-- Without scripted failures, the words of a set are applied to all threads or to none, if they all
have the same credentials. This is the same as applying the set that the words stand for. If it is
granted, every thread reads these words again, its ambient mask has lost what is not permitted and
inheritable in them, and nothing else has changed; if it is refused, nothing has changed at all. And
the words that a thread reads of itself, if nothing is effective that is not permitted, are applied
without fail and read again by every thread. -/
theorem applyPacked_all_or_nothing {s : Machine} (hscript : s.kernel.script = [])
    (hshares : s.Shares s.credentials) (x : PackedSet s.capacity) :
    (∃ outcome s', (applyPacked x).start s = some (outcome, s') ∧
      (applySet x.toCapSet).start s = some (outcome, s') ∧
      s'.kernel = s.kernel ∧ s'.indices = s.indices ∧
      (outcome = .ok () ↔ Kernel.admitsFlags s.credentials x.toCapSet.effective
        x.toCapSet.permitted x.toCapSet.inheritable = true) ∧
      (outcome = .ok () → ∀ t ∈ s'.threads,
        (readPacked s.capacity).Yields (s'.calledBy t) x.unowned ∧
        readSet.Yields (s'.calledBy t) x.toCapSet.unowned ∧
        t.credentials = { s.credentials with
          effective := x.toCapSet.effective
          permitted := x.toCapSet.permitted
          inheritable := x.toCapSet.inheritable
          ambient := s.credentials.ambient ∩ (x.toCapSet.permitted ∩ x.toCapSet.inheritable) }) ∧
      (outcome ≠ .ok () → outcome = .error (.os .notPermitted) ∧
        ∀ t ∈ s'.threads, t.credentials = s.credentials)) ∧
    (s.credentials.effective.isWithin s.credentials.permitted = true →
      ∃ shown s₁ s₂, (readPacked s.capacity).start s = some (.ok shown, s₁) ∧
        (applyPacked shown).start s₁ = some (.ok (), s₂) ∧ s₂.indices = s.indices ∧
        ∀ t ∈ s₂.threads, (readPacked s.capacity).Yields (s₂.calledBy t) shown ∧
          readSet.Yields (s₂.calledBy t) shown.toCapSet) := by
  constructor
  · have hensures : Ensures s.kernel s.credentials (applyPacked x) fun outcome cr =>
        (outcome = .ok () ↔ Kernel.admitsFlags s.credentials x.toCapSet.effective
          x.toCapSet.permitted x.toCapSet.inheritable = true) ∧
        (outcome = .ok () → cr = s.credentials.withFlags x.toCapSet) ∧
        (outcome ≠ .ok () → outcome = .error (.os .notPermitted) ∧ cr = s.credentials) := by
      refine ensures_applyPacked hscript (fun hadmits => ?_) fun hrefused => ?_
      · simp [hadmits]
      · simp [hrefused]
    obtain ⟨outcome, s', hstart, hkernel, hindices, cr, hshares', hadmits, hgranted, hrefused⟩ :=
      hensures.ends (bySteps_applyPacked x) hscript hshares
    refine ⟨outcome, s', hstart, (start_applyPacked s x).symm.trans hstart, hkernel, hindices,
      hadmits, fun hok t ht => ?_, fun hfault => ?_⟩
    · obtain rfl := hgranted hok
      have hshown : shownWords s.kernel (s.credentials.withFlags x.toCapSet) = x.unowned :=
        shownWords_withFlags x
      have hread := yields_calledBy hscript hkernel hshares' ht
      rw [hshown] at hread
      exact ⟨hread.1, hread.2, hshares' t ht⟩
    · obtain ⟨hdenied, rfl⟩ := hrefused hfault
      exact ⟨hdenied, hshares'⟩
  · intro heffective
    obtain ⟨s₁, s₂, hread, hstart, hkernel, hindices, hshares₂⟩ :=
      exists_applyPacked_shownWords hscript hshares heffective
    refine ⟨_, s₁, s₂, hread, hstart, hindices, fun t ht => ?_⟩
    have hagain := yields_calledBy hscript hkernel hshares₂ ht
    rw [shownWords_withFlags] at hagain
    exact hagain

/-- A process of two threads on a kernel of the first generation, which shows one word only. The
kernel has recorded values beyond the supported ones, and one beyond that word. -/
def narrowMachine : Machine :=
  (Machine.start
    { version := Abi.first.code, valueCount := 20, boundingSupported := true,
      ambientSupported := true, processes := [], script := [] }
    { effective := Mask.single 0, permitted := Mask.ofList [0, 25, 40],
      inheritable := Mask.single 25, ambient := Mask.single 25, bounding := Mask.below 20,
      secbits := ∅, uid := 0, gid := 0, groups := [] }
    Table.empty).spawn

/-- Values 0 and 25 permitted, and the first of them effective. -/
def narrowSet : PackedSet narrowMachine.capacity :=
  ⟨#v[⟨0x00000001#32, 0x02000001#32, 0x00000000#32⟩], none⟩

theorem applyPacked_all_or_nothing_narrowMachine :
    (∃ s', (applyPacked narrowSet).start narrowMachine = some (.ok (), s') ∧
      ∀ t ∈ s'.threads,
        (readPacked narrowMachine.capacity).Yields (s'.calledBy t) narrowSet ∧
        t.credentials.permitted.contains 25 = true ∧ t.credentials.ambient = ∅) ∧
    ∃ shown s₁ s₂, (readPacked narrowMachine.capacity).start narrowMachine = some (.ok shown, s₁) ∧
      (applyPacked shown).start s₁ = some (.ok (), s₂) := by
  have hshares : narrowMachine.Shares narrowMachine.credentials :=
    (Machine.shares_of_others_eq_nil rfl).spawn
  obtain ⟨⟨outcome, s', hstart, -, -, -, hadmits, hgranted, -⟩, hshown⟩ :=
    applyPacked_all_or_nothing rfl hshares narrowSet
  obtain rfl := hadmits.mpr (by decide +kernel)
  obtain ⟨shown, s₁, s₂, hread, happlied, -⟩ := hshown (by decide +kernel)
  refine ⟨⟨s', hstart, fun t ht => ?_⟩, shown, s₁, s₂, hread, happlied⟩
  obtain ⟨hread, -, hcredentials⟩ := hgranted rfl t ht
  rw [hcredentials]
  exact ⟨hread, by decide +kernel, by decide +kernel⟩

end Act

end Capabilities
