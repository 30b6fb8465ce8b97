import Capabilities.Proofs.FileAttribute.RoundTrip
import Capabilities.Proofs.Mask.Algebra
import Capabilities.Proofs.Mode.Classification
import Mathlib.Order.Nat

/-!
# The order of the modes

The modes are ordered by how much a process can still do. For each mode there is
a condition under which a process is in it or in a lesser one, and all of these
conditions are kept when less is held, less is ambient and more is blocked. So a
process that has less of everything is never in a greater mode.
-/

namespace Capabilities

/-- With the same secure bits, nothing is raised in a flag or in the ambient mask that is not
raised there in the other snapshot, and everything is blocked that is blocked in it. -/
structure Snapshot.IsBelow (a b : Snapshot) : Prop where
  secbits : a.secbits = b.secbits
  ambientSupported : a.ambientSupported = b.ambientSupported
  flag : ∀ f, (a.caps.flag f).isWithin (b.caps.flag f) = true
  ambient : a.tuple.ambient.isWithin b.tuple.ambient = true
  blocked : b.tuple.blocked.isWithin a.tuple.blocked = true

namespace Snapshot

variable {c : Capacity} {a b s : Snapshot}

theorem IsBelow.isSecured_eq (h : a.IsBelow b) : a.isSecured = b.isSecured := by
  rw [isSecured, isSecured, h.secbits, h.ambientSupported]

theorem isSecured_iff :
    s.isSecured = true ↔
      (⟨0x2f⟩ : Secbits).isWithin s.secbits = true ∧
        (s.ambientSupported = true → s.secbits = ⟨0xef⟩) := by
  have hbasic : Secbits.secured = ⟨0x2f⟩ := congrArg Mask.mk Secbits.secured_bits
  have hambient : Secbits.securedAmbient = ⟨0xef⟩ := congrArg Mask.mk Secbits.securedAmbient_bits
  rw [isSecured, hbasic, hambient]
  cases s.ambientSupported <;> simp

/-- Where nothing but supported values can be blocked, all of them have to be. -/
theorem isBlocked_iff (hblocked : ∀ v, s.tuple.blocked.contains v = true → v < c.count) :
    s.isBlocked c = true ↔ ∀ v < c.count, s.tuple.blocked.contains v = true := by
  rw [isBlocked, beq_iff_eq]
  constructor
  · intro h v hv
    rw [h, Mask.contains_below]
    exact decide_eq_true hv
  · intro h
    apply Mask.ext
    intro v
    rw [Bool.eq_iff_iff, Mask.contains_below, decide_eq_true_eq]
    exact ⟨hblocked v, h v⟩

end Snapshot

namespace Mode

/-- How much a process in the mode can still do, in comparison with the other modes. -/
def rank : Mode → Nat
  | noPriv => 0
  | pureInit => 1
  | pure => 2
  | uncertain => 3

theorem rank_injective : Function.Injective rank := by
  intro m n h
  revert h
  cases m <;> cases n <;> decide

instance : LE Mode := ⟨fun m n => m.rank ≤ n.rank⟩

instance : LinearOrder Mode := LinearOrder.lift' rank rank_injective

example : noPriv < pureInit ∧ pureInit < pure ∧ pure < uncertain := by decide

theorem le_uncertain (m : Mode) : m ≤ uncertain := by
  cases m <;> decide

theorem le_pure_iff {m : Mode} : m ≤ pure ↔ m ≠ uncertain := by
  cases m <;> decide

theorem le_noPriv_iff {m : Mode} : m ≤ noPriv ↔ m = noPriv := by
  cases m <;> decide

end Mode

/-- What must be true of a process for it to be at most in a mode. -/
def Snapshot.IsAtMost (c : Capacity) (s : Snapshot) : Mode → Prop
  | .uncertain => True
  | .pure => s.isSecured = true ∧ s.tuple.ambient = ∅
  | .pureInit => (s.isSecured = true ∧ s.tuple.ambient = ∅) ∧ s.caps.inheritable = ∅
  | .noPriv =>
      (s.isSecured = true ∧ s.tuple.ambient = ∅) ∧ (∀ f, s.caps.flag f = ∅) ∧
        s.isBlocked c = true

namespace Mode

variable {c : Capacity} {a b s : Snapshot} {m : Mode}

theorem classify_le_pureInit_iff :
    classify c s ≤ pureInit ↔ classify c s ≠ uncertain ∧ s.caps.inheritable = ∅ := by
  rw [← Mask.isEmpty_iff]
  constructor
  · intro h
    have hcertain : classify c s ≠ uncertain := by
      intro heq
      rw [heq] at h
      exact absurd h (by decide)
    refine ⟨hcertain, ?_⟩
    obtain ⟨hsecured, hambient⟩ := classify_ne_uncertain_iff.mp hcertain
    rw [classify_of_isSecured hsecured hambient] at h
    split at h
    next => exact absurd h (by decide)
    next hempty => simpa using hempty
  · rintro ⟨hcertain, hempty⟩
    obtain ⟨hsecured, hambient⟩ := classify_ne_uncertain_iff.mp hcertain
    rw [classify_of_isSecured hsecured hambient, hempty]
    simp only [Bool.not_true, Bool.false_eq_true, if_false]
    split
    next => exact le_rfl
    next =>
      split
      next => exact le_rfl
      next => decide

theorem classify_le_iff : classify c s ≤ m ↔ s.IsAtMost c m := by
  cases m with
  | uncertain => exact iff_of_true (le_uncertain _) trivial
  | pure => exact le_pure_iff.trans classify_ne_uncertain_iff
  | pureInit =>
      exact classify_le_pureInit_iff.trans (and_congr_left' classify_ne_uncertain_iff)
  | noPriv =>
      exact le_noPriv_iff.trans
        (classify_eq_noPriv_iff.trans (and_congr_left' classify_ne_uncertain_iff))

end Mode

/-- Each of the conditions is kept when there is less of everything. -/
theorem Snapshot.IsAtMost.of_isBelow {c : Capacity} {a b : Snapshot} {m : Mode}
    (hblocked : ∀ v, a.tuple.blocked.contains v = true → v < c.count) (h : a.IsBelow b)
    (hb : b.IsAtMost c m) : a.IsAtMost c m := by
  have hsecured (hb : b.isSecured = true ∧ b.tuple.ambient = ∅) :
      a.isSecured = true ∧ a.tuple.ambient = ∅ :=
    ⟨h.isSecured_eq.trans hb.1, Mask.eq_empty_of_isWithin h.ambient hb.2⟩
  cases m with
  | uncertain => exact trivial
  | pure => exact hsecured hb
  | pureInit => exact ⟨hsecured hb.1, Mask.eq_empty_of_isWithin (h.flag .inheritable) hb.2⟩
  | noPriv =>
      obtain ⟨hfirst, hflags, hb⟩ := hb
      refine ⟨hsecured hfirst, fun f => Mask.eq_empty_of_isWithin (h.flag f) (hflags f), ?_⟩
      -- Blocked is in `b` exactly what is supported, and in `a` nothing else can be blocked.
      rw [isBlocked_iff hblocked]
      rw [isBlocked, beq_iff_eq] at hb
      intro v hv
      refine (Mask.isWithin_iff _ _).mp h.blocked v ?_
      rw [hb, Mask.contains_below]
      exact decide_eq_true hv

namespace Mode

/-- As long as only supported values can be blocked, a process with less of everything is never in
a greater mode, and it has no privileges exactly if its secure bits are in place, nothing is
ambient or raised in a flag, and every supported value is blocked. -/
theorem classify_le_of_isBelow {c : Capacity} {a : Snapshot}
    (hblocked : ∀ v, a.tuple.blocked.contains v = true → v < c.count) :
    (∀ b : Snapshot, a.IsBelow b → classify c a ≤ classify c b) ∧
    (classify c a = noPriv ↔
      ((⟨0x2f⟩ : Secbits).isWithin a.secbits = true ∧
        (a.ambientSupported = true → a.secbits = ⟨0xef⟩)) ∧
      a.tuple.ambient = ∅ ∧ (∀ f, a.caps.flag f = ∅) ∧
      ∀ v < c.count, a.tuple.blocked.contains v = true) := by
  constructor
  · intro b h
    have hb : b.IsAtMost c (classify c b) := classify_le_iff.mp le_rfl
    exact classify_le_iff.mpr (hb.of_isBelow hblocked h)
  · rw [classify_eq_noPriv_iff, classify_ne_uncertain_iff, Snapshot.isSecured_iff,
      Snapshot.isBlocked_iff hblocked]
    exact and_assoc

/-- A secured process on a kernel whose last word is not full; the last supported value is all
that is left to it. -/
def nearlySpent : Snapshot :=
  ⟨⟨0xef⟩, true, CapSet.empty, ⟨∅, ∅, Mask.below 40⟩⟩

/-- The same process with inheritable values, some of which it may also use. -/
def lessSpent : Snapshot :=
  ⟨⟨0xef⟩, true, ⟨⟨0x1⟩, ⟨0x3⟩, ⟨0x80000002⟩, none⟩, ⟨⟨0x80000002⟩, ∅, Mask.below 33⟩⟩

theorem classify_le_of_isBelow_nearlySpent :
    (∀ v, nearlySpent.tuple.blocked.contains v = true → v < FileAttribute.usual.count) ∧
    nearlySpent.IsBelow lessSpent ∧
    classify FileAttribute.usual nearlySpent = pureInit ∧
    classify FileAttribute.usual lessSpent = pure ∧
    classify FileAttribute.usual nearlySpent ≤ classify FileAttribute.usual lessSpent := by
  have hblocked : ∀ v, nearlySpent.tuple.blocked.contains v = true →
      v < FileAttribute.usual.count := by
    intro v hv
    have hlt : v < 40 := by simpa [nearlySpent] using hv
    exact Nat.lt_succ_of_lt hlt
  have hbelow : nearlySpent.IsBelow lessSpent := by
    constructor
    · rfl
    · rfl
    · intro f
      cases f <;> decide
    · decide
    · decide
  exact ⟨hblocked, hbelow, by decide, by decide, (classify_le_of_isBelow hblocked).1 _ hbelow⟩

end Mode

end Capabilities
