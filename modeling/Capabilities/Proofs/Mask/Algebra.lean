import Capabilities.Mask

/-!
# Masks as sets

How inclusion goes with the operations on masks, and how a mask changes when a
list of numbers is taken out of it or put into it one by one. The width lies beyond
every number of a mask, and no smaller bound does.
-/

namespace Capabilities.Mask

variable {a b c : Mask} {v : Nat}

theorem ne_iff : a ≠ b ↔ ∃ v, a.contains v ≠ b.contains v := by
  rw [ne_eq, Mask.ext_iff, Classical.not_forall]

@[simp] theorem isWithin_refl (m : Mask) : m.isWithin m = true :=
  (isWithin_iff m m).mpr fun _ hv => hv

@[simp] theorem empty_isWithin (m : Mask) : (∅ : Mask).isWithin m = true :=
  (isWithin_iff ∅ m).mpr (by simp)

theorem eq_empty_of_isWithin (h : a.isWithin b = true) (hb : b = ∅) : a = ∅ := by
  subst hb
  apply Mask.ext
  intro v
  rw [contains_empty]
  exact contains_eq_false_of_isWithin h (contains_empty v)

theorem isWithin_union_left (h : a.isWithin b = true) (c : Mask) :
    a.isWithin (b ∪ c) = true := by
  rw [isWithin_iff] at h ⊢
  intro v hv
  rw [contains_union, h v hv, Bool.true_or]

@[simp] theorem single_isWithin (v : Nat) (m : Mask) :
    (single v).isWithin m = m.contains v := by
  rw [Bool.eq_iff_iff, isWithin_iff]
  simp

theorem union_isWithin (a b c : Mask) :
    (a ∪ b).isWithin c = (a.isWithin c && b.isWithin c) := by
  rw [Bool.eq_iff_iff, Bool.and_eq_true]
  simp only [isWithin_iff, contains_union, Bool.or_eq_true]
  constructor
  · intro h
    exact ⟨fun v hv => h v (.inl hv), fun v hv => h v (.inr hv)⟩
  · rintro ⟨ha, hb⟩ v (hv | hv)
    · exact ha v hv
    · exact hb v hv

@[simp] theorem empty_inter (m : Mask) : ∅ ∩ m = ∅ := Mask.ext (by simp)

@[simp] theorem inter_empty (m : Mask) : m ∩ ∅ = ∅ := Mask.ext (by simp)

@[simp] theorem empty_sdiff (m : Mask) : ∅ \ m = ∅ := Mask.ext (by simp)

/-- Of a mask that is within another one, that one takes away nothing. -/
theorem inter_eq_left (h : a.isWithin b = true) : a ∩ b = a := by
  rw [isWithin_iff] at h
  apply Mask.ext
  intro v
  cases hv : a.contains v with
  | false => simp [hv]
  | true => simp [hv, h v hv]

theorem sdiff_eq_left (h : ∀ v, b.contains v = true → a.contains v = false) : a \ b = a := by
  apply Mask.ext
  intro v
  cases hv : b.contains v with
  | false => simp [hv]
  | true => simp [hv, h v hv]

theorem sdiff_eq_empty (h : a.isWithin b = true) : a \ b = ∅ := (isEmpty_iff _).mp h

theorem union_eq_left (h : b.isWithin a = true) : a ∪ b = a := by
  rw [isWithin_iff] at h
  apply Mask.ext
  intro v
  cases hv : b.contains v with
  | false => simp [hv]
  | true => simp [hv, h v hv]

@[simp] theorem sdiff_empty (m : Mask) : m \ ∅ = m := Mask.ext (by simp)

@[simp] theorem union_empty (m : Mask) : m ∪ ∅ = m := Mask.ext (by simp)

@[simp] theorem empty_union (m : Mask) : ∅ ∪ m = m := Mask.ext (by simp)

theorem single_inter (v : Nat) (m : Mask) :
    single v ∩ m = if m.contains v then single v else ∅ := by
  split
  next hv => exact inter_eq_left (by rw [single_isWithin, hv])
  next hv =>
    apply Mask.ext
    intro u
    by_cases huv : v = u
    · subst huv
      simp [hv]
    · simp [huv]

theorem single_sdiff (v : Nat) (m : Mask) :
    single v \ m = if m.contains v then ∅ else single v := by
  split
  next hv => exact sdiff_eq_empty (by rw [single_isWithin, hv])
  next hv =>
    apply sdiff_eq_left
    intro u hu
    rw [contains_single, decide_eq_false_iff_not]
    rintro rfl
    exact hv hu

theorem sdiff_single (hv : a.contains v = false) : a \ single v = a := by
  apply sdiff_eq_left
  intro u hu
  rw [contains_single, decide_eq_true_eq] at hu
  rw [← hu, hv]

theorem sdiff_single_eq_iff : a \ single v = a ↔ a.contains v = false := by
  refine ⟨fun h => ?_, sdiff_single⟩
  rw [← h]
  simp

@[simp] theorem ofList_nil : ofList [] = ∅ := rfl

theorem ofList_cons (v : Nat) (vs : List Nat) : ofList (v :: vs) = single v ∪ ofList vs :=
  Mask.ext (by simp [eq_comm])

theorem sdiff_union (a b c : Mask) : a \ (b ∪ c) = (a \ b) \ c :=
  Mask.ext (by simp [Bool.and_assoc])

theorem union_sdiff (a b c : Mask) : (a ∪ b) \ c = a \ c ∪ b \ c :=
  Mask.ext (by simp [Bool.and_or_distrib_right])

theorem union_inter (a b c : Mask) : (a ∪ b) ∩ c = a ∩ c ∪ b ∩ c :=
  Mask.ext (by simp [Bool.and_or_distrib_right])

theorem union_assoc (a b c : Mask) : a ∪ b ∪ c = a ∪ (b ∪ c) :=
  Mask.ext (by simp [Bool.or_assoc])

theorem lt_width {m : Mask} {v : Nat} (h : m.contains v = true) : v < m.width := by
  have hne : m.isEmpty = false := (isEmpty_eq_false_iff m).mpr ⟨v, h⟩
  rw [width, if_neg (by simp [hne])]
  have hpow : 2 ^ v < 2 ^ (m.bits.log2 + 1) :=
    calc
      2 ^ v ≤ m.bits := Nat.ge_two_pow_of_testBit h
      _ < 2 ^ (m.bits.log2 + 1) := Nat.lt_log2_self
  exact (Nat.pow_lt_pow_iff_right (by decide)).mp hpow

theorem width_le {m : Mask} {bound : Nat} (h : ∀ v, m.contains v = true → v < bound) :
    m.width ≤ bound := by
  rw [width]
  split
  next => exact Nat.zero_le _
  next hne =>
    have hbits : m.bits ≠ 0 := by simpa [isEmpty] using hne
    exact h m.bits.log2 (Nat.testBit_log2 hbits)

end Capabilities.Mask
