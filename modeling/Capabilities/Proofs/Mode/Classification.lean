import Capabilities.Mode

/-!
# What the modes mean

The conditions under which a process is not uncertain, and under which it has
no privileges, one for each thing that the classification looks at.
-/

namespace Capabilities.Mode

variable {c : Capacity} {s : Snapshot}

/-- With secure bits in place and nothing ambient, what is held decides. -/
theorem classify_of_isSecured (hsecured : s.isSecured = true) (hambient : s.tuple.ambient = ∅) :
    classify c s =
      if !s.caps.inheritable.isEmpty then pure
      else if !s.caps.permitted.isEmpty || !s.caps.effective.isEmpty then pureInit
      else if !s.isBlocked c then pureInit
      else noPriv := by
  rw [← Mask.isEmpty_iff] at hambient
  simp [classify, hsecured, hambient]

/-- A process is uncertain unless its secure bits are in place and nothing is ambient. -/
theorem classify_ne_uncertain_iff :
    classify c s ≠ uncertain ↔ s.isSecured = true ∧ s.tuple.ambient = ∅ := by
  constructor
  · intro h
    rw [← Mask.isEmpty_iff]
    cases hsecured : s.isSecured with
    | false => simp [classify, hsecured] at h
    | true =>
        cases hambient : s.tuple.ambient.isEmpty with
        | false => simp [classify, hsecured, hambient] at h
        | true => exact ⟨rfl, rfl⟩
  · rintro ⟨hsecured, hambient⟩
    rw [classify_of_isSecured hsecured hambient]
    repeat' split
    all_goals simp

/-- A process without privileges is not uncertain, holds nothing in any flag, and has every
supported value blocked. -/
theorem classify_eq_noPriv_iff :
    classify c s = noPriv ↔
      classify c s ≠ uncertain ∧ (∀ f, s.caps.flag f = ∅) ∧ s.isBlocked c = true := by
  constructor
  · intro h
    have hcertain : classify c s ≠ uncertain := by simp [h]
    obtain ⟨hsecured, hambient⟩ := classify_ne_uncertain_iff.mp hcertain
    rw [classify_of_isSecured hsecured hambient] at h
    split at h
    next => cases h
    next hinheritable =>
      split at h
      next => cases h
      next hheld =>
        split at h
        next => cases h
        next hblocked =>
          simp only [Bool.not_eq_true', Bool.not_eq_false, Bool.or_eq_true, not_or,
            Mask.isEmpty_iff] at hinheritable hheld hblocked
          refine ⟨hcertain, ?_, hblocked⟩
          intro f
          cases f with
          | effective => exact hheld.2
          | permitted => exact hheld.1
          | inheritable => exact hinheritable
  · rintro ⟨hcertain, hflags, hblocked⟩
    obtain ⟨hsecured, hambient⟩ := classify_ne_uncertain_iff.mp hcertain
    have hempty (f : Flag) : (s.caps.flag f).isEmpty = true :=
      (Mask.isEmpty_iff _).mpr (hflags f)
    have hinheritable : s.caps.inheritable.isEmpty = true := hempty .inheritable
    have hpermitted : s.caps.permitted.isEmpty = true := hempty .permitted
    have heffective : s.caps.effective.isEmpty = true := hempty .effective
    rw [classify_of_isSecured hsecured hambient]
    simp [hinheritable, hpermitted, heffective, hblocked]

end Capabilities.Mode
