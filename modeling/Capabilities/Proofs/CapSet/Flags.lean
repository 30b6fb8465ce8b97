import Capabilities.CapSet

/-!
# Sets seen through their flags

A set is given by its three flags and its owner. It fits a capacity when every
value that is raised in a flag is supported.
-/

namespace Capabilities.CapSet

theorem ext_flag {s t : CapSet} (hflag : ∀ f, s.flag f = t.flag f)
    (howner : s.owner = t.owner) : s = t := by
  obtain ⟨e, p, i, o⟩ := s
  obtain ⟨e', p', i', o'⟩ := t
  have he : e = e' := hflag .effective
  have hp : p = p' := hflag .permitted
  have hi : i = i' := hflag .inheritable
  have ho : o = o' := howner
  rw [he, hp, hi, ho]

/-- The set without its owner. -/
def unowned (s : CapSet) : CapSet := { s with owner := none }

@[simp] theorem flag_unowned (s : CapSet) (f : Flag) : s.unowned.flag f = s.flag f := by
  cases f <;> rfl

theorem contains_raised {s : CapSet} {v : Value} :
    s.raised.contains v = true ↔ ∃ f, (s.flag f).contains v = true := by
  rw [Flag.exists_iff, raised, Mask.contains_union, Mask.contains_union, Bool.or_eq_true,
    Bool.or_eq_true, or_assoc]
  rfl

theorem fits_iff {c : Capacity} {s : CapSet} :
    s.fits c = true ↔ ∀ f v, (s.flag f).contains v = true → v < c.count := by
  rw [fits, Mask.isWithin_iff]
  simp only [contains_raised, Mask.contains_below, decide_eq_true_eq]
  constructor
  · intro h f v hv
    exact h v ⟨f, hv⟩
  · rintro h v ⟨f, hv⟩
    exact h f v hv

theorem contains_of_fits {c : Capacity} {s : CapSet} {f : Flag} {v : Nat}
    (hs : s.fits c = true) (h : (s.flag f).contains v = true) : v < c.count :=
  fits_iff.mp hs f v h

@[simp] theorem fits_empty (c : Capacity) : empty.fits c = true := by
  simp [fits_iff]

theorem fits_withFlag {c : Capacity} {s : CapSet} (hs : s.fits c = true) {f : Flag} {m : Mask}
    (hm : ∀ v, m.contains v = true → v < c.count) : (s.withFlag f m).fits c = true := by
  rw [fits_iff] at hs ⊢
  intro g v hv
  rw [flag_withFlag] at hv
  split at hv
  next => exact hm v hv
  next => exact hs g v hv

theorem fits_clearFlag {c : Capacity} {s : CapSet} (hs : s.fits c = true) (f : Flag) :
    (s.clearFlag f).fits c = true :=
  fits_withFlag hs (by simp)

end Capabilities.CapSet
