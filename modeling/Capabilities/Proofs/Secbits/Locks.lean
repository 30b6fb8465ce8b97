import Capabilities.Secbits

/-!
# What the locks keep

A lock that is set keeps itself and the bit before it through every change that
the locks admit. The bits of secured processes keep themselves in this way, and
those with an ambient mask keep every bit that has a meaning.
-/

namespace Capabilities.Secbits

/-- Whether the locks in one mask keep every bit of another one. -/
def guards (bits scope : Secbits) : Bool :=
  (List.range 8).all fun v => !scope.contains v ||
    locks.any fun lock => bits.contains lock && (v == lock || v + 1 == lock)

theorem guards_secured : guards secured secured = true := by decide

theorem guards_securedAmbient : guards securedAmbient known = true := by decide

theorem known_of_secured {v : Nat} (h : secured.contains v = true) : known.contains v = true := by
  have hwithin : secured.isWithin known = true := by decide
  exact (Mask.isWithin_iff _ _).mp hwithin v h

theorem contains_truncate {bits : Secbits} {v : Nat} (h : known.contains v = true) :
    (truncate bits).contains v = bits.contains v := by
  rw [truncate, Mask.contains_inter, h, Bool.and_true]

/-- A lock that is set stays set and keeps the bit that it guards. -/
theorem contains_of_admitsChange {old new : Secbits} (h : old.admitsChange new = true)
    {lock v : Nat} (hlock : lock ∈ locks) (hset : old.contains lock = true)
    (hv : v = lock ∨ v + 1 = lock) : new.contains v = old.contains v := by
  have hkept := List.all_eq_true.mp h lock hlock
  simp only [hset, Bool.not_true, Bool.false_or, Bool.and_eq_true, beq_iff_eq] at hkept
  obtain ⟨hnew, hguarded⟩ := hkept
  rcases hv with rfl | rfl
  · rw [hset, hnew]
  · exact hguarded

/-- No change that the locks admit touches a bit that they guard. -/
theorem contains_of_guards {bits scope old new : Secbits} (hguards : guards bits scope = true)
    (hset : ∀ lock, bits.contains lock = true → old.contains lock = true)
    (hadmits : old.admitsChange new = true) {v : Nat} (hknown : known.contains v = true)
    (hv : scope.contains v = true) : new.contains v = old.contains v := by
  have hlt : v ∈ List.range 8 := by simpa [known] using hknown
  have hlocked := List.all_eq_true.mp hguards v hlt
  rw [hv, Bool.not_true, Bool.false_or, List.any_eq_true] at hlocked
  obtain ⟨lock, hlock, hguarded⟩ := hlocked
  simp only [Bool.and_eq_true, Bool.or_eq_true, beq_iff_eq] at hguarded
  exact contains_of_admitsChange hadmits hlock (hset lock hguarded.1) hguarded.2

end Capabilities.Secbits
