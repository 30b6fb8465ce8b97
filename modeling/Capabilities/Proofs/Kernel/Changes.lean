import Capabilities.Kernel

/-!
# What an answered call changes

The credentials after a call that is not refused, each with the condition under
which the kernel grants the change. Whatever holds of all these changes holds of
every call.
-/

namespace Capabilities.Kernel

/-- The changes that the kernel makes to the credentials of a thread. -/
inductive Changes (k : Kernel) (cr : Credentials) : Credentials → Prop
  | nothing : Changes k cr cr
  | flags {e p i : Mask} (h : admitsFlags cr e p i = true) :
      Changes k cr { cr with
        effective := e, permitted := p, inheritable := i, ambient := cr.ambient ∩ (p ∩ i) }
  | dropBounding {v : Nat} (hv : k.bounds v = true) (h : cr.has Value.setpcap = true) :
      Changes k cr { cr with bounding := cr.bounding \ Mask.single v }
  | raiseAmbient {v : Nat} (hv : k.ambients v = true) (h : admitsAmbient cr v = true) :
      Changes k cr { cr with ambient := cr.ambient ∪ Mask.single v }
  | lowerAmbient {v : Nat} (hv : k.ambients v = true) :
      Changes k cr { cr with ambient := cr.ambient \ Mask.single v }
  | clearAmbient (h : k.ambientSupported = true) : Changes k cr { cr with ambient := ∅ }
  | keepCaps (secbits : Secbits) (h : cr.secbits.contains Secbits.keepCapsLocked = false)
      (hsame : ∀ v, v ≠ Secbits.keepCaps → secbits.contains v = cr.secbits.contains v) :
      Changes k cr { cr with secbits }
  | secbits {bits : Secbits} (h : admitsSecbits cr bits = true) :
      Changes k cr { cr with secbits := bits }
  | user {uid : UserId} (h : cr.has Value.setuid = true ∨ uid = cr.uid) :
      Changes k cr (cr.switchUser uid)
  | group {gid : GroupId} (h : cr.has Value.setgid = true ∨ gid = cr.gid) :
      Changes k cr { cr with gid }
  | groups {groups : List GroupId} (h : cr.has Value.setgid = true)
      (hlength : groups.length ≤ maxGroups) : Changes k cr { cr with groups }

/-- An answer that is given under a condition. -/
theorem of_ite_eq_ok {granted : Prop} [Decidable granted] {m n : Nat} {cr cr' : Credentials}
    {e : Errno} (h : (if granted then .ok (m, cr) else .error e) = Except.ok (n, cr')) :
    granted ∧ cr' = cr ∧ n = m := by
  split at h
  · next hgranted =>
      cases h
      exact ⟨hgranted, rfl, rfl⟩
  · cases h

/-- An answer that is given unless a check refuses it. -/
theorem of_ite_error_eq_ok {refused : Prop} [Decidable refused] {α : Type} {e : Errno}
    {answer : Except Errno α} {a : α}
    (h : (if refused then .error e else answer) = .ok a) : ¬ refused ∧ answer = .ok a := by
  split at h
  · cases h
  · next hrefused => exact ⟨hrefused, h⟩

theorem changes_of_respond {k : Kernel} {cr cr' : Credentials} {call : Call} {n : Nat}
    (h : k.respond cr call = .ok (n, cr')) : k.Changes cr cr' := by
  cases call with
  | capset e p i =>
      obtain ⟨hgranted, rfl, -⟩ := of_ite_eq_ok h
      exact .flags hgranted
  | readBounding v =>
      obtain ⟨-, rfl, -⟩ := of_ite_eq_ok h
      exact .nothing
  | dropBounding v =>
      obtain ⟨hhas, h⟩ := of_ite_error_eq_ok h
      obtain ⟨hv, rfl, -⟩ := of_ite_eq_ok h
      exact .dropBounding hv (by simpa using hhas)
  | readAmbient v =>
      obtain ⟨-, rfl, -⟩ := of_ite_eq_ok h
      exact .nothing
  | raiseAmbient v =>
      obtain ⟨hv, h⟩ := of_ite_error_eq_ok h
      obtain ⟨hgranted, rfl, -⟩ := of_ite_eq_ok h
      exact .raiseAmbient (by simpa using hv) hgranted
  | lowerAmbient v =>
      obtain ⟨hv, rfl, -⟩ := of_ite_eq_ok h
      exact .lowerAmbient hv
  | clearAmbient =>
      obtain ⟨hsupported, rfl, -⟩ := of_ite_eq_ok h
      exact .clearAmbient hsupported
  | getKeepCaps =>
      cases h
      exact .nothing
  | setKeepCaps m =>
      obtain ⟨-, h⟩ := of_ite_error_eq_ok h
      obtain ⟨hlock, h⟩ := of_ite_error_eq_ok h
      cases h
      refine .keepCaps _ (by simpa using hlock) fun v hv => ?_
      have hne : ¬ Secbits.keepCaps = v := fun heq => hv heq.symm
      split <;> simp [hne]
  | getSecbits =>
      cases h
      exact .nothing
  | setSecbits bits =>
      obtain ⟨hgranted, rfl, -⟩ := of_ite_eq_ok h
      exact .secbits hgranted
  | setUid uid =>
      obtain ⟨hgranted, rfl, -⟩ := of_ite_eq_ok h
      exact .user (by simpa using hgranted)
  | setGid gid =>
      obtain ⟨hgranted, rfl, -⟩ := of_ite_eq_ok h
      exact .group (by simpa using hgranted)
  | setGroups groups =>
      obtain ⟨hhas, h⟩ := of_ite_error_eq_ok h
      obtain ⟨hlength, h⟩ := of_ite_error_eq_ok h
      cases h
      exact .groups (by simpa using hhas) (Nat.le_of_not_lt hlength)
  | unknown => cases h

end Capabilities.Kernel
