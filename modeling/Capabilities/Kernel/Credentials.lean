import Capabilities.CapSet
import Capabilities.Secbits

/-!
# Credentials

What the kernel records about the privileges of a thread.
-/

namespace Capabilities

/-- The privileges of a thread. -/
structure Credentials where
  effective : Mask
  permitted : Mask
  inheritable : Mask
  ambient : Mask
  bounding : Mask
  secbits : Secbits
  uid : UserId
  gid : GroupId
  groups : List GroupId
deriving DecidableEq, Inhabited

namespace Credentials

/-- Whether the thread may use a capability now. -/
def has (cr : Credentials) (v : Value) : Bool := cr.effective.contains v

/-- The three flags as a set. -/
def holdings (cr : Credentials) : CapSet :=
  ⟨cr.effective, cr.permitted, cr.inheritable, none⟩

/-- Change the user. Unless the secure bits keep capabilities apart from users, leaving
user 0 lowers what is effective and ambient, and what is permitted as well if it is not
kept; becoming user 0 makes everything permitted effective. -/
def switchUser (cr : Credentials) (uid : UserId) : Credentials :=
  if cr.secbits.contains Secbits.noSetuidFixup then { cr with uid }
  else if cr.uid = 0 ∧ uid ≠ 0 then
    { cr with
      uid
      effective := ∅
      ambient := ∅
      permitted := if cr.secbits.contains Secbits.keepCaps then cr.permitted else ∅ }
  else if cr.uid ≠ 0 ∧ uid = 0 then { cr with uid, effective := cr.permitted }
  else { cr with uid }

section SwitchUser

variable (cr : Credentials) (uid : UserId)

@[simp] theorem uid_switchUser : (cr.switchUser uid).uid = uid := by
  unfold switchUser
  repeat' split
  all_goals rfl

@[simp] theorem inheritable_switchUser : (cr.switchUser uid).inheritable = cr.inheritable := by
  unfold switchUser
  repeat' split
  all_goals rfl

@[simp] theorem bounding_switchUser : (cr.switchUser uid).bounding = cr.bounding := by
  unfold switchUser
  repeat' split
  all_goals rfl

@[simp] theorem secbits_switchUser : (cr.switchUser uid).secbits = cr.secbits := by
  unfold switchUser
  repeat' split
  all_goals rfl

/-- Changing the user raises no ambient and no permitted value, and makes nothing effective
that is not permitted. -/
theorem switchUser_lowered {v : Value} :
    (cr.ambient.contains v = false → (cr.switchUser uid).ambient.contains v = false) ∧
      (cr.permitted.contains v = false → (cr.switchUser uid).permitted.contains v = false) ∧
      (cr.effective.contains v = false → cr.permitted.contains v = false →
        (cr.switchUser uid).effective.contains v = false) := by
  unfold switchUser
  split
  · exact ⟨id, id, fun he _ => he⟩
  · split
    · refine ⟨by simp, ?_, by simp⟩
      intro hp
      dsimp only
      split
      · exact hp
      · exact Mask.contains_empty v
    · split
      · exact ⟨id, id, fun _ hp => hp⟩
      · exact ⟨id, id, fun he _ => he⟩

end SwitchUser

end Credentials

end Capabilities
