import Capabilities.Mask

/-!
# Secure bits

Eight switches, four of them locks. A switch changes how the kernel treats the
privileged user; the lock that follows it keeps it from ever changing again.
-/

namespace Capabilities

/-- A mask of secure bits, by position. -/
abbrev Secbits := Mask

namespace Secbits

def noRoot : Nat := 0
def noRootLocked : Nat := 1
def noSetuidFixup : Nat := 2
def noSetuidFixupLocked : Nat := 3
def keepCaps : Nat := 4
def keepCapsLocked : Nat := 5
def noAmbientRaise : Nat := 6
def noAmbientRaiseLocked : Nat := 7

/-- The names of the bits. -/
def bitNames : List String :=
  ["NOROOT", "NOROOT_LOCKED", "NO_SETUID_FIXUP", "NO_SETUID_FIXUP_LOCKED", "KEEP_CAPS",
   "KEEP_CAPS_LOCKED", "NO_CAP_AMBIENT_RAISE", "NO_CAP_AMBIENT_RAISE_LOCKED"]

/-- The locks; each one guards the bit before it. -/
def locks : List Nat := [noRootLocked, noSetuidFixupLocked, keepCapsLocked, noAmbientRaiseLocked]

/-- All bits that have a meaning. -/
def known : Secbits := Mask.below 8

/-- The bits that have a meaning. -/
def truncate (bits : Secbits) : Secbits := bits ∩ known

/-- The bits of every secured process. -/
def secured : Secbits :=
  Mask.ofList [noRoot, noRootLocked, noSetuidFixup, noSetuidFixupLocked, keepCapsLocked]

/-- The bits of a secured process whose kernel has an ambient mask. -/
def securedAmbient : Secbits :=
  secured ∪ Mask.ofList [noAmbientRaise, noAmbientRaiseLocked]

/-- Whether the locks that are set in `old` admit a change to `new`. -/
def admitsChange (old new : Secbits) : Bool :=
  locks.all fun lock =>
    !old.contains lock ||
      (new.contains lock && new.contains (lock - 1) == old.contains (lock - 1))

theorem secured_bits : secured.bits = 0x2f := by decide

theorem securedAmbient_bits : securedAmbient.bits = 0xef := by decide

end Secbits

end Capabilities
