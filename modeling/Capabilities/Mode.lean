import Capabilities.Inheritance
import Capabilities.Secbits

/-!
# Modes

A mode summarizes how much a process can still do. It is uncertain unless the
secure bits take all special privileges from the privileged user, for good, and
no ambient value is raised; the other three modes tell whether values can be
handed on, are merely held, or are gone without any way back.
-/

namespace Capabilities

/-- A summary of the privileges of a process. -/
inductive Mode
  | uncertain
  | noPriv
  | pureInit
  | pure
deriving DecidableEq

/-- Everything that the classification of a process looks at. -/
structure Snapshot where
  secbits : Secbits
  ambientSupported : Bool
  caps : CapSet
  tuple : Inheritance
deriving DecidableEq

namespace Snapshot

/-- Whether the secure bits leave no special privileges to the privileged user. -/
def isSecured (s : Snapshot) : Bool :=
  Secbits.secured.isWithin s.secbits &&
    (!s.ambientSupported || s.secbits == Secbits.securedAmbient)

/-- Whether every supported value, and no other, is blocked. -/
def isBlocked (c : Capacity) (s : Snapshot) : Bool :=
  s.tuple.blocked == Mask.below c.count

end Snapshot

namespace Mode

def all : List Mode := [uncertain, noPriv, pureInit, pure]

/-- The name of the mode in texts. -/
def name : Mode → String
  | uncertain => "UNCERTAIN"
  | noPriv => "NOPRIV"
  | pureInit => "PURE1E_INIT"
  | pure => "PURE1E"

/-- The name of the mode as a tag. -/
def tag : Mode → String
  | uncertain => "Uncertain"
  | noPriv => "NoPriv"
  | pureInit => "Pure1EInit"
  | pure => "Pure1E"

/-- The mode of a process. -/
def classify (c : Capacity) (s : Snapshot) : Mode :=
  if !s.isSecured then uncertain
  else if !s.tuple.ambient.isEmpty then uncertain
  else if !s.caps.inheritable.isEmpty then pure
  else if !s.caps.permitted.isEmpty || !s.caps.effective.isEmpty then pureInit
  else if !s.isBlocked c then pureInit
  else noPriv

end Mode

end Capabilities
