import Capabilities.Errno

/-!
# Faults

Why an operation on capability state was refused: a kernel error number, or
one of four complaints about the input. A fault has a message for people and
a structured form, and it can be passed on as a general system error and
taken back from one.
-/

namespace Capabilities

/-- The reason of a refusal. -/
inductive Fault
  | os (errno : Errno)
  | badValue
  | badText
  | badPayload
  | badMode
deriving DecidableEq

namespace Fault

/-- The error number, if the kernel gave one. -/
def errno? : Fault → Option Errno
  | .os e => some e
  | _ => none

/-- The wording of the cause, without an error number. -/
def wording : Fault → String
  | .os e => e.wording
  | .badValue => "bad capability value"
  | .badText => "bad capability text"
  | .badPayload => "bad capability payload"
  | .badMode => "unsupported mode"

/-- The message shown to people: the wording, then the error number if there is one. -/
def message (f : Fault) : String :=
  match f.errno? with
  | some e => f.wording ++ " (code " ++ toString e.code ++ ")"
  | none => f.wording

/-- The structured form: the fields that are present, by name. -/
def structured (f : Fault) : String :=
  let code := match f.errno? with
    | some e => "code: " ++ toString e.code ++ ", "
    | none => ""
  "Error \x7b " ++ code ++ "message: \"" ++ f.wording ++ "\" \x7d"

end Fault

/-- An error of the surrounding system: perhaps an error number, and a category. -/
structure SystemError where
  errno : Option Errno
  category : String
deriving DecidableEq

namespace SystemError

/-- A fault without an error number keeps only its category: payloads are invalid
data, everything else is invalid input. -/
def ofFault : Fault → SystemError
  | .os e => ⟨some e, e.category⟩
  | .badPayload => ⟨none, "InvalidData"⟩
  | _ => ⟨none, "InvalidInput"⟩

/-- A system error without an error number counts as an input/output error. -/
def toFault (e : SystemError) : Fault :=
  .os (e.errno.getD Errno.inputOutput)

end SystemError

end Capabilities
