import Capabilities.Bytes
import Capabilities.Kernel.Credentials
import Capabilities.Errno
import Capabilities.Table

/-!
# Files

The files that a process can name, each with its capability attribute if it has
one. The kernel stores attributes as byte strings and does not look into them.
-/

namespace Capabilities

/-- How a file is named: by its path or by an open descriptor. -/
inductive Target
  | path (text : String)
  | descriptor (number : Int)
deriving DecidableEq

namespace Target

/-- The refusal for a target that does not exist. -/
def missing : Target → Errno
  | path _ => .noSuchFile
  | descriptor _ => .badDescriptor

/-- Paths are handed over with a zero character at their end, so none may be inside. -/
def isValid : Target → Bool
  | path text => !text.toList.contains '\x00'
  | descriptor _ => true

def render : Target → String
  | path text => text
  | descriptor number => "fd " ++ toString number

end Target

/-- The existing files, each with its attribute or with none. -/
abbrev Files := Table Target (Option Bytes)

namespace Files

/-- Read the attribute of a file into a buffer of the given size. -/
def read (files : Files) (size : Nat) (target : Target) : Except Errno Bytes :=
  match files.find? target with
  | none => .error target.missing
  | some none => .error .noData
  | some (some data) => if size < data.length then .error .rangeExceeded else .ok data

/-- Give a file an attribute. -/
def write (files : Files) (cr : Credentials) (target : Target) (data : Bytes) :
    Except Errno Files :=
  match files.find? target with
  | none => .error target.missing
  | some _ =>
      if cr.has Value.setfcap then .ok (files.insert target (some data))
      else .error .notPermitted

/-- Take the attribute of a file away. -/
def remove (files : Files) (cr : Credentials) (target : Target) : Except Errno Files :=
  match files.find? target with
  | none => .error target.missing
  | some content =>
      if !cr.has Value.setfcap then .error .notPermitted
      else if content.isNone then .error .noData
      else .ok (files.insert target none)

end Files

end Capabilities
