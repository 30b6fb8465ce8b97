/-!
# Error numbers

The numbers by which the kernel names the reason of a refused call, with the
wording of each and the category it falls into when it is passed on as a
general input/output error.
-/

namespace Capabilities

/-- A kernel error number; zero stands for success. -/
structure Errno where
  code : Int
deriving DecidableEq, Inhabited

namespace Errno

def success : Errno := ⟨0⟩
def notPermitted : Errno := ⟨1⟩
def noSuchFile : Errno := ⟨2⟩
def noSuchProcess : Errno := ⟨3⟩
def inputOutput : Errno := ⟨5⟩
def badDescriptor : Errno := ⟨9⟩
def invalidArgument : Errno := ⟨22⟩
def rangeExceeded : Errno := ⟨34⟩
def noData : Errno := ⟨61⟩

/-- One row of the table of known error numbers. -/
structure Entry where
  code : Int
  wording : String
  category : String

def table : List Entry :=
  [⟨1, "Operation not permitted", "PermissionDenied"⟩,
   ⟨2, "No such file or directory", "NotFound"⟩,
   ⟨3, "No such process", "Uncategorized"⟩,
   ⟨4, "Interrupted system call", "Interrupted"⟩,
   ⟨5, "Input/output error", "InputOutputError"⟩,
   ⟨9, "Bad file descriptor", "Uncategorized"⟩,
   ⟨11, "Resource temporarily unavailable", "WouldBlock"⟩,
   ⟨12, "Cannot allocate memory", "OutOfMemory"⟩,
   ⟨13, "Permission denied", "PermissionDenied"⟩,
   ⟨16, "Device or resource busy", "ResourceBusy"⟩,
   ⟨17, "File exists", "AlreadyExists"⟩,
   ⟨21, "Is a directory", "IsADirectory"⟩,
   ⟨22, "Invalid argument", "InvalidInput"⟩,
   ⟨28, "No space left on device", "StorageFull"⟩,
   ⟨30, "Read-only file system", "ReadOnlyFilesystem"⟩,
   ⟨34, "Numerical result out of range", "Uncategorized"⟩,
   ⟨38, "Function not implemented", "Unsupported"⟩,
   ⟨61, "No data available", "Uncategorized"⟩,
   ⟨95, "Operation not supported", "Unsupported"⟩]

def entry? (e : Errno) : Option Entry :=
  table.find? fun row => row.code = e.code

/-- The wording of an error number; a number without an entry is shown itself. -/
def wording (e : Errno) : String :=
  match e.entry? with
  | some row => row.wording
  | none => "Unknown error " ++ toString e.code

def category (e : Errno) : String :=
  match e.entry? with
  | some row => row.category
  | none => "Uncategorized"

/-- The error number of a call's outcome, zero for a call that succeeded. -/
def ofOutcome {α : Type} : Except Errno α → Errno
  | .ok _ => success
  | .error e => e

end Errno

end Capabilities
