import Capabilities.Capacity
import Capabilities.Kernel.Credentials
import Capabilities.Kernel.Failure

/-!
# The kernel

A kernel is described by what it supports and by a script of failures, neither
of which ever changes. `respond` is its rule for a call of one thread, and
`perform` makes a thread attempt a call.
-/

namespace Capabilities

/-- What a kernel supports, what it knows about other processes, and its script. -/
structure Kernel where
  /-- The number of its interface generation. -/
  version : Nat
  /-- How many values it knows. -/
  valueCount : Nat
  boundingSupported : Bool
  ambientSupported : Bool
  processes : List (Int × CapSet)
  script : FailureScript

/-- A thread: its number, its credentials, and the kinds of the calls it has attempted,
the latest first. -/
structure Thread where
  index : Nat
  credentials : Credentials
  attempts : List Call.Kind

namespace Kernel

/-- A vector of the kernel has this many bits. -/
def width : Nat := 64

/-- The most supplementary groups that a thread can have. -/
def maxGroups : Nat := 32

def knows (k : Kernel) (v : Nat) : Bool := decide (v < k.valueCount) && decide (v < width)

/-- Whether the bounding mask can be asked about a value. -/
def bounds (k : Kernel) (v : Nat) : Bool := k.boundingSupported && k.knows v

/-- Whether the ambient mask can be asked about a value. -/
def ambients (k : Kernel) (v : Nat) : Bool := k.ambientSupported && k.knows v

/-- What a process discovers about the kernel when it starts. -/
def capacity (k : Kernel) : Capacity := Capacity.ofProbe (Abi.ofCode k.version) k.bounds

/-- Whether a thread may replace its flags by the given ones. -/
def admitsFlags (cr : Credentials) (e p i : Mask) : Bool :=
  (cr.has Value.setpcap || i.isWithin (cr.inheritable ∪ cr.permitted)) &&
    i.isWithin (cr.inheritable ∪ cr.bounding) && p.isWithin cr.permitted && e.isWithin p

/-- Whether a thread may replace its secure bits by the given ones. -/
def admitsSecbits (cr : Credentials) (bits : Secbits) : Bool :=
  cr.has Value.setpcap && bits.isWithin Secbits.known && cr.secbits.admitsChange bits

/-- Whether a thread may raise an ambient value. -/
def admitsAmbient (cr : Credentials) (v : Nat) : Bool :=
  cr.permitted.contains v && cr.inheritable.contains v &&
    !cr.secbits.contains Secbits.noAmbientRaise

/-- The kernel's answer to a call: a number and the new credentials, or a refusal. -/
def respond (k : Kernel) (cr : Credentials) : Call → Except Errno (Nat × Credentials)
  | .capset e p i =>
      if admitsFlags cr e p i then
        .ok (0, { cr with
          effective := e, permitted := p, inheritable := i, ambient := cr.ambient ∩ (p ∩ i) })
      else .error .notPermitted
  | .readBounding v =>
      if k.bounds v then .ok ((cr.bounding.contains v).toNat, cr) else .error .invalidArgument
  | .dropBounding v =>
      if !cr.has Value.setpcap then .error .notPermitted
      else if k.bounds v then .ok (0, { cr with bounding := cr.bounding \ Mask.single v })
      else .error .invalidArgument
  | .readAmbient v =>
      if k.ambients v then .ok ((cr.ambient.contains v).toNat, cr) else .error .invalidArgument
  | .raiseAmbient v =>
      if !k.ambients v then .error .invalidArgument
      else if admitsAmbient cr v then
        .ok (0, { cr with ambient := cr.ambient ∪ Mask.single v })
      else .error .notPermitted
  | .lowerAmbient v =>
      if k.ambients v then .ok (0, { cr with ambient := cr.ambient \ Mask.single v })
      else .error .invalidArgument
  | .clearAmbient =>
      if k.ambientSupported then .ok (0, { cr with ambient := ∅ }) else .error .invalidArgument
  | .getKeepCaps => .ok ((cr.secbits.contains Secbits.keepCaps).toNat, cr)
  | .setKeepCaps n =>
      if 1 < n then .error .invalidArgument
      else if cr.secbits.contains Secbits.keepCapsLocked then .error .notPermitted
      else
        let bit := Mask.single Secbits.keepCaps
        .ok (0, { cr with secbits := if n = 1 then cr.secbits ∪ bit else cr.secbits \ bit })
  | .getSecbits => .ok (cr.secbits.bits, cr)
  | .setSecbits bits =>
      if admitsSecbits cr bits then .ok (0, { cr with secbits := bits })
      else .error .notPermitted
  | .setUid uid =>
      if cr.has Value.setuid || uid = cr.uid then .ok (0, cr.switchUser uid)
      else .error .notPermitted
  | .setGid gid =>
      if cr.has Value.setgid || gid = cr.gid then .ok (0, { cr with gid })
      else .error .notPermitted
  | .setGroups groups =>
      if !cr.has Value.setgid then .error .notPermitted
      else if maxGroups < groups.length then .error .invalidArgument
      else .ok (0, { cr with groups })
  | .unknown => .error .invalidArgument

/-- The flags of the process with a number, where zero stands for the caller. -/
def inspect (k : Kernel) (cr : Credentials) (pid : Int) : Except Errno CapSet :=
  if pid = 0 then .ok cr.holdings
  else if pid < 0 then .error .invalidArgument
  else
    match k.processes.lookup pid with
    | some s => .ok s
    | none => .error .noSuchProcess

/-- Count an attempt of a thread, and let the script or else the given rule decide it. -/
def attempt {α : Type} (k : Kernel) (t : Thread) (kind : Call.Kind) (argument : Int)
    (rule : Except Errno α) : Except Errno α × Thread :=
  let attempts := kind :: t.attempts
  let outcome :=
    match k.script.errno? kind argument t.index attempts with
    | some e => .error e
    | none => rule
  (outcome, { t with attempts })

/-- Let a thread attempt a call. A refused call leaves its credentials as they were. -/
def perform (k : Kernel) (call : Call) (t : Thread) : Except Errno Nat × Thread :=
  match call.kind? with
  | none => (.error .invalidArgument, t)
  | some kind =>
      match k.attempt t kind call.argument (k.respond t.credentials call) with
      | (.ok (n, credentials), t') => (.ok n, { t' with credentials })
      | (.error e, t') => (.error e, t')

end Kernel

end Capabilities
