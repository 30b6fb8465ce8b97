import Capabilities.CapSet

/-!
# Kernel calls

The calls that concern credentials, and the kinds of all calls: those and the
ones that inspect a process or work on the attribute of a file.
-/

namespace Capabilities

/-- A call that reads or changes the credentials of a thread. -/
inductive Call
  | capset (effective permitted inheritable : Mask)
  | readBounding (v : Nat)
  | dropBounding (v : Nat)
  | readAmbient (v : Nat)
  | raiseAmbient (v : Nat)
  | lowerAmbient (v : Nat)
  | clearAmbient
  | getKeepCaps
  | setKeepCaps (n : Nat)
  | getSecbits
  | setSecbits (bits : Mask)
  | setUid (uid : UserId)
  | setGid (gid : GroupId)
  | setGroups (groups : List GroupId)
  /-- A control request with an option that the kernel does not know. -/
  | unknown
deriving DecidableEq

namespace Call

/-- The kinds of calls that are counted and that can be made to fail. -/
inductive Kind
  | inspect
  | capset
  | readBounding
  | dropBounding
  | readAmbient
  | raiseAmbient
  | lowerAmbient
  | clearAmbient
  | getKeepCaps
  | setKeepCaps
  | getSecbits
  | setSecbits
  | setUid
  | setGid
  | setGroups
  | readAttribute
  | writeAttribute
  | removeAttribute
deriving DecidableEq

namespace Kind

def all : List Kind :=
  [inspect, capset, readBounding, dropBounding, readAmbient, raiseAmbient, lowerAmbient,
   clearAmbient, getKeepCaps, setKeepCaps, getSecbits, setSecbits, setUid, setGid, setGroups,
   readAttribute, writeAttribute, removeAttribute]

/-- The name of the call in traces. -/
def name : Kind → String
  | inspect => "capget"
  | capset => "capset"
  | readBounding => "capbset_read"
  | dropBounding => "capbset_drop"
  | readAmbient => "ambient_is_set"
  | raiseAmbient => "ambient_raise"
  | lowerAmbient => "ambient_lower"
  | clearAmbient => "ambient_clear"
  | getKeepCaps => "get_keepcaps"
  | setKeepCaps => "set_keepcaps"
  | getSecbits => "get_securebits"
  | setSecbits => "set_securebits"
  | setUid => "setuid"
  | setGid => "setgid"
  | setGroups => "setgroups"
  | readAttribute => "getxattr"
  | writeAttribute => "setxattr"
  | removeAttribute => "removexattr"

def ofName? (text : String) : Option Kind := all.find? fun kind => kind.name == text

end Kind

/-- The kind of a call; an unknown request has none. -/
def kind? : Call → Option Kind
  | capset .. => some .capset
  | readBounding _ => some .readBounding
  | dropBounding _ => some .dropBounding
  | readAmbient _ => some .readAmbient
  | raiseAmbient _ => some .raiseAmbient
  | lowerAmbient _ => some .lowerAmbient
  | clearAmbient => some .clearAmbient
  | getKeepCaps => some .getKeepCaps
  | setKeepCaps _ => some .setKeepCaps
  | getSecbits => some .getSecbits
  | setSecbits _ => some .setSecbits
  | setUid _ => some .setUid
  | setGid _ => some .setGid
  | setGroups _ => some .setGroups
  | unknown => none

/-- The number by which a failure can single out a call among those of its kind. -/
def argument : Call → Int
  | readBounding v | dropBounding v => v
  | readAmbient v | raiseAmbient v | lowerAmbient v => v
  | setKeepCaps n => n
  | setSecbits bits => bits.bits
  | setUid uid => uid.toNat
  | setGid gid => gid.toNat
  | setGroups groups => groups.length
  | _ => 0

/-- The trace line of a call that changes something. -/
def render? : Call → Option String
  | capset e p i =>
      some ("capset e=" ++ e.toHex ++ " p=" ++ p.toHex ++ " i=" ++ i.toHex)
  | dropBounding v => some ("capbset_drop " ++ toString v)
  | raiseAmbient v => some ("ambient_raise " ++ toString v)
  | lowerAmbient v => some ("ambient_lower " ++ toString v)
  | clearAmbient => some "ambient_clear"
  | setKeepCaps n => some ("set_keepcaps " ++ toString n)
  | setSecbits bits => some ("set_securebits " ++ bits.toHex)
  | setUid uid => some ("setuid " ++ toString uid.toNat)
  | setGid gid => some ("setgid " ++ toString gid.toNat)
  | setGroups groups =>
      some ("setgroups [" ++ ", ".intercalate (groups.map fun gid => toString gid.toNat) ++ "]")
  | _ => none

/-- The call made by a control request with the given option and operands, which are
taken as unsigned words. -/
def ofControl (option first second : Int) : Call :=
  let first := (first % 0x10000000000000000).toNat
  let second := (second % 0x10000000000000000).toNat
  match option with
  | 7 => getKeepCaps
  | 8 => setKeepCaps first
  | 23 => readBounding first
  | 24 => dropBounding first
  | 27 => getSecbits
  | 28 => setSecbits ⟨first⟩
  | 47 =>
      match first with
      | 1 => readAmbient second
      | 2 => raiseAmbient second
      | 3 => lowerAmbient second
      | 4 => clearAmbient
      | _ => unknown
  | _ => unknown

end Call

end Capabilities
