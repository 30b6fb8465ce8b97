import Capabilities.Capacity
import Capabilities.Fault

/-!
# Values as text

A value is written as its name, or in decimal if it has none. It is read from
either form, provided that the kernel supports it. The number of a value has 32
bits; read digit by digit into that many, a number is refused as soon as the digits
so far do not fit.
-/

namespace Capabilities.Value

def render (v : Value) : List Char :=
  match name? v with
  | some name => name.toList
  | none => Nat.toDigits 10 v

/-- The number written in decimal digits, of which there must be at least one. -/
def ofDigits? (cs : List Char) : Option Nat :=
  if !cs.isEmpty && cs.all Char.isDigit then some (Nat.ofDigitChars 10 cs 0) else none

/-- Read a name or a decimal number of a supported value. -/
def read? (c : Capacity) (cs : List Char) : Option Value :=
  ((ofName? cs).or (ofDigits? cs)).filter c.admits

/-- The value with a number, if it is supported. -/
def ofNumber (c : Capacity) (n : Nat) : Except Fault Value :=
  if c.admits n then .ok n else .error .badValue

def ofText (c : Capacity) (text : String) : Except Fault Value :=
  match read? c text.toList with
  | some v => .ok v
  | none => .error .badValue

/-- The value meant by a number in a command: a named value is a constant and exists
for every kernel, any other number must be supported. -/
def refer (c : Capacity) (n : Nat) : Except Fault Value :=
  if n < nameCount then .ok n else ofNumber c n

def toText (v : Value) : String := String.ofList v.render

/-- Append a decimal digit to a number, if 32 bits hold the result. -/
def appendDigit? (n : BitVec 32) (ch : Char) : Option (BitVec 32) :=
  let tenfold := n * 10#32
  let digit := BitVec.ofNat 32 (ch.toNat - '0'.toNat)
  if n.umulOverflow 10#32 then none
  else if tenfold.uaddOverflow digit then none
  else some (tenfold + digit)

/-- The number of 32 bits written in decimal digits, of which there must be at least one. -/
def wordOfDigits? (cs : List Char) : Option (BitVec 32) :=
  if !cs.isEmpty && cs.all Char.isDigit then cs.foldlM appendDigit? 0#32 else none

/-- Read a name or a decimal number of a supported value in 32 bits. -/
def readWord? (c : Capacity) (cs : List Char) : Option (BitVec 32) :=
  (((ofName? cs).map (BitVec.ofNat 32)).or (wordOfDigits? cs)).filter fun w => c.admits w.toNat

def wordOfText (c : Capacity) (text : String) : Except Fault (BitVec 32) :=
  match readWord? c text.toList with
  | some w => .ok w
  | none => .error .badValue

end Capabilities.Value
