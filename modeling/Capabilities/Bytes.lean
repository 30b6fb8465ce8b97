/-!
# Byte strings

Byte strings are lists of bytes. Numbers are stored with their lowest byte
first; `ofNat` writes a number in a given number of bytes and `toNat` reads
any byte string.
-/

namespace Capabilities

abbrev Bytes := List UInt8

namespace Bytes

/-- The number that a byte string denotes, lowest byte first. -/
def toNat : Bytes → Nat
  | [] => 0
  | b :: rest => b.toNat + 256 * toNat rest

/-- The lowest `count` bytes of a number, lowest first. -/
def ofNat : Nat → Nat → Bytes
  | 0, _ => []
  | count + 1, n => UInt8.ofNat n :: ofNat count (n / 256)

@[simp] theorem length_ofNat (count n : Nat) : (ofNat count n).length = count := by
  induction count generalizing n with
  | zero => rfl
  | succ count ih => simp [ofNat, ih]

/-- The four bytes of a word, lowest first. -/
def ofWord (word : BitVec 32) : Bytes := ofNat 4 word.toNat

/-- The byte string as 32-bit words, if it holds a whole number of them. -/
def words? : Bytes → Option (List Nat)
  | [] => some []
  | b₀ :: b₁ :: b₂ :: b₃ :: rest => (words? rest).map (toNat [b₀, b₁, b₂, b₃] :: ·)
  | _ => none

/-- The number in the four bytes from an offset on. -/
def numberAt (data : Bytes) (offset : Nat) : Nat := toNat ((data.drop offset).take 4)

/-- The word at an offset, if the byte string reaches to its end. -/
def word? (data : Bytes) (offset : Nat) : Option (BitVec 32) :=
  if offset + 4 ≤ data.length then some (BitVec.ofNat 32 (data.numberAt offset)) else none

/-- The hexadecimal digits of one byte. -/
def digits (b : UInt8) : List Char :=
  [Nat.digitChar (b.toNat / 16), Nat.digitChar (b.toNat % 16)]

def toHex (data : Bytes) : String :=
  String.ofList (data.flatMap digits)

end Bytes

end Capabilities
