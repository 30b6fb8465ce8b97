/-!
# Masks

A mask is a finite set of numbers, packed as the bits of one number. Every
operation is described by what it does to `contains`; two masks that contain
the same numbers are equal.
-/

namespace Capabilities

/-- A finite set of numbers: `v` belongs to it when bit `v` is set. -/
structure Mask where
  bits : Nat
deriving DecidableEq, Inhabited

namespace Mask

def contains (m : Mask) (v : Nat) : Bool := m.bits.testBit v

@[ext] theorem ext {a b : Mask} (h : ∀ v, a.contains v = b.contains v) : a = b := by
  cases a
  cases b
  congr
  exact Nat.eq_of_testBit_eq h

instance : EmptyCollection Mask := ⟨⟨0⟩⟩
instance : Union Mask := ⟨fun a b => ⟨a.bits ||| b.bits⟩⟩
instance : Inter Mask := ⟨fun a b => ⟨a.bits &&& b.bits⟩⟩
instance : SDiff Mask := ⟨fun a b => ⟨a.bits ^^^ (a.bits &&& b.bits)⟩⟩

/-- The mask of a single number. -/
def single (v : Nat) : Mask := ⟨1 <<< v⟩

/-- The mask of all numbers below a bound. -/
def below (bound : Nat) : Mask := ⟨(1 <<< bound) - 1⟩

/-- The mask of the numbers in a list. -/
def ofList (vs : List Nat) : Mask :=
  vs.foldl (fun m v => m ∪ single v) ∅

/-- The 32 numbers that share a machine word with `v`. -/
def word (v : Nat) : Mask := below (32 * (v / 32) + 32) \ below (32 * (v / 32))

@[simp] theorem contains_empty (v : Nat) : (∅ : Mask).contains v = false :=
  Nat.zero_testBit v

@[simp] theorem contains_union (a b : Mask) (v : Nat) :
    (a ∪ b).contains v = (a.contains v || b.contains v) :=
  Nat.testBit_or a.bits b.bits v

@[simp] theorem contains_inter (a b : Mask) (v : Nat) :
    (a ∩ b).contains v = (a.contains v && b.contains v) :=
  Nat.testBit_and a.bits b.bits v

@[simp] theorem contains_sdiff (a b : Mask) (v : Nat) :
    (a \ b).contains v = (a.contains v && !b.contains v) := by
  show (a.bits ^^^ (a.bits &&& b.bits)).testBit v = _
  rw [Nat.testBit_xor, Nat.testBit_and]
  show (a.contains v ^^ (a.contains v && b.contains v)) = _
  cases a.contains v <;> cases b.contains v <;> rfl

@[simp] theorem contains_single (u v : Nat) : (single u).contains v = decide (u = v) := by
  simp [single, contains, Nat.shiftLeft_eq, Nat.testBit_two_pow]

@[simp] theorem contains_below (bound v : Nat) : (below bound).contains v = decide (v < bound) := by
  simp [below, contains, Nat.one_shiftLeft, Nat.testBit_two_pow_sub_one]

theorem contains_foldl_single (vs : List Nat) (m : Mask) (v : Nat) :
    (vs.foldl (fun m u => m ∪ single u) m).contains v = (m.contains v || decide (v ∈ vs)) := by
  induction vs generalizing m with
  | nil => simp
  | cons u rest ih => simp [ih, Bool.or_assoc, eq_comm]

@[simp] theorem contains_ofList (vs : List Nat) (v : Nat) :
    (ofList vs).contains v = decide (v ∈ vs) := by
  simp [ofList, contains_foldl_single]

theorem contains_word (u v : Nat) : (word u).contains v = decide (v / 32 = u / 32) := by
  rw [word, contains_sdiff, contains_below, contains_below]
  by_cases h : v / 32 = u / 32 <;> simp [h] <;> omega

/-- Whether the mask contains nothing. -/
def isEmpty (m : Mask) : Bool := m.bits == 0

/-- Whether every number of the first mask belongs to the second. -/
def isWithin (a b : Mask) : Bool := (a \ b).isEmpty

@[simp] theorem isEmpty_iff (m : Mask) : m.isEmpty = true ↔ m = ∅ := by
  cases m
  simp [isEmpty, EmptyCollection.emptyCollection]

theorem isEmpty_eq_false_iff (m : Mask) : m.isEmpty = false ↔ ∃ v, m.contains v = true := by
  rw [← Bool.not_eq_true, isEmpty_iff]
  constructor
  · intro h
    by_cases hex : ∃ v, m.contains v = true
    · exact hex
    · exact absurd (Mask.ext fun v => by simpa using fun hv => hex ⟨v, hv⟩) h
  · rintro ⟨v, hv⟩ rfl
    simp at hv

theorem isWithin_iff (a b : Mask) :
    a.isWithin b = true ↔ ∀ v, a.contains v = true → b.contains v = true := by
  rw [isWithin, isEmpty_iff]
  constructor
  · intro h v ha
    have hv := congrArg (fun m => m.contains v) h
    simpa [ha] using hv
  · intro h
    refine Mask.ext fun v => ?_
    cases ha : a.contains v <;> simp [ha, h v]

theorem contains_eq_false_of_isWithin {a b : Mask} (h : a.isWithin b = true) {v : Nat}
    (hv : b.contains v = false) : a.contains v = false := by
  cases ha : a.contains v with
  | false => rfl
  | true => rw [(isWithin_iff a b).mp h v ha] at hv; exact hv

/-- How many bits are needed to hold the mask: one more than its highest number. -/
def width (m : Mask) : Nat :=
  if m.isEmpty then 0 else m.bits.log2 + 1

/-- The mask as a hexadecimal number. -/
def toHex (m : Mask) : String :=
  String.ofList ('0' :: 'x' :: Nat.toDigits 16 m.bits)

/-- The names of the bits in the mask, in the order of the bits. -/
def describe (names : List String) (m : Mask) : String :=
  let present := (names.zipIdx.filter fun entry => m.contains entry.2).map (·.1)
  if present.isEmpty then "(empty)" else " | ".intercalate present

end Mask

end Capabilities
