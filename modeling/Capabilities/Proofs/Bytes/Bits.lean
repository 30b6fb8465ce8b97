import Capabilities.Bytes

/-!
# The bits of byte strings

A byte string denotes a number whose bits are those of its bytes, eight from
each, so numbers are compared with byte strings bit by bit.
-/

namespace Capabilities.Bytes

theorem toNat_cons (b : UInt8) (rest : Bytes) :
    toNat (b :: rest) = 256 * toNat rest + b.toNat := by
  rw [toNat]
  omega

/-- Bit `v` lies in byte `v / 8`; beyond the last byte there is nothing. -/
theorem testBit_toNat (data : Bytes) (v : Nat) :
    (toNat data).testBit v = (data.getD (v / 8) 0).toNat.testBit (v % 8) := by
  induction data generalizing v with
  | nil => simp [toNat]
  | cons b rest ih =>
      have hbyte := Nat.testBit_two_pow_mul_add (toNat rest) (i := 8) b.toNat_lt v
      rw [toNat_cons]
      refine hbyte.trans ?_
      by_cases hv : v < 8
      · rw [if_pos hv, Nat.div_eq_of_lt hv, Nat.mod_eq_of_lt hv]
        rfl
      · have hdiv : v / 8 = (v - 8) / 8 + 1 := by omega
        have hmod : v % 8 = (v - 8) % 8 := by omega
        rw [if_neg hv, ih, hdiv, hmod]
        rfl

theorem getElem?_ofNat (count n j : Nat) :
    (ofNat count n)[j]? = if j < count then some (UInt8.ofNat (n >>> (8 * j))) else none := by
  induction count generalizing n j with
  | zero => simp [ofNat]
  | succ count ih =>
      cases j with
      | zero => simp [ofNat]
      | succ j =>
          have hbyte : n / 256 = n >>> 8 := (Nat.shiftRight_eq_div_pow n 8).symm
          have hshift : (n / 256) >>> (8 * j) = n >>> (8 * (j + 1)) := by
            rw [hbyte, ← Nat.shiftRight_add, Nat.mul_succ, Nat.add_comm]
          simp [ofNat, ih, hshift]

/-- The bytes of a number make up the number again as far as they reach. -/
theorem testBit_toNat_ofNat (count n v : Nat) :
    (toNat (ofNat count n)).testBit v = (decide (v < 8 * count) && n.testBit v) := by
  rw [testBit_toNat, List.getD_eq_getElem?_getD, getElem?_ofNat]
  by_cases hv : v / 8 < count
  · have hlt : v < 8 * count := by omega
    have hsplit : 8 * (v / 8) + v % 8 = v := by omega
    have hmod : v % 8 < 8 := by omega
    rw [if_pos hv, Option.getD_some, UInt8.toNat_ofNat', Nat.testBit_mod_two_pow,
      Nat.testBit_shiftRight, hsplit]
    simp [hmod, hlt]
  · have hle : ¬ v < 8 * count := by omega
    simp [hv, hle]

/-- A number is cut into its bytes from the lowest to the highest. -/
theorem ofNat_eq_map_range (count n : Nat) :
    ofNat count n = (List.range count).map fun j => UInt8.ofNat (n >>> (8 * j)) := by
  apply List.ext_getElem?
  intro j
  rw [getElem?_ofNat, List.getElem?_map]
  by_cases hj : j < count
  · rw [if_pos hj, List.getElem?_range hj, Option.map_some]
  · rw [if_neg hj, List.getElem?_eq_none (by simpa using hj), Option.map_none]

end Capabilities.Bytes
