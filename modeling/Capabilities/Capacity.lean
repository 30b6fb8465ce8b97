import Capabilities.Value.Name

/-!
# Capacity

What a kernel supports: the generation of its capability call interface, which
fixes the number of 32-bit words in a vector, and the number of capability
values. The number of values is found by a binary search over the values that
the kernel admits to knowing, in numbers of 32 bits; the search stays within the
words and ends at a value count that fits them.
-/

namespace Capabilities

/-- A generation of the kernel's capability call interface. -/
inductive Abi
  | first
  | second
  | third
deriving DecidableEq

namespace Abi

/-- The number that identifies the generation. -/
def code : Abi → Nat
  | first => 0x19980330
  | second => 0x20071026
  | third => 0x20080522

/-- The generation with a number; an unknown number stands for the latest one. -/
def ofCode (n : Nat) : Abi :=
  if n = first.code then first
  else if n = second.code then second
  else third

/-- The number of 32-bit words in a capability vector. -/
def words : Abi → Nat
  | first => 1
  | second => 2
  | third => 2

theorem words_pos (abi : Abi) : 0 < abi.words := by
  cases abi <;> decide

theorem words_le_two (abi : Abi) : abi.words ≤ 2 := by
  cases abi <;> decide

end Abi

/-- What a kernel supports. -/
structure Capacity where
  abi : Abi
  /-- The number of values; the values are the numbers below it. -/
  count : Nat
  count_pos : 0 < count
  count_le : count ≤ 32 * abi.words

namespace Capacity

/-- Half the sum of the ends of a range, rounded up, in numbers of 32 bits. -/
def middle (lo hi : BitVec 32) : BitVec 32 := ((lo + hi) >>> 1) + ((lo + hi) &&& 1#32)

theorem toNat_middle {lo hi : BitVec 32} (h : ¬ lo.uaddOverflow hi = true) :
    (middle lo hi).toNat = (lo.toNat + hi.toNat + 1) / 2 := by
  have hfits : lo.toNat + hi.toNat < 0x100000000 := by simpa [BitVec.uaddOverflow] using h
  have hsum : (lo + hi).toNat = lo.toNat + hi.toNat := by
    rw [BitVec.toNat_add, Nat.mod_eq_of_lt hfits]
  rw [middle, BitVec.toNat_add, BitVec.toNat_and, BitVec.toNat_ushiftRight, hsum,
    Nat.shiftRight_eq_div_pow]
  simp only [BitVec.toNat_ofNat, Nat.reducePow, Nat.reduceMod, Nat.and_one_is_mod]
  omega

theorem toNat_pred {n : BitVec 32} (h : ¬ n = 0#32) : (n - 1#32).toNat = n.toNat - 1 := by
  have hpos : n.toNat ≠ 0 := fun hzero => h (BitVec.eq_of_toNat_eq hzero)
  apply BitVec.toNat_sub_of_le
  rw [BitVec.le_def]
  exact Nat.pos_of_ne_zero hpos

theorem middle_range {lo hi : BitVec 32} (hopen : ¬ lo = hi) (hle : lo.toNat ≤ hi.toNat)
    (hsum : ¬ lo.uaddOverflow hi = true) :
    lo.toNat < (middle lo hi).toNat ∧ (middle lo hi).toNat ≤ hi.toNat := by
  have hne : lo.toNat ≠ hi.toNat := fun h => hopen (BitVec.eq_of_toNat_eq h)
  rw [toNat_middle hsum]
  omega

theorem not_uaddOverflow {lo hi : BitVec 32} (hopen : ¬ lo = hi) (hle : lo.toNat ≤ hi.toNat)
    (hfits : 2 * hi.toNat ≤ 0x100000000) : ¬ lo.uaddOverflow hi = true := by
  have hne : lo.toNat ≠ hi.toNat := fun h => hopen (BitVec.eq_of_toNat_eq h)
  simp only [BitVec.uaddOverflow, decide_eq_true_eq]
  omega

/-- Narrow `lo ..= hi` down to one number. The upper middle is asked for, so that the range
shrinks also when it holds two numbers. The search breaks off where a sum does not fit 32 bits,
where one would be taken away from zero, and where the ends of the range would cross. -/
def search? (supported : Nat → Bool) (lo hi : BitVec 32) : Option (BitVec 32) :=
  if lo = hi then some lo
  else if lo.uaddOverflow hi then none
  else
    let mid := middle lo hi
    if supported mid.toNat then
      if hi < mid then none else search? supported mid hi
    else if mid = 0#32 then none
    else if mid - 1#32 < lo then none
    else search? supported lo (mid - 1#32)
termination_by hi.toNat - lo.toNat
decreasing_by
  all_goals
    have hne : lo.toNat ≠ hi.toNat := fun h => ‹¬ lo = hi› (BitVec.eq_of_toNat_eq h)
    have hmid : mid.toNat = (lo.toNat + hi.toNat + 1) / 2 := toNat_middle ‹_›
  · have hend : ¬ hi.toNat < mid.toNat := ‹¬ hi < mid›
    change hi.toNat - mid.toNat < _
    omega
  · have hstart : ¬ (mid - 1#32).toNat < lo.toNat := ‹¬ mid - 1#32 < lo›
    rw [toNat_pred ‹¬ mid = 0#32›] at hstart
    change (mid - 1#32).toNat - _ < _
    rw [toNat_pred ‹¬ mid = 0#32›]
    omega

/-- A range whose double fits 32 bits is narrowed down to one of its numbers. -/
theorem exists_search? (supported : Nat → Bool) {lo hi : BitVec 32} (hle : lo.toNat ≤ hi.toNat)
    (hfits : 2 * hi.toNat ≤ 0x100000000) :
    ∃ n, search? supported lo hi = some n ∧ lo.toNat ≤ n.toNat ∧ n.toNat ≤ hi.toNat := by
  fun_induction search? supported lo hi with
  | case1 lo => exact ⟨lo, rfl, Nat.le_refl _, hle⟩
  | case2 lo hi hopen hsum =>
      exact absurd hsum (not_uaddOverflow hopen hle hfits)
  | case3 lo hi hopen hsum mid hmid hend =>
      have hrange := (middle_range hopen hle hsum).2
      exact absurd hend (Nat.not_lt.mpr hrange)
  | case4 lo hi hopen hsum mid hmid hend ih =>
      obtain ⟨hlow, hrange⟩ := middle_range hopen hle hsum
      obtain ⟨n, hn, hmn, hnhi⟩ := ih hrange hfits
      exact ⟨n, hn, Nat.le_trans (Nat.le_of_lt hlow) hmn, hnhi⟩
  | case5 lo hi hopen hsum mid hmid hzero =>
      have hlow : lo.toNat < mid.toNat := (middle_range hopen hle hsum).1
      rw [hzero] at hlow
      exact absurd hlow (Nat.not_lt_zero _)
  | case6 lo hi hopen hsum mid hmid hzero hstart =>
      have hlow : lo.toNat < mid.toNat := (middle_range hopen hle hsum).1
      have hcross : (mid - 1#32).toNat < lo.toNat := hstart
      rw [toNat_pred hzero] at hcross
      omega
  | case7 lo hi hopen hsum mid hmid hzero hstart ih =>
      have hrange : mid.toNat ≤ hi.toNat := (middle_range hopen hle hsum).2
      have hstart' : lo.toNat ≤ (mid - 1#32).toNat := Nat.not_lt.mp hstart
      have hpred := toNat_pred hzero
      obtain ⟨n, hn, hlon, hnmid⟩ := ih hstart' (by omega)
      exact ⟨n, hn, hlon, by omega⟩

/-- The number of values, given which numbers the bounding set can be asked about. There are as
many as the words have bits, cut off to 32 bits, or fewer. If the bounding set cannot be asked at
all, the table of names is trusted. -/
def probe? (words : Nat) (supported : Nat → Bool) : Option Nat :=
  let limit := BitVec.ofNat 32 (32 * words)
  if supported 0 then
    if limit = 0#32 then none
    else (search? supported 0#32 (limit - 1#32)).map fun n => (n + 1#32).toNat
  else some (min Value.nameCount limit.toNat)

section

variable {words : Nat} {supported : Nat → Bool}

theorem toNat_limit (hfits : words < 0x8000000) :
    (BitVec.ofNat 32 (32 * words)).toNat = 32 * words := by
  rw [BitVec.toNat_ofNat, Nat.mod_eq_of_lt (by omega)]

theorem limit_ne_zero (hwords : 0 < words) (hfits : words < 0x8000000) :
    ¬ BitVec.ofNat 32 (32 * words) = 0#32 := by
  intro hzero
  have hlimit := toNat_limit hfits
  rw [hzero] at hlimit
  have hnone : 0 = 32 * words := hlimit
  omega

theorem toNat_last (hwords : 0 < words) (hfits : words < 0x8000000) :
    (BitVec.ofNat 32 (32 * words) - 1#32).toNat = 32 * words - 1 := by
  rw [toNat_pred (limit_ne_zero hwords hfits), toNat_limit hfits]

theorem probe?_of_unsupported (hfits : words ≤ 0x4000000) (hzero : supported 0 = false) :
    probe? words supported = some (min Value.nameCount (32 * words)) := by
  have hlimit : (BitVec.ofNat 32 (32 * words)).toNat = 32 * words := toNat_limit (by omega)
  simp only [probe?, hzero, hlimit]
  rfl

/-- If a kernel answers at all, the search starts with the whole range and comes to an end. -/
theorem probe?_of_supported (hwords : 0 < words) (hfits : words ≤ 0x4000000)
    (hzero : supported 0 = true) :
    ∃ last n, last.toNat = 32 * words - 1 ∧ search? supported 0#32 last = some n ∧
      n.toNat ≤ last.toNat ∧ probe? words supported = some (n.toNat + 1) := by
  have hlast := toNat_last hwords (show words < 0x8000000 by omega)
  have hrange : (0#32).toNat ≤ (BitVec.ofNat 32 (32 * words) - 1#32).toNat := Nat.zero_le _
  obtain ⟨n, hn, -, hle⟩ := exists_search? supported hrange (by omega)
  have hnext : (n + 1#32).toNat = n.toNat + 1 := by
    rw [BitVec.toNat_add]
    exact Nat.mod_eq_of_lt (show n.toNat + 1 < 0x100000000 by omega)
  refine ⟨_, n, hlast, hn, hle, ?_⟩
  rw [probe?, if_pos hzero, if_neg (limit_ne_zero hwords (by omega)), hn, Option.map_some, hnext]

theorem exists_probe? (supported : Nat → Bool) (hwords : 0 < words) (hfits : words ≤ 0x4000000) :
    ∃ r, probe? words supported = some r ∧ 0 < r ∧ r ≤ 32 * words := by
  cases hzero : supported 0 with
  | true =>
      obtain ⟨last, n, hlast, -, hle, hprobe⟩ := probe?_of_supported hwords hfits hzero
      exact ⟨_, hprobe, Nat.succ_pos _, by omega⟩
  | false =>
      refine ⟨_, probe?_of_unsupported hfits hzero, ?_, Nat.min_le_right _ _⟩
      exact Nat.lt_min.mpr ⟨by decide, by omega⟩

end

/-- The capacity of a kernel of the given generation. -/
def ofProbe (abi : Abi) (supported : Nat → Bool) : Capacity :=
  have hprobe := exists_probe? supported abi.words_pos
    (Nat.le_trans abi.words_le_two (by decide))
  { abi
    count := (probe? abi.words supported).get (by
      obtain ⟨r, hr, -⟩ := hprobe
      exact hr ▸ rfl)
    count_pos := by
      obtain ⟨r, hr, hpos, -⟩ := hprobe
      simpa [hr] using hpos
    count_le := by
      obtain ⟨r, hr, -, hle⟩ := hprobe
      simpa [hr] using hle }

theorem probe?_eq_count (abi : Abi) (supported : Nat → Bool) :
    probe? abi.words supported = some (ofProbe abi supported).count :=
  (Option.some_get _).symm

/-- How many of the supported values have a name. -/
def named (c : Capacity) : Nat := min Value.nameCount c.count

/-- The supported values in ascending order. -/
def values (c : Capacity) : List Value := List.range c.count

def admits (c : Capacity) (v : Value) : Bool := decide (v < c.count)

/-- The number of bits in a capability vector. -/
def width (c : Capacity) : Nat := 32 * c.abi.words

end Capacity

end Capabilities
