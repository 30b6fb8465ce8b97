import Capabilities.CapSet.Packed

/-!
# Masks in machine words

A mask can be kept in words of 32 bits, one in each of the cells of a vector. Bit
`v` of the mask is bit `v % 32` of the word in cell `v / 32`, and there is nothing
in cells that are not there. Reading and writing one bit of a word, and masking a
word, is described by bits; so is writing one cell or all of them.
-/

namespace Capabilities

namespace PackedSet

theorem getLsbD_bit (v b : Nat) : (bit v).getLsbD b = decide (v % 32 = b) := by
  have hmod : v &&& 31 = v % 32 := Nat.and_two_pow_sub_one_eq_mod v 5
  have hlt : v % 32 < 32 := Nat.mod_lt v (by decide)
  rw [bit, ← BitVec.twoPow_eq, BitVec.getLsbD_twoPow, hmod]
  simp [hlt]

theorem and_bit_ne_zero (word : BitVec 32) (v : Nat) :
    ((word &&& bit v) != 0#32) = word.getLsbD (v % 32) := by
  rw [Bool.eq_iff_iff, bne_iff_ne]
  constructor
  · intro hne
    apply Decidable.byContradiction
    intro hlowered
    refine hne (BitVec.eq_of_getLsbD_eq fun b _ => ?_)
    rw [BitVec.getLsbD_and, getLsbD_bit]
    by_cases hb : v % 32 = b
    · rw [← hb, Bool.eq_false_iff.mpr hlowered, Bool.false_and, BitVec.getLsbD_zero]
    · simp [hb]
  · intro hraised hzero
    have hbit := congrArg (fun w => BitVec.getLsbD w (v % 32)) hzero
    simp [getLsbD_bit, hraised] at hbit

/-- Writing a value leaves the other bits of its word alone. -/
theorem getLsbD_write (word : BitVec 32) (on : Bool) (u v : Nat) :
    (if on then word ||| bit u else word &&& ~~~bit u).getLsbD (v % 32) =
      if u % 32 = v % 32 then on else word.getLsbD (v % 32) := by
  have hlt : v % 32 < 32 := Nat.mod_lt v (by decide)
  cases on with
  | true =>
      rw [if_pos rfl, BitVec.getLsbD_or, getLsbD_bit]
      split <;> simp [*]
  | false =>
      rw [if_neg Bool.false_ne_true, BitVec.getLsbD_and, BitVec.getLsbD_not, getLsbD_bit,
        decide_eq_true hlt]
      split <;> simp [*]

/-- One less than a power of two has the bits below that power. -/
theorem getLsbD_ones {k : Nat} (h : k < 32) (b : Nat) :
    ((1#32 <<< k) - 1#32).getLsbD b = decide (b < k) := by
  have hpow : 2 ^ k < 2 ^ 32 := Nat.pow_lt_pow_right (by decide) h
  have hone : (1#32 <<< k).toNat = 2 ^ k := by
    rw [BitVec.toNat_shiftLeft, Nat.shiftLeft_eq]
    exact (congrArg (· % 2 ^ 32) (Nat.one_mul _)).trans (Nat.mod_eq_of_lt hpow)
  have hle : 1#32 ≤ 1#32 <<< k := by
    rw [BitVec.le_def, hone]
    exact Nat.two_pow_pos k
  have hsub : ((1#32 <<< k) - 1#32).toNat = 2 ^ k - 1 := by
    rw [BitVec.toNat_sub_of_le hle, hone]
    rfl
  rw [BitVec.getLsbD, hsub, Nat.testBit_two_pow_sub_one]

theorem getLsbD_wordBelow (i bound b : Nat) :
    (wordBelow i bound).getLsbD b = decide (b < 32 ∧ 32 * i + b < bound) := by
  rw [wordBelow]
  split
  next hle =>
    have hnot : ¬ (b < 32 ∧ 32 * i + b < bound) := by omega
    simp [hnot]
  next hlt =>
    split
    next hfull =>
      rw [BitVec.getLsbD_allOnes, decide_eq_decide]
      omega
    next hpartial =>
      have hshift : bound - 32 * i < 32 := by omega
      rw [getLsbD_ones hshift, decide_eq_decide]
      omega

end PackedSet

namespace Mask

variable {α β : Type} {n : Nat}

/-- Whether the word of a number has its bit. -/
def wordBit (word : α → BitVec 32) (cells : Vector α n) (v : Nat) : Bool :=
  cells[v / 32]?.any fun cell => (word cell).getLsbD (v % 32)

/-- The mask that words stand for. -/
def ofWords (word : α → BitVec 32) (cells : Vector α n) : Mask :=
  ofList ((List.range (32 * n)).filter (wordBit word cells))

theorem wordBit_of_lt (word : α → BitVec 32) (cells : Vector α n) {v : Nat} (h : v / 32 < n) :
    wordBit word cells v = (word cells[v / 32]).getLsbD (v % 32) := by
  rw [wordBit, Vector.getElem?_eq_getElem h, Option.any_some]

theorem wordBit_of_le (word : α → BitVec 32) (cells : Vector α n) {v : Nat} (h : n ≤ v / 32) :
    wordBit word cells v = false := by
  rw [wordBit, Vector.getElem?_eq_none h, Option.any_none]

theorem div_lt_of_wordBit {word : α → BitVec 32} {cells : Vector α n} {v : Nat}
    (h : wordBit word cells v = true) : v / 32 < n := by
  apply Nat.lt_of_not_le
  intro hle
  rw [wordBit_of_le word cells hle] at h
  cases h

@[simp] theorem contains_ofWords (word : α → BitVec 32) (cells : Vector α n) (v : Nat) :
    (ofWords word cells).contains v = wordBit word cells v := by
  simp only [ofWords, contains_ofList, List.mem_filter, List.mem_range]
  cases hv : wordBit word cells v with
  | false => simp
  | true =>
      have hlt := div_lt_of_wordBit hv
      have hbound : v < 32 * n := by omega
      simp [hbound]

theorem wordBit_add (word : α → BitVec 32) (cells : Vector α n) {i b : Nat} (hi : i < n)
    (hb : b < 32) : wordBit word cells (32 * i + b) = (word cells[i]).getLsbD b := by
  have hdiv : (32 * i + b) / 32 = i := by omega
  have hmod : (32 * i + b) % 32 = b := by omega
  rw [wordBit, hdiv, hmod, Vector.getElem?_eq_getElem hi, Option.any_some]

theorem wordBit_set (word : α → BitVec 32) (cells : Vector α n) {i : Nat} (hi : i < n) (cell : α)
    (v : Nat) : wordBit word (cells.set i cell hi) v =
      if v / 32 = i then (word cell).getLsbD (v % 32) else wordBit word cells v := by
  rw [wordBit, Vector.getElem?_set]
  by_cases h : v / 32 = i
  · rw [if_pos h.symm, if_pos h, Option.any_some]
  · rw [if_neg (Ne.symm h), if_neg h, wordBit]

/-- Words with the same bits are the same. -/
theorem word_eq_iff (word : α → BitVec 32) (word' : β → BitVec 32) (a : Vector α n)
    (b : Vector β n) : (∀ i, word (a.get i) = word' (b.get i)) ↔
      ∀ v, wordBit word a v = wordBit word' b v := by
  constructor
  · intro h v
    by_cases hv : v / 32 < n
    · rw [wordBit_of_lt word a hv, wordBit_of_lt word' b hv]
      exact congrArg (BitVec.getLsbD · _) (h ⟨v / 32, hv⟩)
    · rw [wordBit_of_le word a (Nat.le_of_not_lt hv), wordBit_of_le word' b (Nat.le_of_not_lt hv)]
  · intro h i
    refine BitVec.eq_of_getLsbD_eq fun b' hb => ?_
    have hbit := h (32 * i + b')
    rw [wordBit_add word a i.isLt hb, wordBit_add word' b i.isLt hb] at hbit
    exact hbit

theorem ofWords_inj {word : α → BitVec 32} {word' : β → BitVec 32} {a : Vector α n}
    {b : Vector β n} :
    ofWords word a = ofWords word' b ↔ ∀ i, word (a.get i) = word' (b.get i) := by
  rw [word_eq_iff]
  constructor
  · intro h v
    rw [← contains_ofWords, h, contains_ofWords]
  · intro h
    apply Mask.ext
    intro v
    rw [contains_ofWords, h, contains_ofWords]

theorem ofWords_or (word word' : α → BitVec 32) (cells : Vector α n) :
    ofWords (fun cell => word cell ||| word' cell) cells =
      ofWords word cells ∪ ofWords word' cells := by
  apply Mask.ext
  intro v
  simp only [contains_ofWords, contains_union, wordBit]
  cases cells[v / 32]? <;> simp

theorem all_beq (word word' : α → BitVec 32) (cells : Vector α n) :
    (cells.all fun cell => word cell == word' cell) =
      decide (ofWords word cells = ofWords word' cells) := by
  rw [Bool.eq_iff_iff, decide_eq_true_iff, ofWords_inj, Vector.all_eq_true]
  simp only [beq_iff_eq]
  exact ⟨fun h i => h i i.isLt, fun h i hi => h ⟨i, hi⟩⟩

theorem any_bne_zero (word : α → BitVec 32) (cells : Vector α n) :
    (cells.any fun cell => word cell != 0#32) = !(ofWords word cells).isEmpty := by
  rw [Bool.eq_iff_iff, Bool.not_eq_true', isEmpty_eq_false_iff, Vector.any_eq_true]
  simp only [contains_ofWords, bne_iff_ne]
  constructor
  · rintro ⟨i, hi, hne⟩
    apply Classical.byContradiction
    intro hnone
    refine hne (BitVec.eq_of_getLsbD_eq fun b hb => ?_)
    rw [← wordBit_add word cells hi hb, BitVec.getLsbD_zero]
    exact Bool.eq_false_iff.mpr fun hbit => hnone ⟨_, hbit⟩
  · rintro ⟨v, hv⟩
    have hword := div_lt_of_wordBit hv
    refine ⟨v / 32, hword, fun hzero => ?_⟩
    rw [wordBit_of_lt word cells hword, hzero, BitVec.getLsbD_zero] at hv
    cases hv

end Mask

end Capabilities
