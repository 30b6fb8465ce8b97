import Capabilities.Act.Records
import Capabilities.Proofs.Act.Observation
import Capabilities.Proofs.Act.Reading
import Capabilities.Proofs.CapSet.PackedBits

/-!
# The records hold what the words hold

A set goes to the kernel and comes back from it through records. On either way bit
`v` of a flag stays bit `v`, as far as there are words for it. So reading records is
reading the words of what the kernel has recorded, passing records is applying
the set that the words stand for, and the two undo each other.
-/

namespace Capabilities

namespace Act

variable {c : Capacity}

/-- A set in words is within the words of the interface. -/
theorem fitWords_toCapSet (s : PackedSet c) : fitWords c s.toCapSet = s.toCapSet.unowned := by
  refine CapSet.ext_flag (fun f => Mask.ext fun v => ?_) rfl
  rw [contains_fitWords, CapSet.flag_unowned, PackedSet.contains_toCapSet]
  cases hv : s.raises f v with
  | false => rfl
  | true => simpa using PackedSet.lt_width_of_raises hv

end Act

namespace Records

variable {c : Capacity}

theorem contains_mask (abi : Abi) (rs : Records) (f : Flag) (v : Nat) :
    (mask abi rs f).contains v = (((rs.get 0).flag f).getLsbD v ||
      (decide (abi.words ≠ 1 ∧ 32 ≤ v) && ((rs.get 1).flag f).getLsbD (v - 32))) := by
  rw [Mask.contains, mask, Nat.testBit_or]
  congr 1
  by_cases hone : abi.words = 1
  · simp [hone]
  · rw [if_neg hone, Nat.testBit_shiftLeft]
    simp only [ne_eq, hone, not_false_eq_true, true_and]
    rfl

theorem flag_toRecords (s : PackedSet c) (i : Fin 2) (f : Flag) :
    (s.toRecords.get i).flag f = (s.cells[i.val]?.getD Cell.zero).flag f := by
  have hrecord : s.toRecords.get i = Record.ofCell (s.cells[i.val]?.getD Cell.zero) :=
    Vector.getElem_ofFn i.isLt
  rw [hrecord]
  cases f <;> rfl

/-- The kernel puts together the masks that the words of a set stand for. -/
theorem mask_toRecords (s : PackedSet c) (f : Flag) :
    mask c.abi s.toRecords f = s.toCapSet.flag f := by
  have hwords := c.abi.words_le_two
  apply Mask.ext
  intro v
  rw [contains_mask, PackedSet.contains_toCapSet, PackedSet.raises, PackedSet.holds,
    flag_toRecords, flag_toRecords]
  rcases Nat.lt_or_ge v 32 with hfirst | hfirst
  · have hdiv : v / 32 = 0 := by omega
    have hmod : v % 32 = v := by omega
    have hout : ¬ 32 ≤ v := by omega
    simp [hdiv, hmod, hout]
  · rw [BitVec.getLsbD_of_ge _ _ hfirst, Bool.false_or]
    rcases Nat.lt_or_ge v 64 with hsecond | hsecond
    · have hdiv : v / 32 = 1 := by omega
      have hmod : v % 32 = v - 32 := by omega
      rw [hdiv, hmod]
      by_cases hone : c.abi.words = 1
      · simp [hone]
      · simp [hone, hfirst]
    · have hbeyond : 2 ≤ v / 32 := by omega
      have hnone : s.cells[v / 32]? = none := Vector.getElem?_eq_none (by omega)
      rw [BitVec.getLsbD_of_ge _ _ (by omega), hnone]
      simp

theorem getLsbD_ofFlags (abi : Abi) (t : CapSet) (f : Flag) {i b : Nat} (hi : i < abi.words)
    (hb : b < 32) :
    (((ofFlags abi t)[i]?.getD Record.zero).flag f).getLsbD b =
      (t.flag f).contains (32 * i + b) := by
  have hrecord (first : Nat) :
      ((Record.ofFlags first t).flag f).getLsbD b = (t.flag f).contains (first + b) := by
    have hword : (Record.ofFlags first t).flag f = BitVec.ofNat 32 ((t.flag f).bits >>> first) := by
      cases f <;> rfl
    rw [hword, BitVec.getLsbD_ofNat, Nat.testBit_shiftRight, decide_eq_true hb, Bool.true_and,
      Mask.contains]
  have hwords := abi.words_le_two
  obtain rfl | ⟨rfl, hone⟩ : i = 0 ∨ i = 1 ∧ abi.words ≠ 1 := by omega
  · exact hrecord 0
  · have hsecond : (ofFlags abi t)[1]?.getD Record.zero = Record.ofFlags 32 t := by
      simp [ofFlags, hone]
    rw [hsecond]
    exact hrecord 32

/-- What is in the records that the kernel fills in is what fits the words. -/
theorem toCapSet_ofRecords (t : CapSet) :
    (PackedSet.ofRecords c (ofFlags c.abi t)).toCapSet = Act.fitWords c t := by
  refine CapSet.ext_flag (fun f => Mask.ext fun v => ?_) rfl
  have hflag (r : Record) : r.toCell.flag f = r.flag f := by cases f <;> rfl
  rw [PackedSet.contains_toCapSet, Act.contains_fitWords, PackedSet.raises]
  by_cases hv : v / 32 < c.abi.words
  · have hwidth : v < c.width := by
      rw [Capacity.width]
      omega
    rw [PackedSet.holds_of_lt _ f hv]
    simp only [PackedSet.ofRecords, Vector.getElem_ofFn, hflag]
    rw [getLsbD_ofFlags c.abi t f hv (Nat.mod_lt v (by decide)), Nat.div_add_mod,
      decide_eq_true hwidth, Bool.and_true]
  · have hwidth : ¬ v < c.width := by
      rw [Capacity.width]
      omega
    rw [PackedSet.holds_of_le _ f (Nat.le_of_not_lt hv), decide_eq_false hwidth, Bool.and_false]

/-- A set that went through the records of the kernel and back is the same word by word. -/
theorem ofRecords_ofFlags_mask (s : PackedSet c) :
    PackedSet.ofRecords c (ofFlags c.abi ⟨mask c.abi s.toRecords .effective,
      mask c.abi s.toRecords .permitted, mask c.abi s.toRecords .inheritable, none⟩) =
      { s with owner := none } := by
  apply PackedSet.toCapSet_injective
  rw [toCapSet_ofRecords, mask_toRecords, mask_toRecords, mask_toRecords]
  exact Act.fitWords_toCapSet s

end Records

namespace Act

/-- Passing the records of a set is applying the set that its words stand for. -/
theorem start_applyPacked (s : Machine) (x : PackedSet s.capacity) :
    (applyPacked x).start s = (applySet x.toCapSet).start s := by
  have hwords : fitWords s.capacity x.toCapSet = x.toCapSet.unowned := fitWords_toCapSet x
  simp only [applyPacked, applySet, start_bind, start_capacity, Option.bind_some, hwords,
    Records.mask_toRecords]
  rfl

/-- Reading records is reading the set that the words stand for. -/
theorem start_readPacked (s : Machine) :
    (PackedSet.toCapSet <$> readPacked s.capacity).start s = readSet.start s := by
  have hcapacity : (s.inspect 0).2.capacity = s.capacity := rfl
  simp only [readPacked, readSet, readSetOf, start_map, start_bind, start_request,
    Option.map_some, Option.bind_some]
  generalize s.inspect 0 = reply at hcapacity ⊢
  obtain ⟨answer, s'⟩ := reply
  cases answer with
  | error e => rfl
  | ok held =>
      simp only [Except.mapError, start_pure, start_capacity, Option.map_some, Option.bind_some,
        Except.map, Records.toCapSet_ofRecords, hcapacity]

theorem reads_readPacked {k : Kernel} {cr : Credentials} :
    Reads k cr (readPacked k.capacity)
      (.ok (PackedSet.ofRecords k.capacity (Records.ofFlags k.capacity.abi cr.holdings))) := by
  refine reads_bind (a := cr.holdings) ?_ (reads_pure _)
  rintro s rfl rfl hscript
  refine ⟨.inspect :: s.main.attempts, ?_⟩
  simp only [start_request, Machine.inspect, Kernel.attempt, hscript, FailureScript.errno?_nil,
    Kernel.inspect]
  rfl

end Act

end Capabilities
