import Capabilities.Proofs.FileAttribute.Decoding

/-!
# Byte strings that are written from words

Both formats are written from the words of a set as they are, without putting
masks together first. How long the external format gets is decided by the last
word that is not zero, and by the zeros at its top. What is written is what the
masks are written as, so it is read back word by word as well.
-/

namespace Capabilities.PackedSet

open CapSet.External (Triple)

variable {c : Capacity}

/-- The zeros at the top of a word tell how many bytes it takes. -/
theorem bytes_le_iff {word : BitVec 32} (h : word ≠ 0#32) (i n : Nat) :
    4 * i + (4 - word.clz.toNat / 8) ≤ n ↔
      ∀ b, word.getLsbD b = true → 32 * i + b < 8 * n := by
  have hclz : word.clz.toNat < 32 := BitVec.lt_def.mp (BitVec.clz_lt_iff_ne_zero.mpr h)
  constructor
  · intro hle b hb
    have htop : 2 ^ b < 2 ^ (32 - word.clz.toNat) :=
      calc
        2 ^ b ≤ word.toNat := Nat.ge_two_pow_of_testBit hb
        _ < 2 ^ (32 - word.clz.toNat) := BitVec.toNat_lt_two_pow_sub_clz
    have hlt : b < 32 - word.clz.toNat := (Nat.pow_lt_pow_iff_right (by decide)).mp htop
    omega
  · intro hbits
    have hhighest := hbits (32 - 1 - word.clz.toNat)
      (BitVec.getLsbD_true_clz_of_ne_zero (by decide) h)
    omega

/-- What came before counts as long as only zeros follow. -/
theorem usedFrom_le_iff {used i n : Nat} (words : List (BitVec 32)) (hused : used ≤ 4 * i) :
    usedFrom used i words ≤ n ↔ used ≤ n ∧
      ∀ j b, (words.getD j 0#32).getLsbD b = true → 32 * (i + j) + b < 8 * n := by
  induction words generalizing used i with
  | nil => simp [usedFrom]
  | cons word words ih =>
      have hsplit : (∀ j b, ((word :: words).getD j 0#32).getLsbD b = true →
            32 * (i + j) + b < 8 * n) ↔
          (∀ b, word.getLsbD b = true → 32 * i + b < 8 * n) ∧
            ∀ j b, (words.getD j 0#32).getLsbD b = true → 32 * (i + 1 + j) + b < 8 * n := by
        rw [← Nat.and_forall_add_one]
        refine and_congr Iff.rfl (forall_congr' fun j => ?_)
        have hnext : i + (j + 1) = i + 1 + j := by omega
        rw [List.getD_cons_succ, hnext]
      rw [usedFrom, hsplit]
      by_cases hzero : word = 0#32
      · rw [if_pos hzero, ih (by omega), hzero]
        simp
      · -- The word takes at least one byte, so it decides alone.
        have hclz : word.clz.toNat < 32 := BitVec.lt_def.mp (BitVec.clz_lt_iff_ne_zero.mpr hzero)
        rw [if_neg hzero, ih (by omega), bytes_le_iff hzero, ← and_assoc]
        refine and_congr_left fun _ => ?_
        rw [← bytes_le_iff hzero]
        omega

theorem getLsbD_raised (cell : Cell) (b : Nat) :
    cell.raised.getLsbD b = true ↔ ∃ f, (cell.flag f).getLsbD b = true := by
  rw [Flag.exists_iff, Cell.raised, BitVec.getLsbD_or, BitVec.getLsbD_or, Bool.or_eq_true,
    Bool.or_eq_true, or_assoc]
  rfl

theorem getD_raised (s : PackedSet c) (j : Nat) :
    (s.cells.toList.map Cell.raised).getD j 0#32 = (s.cell j).raised := by
  rw [cell, List.getD_eq_getElem?_getD, List.getElem?_map, Vector.getElem?_toList]
  cases s.cells[j]? <;> rfl

theorem usedBytes_le_iff {s : PackedSet c} {n : Nat} :
    s.usedBytes ≤ n ↔ ∀ f v, s.raises f v = true → v < 8 * n := by
  rw [usedBytes, usedFrom_le_iff _ (Nat.zero_le _)]
  simp only [getD_raised, getLsbD_raised, Nat.zero_le, true_and, Nat.zero_add]
  constructor
  · intro h f v hv
    have hlt := h (v / 32) (v % 32) ⟨f, hv⟩
    omega
  · rintro h j b ⟨f, hb⟩
    apply h f
    rw [raises_add s f j (BitVec.lt_of_getLsbD hb)]
    exact hb

theorem usedBytes_eq (s : PackedSet c) :
    s.usedBytes = CapSet.External.usedBytes s.toCapSet := by
  have hiff (n : Nat) : s.usedBytes ≤ n ↔ CapSet.External.usedBytes s.toCapSet ≤ n := by
    simp only [usedBytes_le_iff, CapSet.External.usedBytes_le_iff, contains_toCapSet]
  exact Nat.le_antisymm ((hiff _).mpr (Nat.le_refl _)) ((hiff _).mp (Nat.le_refl _))

theorem count_eq (floor : Nat) (s : PackedSet c) :
    s.count floor = CapSet.External.count floor s.toCapSet := by
  rw [count, CapSet.External.count, usedBytes_eq]

theorem byte_slice (cell : Cell) (shift : Nat) (f : Flag) :
    (cell.slice shift).byte f = UInt8.ofBitVec ((cell.flag f >>> shift).setWidth 8) := by
  cases f <;> rfl

theorem slice_eq (s : PackedSet c) (j : Nat) :
    (s.cell (j / 4)).slice (8 * (j % 4)) = CapSet.External.triple s.toCapSet j := by
  apply CapSet.External.Triple.ext_byte
  intro f
  apply CapSet.External.eq_of_testBit
  intro b hb
  have hsplit : 8 * j + b = 32 * (j / 4) + (8 * (j % 4) + b) := by omega
  have hbyte (word : BitVec 8) : (UInt8.ofBitVec word).toNat.testBit b = word.getLsbD b := rfl
  rw [byte_slice, CapSet.External.byte_triple, CapSet.External.testBit_byte _ _ hb,
    contains_toCapSet, hsplit, raises_add s f _ (by omega), hbyte, BitVec.getLsbD_setWidth,
    BitVec.getLsbD_ushiftRight, decide_eq_true hb, Bool.true_and]

/-- The words are written as what the masks are written as. -/
theorem encodeExternal_eq (floor : Nat) (s : PackedSet c) :
    s.encodeExternal floor = CapSet.External.encode floor s.toCapSet := by
  simp only [encodeExternal, CapSet.External.encode, count_eq, slice_eq]

theorem isEffective_eq (s : PackedSet c) : s.isEffective = !s.toCapSet.effective.isEmpty :=
  any_flag_ne_zero s .effective

theorem isUniform_eq (s : PackedSet c) :
    s.isUniform = decide (s.toCapSet.effective = s.toCapSet.permitted ∪ s.toCapSet.inheritable) := by
  have he : s.toCapSet.effective = _ := flag_toCapSet s .effective
  have hp : s.toCapSet.permitted = _ := flag_toCapSet s .permitted
  have hi : s.toCapSet.inheritable = _ := flag_toCapSet s .inheritable
  rw [he, hp, hi, ← Mask.ofWords_or]
  exact Mask.all_beq _ _ s.cells

theorem isTall_iff (s : PackedSet c) :
    s.isTall = true ↔ ∃ f v, s.raises f (32 + v) = true := by
  have hflag (f : Flag) : ((s.cells.drop 1).any fun cell => cell.flag f != 0#32) = true ↔
      ∃ v, s.raises f (32 + v) = true := by
    have hnext (v : Nat) : (32 + v) / 32 = 1 + v / 32 := by omega
    have hmod (v : Nat) : (32 + v) % 32 = v % 32 := by omega
    have hbit (v : Nat) : Mask.wordBit (Cell.flag · f) (s.cells.drop 1) v =
        s.raises f (32 + v) := by
      rw [raises, holds_eq_wordBit, Mask.wordBit, Mask.wordBit, ← Vector.getElem?_toList,
        Vector.toList_drop, List.getElem?_drop, Vector.getElem?_toList, hnext, hmod]
    rw [Mask.any_bne_zero, Bool.not_eq_true', Mask.isEmpty_eq_false_iff]
    simp only [Mask.contains_ofWords, hbit]
  simp only [isTall, Vector.any_eq_true, List.any_eq_true, Flag.mem_all, true_and, ← hflag]
  constructor
  · rintro ⟨i, hi, f, hne⟩
    exact ⟨f, i, hi, hne⟩
  · rintro ⟨f, i, hi, hne⟩
    exact ⟨i, hi, f, hne⟩

theorem isTall_eq (s : PackedSet c) :
    s.isTall = !s.toCapSet.raised.isWithin (Mask.below 32) := by
  rw [Bool.eq_iff_iff, isTall_iff, Bool.not_eq_true', ← Bool.not_eq_true, Mask.isWithin_iff]
  simp only [CapSet.contains_raised, contains_toCapSet, Mask.contains_below, decide_eq_true_eq]
  constructor
  · rintro ⟨f, v, hv⟩ hwithin
    have hlt := hwithin (32 + v) ⟨f, hv⟩
    omega
  · intro hbeyond
    by_contra hnone
    refine hbeyond fun v hv => ?_
    obtain ⟨f, hf⟩ := hv
    by_contra hle
    have hsplit : 32 + (v - 32) = v := by omega
    exact hnone ⟨f, v - 32, hsplit.symm ▸ hf⟩

theorem revisionFor_eq (floor : Nat) (s : PackedSet c) :
    s.revisionFor floor = FileAttribute.revisionFor c floor s.toCapSet := by
  rw [revisionFor, FileAttribute.revisionFor, isTall_eq]
  rfl

/-- The words of a set are the words that an attribute has room for. -/
theorem toNat_cell (s : PackedSet c) (f : Flag) :
    ((s.cell 0).flag f).toNat = FileAttribute.low (s.toCapSet.flag f) ∧
      ((s.cell 1).flag f).toNat = FileAttribute.high (s.toCapSet.flag f) := by
  have hbit (i v : Nat) : ((s.cell i).flag f).toNat.testBit v =
      (s.raises f (32 * i + v) && decide (v < 32)) := by
    show ((s.cell i).flag f).getLsbD v = _
    by_cases hv : v < 32
    · rw [raises_add s f i hv, decide_eq_true hv, Bool.and_true]
    · rw [BitVec.getLsbD_of_ge _ _ (Nat.le_of_not_lt hv), decide_eq_false hv, Bool.and_false]
  constructor
  · apply Nat.eq_of_testBit_eq
    intro v
    rw [hbit, FileAttribute.contains_low, contains_toCapSet, Nat.mul_zero, Nat.zero_add]
  · apply Nat.eq_of_testBit_eq
    intro v
    rw [hbit, FileAttribute.contains_high, contains_toCapSet, Nat.mul_one]

theorem ofWord_magic (revision : FileAttribute.Revision) (effective : Bool) :
    Bytes.ofWord (if effective then revision.magic ||| 0x00000001#32 else revision.magic) =
      [if effective then 1 else 0, 0, 0, revision.number] := by
  cases revision with
  | short => cases effective <;> rfl
  | long => cases effective <;> rfl
  | owned uid =>
      have hmagic : (FileAttribute.Revision.owned uid).magic = 0x03000000#32 := rfl
      rw [hmagic]
      cases effective <;> rfl

theorem attributeWords_eq (s : PackedSet c) :
    s.attributeWords 0 = [FileAttribute.low s.toCapSet.permitted,
        FileAttribute.low s.toCapSet.inheritable].flatMap (Bytes.ofNat 4) ∧
      s.attributeWords 1 = [FileAttribute.high s.toCapSet.permitted,
        FileAttribute.high s.toCapSet.inheritable].flatMap (Bytes.ofNat 4) := by
  obtain ⟨hp, hp'⟩ := toNat_cell s .permitted
  obtain ⟨hi, hi'⟩ := toNat_cell s .inheritable
  simp only [Cell.flag, CapSet.flag] at hp hp' hi hi'
  simp [attributeWords, Bytes.ofWord, hp, hp', hi, hi']

theorem attributeBytes_eq (s : PackedSet c) (revision : FileAttribute.Revision)
    (effective : Bool) : s.attributeBytes revision effective =
      FileAttribute.toBytes
        ⟨revision, effective, s.toCapSet.permitted, s.toCapSet.inheritable⟩ := by
  obtain ⟨hlow, hhigh⟩ := attributeWords_eq s
  have hone : List.range 1 = [0] := rfl
  have htwo : List.range 2 = [0, 1] := rfl
  have huid (uid : UserId) : Bytes.ofWord uid.toBitVec = Bytes.ofNat 4 uid.toNat := rfl
  rw [attributeBytes, ofWord_magic, FileAttribute.toBytes]
  cases revision <;>
    simp [FileAttribute.Revision.words, FileAttribute.Revision.owner?, hone, htwo, hlow, hhigh, huid]

/-- A file attribute is written as the masks are, and it is refused for the same sets. -/
theorem encodeAttribute_eq (floor : Nat) (s : PackedSet c) :
    s.encodeAttribute floor = FileAttribute.encode c floor s.toCapSet := by
  have hrefused : (s.isEffective && !s.isUniform) = true ↔
      ¬ FileAttribute.IsCarried s.toCapSet := by
    rw [isEffective_eq, isUniform_eq, Bool.and_eq_true, FileAttribute.IsCarried, not_or,
      ← Mask.isEmpty_iff, Bool.not_eq_true', Bool.not_eq_true, Bool.not_eq_true',
      decide_eq_false_iff_not]
  rw [encodeAttribute]
  by_cases hcarried : FileAttribute.IsCarried s.toCapSet
  · rw [if_neg (mt hrefused.mp (not_not_intro hcarried)), FileAttribute.encode,
      FileAttribute.ofCapSet_of_isCarried hcarried, attributeBytes_eq, isEffective_eq,
      revisionFor_eq]
    rfl
  · rw [if_pos (hrefused.mpr hcarried), FileAttribute.encode_of_not_isCarried hcarried]

theorem eq_of_map_toCapSet {x y : Except Fault (PackedSet c)}
    (h : x.map toCapSet = y.map toCapSet) : x = y := by
  cases x <;> cases y
  case ok.ok s t => exact congrArg Except.ok (toCapSet_injective (Except.ok.inj h))
  case error.error f g => exact congrArg Except.error (Except.error.inj h)
  case ok.error => cases h
  case error.ok => cases h

/-- Reading the external format writes the words of what the masks are read as. -/
theorem map_decodeExternal (c : Capacity) (data : Bytes) :
    (decodeExternal c data).map toCapSet = CapSet.External.decode c data := by
  have hwords := agrees_decodeExternal (c := c) data
  have hmasks := CapSet.agrees_decodeExternal (c := c) data
  revert hwords hmasks
  cases decodeExternal c data <;> cases CapSet.External.decode c data <;>
    cases PlainSet.decodeExternal c data <;> intro hwords hmasks
  case ok.ok.ok s t p =>
    have hflag (f : Flag) : s.toCapSet.flag f = t.flag f := by
      apply Mask.ext
      intro v
      rw [contains_toCapSet, Bool.eq_iff_iff]
      exact (hwords.raises_iff f v).trans (hmasks.raises_iff f v).symm
    have howner : s.owner = t.owner := hwords.owner_eq.trans hmasks.owner_eq.symm
    exact congrArg Except.ok (CapSet.ext_flag hflag howner)
  case error.error.error f g p =>
    exact congrArg Except.error (Eq.trans hwords (Eq.symm hmasks))
  all_goals first
    | exact hwords.elim
    | exact hmasks.elim

theorem fits_toCapSet (s : PackedSet c) : s.toCapSet.fits c = true ↔ fits s.cells = true := by
  simp only [CapSet.fits_iff, fits_iff, contains_toCapSet, raises]

/-- What was written in the external format is read back word by word, unless the words raise
what is not supported. -/
theorem decodeExternal_encodeExternal (s : PackedSet c) (floor : Nat) :
    decodeExternal c (s.encodeExternal floor) =
      if fits s.cells then .ok { s with owner := none } else .error .badValue := by
  have hused : CapSet.External.usedBytes s.toCapSet ≤ 8 := by
    rw [← usedBytes_eq, usedBytes_le_iff]
    intro f v hv
    have hlt := lt_width_of_raises hv
    have hwords := c.abi.words_le_two
    rw [Capacity.width] at hlt
    omega
  apply eq_of_map_toCapSet
  rw [map_decodeExternal, encodeExternal_eq,
    CapSet.External.decode_encode_of_usedBytes_le hused c floor]
  simp only [fits_toCapSet]
  split <;> rfl

/-- What was written as a file attribute is read back in place, word by word and with the
owner. -/
theorem scanAttribute_encodeAttribute {s : PackedSet c} (hfits : fits s.cells = true)
    (hcarried : FileAttribute.IsCarried s.toCapSet) (floor : Nat) :
    ∃ data, s.encodeAttribute floor = .ok data ∧ scanAttribute c data = some (.ok s) := by
  obtain ⟨data, hdata, -, hread⟩ :=
    FileAttribute.decode_of_isCarried ((fits_toCapSet s).mpr hfits) hcarried floor
  refine ⟨data, (encodeAttribute_eq floor s).trans hdata, ?_⟩
  rw [scanAttribute_eq]
  apply congrArg some
  apply eq_of_map_toCapSet
  rw [map_decodeAttribute, hread]
  rfl

end Capabilities.PackedSet
