import Capabilities.CapSet.Scan
import Capabilities.Proofs.CapSet.Refinement
import Capabilities.Proofs.FileAttribute.RoundTrip

/-!
# What the bytes of an attribute say

An attribute of the right length for its revision has every word of its masks at
an offset of its own. So it can be read in place without ever reaching beyond its
end, and each supported value is looked up in one bit of it.
-/

namespace Capabilities

namespace FileAttribute

theorem contains_join_numberAt (data : Bytes) (first v : Nat) :
    (join (data.numberAt first) (data.numberAt (first + 8))).contains v =
      (decide (v < 64) && (data.numberAt (first + 8 * (v / 32))).testBit (v % 32)) := by
  have hword := Bytes.isWord_numberAt data
  rw [contains_join]
  obtain hlow | ⟨hlow, hhigh⟩ | hout : v < 32 ∨ (32 ≤ v ∧ v < 64) ∨ 64 ≤ v := by omega
  · have hdiv : v / 32 = 0 := by omega
    have hmod : v % 32 = v := by omega
    have hlt : v < 64 := by omega
    simp [hdiv, hmod, hlt, Nat.not_le.mpr hlow]
  · have hdiv : v / 32 = 1 := by omega
    have hmod : v % 32 = v - 32 := by omega
    have hfirst : (data.numberAt first).testBit v = false :=
      Bool.eq_false_iff.mpr fun hv => Nat.not_lt.mpr hlow (hword first v hv)
    simp [hdiv, hmod, hlow, hhigh, hfirst]
  · have hfirst : (data.numberAt first).testBit v = false :=
      Bool.eq_false_iff.mpr fun hv => by have := hword first v hv; omega
    have hsecond : (data.numberAt (first + 8)).testBit (v - 32) = false :=
      Bool.eq_false_iff.mpr fun hv => by have := hword (first + 8) (v - 32) hv; omega
    simp [hfirst, hsecond, Nat.not_lt.mpr hout]

theorem contains_join_numberAt_zero (data : Bytes) (first v : Nat) :
    (join (data.numberAt first) 0).contains v =
      (decide (v < 32) && (data.numberAt (first + 8 * (v / 32))).testBit (v % 32)) := by
  rw [contains_join, Nat.zero_testBit, Bool.and_false, Bool.or_false]
  by_cases hlow : v < 32
  · have hdiv : v / 32 = 0 := by omega
    have hmod : v % 32 = v := by omega
    simp [hdiv, hmod, hlow]
  · have hfirst : (data.numberAt first).testBit v = false :=
      Bool.eq_false_iff.mpr fun hv => hlow (Bytes.isWord_numberAt data first v hv)
    simp [hlow, hfirst]

/-- The parts of the attribute are found at their offsets. -/
structure IsAt (a : FileAttribute) (data : Bytes) : Prop where
  number : data[3]? = some a.revision.number
  length : data.length = a.revision.size
  effective : a.effective = (data.numberAt 0).testBit 0
  permitted : ∀ v, a.permitted.contains v =
    (decide (v < a.revision.span) && (data.numberAt (4 + 8 * (v / 32))).testBit (v % 32))
  inheritable : ∀ v, a.inheritable.contains v =
    (decide (v < a.revision.span) && (data.numberAt (8 + 8 * (v / 32))).testBit (v % 32))
  owner : a.revision.owner? =
    if a.revision.number = 3 then some (UInt32.ofNat (data.numberAt 20)) else none

theorem testBit_numberAt_zero (b₀ b₁ b₂ b₃ : UInt8) (rest : Bytes) :
    (Bytes.numberAt (b₀ :: b₁ :: b₂ :: b₃ :: rest) 0).testBit 0 = b₀.toNat.testBit 0 :=
  Bytes.testBit_toNat [b₀, b₁, b₂, b₃] 0

theorem isAt_of_ofBytes? {data : Bytes} {a : FileAttribute} (h : ofBytes? data = some a) :
    a.IsAt data := by
  have hlength := (of_ofBytes?_eq_some h).1
  unfold ofBytes? at h
  split at h
  next flags b₁ b₂ revision body =>
    have hflags := (testBit_numberAt_zero flags b₁ b₂ revision body).symm
    simp only at h
    split at h
    next p i hwords =>
      cases h
      obtain ⟨rfl, rfl⟩ : p = Bytes.numberAt body 0 ∧ i = Bytes.numberAt body 4 := by
        simpa [List.range_succ] using Bytes.eq_map_numberAt_of_words? hwords
      have hmask := contains_join_numberAt_zero (flags :: b₁ :: b₂ :: 1 :: body)
      exact ⟨rfl, hlength, hflags, hmask 4, hmask 8, rfl⟩
    next p i p' i' hwords =>
      cases h
      obtain ⟨rfl, rfl, rfl, rfl⟩ : p = Bytes.numberAt body 0 ∧ i = Bytes.numberAt body 4 ∧
          p' = Bytes.numberAt body 8 ∧ i' = Bytes.numberAt body 12 := by
        simpa [List.range_succ] using Bytes.eq_map_numberAt_of_words? hwords
      have hmask := contains_join_numberAt (flags :: b₁ :: b₂ :: 2 :: body)
      exact ⟨rfl, hlength, hflags, hmask 4, hmask 8, rfl⟩
    next p i p' i' uid hwords =>
      cases h
      obtain ⟨rfl, rfl, rfl, rfl, rfl⟩ : p = Bytes.numberAt body 0 ∧
          i = Bytes.numberAt body 4 ∧ p' = Bytes.numberAt body 8 ∧
          i' = Bytes.numberAt body 12 ∧ uid = Bytes.numberAt body 16 := by
        simpa [List.range_succ] using Bytes.eq_map_numberAt_of_words? hwords
      have hmask := contains_join_numberAt (flags :: b₁ :: b₂ :: 3 :: body)
      exact ⟨rfl, hlength, hflags, hmask 4, hmask 8, rfl⟩
    next => simp at h
  next => simp at h

/-- The four bytes of the magic number and what follows them. -/
theorem exists_cons_of_four_le {data : Bytes} (h : 4 ≤ data.length) :
    ∃ b₀ b₁ b₂ b₃ body, data = b₀ :: b₁ :: b₂ :: b₃ :: body := by
  match data, h with
  | b₀ :: b₁ :: b₂ :: b₃ :: body, _ => exact ⟨b₀, b₁, b₂, b₃, body, rfl⟩

/-- An attribute is read exactly when its length goes with its revision. -/
theorem exists_ofBytes?_iff (data : Bytes) :
    (∃ a, ofBytes? data = some a) ↔
      4 ≤ data.length ∧
        (data[3]?, data.length) ∈ [(some (1 : UInt8), 12), (some 2, 20), (some 3, 24)] := by
  constructor
  · rintro ⟨a, ha⟩
    have hat := isAt_of_ofBytes? ha
    rw [hat.number, hat.length]
    cases a.revision <;> simp [Revision.number, Revision.size]
  · rintro ⟨hfour, hmem⟩
    obtain ⟨b₀, b₁, b₂, b₃, body, rfl⟩ := exists_cons_of_four_le hfour
    simp only [List.mem_cons, List.not_mem_nil, or_false, Prod.mk.injEq, List.getElem?_cons_succ,
      List.getElem?_cons_zero, Option.some.injEq, List.length_cons] at hmem
    obtain ⟨rfl, hlen⟩ | ⟨rfl, hlen⟩ | ⟨rfl, hlen⟩ := hmem
    · have hwords := Bytes.words?_of_length (n := 2) (show body.length = _ by omega)
      exact Option.isSome_iff_exists.mp (by simp [ofBytes?, hwords, List.range_succ])
    · have hwords := Bytes.words?_of_length (n := 4) (show body.length = _ by omega)
      exact Option.isSome_iff_exists.mp (by simp [ofBytes?, hwords, List.range_succ])
    · have hwords := Bytes.words?_of_length (n := 5) (show body.length = _ by omega)
      exact Option.isSome_iff_exists.mp (by simp [ofBytes?, hwords, List.range_succ])

/-- The masked magic number is the byte of the revision in the highest place. -/
theorem magic_and_eq_iff (b₀ b₁ b₂ b₃ k : UInt8) (body : Bytes) :
    BitVec.ofNat 32 (Bytes.numberAt (b₀ :: b₁ :: b₂ :: b₃ :: body) 0) &&& 0xFF000000#32 =
      k.toBitVec.setWidth 32 <<< 24 ↔ b₃ = k := by
  have hmask : 0xFF000000#32 = BitVec.allOnes 32 <<< 24 := by decide
  have hbit {b : Nat} (hb : b < 32) : (BitVec.ofNat 32
      (Bytes.numberAt (b₀ :: b₁ :: b₂ :: b₃ :: body) 0) &&& 0xFF000000#32).getLsbD b =
        (b₃.toBitVec.setWidth 32 <<< 24).getLsbD b := by
    have hnumber : (Bytes.numberAt (b₀ :: b₁ :: b₂ :: b₃ :: body) 0).testBit b =
        ([b₀, b₁, b₂, b₃].getD (b / 8) 0).toNat.testBit (b % 8) := Bytes.testBit_toNat _ b
    rw [BitVec.getLsbD_and, BitVec.getLsbD_ofNat, hnumber, hmask, BitVec.getLsbD_shiftLeft,
      BitVec.getLsbD_allOnes, BitVec.getLsbD_shiftLeft, BitVec.getLsbD_setWidth]
    by_cases hlast : b < 24
    · simp [hlast]
    · have hdiv : b / 8 = 3 := by omega
      have hmod : b % 8 = b - 24 := by omega
      have hsub : b - 24 < 32 := by omega
      rw [hdiv, hmod]
      simp [hlast, hb, hsub, BitVec.getLsbD]
  have hshift : BitVec.ofNat 32 (Bytes.numberAt (b₀ :: b₁ :: b₂ :: b₃ :: body) 0) &&&
      0xFF000000#32 = b₃.toBitVec.setWidth 32 <<< 24 :=
    BitVec.eq_of_getLsbD_eq fun b hb => hbit hb
  rw [hshift]
  constructor
  · intro h
    refine UInt8.eq_of_toBitVec_eq (BitVec.eq_of_getLsbD_eq fun b hb => ?_)
    have hat := congrArg (BitVec.getLsbD · (24 + b)) h
    have hlt : 24 + b < 32 := by omega
    have hlt' : b < 32 := by omega
    have hle : ¬ 24 + b < 24 := by omega
    simpa [hlt, hlt', hle] using hat
  · rintro rfl
    rfl

/-- The masked magic number tells the layouts apart by the byte of the revision. -/
theorem find?_magic {data : Bytes} (hfour : 4 ≤ data.length) :
    Layout.find? (BitVec.ofNat 32 (data.numberAt 0) &&& 0xFF000000#32) data.length =
      if data[3]? = some 1 ∧ data.length = 12 then some ⟨1, none⟩
      else if data[3]? = some 2 ∧ data.length = 20 then some ⟨2, none⟩
      else if data[3]? = some 3 ∧ data.length = 24 then some ⟨2, some 20⟩
      else none := by
  obtain ⟨b₀, b₁, b₂, b₃, body, rfl⟩ := exists_cons_of_four_le hfour
  have hshort := magic_and_eq_iff b₀ b₁ b₂ b₃ 1 body
  have hlong := magic_and_eq_iff b₀ b₁ b₂ b₃ 2 body
  have howned := magic_and_eq_iff b₀ b₁ b₂ b₃ 3 body
  have hplace : ∀ k : UInt8, (b₀ :: b₁ :: b₂ :: b₃ :: body)[3]? = some k ↔ b₃ = k := by simp
  simp only [Layout.find?, hplace, ← hshort, ← hlong, ← howned]
  rfl

/-- The layout that an attribute of a revision has. -/
def Revision.layout : Revision → Layout
  | short => ⟨1, none⟩
  | long => ⟨2, none⟩
  | owned _ => ⟨2, some 20⟩

theorem Revision.span_eq (r : Revision) : r.span = 32 * r.layout.words := by
  cases r <;> rfl

theorem Revision.le_size (r : Revision) : 4 + 8 * r.layout.words ≤ r.size := by
  cases r <;> simp [Revision.layout, Revision.size]

theorem find?_of_ofBytes? {data : Bytes} {a : FileAttribute} (h : ofBytes? data = some a) :
    Layout.find? (BitVec.ofNat 32 (data.numberAt 0) &&& 0xFF000000#32) data.length =
      some a.revision.layout := by
  have hat := isAt_of_ofBytes? h
  have hfour := ((exists_ofBytes?_iff data).mp ⟨a, h⟩).1
  rw [find?_magic hfour, hat.number, hat.length]
  cases a.revision <;> simp [Revision.number, Revision.size, Revision.layout]

theorem find?_of_ofBytes?_none {data : Bytes} (hfour : 4 ≤ data.length)
    (h : ofBytes? data = none) :
    Layout.find? (BitVec.ofNat 32 (data.numberAt 0) &&& 0xFF000000#32) data.length = none := by
  have hnot := mt (exists_ofBytes?_iff data).mpr (by simp [h])
  simp only [hfour, true_and, List.mem_cons, Prod.mk.injEq, List.not_mem_nil, or_false,
    not_or] at hnot
  rw [find?_magic hfour, if_neg hnot.1, if_neg hnot.2.1, if_neg hnot.2.2]

end FileAttribute

namespace PackedSet

open FileAttribute

variable {c : Capacity} {data : Bytes} {a : FileAttribute}

/-- Word `i` of a mask is the masked number at its offset, as far as the mask has words. -/
theorem maskWord_eq {m : Mask} {first words : Nat} (h : ∀ v, m.contains v =
      (decide (v < 32 * words) && (data.numberAt (first + 8 * (v / 32))).testBit (v % 32)))
    (i : Nat) : maskWord c m i =
      if i < words then
        BitVec.ofNat 32 (data.numberAt (first + 8 * i)) &&& wordBelow i c.count
      else 0#32 := by
  have hword {b : Nat} (hb : b < 32) : (BitVec.ofNat 32 (m.bits >>> (32 * i))).getLsbD b =
      (decide (i < words) && (BitVec.ofNat 32 (data.numberAt (first + 8 * i))).getLsbD b) := by
    have hdiv : (32 * i + b) / 32 = i := by omega
    have hmod : (32 * i + b) % 32 = b := by omega
    have hlt : 32 * i + b < 32 * words ↔ i < words := by omega
    have hbit := h (32 * i + b)
    rw [hdiv, hmod, decide_eq_decide.mpr hlt] at hbit
    rw [BitVec.getLsbD_ofNat, BitVec.getLsbD_ofNat, Nat.testBit_shiftRight, decide_eq_true hb,
      Bool.true_and, Bool.true_and]
    exact hbit
  refine BitVec.eq_of_getLsbD_eq fun b hb => ?_
  rw [maskWord, BitVec.getLsbD_and, hword hb]
  split
  next hlt => rw [decide_eq_true hlt, Bool.true_and, BitVec.getLsbD_and]
  next hge => rw [decide_eq_false hge, Bool.false_and, Bool.false_and, BitVec.getLsbD_zero]

theorem maskWord_permitted (hat : a.IsAt data) (i : Nat) : maskWord c a.permitted i =
    if i < a.revision.layout.words then
      BitVec.ofNat 32 (data.numberAt (4 + 8 * i)) &&& wordBelow i c.count
    else 0#32 :=
  maskWord_eq (fun v => a.revision.span_eq ▸ hat.permitted v) i

theorem maskWord_inheritable (hat : a.IsAt data) (i : Nat) : maskWord c a.inheritable i =
    if i < a.revision.layout.words then
      BitVec.ofNat 32 (data.numberAt (8 + 8 * i)) &&& wordBelow i c.count
    else 0#32 :=
  maskWord_eq (fun v => a.revision.span_eq ▸ hat.inheritable v) i

/-- A cell within the words of the revision is read from within the attribute. -/
theorem scanCell_of_lt (hat : a.IsAt data) {i : Nat} (hi : i < a.revision.layout.words) :
    scanCell c data a.effective i = some (attributeCell c a i) := by
  have hlength : 4 + 8 * a.revision.layout.words ≤ data.length :=
    hat.length ▸ a.revision.le_size
  have hp : 4 + 8 * i + 4 ≤ data.length := by omega
  have hq : 8 + 8 * i + 4 ≤ data.length := by omega
  rw [scanCell, Bytes.word?, if_pos hp, Bytes.word?, if_pos hq, attributeCell,
    maskWord_permitted hat, maskWord_inheritable hat, if_pos hi, if_pos hi]
  rfl

/-- Beyond the words of the revision there is nothing. -/
theorem attributeCell_of_le (hat : a.IsAt data) {i : Nat}
    (hi : a.revision.layout.words ≤ i) : attributeCell c a i = Cell.zero := by
  have hnot := Nat.not_lt.mpr hi
  rw [attributeCell, maskWord_permitted hat, maskWord_inheritable hat, if_neg hnot, if_neg hnot]
  cases a.effective <;> rfl

/-- Reading cells one after the other writes those that are asked for and no others. -/
theorem foldlM_scanInto {n : Nat} {effective : Bool} {cell : Nat → Cell} (is : List (Fin n))
    (h : ∀ i ∈ is, scanCell c data effective i = some (cell i)) (cells : Vector Cell n) :
    ∃ cells', is.foldlM (scanInto c data effective) cells = some cells' ∧
      ∀ j, (j ∈ is → cells'.get j = cell j) ∧ (j ∉ is → cells'.get j = cells.get j) := by
  induction is generalizing cells with
  | nil => exact ⟨cells, rfl, fun j => ⟨fun hj => absurd hj List.not_mem_nil, fun _ => rfl⟩⟩
  | cons i is ih =>
      obtain ⟨hfirst, hrest⟩ := List.forall_mem_cons.mp h
      obtain ⟨cells', hcells', hread⟩ := ih hrest (cells.set i.val (cell i) i.isLt)
      refine ⟨cells', ?_, fun j => ⟨fun hj => ?_, fun hj => ?_⟩⟩
      · rw [List.foldlM_cons, scanInto, hfirst]
        exact hcells'
      · by_cases hlater : j ∈ is
        · exact (hread j).1 hlater
        · obtain rfl := (List.mem_cons.mp hj).resolve_right hlater
          exact ((hread j).2 hlater).trans (Vector.getElem_set_self j.isLt)
      · obtain ⟨hne, hlater⟩ := not_or.mp (mt List.mem_cons.mpr hj)
        have hother := Fin.val_ne_of_ne (Ne.symm hne)
        exact ((hread j).2 hlater).trans (Vector.getElem_set_ne i.isLt j.isLt hother)

/-- All cells of an attribute are written as its words say. -/
theorem scanCells_eq (hat : a.IsAt data) :
    scanCells c data a.effective a.revision.layout.words =
      some (Vector.ofFn fun i => attributeCell c a i) := by
  have hmem (i : Fin c.abi.words) :
      i ∈ (List.finRange c.abi.words).take a.revision.layout.words ↔
        i.val < a.revision.layout.words := by
    rw [List.mem_take_iff_getElem]
    constructor
    · rintro ⟨k, hk, rfl⟩
      rw [List.getElem_finRange]
      exact Nat.lt_of_lt_of_le hk (Nat.min_le_left _ _)
    · intro hlt
      exact ⟨i, by simpa using hlt, by simp⟩
  obtain ⟨cells, hcells, hread⟩ := foldlM_scanInto _
    (fun i hi => scanCell_of_lt (c := c) hat ((hmem i).mp hi))
    (Vector.replicate c.abi.words Cell.zero)
  rw [scanCells, hcells]
  refine congrArg some (Vector.ext fun i hi => ?_)
  obtain ⟨hread, hkept⟩ := hread ⟨i, hi⟩
  rw [Vector.getElem_ofFn]
  by_cases hword : i < a.revision.layout.words
  · exact hread ((hmem _).mpr hword)
  · rw [attributeCell_of_le hat (Nat.not_lt.mp hword)]
    exact (hkept (mt (hmem _).mp hword)).trans (Vector.getElem_replicate hi)

theorem scanOwner_eq (hat : a.IsAt data) :
    scanOwner data a.revision.layout.ownerOffset = some a.revision.owner? := by
  have howner := hat.owner
  have hlength := hat.length
  cases hrevision : a.revision with
  | short => rfl
  | long => rfl
  | owned uid =>
      rw [hrevision] at howner hlength
      have hread : 20 + 4 ≤ data.length := Nat.le_of_eq hlength.symm
      have huid : Revision.owner? (.owned uid) = some (UInt32.ofNat (data.numberAt 20)) := howner
      rw [huid, Revision.layout, scanOwner, Bytes.word?, if_pos hread]
      rfl

theorem effective_eq (hat : a.IsAt data) :
    ((BitVec.ofNat 32 (data.numberAt 0) &&& 0x00FFFFFF#32 &&& 0x00000001#32) != 0#32) =
      a.effective := by
  have hlowest : 0x00FFFFFF#32 &&& 0x00000001#32 = bit 0 := by decide
  rw [BitVec.and_assoc, hlowest, and_bit_ne_zero, hat.effective, BitVec.getLsbD_ofNat]
  rfl

/-- Reading in place never leaves the byte string, and gives what the attribute means. -/
theorem scanAttribute_eq (c : Capacity) (data : Bytes) :
    scanAttribute c data = some (decodeAttribute c data) := by
  rw [scanAttribute, decodeAttribute]
  split
  next hshort =>
    have hnone : ofBytes? data = none := by
      apply Option.eq_none_iff_forall_ne_some.mpr
      intro a ha
      have hfour := ((exists_ofBytes?_iff data).mp ⟨a, ha⟩).1
      omega
    rw [hnone]
  next hfour =>
    rw [Bytes.word?, if_pos (by omega), Option.bind_some]
    cases h : ofBytes? data with
    | none => rw [find?_of_ofBytes?_none (Nat.not_lt.mp hfour) h]
    | some a =>
        have hat := isAt_of_ofBytes? h
        simp only [find?_of_ofBytes? h, scanOwner_eq hat, effective_eq hat, scanCells_eq hat,
          Option.bind_some, Option.map_some]

/-- The words stand for the set that the attribute means. -/
theorem toCapSet_attributeCell (c : Capacity) (a : FileAttribute) :
    toCapSet (c := c) ⟨Vector.ofFn fun i => attributeCell c a i, a.revision.owner?⟩ =
      a.toCapSet c := by
  refine CapSet.ext_flag (fun f => Mask.ext fun v => ?_) rfl
  rw [contains_toCapSet, raises, holds_attributeCell, CapSet.contains_toCapSet]

theorem map_decodeAttribute (c : Capacity) (data : Bytes) :
    (decodeAttribute c data).map toCapSet = FileAttribute.decode c data := by
  rw [decodeAttribute, FileAttribute.decode]
  cases ofBytes? data with
  | none => rfl
  | some a => exact congrArg Except.ok (toCapSet_attributeCell c a)

end PackedSet

namespace FileAttribute

theorem lt_span_iff {data : Bytes} {a : FileAttribute} (hat : a.IsAt data) (v : Nat) :
    v < a.revision.span ↔ v / 32 < if data[3]? = some 1 then 1 else 2 := by
  rw [hat.number]
  cases a.revision <;> simp only [Revision.number, Revision.span] <;> simp <;> omega

theorem owner?_eq_ite {data : Bytes} {a : FileAttribute} (hat : a.IsAt data) :
    a.revision.owner? =
      if data[3]? = some 3 then some (UInt32.ofNat (data.numberAt 20)) else none := by
  rw [hat.owner, hat.number]
  simp only [Option.some.injEq]

/-- Reading an attribute in place never leaves its bytes, and gives the set that is read
from its words. It is refused exactly when its length does not go with its revision,
whatever the flags say. Each supported value is raised as the bit of its word says, the
effective flag is all that is permitted or inheritable or nothing, no unsupported value is
raised, and the owner is the last number of the revision that has one. -/
theorem decode_reads_words (c : Capacity) (data : Bytes) :
    PackedSet.scanAttribute c data = some (PackedSet.decodeAttribute c data) ∧
    (PackedSet.decodeAttribute c data).map PackedSet.toCapSet = decode c data ∧
    ((∃ s, decode c data = .ok s) ↔
      4 ≤ data.length ∧
        (data[3]?, data.length) ∈ [(some (1 : UInt8), 12), (some 2, 20), (some 3, 24)]) ∧
    ((¬ ∃ s, decode c data = .ok s) → decode c data = .error .badPayload) ∧
    ∀ s, decode c data = .ok s →
      (∀ v, s.permitted.contains v = true ↔
        v < c.count ∧ v / 32 < (if data[3]? = some 1 then 1 else 2) ∧
          (data.numberAt (4 + 8 * (v / 32))).testBit (v % 32) = true) ∧
      (∀ v, s.inheritable.contains v = true ↔
        v < c.count ∧ v / 32 < (if data[3]? = some 1 then 1 else 2) ∧
          (data.numberAt (8 + 8 * (v / 32))).testBit (v % 32) = true) ∧
      (∀ v, s.effective.contains v = true ↔
        (data.numberAt 0).testBit 0 = true ∧
          (s.permitted.contains v = true ∨ s.inheritable.contains v = true)) ∧
      (∀ f v, (s.flag f).contains v = true → v < c.count) ∧
      s.owner = if data[3]? = some 3 then some (UInt32.ofNat (data.numberAt 20)) else none := by
  have hsome : (∃ s, decode c data = .ok s) ↔ ∃ a, ofBytes? data = some a := by
    simp only [decode_eq_ok_iff]
    exact ⟨fun ⟨_, a, ha, _⟩ => ⟨a, ha⟩, fun ⟨a, ha⟩ => ⟨_, a, ha, rfl⟩⟩
  refine ⟨PackedSet.scanAttribute_eq c data, PackedSet.map_decodeAttribute c data,
    hsome.trans (exists_ofBytes?_iff data), fun hfailed => ?_, fun s hs => ?_⟩
  · rw [hsome, not_exists] at hfailed
    rw [decode, Option.eq_none_iff_forall_ne_some.mpr hfailed]
  · obtain ⟨a, ha, rfl⟩ := decode_eq_ok_iff.mp hs
    have hat := isAt_of_ofBytes? ha
    have hbit (m : Mask) (offset : Nat) (h : ∀ v, m.contains v =
        (decide (v < a.revision.span) && (data.numberAt (offset + 8 * (v / 32))).testBit (v % 32)))
        (v : Nat) : (m ∩ Mask.below c.count).contains v = true ↔
          v < c.count ∧ v / 32 < (if data[3]? = some 1 then 1 else 2) ∧
            (data.numberAt (offset + 8 * (v / 32))).testBit (v % 32) = true := by
      rw [Mask.contains_inter, Mask.contains_below, h, ← lt_span_iff hat]
      simp only [Bool.and_eq_true, decide_eq_true_eq]
      exact and_comm
    refine ⟨hbit _ 4 hat.permitted, hbit _ 8 hat.inheritable, fun v => ?_, fun f v hv => ?_,
      owner?_eq_ite hat⟩
    · rw [← hat.effective]
      cases heffective : a.effective <;> simp [toCapSet, heffective]
    · exact CapSet.contains_of_fits (fits_toCapSet c a) hv

/-- An owned attribute with meaningless flags, whose second word raises unsupported values. -/
def strayBytes : Bytes :=
  [0x81, 0xff, 0x10, 3, 0x01, 0, 0, 0x80, 0, 0, 0, 0, 0xff, 0xff, 0, 0x80, 0, 0, 0, 0,
    0xa0, 0x86, 0x01, 0]

theorem decode_reads_words_strayBytes :
    ∃ s, decode usual strayBytes = .ok s ∧ s.effective.contains 31 = true ∧
      s.permitted.contains 40 = true ∧ s.permitted.contains 41 = false ∧
      s.owner = some 100000 := by
  obtain ⟨-, -, hiff, -, hread⟩ := decode_reads_words usual strayBytes
  obtain ⟨s, hs⟩ := hiff.mpr (by decide)
  obtain ⟨hpermitted, -, heffective, -, howner⟩ := hread s hs
  refine ⟨s, hs, (heffective 31).mpr ⟨by decide, .inl ((hpermitted 31).mpr (by decide))⟩,
    (hpermitted 40).mpr (by decide), Bool.eq_false_iff.mpr fun h => ?_, howner.trans (by decide)⟩
  exact absurd ((hpermitted 41).mp h).1 (by decide)

end FileAttribute

end Capabilities
