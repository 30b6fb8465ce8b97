import Capabilities.Inheritance.Packed
import Capabilities.Proofs.CapSet.PackedBits
import Capabilities.Proofs.Inheritance.PlainTuple

/-!
# Tuples in words stand for tuples of masks

Every operation on words does to the bits of the words what its counterpart does
to the masks that the words stand for. A part follows another one only within the
word of a changed value, and so do the masks. A process is put in the same mode
whether words or masks are looked at.
-/

namespace Capabilities.PackedTuple

open Inheritance (Part Entry)

variable {c : Capacity}

/-- The tuple that the words stand for. -/
def toInheritance (t : PackedTuple c) : Inheritance :=
  let mask (p : Part) := Mask.ofWords (Inheritance.Cell.part · p) t.cells
  ⟨mask .inheritable, mask .ambient, mask .blocked⟩

@[simp] theorem part_toInheritance (t : PackedTuple c) (p : Part) :
    t.toInheritance.part p = Mask.ofWords (Inheritance.Cell.part · p) t.cells := by
  cases p <;> rfl

theorem contains_toInheritance (t : PackedTuple c) (p : Part) (v : Nat) :
    (t.toInheritance.part p).contains v = ((t.cell (v / 32)).part p).getLsbD (v % 32) := by
  rw [part_toInheritance, Mask.contains_ofWords, Mask.wordBit, cell]
  cases t.cells[v / 32]? <;> simp

/-- The three parts at once. -/
theorem contains_parts (t : PackedTuple c) (v : Nat) :
    t.toInheritance.inheritable.contains v =
        (t.cell (v / 32)).inheritable.getLsbD (v % 32) ∧
      t.toInheritance.ambient.contains v = (t.cell (v / 32)).ambient.getLsbD (v % 32) ∧
      t.toInheritance.blocked.contains v = (t.cell (v / 32)).blocked.getLsbD (v % 32) :=
  ⟨contains_toInheritance t .inheritable v, contains_toInheritance t .ambient v,
    contains_toInheritance t .blocked v⟩

theorem toInheritance_eq {t : PackedTuple c} {x : Inheritance}
    (h : ∀ p v, ((t.cell (v / 32)).part p).getLsbD (v % 32) = (x.part p).contains v) :
    t.toInheritance = x := by
  apply Inheritance.ext_part
  intro p
  apply Mask.ext
  intro v
  rw [contains_toInheritance, h]

@[simp] theorem toInheritance_empty : (empty c).toInheritance = Inheritance.empty := by
  apply toInheritance_eq
  intro p v
  rw [cell, empty, Vector.getElem?_replicate]
  split <;> simp

theorem cell_of_lt (t : PackedTuple c) {i : Nat} (hi : i < c.abi.words) :
    t.cell i = t.cells[i] := by
  rw [cell, Vector.getElem?_eq_getElem hi, Option.getD_some]

theorem cell_of_le (t : PackedTuple c) {i : Nat} (hi : c.abi.words ≤ i) :
    t.cell i = Inheritance.Cell.zero := by
  rw [cell, Vector.getElem?_eq_none hi, Option.getD_none]

theorem get_index (t : PackedTuple c) (u : Fin c.count) :
    t.cells.get (PackedSet.index u) = t.cell (u.val / 32) := by
  rw [← PackedSet.val_index, cell_of_lt t (PackedSet.index u).isLt]
  rfl

theorem get_eq (t : PackedTuple c) (p : Part) (v : Nat) :
    t.get p v = t.toInheritance.get c p v := by
  rw [get, Capacity.check, Inheritance.get, Capacity.admits]
  by_cases hv : v < c.count
  · rw [dif_pos hv, if_pos (decide_eq_true hv), contains_toInheritance, Except.map,
      PackedSet.and_bit_ne_zero, get_index]
  · rw [dif_neg hv, if_neg (mt of_decide_eq_true hv)]
    rfl

theorem cell_modify (t : PackedTuple c) (u : Fin c.count)
    (change : Inheritance.Cell → Inheritance.Cell) (i : Nat) :
    (t.modify u change).cell i = if i = u.val / 32 then change (t.cell i) else t.cell i := by
  rw [cell, modify, Inheritance.Cell.changeAt, get_index, Vector.getElem?_set,
    PackedSet.val_index]
  by_cases hi : i = u.val / 32
  · rw [if_pos hi.symm, if_pos hi, Option.getD_some, hi]
  · rw [if_neg (Ne.symm hi), if_neg hi, cell]

/-- A change of one value in words is its change in the masks. -/
theorem toInheritance_put (t : PackedTuple c) (p : Part) (on : Bool) (u : Fin c.count) :
    (t.modify u (·.put p on u)).toInheritance = t.toInheritance.put p on u := by
  apply toInheritance_eq
  intro q v
  obtain ⟨hinheritable, hambient, hblocked⟩ := contains_parts t v
  rw [cell_modify]
  by_cases hword : v / 32 = u.val / 32
  · have hbit : u.val % 32 = v % 32 ↔ u.val = v := by omega
    rw [if_pos hword]
    cases p <;> cases q <;>
      simp [Inheritance.put, Inheritance.part, Inheritance.Cell.put, Inheritance.Cell.part,
        Inheritance.contains_change, Mask.contains_word, PackedSet.getLsbD_write, hbit, hword,
        hinheritable, hambient, hblocked]
  · have hne : u.val ≠ v := fun h => hword (by rw [h])
    rw [if_neg hword]
    cases p <;> cases q <;>
      simp [Inheritance.put, Inheritance.part, Inheritance.Cell.part,
        Inheritance.contains_change, Mask.contains_word, hne, hword,
        hinheritable, hambient, hblocked]

theorem toInheritance_foldl_put (us : List (Fin c.count)) (t : PackedTuple c) (p : Part)
    (on : Bool) : (us.foldl (fun t u => t.modify u (·.put p on u)) t).toInheritance =
      (us.map Fin.val).foldl (fun x v => x.put p on v) t.toInheritance := by
  induction us generalizing t with
  | nil => rfl
  | cons u us ih => rw [List.foldl_cons, ih, toInheritance_put, List.map_cons, List.foldl_cons]

theorem map_set (t : PackedTuple c) (p : Part) (on : Bool) (vs : List Nat) :
    (t.set p on vs).map toInheritance = t.toInheritance.set c p on vs := by
  rw [set, Inheritance.set]
  by_cases hvs : ∀ v ∈ vs, v < c.count
  · obtain ⟨us, hus, rfl⟩ := PackedSet.mapM_check_of_lt hvs
    have hadmits : (us.map Fin.val).all c.admits = true :=
      List.all_eq_true.mpr fun v hv => decide_eq_true (hvs v hv)
    rw [hus, if_pos hadmits]
    exact congrArg Except.ok (toInheritance_foldl_put us t p on)
  · have hbeyond : ∃ v ∈ vs, c.count ≤ v := by
      simpa using hvs
    have hadmits : ¬ vs.all c.admits = true := fun hall =>
      hvs fun v hv => of_decide_eq_true (List.all_eq_true.mp hall v hv)
    rw [PackedSet.mapM_check_of_le hbeyond, if_neg hadmits]
    rfl

theorem cell_fill (t : PackedTuple c) (p : Part) (word : Nat → BitVec 32) {i : Nat}
    (hi : i < c.abi.words) : (t.fill p word).cell i =
      (t.cell i).fill p (word i) (PackedSet.wordBelow i c.count) := by
  rw [cell, cell, fill, Vector.getElem?_mapIdx, Vector.getElem?_eq_getElem hi]
  rfl

/-- Filled from the words of a mask, a part of the masks is filled from that mask. -/
theorem toInheritance_fill (t : PackedTuple c) (p : Part) {word : Nat → BitVec 32} {source : Mask}
    (hbits : ∀ v, source.contains v = (word (v / 32)).getLsbD (v % 32))
    (hwidth : ∀ v, source.contains v = true → v < c.width) :
    (t.fill p word).toInheritance = t.toInheritance.fill c p source := by
  apply toInheritance_eq
  intro q v
  obtain ⟨hinheritable, hambient, hblocked⟩ := contains_parts t v
  by_cases hword : v / 32 < c.abi.words
  · have hmod : v % 32 < 32 := Nat.mod_lt v (by decide)
    have hbelow : (~~~word (v / 32) &&& PackedSet.wordBelow (v / 32) c.count).getLsbD (v % 32) =
        (Mask.below c.count \ source).contains v := by
      rw [BitVec.getLsbD_and, BitVec.getLsbD_not, PackedSet.getLsbD_wordBelow, Nat.div_add_mod,
        Mask.contains_sdiff, Mask.contains_below, hbits, decide_eq_true hmod, Bool.true_and,
        Bool.and_comm]
      simp only [hmod, true_and]
    rw [cell_fill t p word hword]
    cases p with
    | blocked => cases q <;> simp only [Inheritance.Cell.fill, Inheritance.Cell.part,
        Inheritance.fill, Inheritance.part, hinheritable, hambient, hbelow]
    | _ => cases q <;> simp only [Inheritance.Cell.fill, Inheritance.Cell.part, Inheritance.fill,
        Inheritance.part, BitVec.getLsbD_and, BitVec.getLsbD_or, Mask.contains_inter,
        Mask.contains_union, hbits, hinheritable, hambient, hblocked]
  · have hbeyond : c.abi.words ≤ v / 32 := Nat.le_of_not_lt hword
    have hsource : source.contains v = false := by
      rw [← Bool.not_eq_true]
      intro hv
      have hlt := hwidth v hv
      rw [Capacity.width] at hlt
      omega
    have hcount : ¬ v < c.count := mt PackedSet.div_lt_words hword
    rw [cell_of_le t hbeyond] at hinheritable hambient hblocked
    rw [cell_of_le _ hbeyond, Inheritance.Cell.part_zero, BitVec.getLsbD_zero]
    simp only [Inheritance.Cell.zero, BitVec.getLsbD_zero] at hinheritable hambient hblocked
    cases p <;> cases q <;>
      simp [Inheritance.fill, Inheritance.part, hsource, hcount, hinheritable, hambient, hblocked]

theorem toInheritance_fillFrom (t : PackedTuple c) (p : Part) (s : PackedSet c) (f : Flag) :
    (t.fillFrom p s f).toInheritance = t.toInheritance.fill c p (s.toCapSet.flag f) := by
  apply toInheritance_fill
  · exact PackedSet.contains_toCapSet s f
  · intro v hv
    rw [PackedSet.contains_toCapSet] at hv
    exact PackedSet.lt_width_of_raises hv

theorem difference_eq (t u : PackedTuple c) :
    t.difference u = t.toInheritance.difference u.toInheritance := by
  have hwords (p : Part) : (∃ i, (t.cells.get i).part p ≠ (u.cells.get i).part p) ↔
      ∃ v, (t.toInheritance.part p).contains v ≠ (u.toInheritance.part p).contains v := by
    rw [← Mask.ne_iff, part_toInheritance, part_toInheritance, ne_eq, Mask.ofWords_inj]
    simp only [Classical.not_forall, ne_eq]
  apply Mask.ext
  intro n
  rw [Bool.eq_iff_iff, Inheritance.contains_difference, difference, Mask.contains_ofList,
    decide_eq_true_eq]
  simp only [← hwords, List.mem_flatMap, List.mem_map, List.mem_filter, List.mem_finRange,
    Part.mem_all, true_and, decide_eq_true_eq]
  constructor
  · rintro ⟨i, p, hdiffers, hposition⟩
    exact ⟨p, hposition, i, hdiffers⟩
  · rintro ⟨p, hposition, i, hdiffers⟩
    exact ⟨i, p, hdiffers, hposition⟩

theorem toInheritance_grant (t : PackedTuple c) (e : Entry) {u : Fin c.count}
    (hu : u.val = e.value) :
    (t.modify u (·.grant e)).toInheritance = e.apply t.toInheritance := by
  apply toInheritance_eq
  intro p v
  rw [cell_modify, Entry.contains_apply, contains_toInheritance, ← hu]
  by_cases hword : v / 32 = u.val / 32
  · have hbit : u.val % 32 = v % 32 ↔ u.val = v := by omega
    have hgrant (yes : Bool) (word : BitVec 32) :
        (if yes then word ||| PackedSet.bit e.value else word).getLsbD (v % 32) =
          (word.getLsbD (v % 32) || (yes && decide (u.val = v))) := by
      cases yes <;> simp [PackedSet.getLsbD_bit, ← hu, hbit]
    rw [if_pos hword]
    cases p <;> exact hgrant _ _
  · have hne : u.val ≠ v := fun h => hword (by rw [h])
    rw [if_neg hword, decide_eq_false hne, Bool.and_false, Bool.or_false]

theorem map_grantAll {es : List Entry} (h : ∀ e ∈ es, e.value < c.count) (t : PackedTuple c) :
    (t.grantAll es).map toInheritance = .ok (es.foldl Entry.apply t.toInheritance) := by
  induction es generalizing t with
  | nil => rfl
  | cons e es ih =>
      obtain ⟨he, hes⟩ := List.forall_mem_cons.mp h
      rw [List.foldl_cons, ← toInheritance_grant t e (u := ⟨e.value, he⟩) rfl, ← ih hes, grantAll,
        List.foldlM_cons, Capacity.check, dif_pos he]
      rfl

theorem map_ofText (text : String) :
    (ofText c text).map toInheritance = Inheritance.ofText c text := by
  rw [ofText, Inheritance.ofText, Inheritance.read?]
  by_cases hempty : text.toList = []
  · rw [if_pos hempty, if_pos hempty]
    exact congrArg Except.ok toInheritance_empty
  · rw [if_neg hempty, if_neg hempty]
    cases hentries : (text.toList.splitOn ',').mapM (Entry.read? c) with
    | none => rfl
    | some es =>
        have hlt : ∀ e ∈ es, e.value < c.count := by
          intro e he
          obtain ⟨piece, -, hpiece⟩ := Text.exists_read_of_mem hentries he
          exact Entry.lt_count_of_read? hpiece
        show ((empty c).grantAll es).map toInheritance = _
        rw [map_grantAll hlt, toInheritance_empty]
        rfl

/-- Compared word by word, a tuple exceeds a set if the masks say so. -/
theorem exceeds_eq (t : PackedTuple c) (s : PackedSet c) :
    t.exceeds s = !t.toInheritance.inheritable.isWithin
      (s.toCapSet.inheritable ∪ s.toCapSet.permitted) := by
  have hmask : Mask.ofWords (fun cells =>
        cells.2.inheritable &&& ~~~(cells.1.inheritable ||| cells.1.permitted))
          (s.cells.zip t.cells) =
      t.toInheritance.inheritable \ (s.toCapSet.inheritable ∪ s.toCapSet.permitted) := by
    apply Mask.ext
    intro v
    have hown := (contains_parts t v).1
    have hinheritable := PackedSet.contains_toCapSet s .inheritable v
    have hpermitted := PackedSet.contains_toCapSet s .permitted v
    rw [PackedSet.raises_eq_cell] at hinheritable hpermitted
    simp only [CapSet.flag] at hinheritable hpermitted
    rw [Mask.contains_ofWords, Mask.contains_sdiff, Mask.contains_union, hown, hinheritable,
      hpermitted]
    by_cases hword : v / 32 < c.abi.words
    · have hmod : v % 32 < 32 := Nat.mod_lt v (by decide)
      rw [Mask.wordBit_of_lt _ _ hword, Vector.getElem_zip, ← PackedSet.cell_of_lt s hword,
        ← cell_of_lt t hword]
      simp only [BitVec.getLsbD_and, BitVec.getLsbD_or, BitVec.getLsbD_not, decide_eq_true hmod,
        Bool.true_and, Cell.flag]
    · have hbeyond : c.abi.words ≤ v / 32 := Nat.le_of_not_lt hword
      rw [Mask.wordBit_of_le _ _ hbeyond, cell_of_le t hbeyond, Inheritance.Cell.zero,
        BitVec.getLsbD_zero, Bool.false_and]
  rw [Mask.isWithin, ← hmask, exceeds, ← Mask.any_bne_zero]

theorem cell_handOver (t : PackedTuple c) (s : PackedSet c) (i : Nat) :
    (t.handOver s).cell i = (s.cell i).withFlag .inheritable (t.cell i).inheritable := by
  by_cases hi : i < c.abi.words
  · rw [PackedSet.cell_of_lt _ hi, PackedSet.cell_of_lt _ hi]
    exact Vector.getElem_mapIdx ..
  · have hbeyond : c.abi.words ≤ i := Nat.le_of_not_lt hi
    rw [PackedSet.cell_of_le _ hbeyond, PackedSet.cell_of_le _ hbeyond, cell_of_le t hbeyond]
    rfl

theorem toCapSet_handOver (t : PackedTuple c) (s : PackedSet c) :
    (t.handOver s).toCapSet =
      s.toCapSet.withFlag .inheritable t.toInheritance.inheritable := by
  have howner : (t.handOver s).toCapSet.owner = s.toCapSet.owner := rfl
  refine CapSet.ext_flag (fun f => Mask.ext fun v => ?_)
    (howner.trans (CapSet.owner_withFlag _ _ _).symm)
  rw [PackedSet.contains_toCapSet, CapSet.flag_withFlag, PackedSet.raises_eq_cell, cell_handOver,
    Cell.flag_withFlag]
  split
  · exact (contains_parts t v).1.symm
  · exact (PackedSet.contains_toCapSet s f v).symm

end Capabilities.PackedTuple

namespace Capabilities.PackedSnapshot

variable {c : Capacity}

/-- The snapshot that the words stand for. -/
def toSnapshot (s : PackedSnapshot c) : Snapshot :=
  ⟨s.secbits, s.ambientSupported, s.caps.toCapSet, s.tuple.toInheritance⟩

theorem ofWords_wordBelow (c : Capacity) :
    Mask.ofWords id (Vector.ofFn fun i : Fin c.abi.words => PackedSet.wordBelow i c.count) =
      Mask.below c.count := by
  apply Mask.ext
  intro v
  rw [Mask.contains_ofWords, Mask.contains_below]
  by_cases hword : v / 32 < c.abi.words
  · have hmod : v % 32 < 32 := Nat.mod_lt v (by decide)
    rw [Mask.wordBit_of_lt _ _ hword, Vector.getElem_ofFn, id, PackedSet.getLsbD_wordBelow,
      Nat.div_add_mod]
    simp only [hmod, true_and]
  · have hcount : ¬ v < c.count := mt PackedSet.div_lt_words hword
    rw [Mask.wordBit_of_le _ _ (Nat.le_of_not_lt hword), decide_eq_false hcount]

/-- Some word of the blocked values differs from the supported ones if the masks differ. -/
theorem any_blocked_ne (s : PackedSnapshot c) :
    ((List.finRange c.abi.words).any fun i =>
      (s.tuple.cells.get i).blocked != PackedSet.wordBelow i c.count) = !s.toSnapshot.isBlocked c := by
  have hblocked : s.toSnapshot.tuple.blocked = Mask.ofWords (Inheritance.Cell.part · .blocked)
      s.tuple.cells := rfl
  have hbelow (i : Fin c.abi.words) : (Vector.ofFn fun i : Fin c.abi.words =>
      PackedSet.wordBelow i c.count).get i = PackedSet.wordBelow i c.count :=
    Vector.getElem_ofFn i.isLt
  rw [Bool.eq_iff_iff, Bool.not_eq_true', Snapshot.isBlocked, beq_eq_false_iff_ne, hblocked,
    ← ofWords_wordBelow, ne_eq, Mask.ofWords_inj]
  simp [Inheritance.Cell.part, hbelow]

/-- A process is in the mode that the masks put it in. -/
theorem classify_eq (s : PackedSnapshot c) : s.classify = Mode.classify c s.toSnapshot := by
  have hambient : (s.tuple.cells.any fun cell => cell.ambient != 0#32) =
      !s.toSnapshot.tuple.ambient.isEmpty := Mask.any_bne_zero _ _
  have hheld : (s.caps.cells.any fun cell => cell.permitted != 0#32 || cell.effective != 0#32) =
      (!s.toSnapshot.caps.permitted.isEmpty || !s.toSnapshot.caps.effective.isEmpty) := by
    have hpermitted := PackedSet.any_flag_ne_zero s.caps .permitted
    have heffective := PackedSet.any_flag_ne_zero s.caps .effective
    simp only [CapSet.flag, Cell.flag] at hpermitted heffective
    rw [toSnapshot, ← hpermitted, ← heffective, Bool.eq_iff_iff]
    simp only [Vector.any_eq_true, Bool.or_eq_true, exists_or]
  have hinheritable : (s.caps.cells.any fun cell => cell.inheritable != 0#32) =
      !s.toSnapshot.caps.inheritable.isEmpty := PackedSet.any_flag_ne_zero s.caps .inheritable
  rw [classify, Mode.classify, hambient, hinheritable, hheld, any_blocked_ne]
  rfl

end Capabilities.PackedSnapshot
