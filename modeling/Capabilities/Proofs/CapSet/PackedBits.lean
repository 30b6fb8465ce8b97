import Capabilities.Proofs.CapSet.ExternalForm
import Capabilities.Proofs.Mask.Words

/-!
# The bits of a packed set

The bit of value `v` is bit `v % 32` of cell `v / 32`. Each operation on packed
sets is described by what it does to these bits; bits beyond the last cell read
as lowered. A byte string is written triple by triple, so reading it is an
induction over the triples, with the bits that have been written so far.
-/

namespace Capabilities.PackedSet

open CapSet.External (Triple)

variable {c : Capacity} {n : Nat}

/-- Whether the bit of a number is set in a flag. -/
def holds (cells : Vector Cell n) (f : Flag) (v : Nat) : Bool :=
  ((cells[v / 32]?.getD Cell.zero).flag f).getLsbD (v % 32)

theorem holds_eq_wordBit (cells : Vector Cell n) (f : Flag) (v : Nat) :
    holds cells f v = Mask.wordBit (Cell.flag · f) cells v := by
  rw [holds, Mask.wordBit]
  cases cells[v / 32]? <;> simp

theorem holds_of_lt (cells : Vector Cell n) (f : Flag) {v : Nat} (h : v / 32 < n) :
    holds cells f v = (cells[v / 32].flag f).getLsbD (v % 32) :=
  (holds_eq_wordBit cells f v).trans (Mask.wordBit_of_lt _ cells h)

theorem holds_of_le (cells : Vector Cell n) (f : Flag) {v : Nat} (h : n ≤ v / 32) :
    holds cells f v = false :=
  (holds_eq_wordBit cells f v).trans (Mask.wordBit_of_le _ cells h)

theorem lt_of_holds {cells : Vector Cell n} {f : Flag} {v : Nat} (h : holds cells f v = true) :
    v / 32 < n :=
  Mask.div_lt_of_wordBit ((holds_eq_wordBit cells f v).symm.trans h)

theorem holds_add (cells : Vector Cell n) (f : Flag) {i b : Nat} (hi : i < n) (hb : b < 32) :
    holds cells f (32 * i + b) = (cells[i].flag f).getLsbD b :=
  (holds_eq_wordBit cells f _).trans (Mask.wordBit_add _ cells hi hb)

theorem holds_replicate_zero (f : Flag) (v : Nat) :
    holds (Vector.replicate n Cell.zero) f v = false := by
  rw [holds, Vector.getElem?_replicate]
  split <;> simp

theorem holds_set (cells : Vector Cell n) {i : Nat} (hi : i < n) (cell : Cell) (f : Flag)
    (v : Nat) : holds (cells.set i cell hi) f v =
      if v / 32 = i then (cell.flag f).getLsbD (v % 32) else holds cells f v := by
  rw [holds_eq_wordBit, Mask.wordBit_set, holds_eq_wordBit]

/-- Cells that hold the same bits are the same word by word. -/
theorem flag_eq_iff (a b : Vector Cell n) (f : Flag) :
    (∀ i : Fin n, a[i].flag f = b[i].flag f) ↔ ∀ v, holds a f v = holds b f v := by
  simp only [holds_eq_wordBit]
  exact Mask.word_eq_iff (Cell.flag · f) (Cell.flag · f) a b

theorem fits_iff (cells : Vector Cell c.abi.words) :
    fits cells = true ↔ ∀ f v, holds cells f v = true → v < c.count := by
  simp only [fits, List.all_eq_true, List.mem_finRange, Flag.mem_all, true_implies, beq_iff_eq]
  constructor
  · intro h f v hv
    apply Decidable.byContradiction
    intro hcount
    have hword := lt_of_holds hv
    rw [holds_of_lt cells f hword] at hv
    have hbit := congrArg (BitVec.getLsbD · (v % 32)) (h ⟨v / 32, hword⟩ f)
    simp only [Fin.getElem_fin, BitVec.getLsbD_and, BitVec.getLsbD_not, hv, getLsbD_wordBelow,
      BitVec.getLsbD_zero, Bool.true_and, Bool.and_eq_false_iff, decide_eq_false_iff_not,
      Bool.not_eq_false', decide_eq_true_eq] at hbit
    omega
  · intro h i f
    refine BitVec.eq_of_getLsbD_eq fun b hb => ?_
    have hcount := h f (32 * i + b)
    rw [holds_add cells f i.isLt hb] at hcount
    rw [BitVec.getLsbD_and, BitVec.getLsbD_not, getLsbD_wordBelow, BitVec.getLsbD_zero]
    cases hbit : (cells[i].flag f).getLsbD b with
    | false => rfl
    | true => simp [hb, hcount hbit]

/-- Whether a number is raised in a flag. -/
def raises (s : PackedSet c) (f : Flag) (v : Nat) : Bool := holds s.cells f v

theorem raises_eq_cell (s : PackedSet c) (f : Flag) (v : Nat) :
    s.raises f v = ((s.cell (v / 32)).flag f).getLsbD (v % 32) := rfl

theorem raises_add (s : PackedSet c) (f : Flag) (i : Nat) {b : Nat} (hb : b < 32) :
    s.raises f (32 * i + b) = ((s.cell i).flag f).getLsbD b := by
  have hdiv : (32 * i + b) / 32 = i := by omega
  have hmod : (32 * i + b) % 32 = b := by omega
  rw [raises_eq_cell, hdiv, hmod]

theorem cell_of_lt (s : PackedSet c) {i : Nat} (hi : i < c.abi.words) : s.cell i = s.cells[i] := by
  rw [cell, Vector.getElem?_eq_getElem hi, Option.getD_some]

theorem cell_of_le (s : PackedSet c) {i : Nat} (hi : c.abi.words ≤ i) : s.cell i = Cell.zero := by
  rw [cell, Vector.getElem?_eq_none hi, Option.getD_none]

/-- Every supported value has a cell. -/
theorem div_lt_words {v : Nat} (h : v < c.count) : v / 32 < c.abi.words := by
  have hle := c.count_le
  omega

theorem val_index (u : Fin c.count) : (index u).val = u.val / 32 :=
  Nat.shiftRight_eq_div_pow u.val 5

theorem get_eq (s : PackedSet c) (f : Flag) (v : Nat) :
    s.get f v = if v < c.count then .ok (s.raises f v) else .error .badValue := by
  rw [get, Capacity.check]
  by_cases hv : v < c.count
  · rw [dif_pos hv, if_pos hv, raises, holds_of_lt _ _ (div_lt_words hv), ← and_bit_ne_zero]
    simp only [Except.map, Fin.getElem_fin, val_index]
  · rw [dif_neg hv, if_neg hv]
    rfl

theorem raises_put (s : PackedSet c) (f g : Flag) (on : Bool) (u : Fin c.count) (v : Nat) :
    (s.put f on u).raises g v = if g = f ∧ u.val = v then on else s.raises g v := by
  rw [raises, put, holds_set, val_index]
  by_cases hword : v / 32 = u.val / 32
  · have hcell : (s.cells[index u].flag g).getLsbD (v % 32) = s.raises g v := by
      rw [raises, holds_of_lt s.cells g (hword ▸ div_lt_words u.isLt)]
      simp only [Fin.getElem_fin, val_index, hword]
    rw [if_pos hword, Cell.flag_withFlag]
    by_cases hflag : g = f
    · have hbit : u.val % 32 = v % 32 ↔ u.val = v := by omega
      subst hflag
      rw [if_pos rfl, getLsbD_write, hcell]
      simp only [hbit, true_and]
    · rw [if_neg hflag, if_neg (fun h => hflag h.1), hcell]
  · -- No bit of another word is the one that is written.
    have hne : u.val ≠ v := fun h => hword (by rw [h])
    rw [if_neg hword, if_neg (fun h => hne h.2), raises]

theorem raises_foldl_put (us : List (Fin c.count)) (s : PackedSet c) (f g : Flag) (on : Bool)
    (v : Nat) :
    (us.foldl (fun s u => s.put f on u) s).raises g v =
      if g = f ∧ v ∈ us.map Fin.val then on else s.raises g v := by
  induction us generalizing s with
  | nil => simp
  | cons u us ih =>
      have hmem : v ∈ (u :: us).map Fin.val ↔ v ∈ us.map Fin.val ∨ u.val = v := by
        rw [List.map_cons, List.mem_cons, @eq_comm _ v, or_comm]
      rw [List.foldl_cons, ih, raises_put]
      simp only [hmem]
      by_cases hg : g = f <;> by_cases hus : v ∈ us.map Fin.val <;> simp [hg, hus]

theorem owner_foldl_put (us : List (Fin c.count)) (s : PackedSet c) (f : Flag) (on : Bool) :
    (us.foldl (fun s u => s.put f on u) s).owner = s.owner := by
  induction us generalizing s with
  | nil => rfl
  | cons u us ih => exact ih (s.put f on u)

theorem mapM_check_of_lt {vs : List Value} (h : ∀ v ∈ vs, v < c.count) :
    ∃ us, vs.mapM c.check = .ok us ∧ us.map Fin.val = vs := by
  induction vs with
  | nil => exact ⟨[], rfl, rfl⟩
  | cons v vs ih =>
      obtain ⟨hv, hvs⟩ := List.forall_mem_cons.mp h
      obtain ⟨us, hus, rfl⟩ := ih hvs
      refine ⟨⟨v, hv⟩ :: us, ?_, rfl⟩
      rw [List.mapM_cons, hus, Capacity.check, dif_pos hv]
      rfl

theorem mapM_check_of_le {vs : List Nat} (h : ∃ v ∈ vs, c.count ≤ v) :
    vs.mapM c.check = .error .badValue := by
  induction vs with
  | nil => simp at h
  | cons v vs ih =>
      rw [List.mapM_cons, Capacity.check]
      by_cases hv : v < c.count
      · have hrest : ∃ u ∈ vs, c.count ≤ u := by
          obtain ⟨u, hu, hle⟩ := h
          rcases List.mem_cons.mp hu with rfl | hmem
          · omega
          · exact ⟨u, hmem, hle⟩
        rw [dif_pos hv, ih hrest]
        rfl
      · rw [dif_neg hv]
        rfl

theorem raises_fill (s : PackedSet c) (target source g : Flag) (v : Nat) :
    (s.fill target source).raises g v = s.raises (if g = target then source else g) v := by
  simp only [raises, holds, fill, Vector.getElem?_map]
  cases s.cells[v / 32]? with
  | none => simp
  | some cell => by_cases h : g = target <;> simp [h]

theorem raises_clearFlag (s : PackedSet c) (f g : Flag) (v : Nat) :
    (s.clearFlag f).raises g v = if g = f then false else s.raises g v := by
  simp only [raises, holds, clearFlag, force, Vector.getElem?_mapIdx]
  cases s.cells[v / 32]? with
  | none => simp
  | some cell => by_cases h : g = f <;> simp [h]

theorem raises_clear (s : PackedSet c) (f : Flag) (v : Nat) : s.clear.raises f v = false := by
  simp only [raises, holds, clear, Vector.getElem?_map]
  cases s.cells[v / 32]? <;> simp

theorem contains_difference (s t : PackedSet c) (i : Nat) :
    (s.difference t).contains i = true ↔
      ∃ f : Flag, f.position = i ∧ ∃ v, s.raises f v ≠ t.raises f v := by
  have hwords (f : Flag) := not_congr (flag_eq_iff s.cells t.cells f)
  simp only [Classical.not_forall] at hwords
  simp only [raises, ne_eq, ← hwords, difference, Mask.contains_ofList, decide_eq_true_eq,
    List.mem_flatMap, List.mem_map, List.mem_filter, List.mem_finRange, Flag.mem_all, true_and]
  constructor
  · rintro ⟨word, f, hdiffers, hposition⟩
    exact ⟨f, hposition, word, hdiffers⟩
  · rintro ⟨f, hposition, word, hdiffers⟩
    exact ⟨word, f, hdiffers, hposition⟩

theorem isEmpty_iff (s : PackedSet c) : s.isEmpty = true ↔ ∀ f v, s.raises f v = false := by
  have hwords (f : Flag) := flag_eq_iff s.cells (Vector.replicate c.abi.words Cell.zero) f
  simp only [holds_replicate_zero] at hwords
  simp only [isEmpty, List.all_eq_true, List.mem_finRange, Flag.mem_all, true_implies, beq_iff_eq]
  rw [forall_comm]
  refine forall_congr' fun f => (Iff.trans ?_ (hwords f))
  simp

/-- Whether triples, numbered from `j` on, raise a number in a flag. -/
def tripleBitFrom (ts : List Triple) (j : Nat) (f : Flag) (v : Nat) : Bool :=
  decide (j ≤ v / 8) && ((ts.map fun t => t.byte f).getD (v / 8 - j) 0).toNat.testBit (v % 8)

theorem tripleBitFrom_cons (t : Triple) (ts : List Triple) (j : Nat) (f : Flag) (v : Nat) :
    tripleBitFrom (t :: ts) j f v =
      if v / 8 = j then (t.byte f).toNat.testBit (v % 8) else tripleBitFrom ts (j + 1) f v := by
  rw [tripleBitFrom, tripleBitFrom, List.map_cons]
  by_cases hfirst : v / 8 = j
  · simp [hfirst]
  · rw [if_neg hfirst]
    by_cases hlater : j + 1 ≤ v / 8
    · have hindex : v / 8 - j = (v / 8 - (j + 1)) + 1 := by omega
      have hle : j ≤ v / 8 := by omega
      rw [hindex, List.getD_cons_succ, decide_eq_true hle, decide_eq_true hlater]
    · have hlt : ¬ j ≤ v / 8 := by omega
      rw [decide_eq_false hlater, decide_eq_false hlt, Bool.false_and, Bool.false_and]

theorem flag_merge (cell : Cell) (shift : Nat) (t : Triple) (f : Flag) :
    (cell.merge shift t).flag f =
      cell.flag f ||| (t.byte f).toBitVec.setWidth 32 <<< shift := by
  cases f <;> rfl

/-- The byte of a triple fills eight bits of its cell. -/
theorem holds_merge (cells : Vector Cell n) {j : Nat} (hj : j / 4 < n) (t : Triple) (f : Flag)
    (v : Nat) :
    holds (cells.set (j / 4) (cells[j / 4].merge (8 * (j % 4)) t) hj) f v =
      (holds cells f v || (decide (v / 8 = j) && (t.byte f).toNat.testBit (v % 8))) := by
  have hbyte (i : Nat) : (t.byte f).toBitVec.getLsbD i = (t.byte f).toNat.testBit i := rfl
  rw [holds_set]
  by_cases hcell : v / 32 = j / 4
  · have hlt : v % 32 < 32 := Nat.mod_lt v (by decide)
    have hold : (cells[j / 4].flag f).getLsbD (v % 32) = holds cells f v := by
      rw [holds_of_lt cells f (hcell ▸ hj)]
      simp only [hcell]
    rw [if_pos hcell, flag_merge, BitVec.getLsbD_or, hold, BitVec.getLsbD_shiftLeft,
      BitVec.getLsbD_setWidth, decide_eq_true hlt, Bool.true_and]
    congr 1
    by_cases hsame : v / 8 = j
    · have hstart : ¬ v % 32 < 8 * (j % 4) := by omega
      have hoffset : v % 32 - 8 * (j % 4) = v % 8 := by omega
      have hwide : v % 8 < 32 := by omega
      simp [hsame, hstart, hoffset, hwide, hbyte]
    · by_cases hbefore : v % 32 < 8 * (j % 4)
      · simp [hsame, hbefore]
      · have hafter : 8 ≤ v % 32 - 8 * (j % 4) := by omega
        rw [BitVec.getLsbD_of_ge _ _ hafter]
        simp [hsame]
  · have hother : v / 8 ≠ j := by omega
    simp [hcell, hother]

theorem tripleBitFrom_of_lt {ts : List Triple} {j : Nat} {f : Flag} {v : Nat} (h : v / 8 < j) :
    tripleBitFrom ts j f v = false := by
  rw [tripleBitFrom, decide_eq_false (Nat.not_le_of_lt h), Bool.false_and]

theorem le_of_tripleBitFrom {ts : List Triple} {j : Nat} {f : Flag} {v : Nat}
    (h : tripleBitFrom ts j f v = true) : j ≤ v / 8 := by
  apply Nat.le_of_not_lt
  intro hlt
  rw [tripleBitFrom_of_lt hlt] at h
  cases h

/-- A triple that is not zero raises something. -/
theorem exists_testBit {t : Triple} (h : t ≠ ⟨0, 0, 0⟩) :
    ∃ f b, b < 8 ∧ (t.byte f).toNat.testBit b = true := by
  apply Classical.byContradiction
  intro hnone
  have hbyte (f : Flag) : t.byte f = 0 := by
    refine CapSet.External.eq_of_testBit fun b hb => ?_
    have hlowered : ¬ (t.byte f).toNat.testBit b = true := fun hbit => hnone ⟨f, b, hb, hbit⟩
    rw [Bool.eq_false_iff.mpr hlowered]
    simp
  refine h (Triple.ext_byte fun f => ?_)
  rw [hbyte]
  cases f <;> rfl

/-- Writing a triple fails only for a value that has no cell. -/
theorem mergeTriple_spec (cells : Vector Cell c.abi.words) (j : Nat) (t : Triple) :
    (∃ cells', mergeTriple cells j t = .ok cells' ∧ ∀ f v, holds cells' f v =
        (holds cells f v || (decide (v / 8 = j) && (t.byte f).toNat.testBit (v % 8)))) ∨
      mergeTriple cells j t = .error .badValue ∧
        ∃ f v, v / 8 = j ∧ c.count ≤ v ∧ (t.byte f).toNat.testBit (v % 8) = true := by
  rw [mergeTriple]
  by_cases hj : j / 4 < c.abi.words
  · rw [dif_pos hj]
    exact .inl ⟨_, rfl, holds_merge cells hj t⟩
  · rw [dif_neg hj]
    by_cases hzero : t = ⟨0, 0, 0⟩
    · rw [if_pos hzero]
      refine .inl ⟨cells, rfl, fun f v => ?_⟩
      subst hzero
      cases f <;> simp [Triple.byte]
    · rw [if_neg hzero]
      obtain ⟨f, b, hb, hbit⟩ := exists_testBit hzero
      have hmod : (8 * j + b) % 8 = b := by omega
      have hcount := c.count_le
      exact .inr ⟨rfl, f, 8 * j + b, by omega, by omega, by rw [hmod, hbit]⟩

/-- The bits that have been written so far are kept, and those of the remaining triples are
added. -/
theorem mergeTriples_spec (cells : Vector Cell c.abi.words) (j : Nat) (ts : List Triple) :
    (∃ cells', mergeTriples cells j ts = .ok cells' ∧ ∀ f v, holds cells' f v =
        (holds cells f v || tripleBitFrom ts j f v)) ∨
      mergeTriples cells j ts = .error .badValue ∧
        ∃ f v, c.count ≤ v ∧ tripleBitFrom ts j f v = true := by
  induction ts generalizing cells j with
  | nil =>
      refine .inl ⟨cells, rfl, fun f v => ?_⟩
      simp [tripleBitFrom]
  | cons t ts ih =>
      rw [mergeTriples]
      obtain ⟨next, hnext, hbits⟩ | ⟨hfailed, f, v, hv, hcount, hbit⟩ := mergeTriple_spec cells j t
      · rw [hnext]
        obtain ⟨cells', hcells', hrest⟩ | ⟨hfailed, f, v, hcount, hbit⟩ := ih next (j + 1)
        · refine .inl ⟨cells', hcells', fun f v => ?_⟩
          rw [hrest, hbits, tripleBitFrom_cons, Bool.or_assoc]
          by_cases hfirst : v / 8 = j
          · have hlater : tripleBitFrom ts (j + 1) f v = false := tripleBitFrom_of_lt (by omega)
            simp [hfirst, hlater]
          · simp [hfirst]
        · have hlater := le_of_tripleBitFrom hbit
          refine .inr ⟨hfailed, f, v, hcount, ?_⟩
          rw [tripleBitFrom_cons, if_neg (by omega), hbit]
      · rw [hfailed]
        refine .inr ⟨rfl, f, v, hcount, ?_⟩
        rw [tripleBitFrom_cons, if_pos hv, hbit]

/-- The set that the words stand for. -/
def toCapSet (s : PackedSet c) : CapSet :=
  let mask (f : Flag) := Mask.ofList ((List.range c.width).filter (s.raises f))
  ⟨mask .effective, mask .permitted, mask .inheritable, s.owner⟩

theorem flag_toCapSet (s : PackedSet c) (f : Flag) :
    s.toCapSet.flag f = Mask.ofWords (Cell.flag · f) s.cells := by
  have hbits : s.raises f = Mask.wordBit (Cell.flag · f) s.cells :=
    funext (holds_eq_wordBit s.cells f)
  have hmask : Mask.ofList ((List.range c.width).filter (s.raises f)) =
      Mask.ofWords (Cell.flag · f) s.cells := by
    rw [hbits]
    rfl
  cases f <;> exact hmask

theorem contains_toCapSet (s : PackedSet c) (f : Flag) (v : Nat) :
    (s.toCapSet.flag f).contains v = s.raises f v := by
  rw [flag_toCapSet, Mask.contains_ofWords, raises, holds_eq_wordBit]

/-- Some word of a flag is not zero if the flag raises anything. -/
theorem any_flag_ne_zero (s : PackedSet c) (f : Flag) :
    (s.cells.any fun cell => cell.flag f != 0#32) = !(s.toCapSet.flag f).isEmpty := by
  rw [Mask.any_bne_zero, flag_toCapSet]

theorem lt_width_of_raises {s : PackedSet c} {f : Flag} {v : Nat} (h : s.raises f v = true) :
    v < c.width := by
  have hlt := lt_of_holds h
  rw [Capacity.width]
  omega

/-- Sets that stand for the same set are the same word by word. -/
theorem toCapSet_injective {s t : PackedSet c} (h : s.toCapSet = t.toCapSet) : s = t := by
  have hcells : s.cells = t.cells := by
    refine Vector.ext fun i hi => ?_
    have hflag (f : Flag) : s.cells[i].flag f = t.cells[i].flag f := by
      refine (flag_eq_iff s.cells t.cells f).mpr (fun v => ?_) ⟨i, hi⟩
      have hs := contains_toCapSet s f v
      rw [h, contains_toCapSet] at hs
      exact hs.symm
    have heffective := hflag .effective
    have hpermitted := hflag .permitted
    have hinheritable := hflag .inheritable
    cases hsi : s.cells[i]
    cases hti : t.cells[i]
    simp_all [Cell.flag]
  have howner : s.owner = t.owner := congrArg CapSet.owner h
  cases s
  cases t
  simp_all

theorem getLsbD_maskWord (m : Mask) (v : Nat) :
    (maskWord c m (v / 32)).getLsbD (v % 32) = (decide (v < c.count) && m.contains v) := by
  have hsplit : 32 * (v / 32) + v % 32 = v := by omega
  have hmod : v % 32 < 32 := by omega
  rw [maskWord, BitVec.getLsbD_and, BitVec.getLsbD_ofNat, getLsbD_wordBelow,
    Nat.testBit_shiftRight, hsplit, decide_eq_true hmod, Bool.true_and, Bool.and_comm,
    Mask.contains]
  simp [hmod]

end Capabilities.PackedSet
