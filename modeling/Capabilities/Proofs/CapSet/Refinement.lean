import Capabilities.Proofs.CapSet.Lawful
import Capabilities.Proofs.CapSet.PackedBits
import Capabilities.Proofs.Mask.Algebra

/-!
# Masks and words keep plain sets

Both ways to keep a capability set are lawful: a mask for each flag, and cells of
machine words. So both hold the same plain sets after the same operations.
-/

namespace Capabilities

namespace CapSet

variable {c : Capacity}

/-- Capability sets kept as masks. -/
def representation (c : Capacity) : Representation CapSet where
  empty := empty
  set := set c
  fill := fill
  clearFlag := clearFlag
  clear := clear
  withOwner s owner := { s with owner }
  decodeExternal := External.decode c
  decodeAttribute := FileAttribute.decode c
  owner := owner
  get := get c
  difference := difference
  isEmpty := isEmpty
  raises s f v := (s.flag f).contains v

theorem agrees_decodeExternal (data : Bytes) :
    (representation c).Agrees c (External.decode c data) (PlainSet.decodeExternal c data) := by
  rw [External.decode, PlainSet.decodeExternal]
  cases External.triples? data with
  | none => rfl
  | some ts =>
      have hbits (f : Flag) (v : Nat) :
          ((External.assemble ts).flag f).contains v = PlainSet.tripleBit ts f v := by
        rw [Mask.contains, External.bits_assemble, Bytes.testBit_toNat, PlainSet.tripleBit]
      apply Representation.agrees_ofTriples
      by_cases hfits : (External.assemble ts).fits c = true
      · refine .inl ⟨_, if_pos hfits, rfl, hbits, fun f v hv => ?_⟩
        exact fits_iff.mp hfits f v ((hbits f v).trans hv)
      · refine .inr ⟨if_neg hfits, ?_⟩
        simpa [fits_iff, hbits, and_comm] using hfits

theorem contains_toCapSet (a : FileAttribute) (f : Flag) (v : Nat) :
    ((a.toCapSet c).flag f).contains v =
      (decide (v < c.count) && PlainSet.attributeBit a v f) := by
  cases f with
  | effective =>
      cases heffective : a.effective <;>
        simp [FileAttribute.toCapSet, flag, PlainSet.attributeBit, heffective, Bool.and_comm,
          Bool.and_or_distrib_left]
  | permitted => simp [FileAttribute.toCapSet, flag, PlainSet.attributeBit, Bool.and_comm]
  | inheritable => simp [FileAttribute.toCapSet, flag, PlainSet.attributeBit, Bool.and_comm]

theorem agrees_decodeAttribute (data : Bytes) :
    (representation c).Agrees c (FileAttribute.decode c data)
      (PlainSet.decodeAttribute c data) := by
  rw [FileAttribute.decode, PlainSet.decodeAttribute]
  cases FileAttribute.ofBytes? data with
  | none => rfl
  | some a => exact Representation.holds_ofAttribute rfl (contains_toCapSet a)

theorem contains_difference (s t : CapSet) (n : Nat) :
    (s.difference t).contains n = true ↔
      ∃ f : Flag, f.position = n ∧ ∃ v, (s.flag f).contains v ≠ (t.flag f).contains v := by
  simp only [← Mask.ne_iff, difference, Mask.contains_ofList, decide_eq_true_eq, List.mem_map,
    List.mem_filter, Flag.mem_all, true_and]
  exact exists_congr fun f => and_comm

theorem isEmpty_iff (s : CapSet) :
    s.isEmpty = true ↔ ∀ f v, (s.flag f).contains v = false := by
  rw [isEmpty, ← Bool.not_eq_false, Mask.isEmpty_eq_false_iff]
  simp only [contains_raised, not_exists, Bool.not_eq_true]
  exact forall_comm

theorem isLawful (c : Capacity) : (representation c).IsLawful c where
  raises_empty f v := by simp [representation]
  owner_empty := rfl
  set_ok s f on vs hvs := by
    refine ⟨s.put f on (Mask.ofList vs), if_pos ?_, owner_withFlag s f _, fun g v => ?_⟩
    · rw [List.all_eq_true]
      exact fun v hv => decide_eq_true (hvs v hv)
    · show ((s.put f on (Mask.ofList vs)).flag g).contains v = _
      simp only [contains_flag_put, Mask.contains_ofList, decide_eq_true_eq]
      rfl
  set_error s f on vs hbeyond := by
    obtain ⟨v, hv, hcount⟩ := hbeyond
    refine if_neg fun hall => ?_
    exact Nat.not_lt.mpr hcount (of_decide_eq_true (List.all_eq_true.mp hall v hv))
  raises_fill s target source g v := by
    show ((s.fill target source).flag g).contains v = _
    rw [fill, flag_withFlag]
    split <;> rfl
  owner_fill s target source := owner_withFlag s target _
  raises_clearFlag s f g v := by
    show ((s.clearFlag f).flag g).contains v = _
    rw [clearFlag, flag_withFlag]
    split
    next => exact Mask.contains_empty v
    next => rfl
  owner_clearFlag s f := owner_withFlag s f _
  raises_clear s f v := by simp [representation]
  owner_clear _ := rfl
  raises_withOwner s owner f v := by cases f <;> rfl
  owner_withOwner _ _ := rfl
  decodeExternal := agrees_decodeExternal
  decodeAttribute := agrees_decodeAttribute
  get s f v := by simp [representation, get, Capacity.admits]
  difference := contains_difference
  isEmpty := isEmpty_iff

theorem clauses?_eq_some_iff {cs : List Char} {cls : List Clause} :
    clauses? c cs = some cls ↔ Denotes c cs cls := by
  rw [clauses?, Option.ite_none_left_eq_some, mapM_read?_eq_some_iff]
  simp only [Denotes, Text.spaced_iff, exists_eq_left', ne_eq]

theorem read?_eq_map_clauses? (cs : List Char) :
    read? c cs = (clauses? c cs).map (·.foldl (Clause.apply c) empty) := by
  apply Option.ext
  intro s
  simp only [Option.map_eq_some_iff, clauses?_eq_some_iff, read?_eq_some_iff]

theorem ofList_values (a : Clause.Address) : Mask.ofList (a.values c) = a.mask c := by
  apply Mask.ext
  intro v
  cases a <;> simp [Clause.Address.values, Clause.Address.mask, Capacity.values]

theorem setAll_of_lt {vs : List Value} (h : ∀ v ∈ vs, v < c.count) (on : Bool) (fs : List Flag)
    (s : CapSet) : (representation c).setAll on vs fs s =
      .ok (fs.foldl (fun s f => s.put f on (Mask.ofList vs)) s) := by
  have hset (s : CapSet) (f : Flag) : s.set c f on vs = .ok (s.put f on (Mask.ofList vs)) := by
    rw [set, if_pos]
    exact List.all_eq_true.mpr fun v hv => decide_eq_true (h v hv)
  induction fs generalizing s with
  | nil => rfl
  | cons f fs ih =>
      rw [List.foldl_cons, ← ih, SetOperations.setAll, List.foldlM_cons]
      show (s.set c f on vs).bind _ = _
      rw [hset]
      rfl

theorem applyGroup_of_lt {step : Clause.Address × Clause.Group}
    (h : ∀ v ∈ step.1.values c, v < c.count) (s : CapSet) :
    (representation c).applyGroup c s step = .ok (Clause.applyStep c s step) := by
  obtain ⟨a, operation, flags⟩ := step
  have hset (on : Bool) (fs : List Flag) (s : CapSet) :
      (representation c).setAll on (a.values c) fs s =
        .ok (fs.foldl (fun s f => s.put f on (a.mask c)) s) := by
    rw [← ofList_values]
    exact setAll_of_lt h on fs s
  cases operation with
  | reset =>
      cases a with
      | background => exact hset _ _ _
      | all =>
          simp only [SetOperations.applyGroup, hset]
          rfl
      | listed vs =>
          simp only [SetOperations.applyGroup, hset]
          rfl
  | raise => exact hset _ _ _
  | lower => exact hset _ _ _

theorem foldlM_applyGroup_of_lt {steps : List (Clause.Address × Clause.Group)}
    (h : ∀ step ∈ steps, ∀ v ∈ step.1.values c, v < c.count) (s : CapSet) :
    steps.foldlM ((representation c).applyGroup c) s =
      .ok (steps.foldl (Clause.applyStep c) s) := by
  induction steps generalizing s with
  | nil => rfl
  | cons step steps ih =>
      obtain ⟨hstep, hsteps⟩ := List.forall_mem_cons.mp h
      rw [List.foldlM_cons, applyGroup_of_lt hstep, List.foldl_cons, ← ih hsteps]
      rfl

/-- Reading a text does to masks what its groups say, one operation after the other. -/
theorem ofText_eq_parse (text : String) : ofText c text = (representation c).parse c text := by
  rw [ofText, read?_eq_map_clauses?, SetOperations.parse]
  cases hclauses : clauses? c text.toList with
  | none => rfl
  | some cls =>
      have hdenotes := clauses?_eq_some_iff.mp hclauses
      have hlt : ∀ step ∈ Clause.steps cls, ∀ v ∈ step.1.values c, v < c.count := by
        intro step hstep v hv
        refine hdenotes.lt_count_of_mem_steps hstep ?_
        rw [← ofList_values, Mask.contains_ofList]
        exact decide_eq_true hv
      have hfold := foldlM_applyGroup_of_lt hlt empty
      rw [Clause.foldl_applyStep] at hfold
      exact hfold.symm

end CapSet

namespace PackedSet

variable {c : Capacity}

/-- Capability sets kept in machine words. -/
def representation (c : Capacity) : Representation (PackedSet c) where
  empty := empty c
  set := set
  fill := fill
  clearFlag := clearFlag
  clear := clear
  withOwner s owner := { s with owner }
  decodeExternal := decodeExternal c
  decodeAttribute := decodeAttribute c
  owner := owner
  get := get
  difference := difference
  isEmpty := isEmpty
  raises := raises

theorem tripleBitFrom_zero (ts : List CapSet.External.Triple) (f : Flag) (v : Nat) :
    tripleBitFrom ts 0 f v = PlainSet.tripleBit ts f v := by
  simp [tripleBitFrom, PlainSet.tripleBit]

theorem agrees_decodeExternal (data : Bytes) :
    (representation c).Agrees c (decodeExternal c data) (PlainSet.decodeExternal c data) := by
  rw [decodeExternal, PlainSet.decodeExternal]
  cases CapSet.External.triples? data with
  | none => rfl
  | some ts =>
      apply Representation.agrees_ofTriples
      simp only [← tripleBitFrom_zero]
      obtain ⟨cells, hcells, hbits⟩ | ⟨hfailed, hbeyond⟩ :=
        mergeTriples_spec (Vector.replicate c.abi.words Cell.zero) 0 ts
      · simp only [holds_replicate_zero, Bool.false_or] at hbits
        simp only [hcells, ← hbits]
        by_cases hfits : fits cells = true
        · exact .inl ⟨⟨cells, none⟩, if_pos hfits, rfl, fun _ _ => rfl, (fits_iff cells).mp hfits⟩
        · refine .inr ⟨if_neg hfits, ?_⟩
          simpa [fits_iff, and_comm] using hfits
      · exact .inr ⟨by rw [hfailed]; rfl, hbeyond⟩

theorem holds_attributeCell (a : FileAttribute) (f : Flag) (v : Nat) :
    holds (Vector.ofFn fun i : Fin c.abi.words => attributeCell c a i) f v =
      (decide (v < c.count) && PlainSet.attributeBit a v f) := by
  rw [holds, Vector.getElem?_ofFn]
  by_cases hword : v / 32 < c.abi.words
  · rw [dif_pos hword, Option.getD_some]
    cases f with
    | effective =>
        cases heffective : a.effective <;>
          simp only [Cell.flag, attributeCell, PlainSet.attributeBit, heffective, if_true,
            Bool.false_eq_true, if_false, BitVec.getLsbD_or, BitVec.getLsbD_zero,
            getLsbD_maskWord, Bool.and_or_distrib_left, Bool.true_and, Bool.false_and,
            Bool.and_false, Bool.or_self]
    | permitted => exact getLsbD_maskWord a.permitted v
    | inheritable => exact getLsbD_maskWord a.inheritable v
  · have hbeyond : ¬ v < c.count := mt div_lt_words hword
    rw [dif_neg hword, decide_eq_false hbeyond]
    simp

theorem agrees_decodeAttribute (data : Bytes) :
    (representation c).Agrees c (decodeAttribute c data) (PlainSet.decodeAttribute c data) := by
  rw [decodeAttribute, PlainSet.decodeAttribute]
  cases FileAttribute.ofBytes? data with
  | none => rfl
  | some a => exact Representation.holds_ofAttribute rfl (holds_attributeCell a)

theorem isLawful (c : Capacity) : (representation c).IsLawful c where
  raises_empty := holds_replicate_zero
  owner_empty := rfl
  set_ok s f on vs hvs := by
    obtain ⟨us, hus, rfl⟩ := mapM_check_of_lt hvs
    refine ⟨us.foldl (fun s u => s.put f on u) s, ?_, owner_foldl_put us s f on, ?_⟩
    · show (List.mapM c.check _).map _ = _
      rw [hus]
      rfl
    · exact fun g v => raises_foldl_put us s f g on v
  set_error s f on vs hbeyond := by
    show (List.mapM c.check vs).map _ = _
    rw [mapM_check_of_le hbeyond]
    rfl
  raises_fill := raises_fill
  owner_fill _ _ _ := rfl
  raises_clearFlag := raises_clearFlag
  owner_clearFlag _ _ := rfl
  raises_clear := raises_clear
  owner_clear _ := rfl
  raises_withOwner _ _ _ _ := rfl
  owner_withOwner _ _ := rfl
  decodeExternal := agrees_decodeExternal
  decodeAttribute := agrees_decodeAttribute
  get := get_eq
  difference := contains_difference
  isEmpty := isEmpty_iff

end PackedSet

end Capabilities
