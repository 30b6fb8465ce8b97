import Capabilities.Proofs.CapSet.Clauses
import Capabilities.Proofs.CapSet.Flags

/-!
# The text of a set reads back as the set

The effects of the clauses are followed bit by bit. A named value ends with the
background or with the one deviation that lists it, a value without a name with
the one addition that lists it, and each of them restores the combination of the
value.
-/

namespace Capabilities.CapSet

variable {c : Capacity} {s : CapSet} {f : Flag} {v : Nat}

/-- Among clauses that list the values by combination, at most one concerns a value. The
bit is on the way from one state to the other, so meeting that clause again does no harm. -/
theorem foldl_effect_listed (members : Combination → List Value)
    (groups : Combination → List Clause.Group) {own : Combination} {after : Bool}
    (hmem : ∀ k, v ∈ members k → k = own) (hown : v ∈ members own)
    (hafter : (⟨.listed (members own), groups own⟩ : Clause).effect c f v after = after)
    (ks : List Combination) (on : Bool)
    (hon : on = after ∨ (⟨.listed (members own), groups own⟩ : Clause).effect c f v on = after) :
    ks.foldl (fun on k => (⟨.listed (members k), groups k⟩ : Clause).effect c f v on) on =
      if own ∈ ks then after else on := by
  induction ks generalizing on with
  | nil => simp
  | cons k ks ih =>
      rw [List.foldl_cons]
      by_cases hk : k = own
      · subst hk
        have hstep : (⟨.listed (members k), groups k⟩ : Clause).effect c f v on = after := by
          rcases hon with rfl | h
          · exact hafter
          · exact h
        rw [hstep, ih after (Or.inl rfl)]
        simp
      · have hskip : v ∉ members k := fun h => hk (hmem k h)
        rw [Clause.effect_of_not_mem hskip, ih on hon]
        simp [Ne.symm hk]

theorem foldl_effect_unlisted {members : Combination → List Value}
    {groups : Combination → List Clause.Group} (h : ∀ k, v ∉ members k)
    (ks : List Combination) (on : Bool) :
    ks.foldl (fun on k => (⟨.listed (members k), groups k⟩ : Clause).effect c f v on) on =
      on := by
  induction ks generalizing on with
  | nil => rfl
  | cons k ks ih => rw [List.foldl_cons, Clause.effect_of_not_mem (h k), ih]

/-- Starting from the background, the deviations lead a named value to its combination. -/
theorem foldl_deviation (hv : v < c.named) :
    ((s.deviations c).map (s.deviation c)).foldl (fun on cl => cl.effect c f v on)
      (Nat.testBit (s.background c) f.position) = (s.flag f).contains v := by
  have hown : v ∈ s.namedWith c (s.combination v) := mem_namedWith.mpr ⟨hv, rfl⟩
  have heffect := effect_changes (c := c) hown (s.background c) (s.combination v) f
  have hafter := heffect (Nat.testBit (s.combination v) f.position)
  have hbefore := heffect (Nat.testBit (s.background c) f.position)
  rw [ite_self] at hafter
  rw [ite_eq_right_iff.mpr Eq.symm] at hbefore
  have hfold := foldl_effect_listed (s.namedWith c) (changes (s.background c))
    (fun k hk => (mem_namedWith.mp hk).2.symm) hown hafter (s.deviations c) _ (Or.inr hbefore)
  have hend : (if s.combination v ∈ s.deviations c then
      Nat.testBit (s.combination v) f.position else Nat.testBit (s.background c) f.position) =
      Nat.testBit (s.combination v) f.position := by
    split
    next => rfl
    next hdev =>
      have hbackground : s.combination v = s.background c :=
        Decidable.byContradiction fun hne => hdev (mem_deviations.mpr
          ⟨combination_lt s v, hne, List.ne_nil_of_mem hown⟩)
      rw [hbackground]
  rw [List.foldl_map]
  calc
    _ = _ := hfold
    _ = Nat.testBit (s.combination v) f.position := hend
    _ = (s.flag f).contains v := testBit_combination s f v

/-- An empty background makes no difference between resetting values and changing them. -/
theorem effect_reset_eq_deviation (hb : s.background c = 0) (k : Combination) :
    (⟨.listed (s.namedWith c k), [⟨.reset, k.flags⟩]⟩ : Clause).effect c f v false =
      (s.deviation c k).effect c f v false := by
  rw [deviation, hb]
  by_cases hv : v ∈ s.namedWith c k
  · rw [effect_changes hv]
    simp only [Clause.effect, List.foldl_cons, List.foldl_nil, Clause.Group.effect_of_mem hv]
    simp
  · rw [Clause.effect_of_not_mem hv, Clause.effect_of_not_mem hv]

theorem effect_background (k : Combination) (on : Bool) :
    (⟨.background, [⟨.reset, k.flags⟩]⟩ : Clause).effect c f v on =
      (Nat.testBit k f.position && decide (v < c.named)) := by
  simp [Clause.effect, Clause.Group.effect, Clause.Address.mask]

theorem foldl_namedClauses (hv : v < c.named) :
    (s.namedClauses c).foldl (fun on cl => cl.effect c f v on) false =
      (s.flag f).contains v := by
  have hfold := foldl_deviation (s := s) (f := f) hv
  rw [namedClauses]
  split
  next k rest hb hdev =>
    rw [List.foldl_cons, effect_reset_eq_deviation hb, ← hfold, hdev, hb]
    simp
  next =>
    rw [List.foldl_cons, effect_background, ← hfold]
    simp [hv]

theorem foldl_namedClauses_of_le (hv : c.named ≤ v) :
    (s.namedClauses c).foldl (fun on cl => cl.effect c f v on) false = false := by
  have hout (k : Combination) : v ∉ s.namedWith c k := fun h =>
    absurd (mem_namedWith.mp h).1 (Nat.not_lt.mpr hv)
  have hrest (ks : List Combination) (on : Bool) :
      (ks.map (s.deviation c)).foldl (fun on cl => cl.effect c f v on) on = on := by
    rw [List.foldl_map]
    exact foldl_effect_unlisted hout ks on
  rw [namedClauses]
  split
  next k rest hb hdev => rw [List.foldl_cons, Clause.effect_of_not_mem (hout k), hrest]
  next =>
    rw [List.foldl_cons, effect_background, hrest]
    simp [Nat.not_lt.mpr hv]

/-- The additions lead a value without a name from nothing to its combination, and leave
every other value alone. -/
theorem foldl_addition (on : Bool) :
    ((s.additions c).map fun k =>
      (⟨.listed (s.unnamedWith c k), [⟨.raise, k.flags⟩]⟩ : Clause)).foldl
      (fun on cl => cl.effect c f v on) on =
      if c.named ≤ v ∧ v < c.count then on || (s.flag f).contains v else on := by
  rw [List.foldl_map]
  split
  next hv =>
    have hown : v ∈ s.unnamedWith c (s.combination v) := mem_unnamedWith.mpr ⟨hv, rfl⟩
    have heffect (on : Bool) :
        (⟨.listed (s.unnamedWith c (s.combination v)),
          [⟨.raise, (s.combination v).flags⟩]⟩ : Clause).effect c f v on =
        (on || (s.flag f).contains v) := by
      simp only [Clause.effect, List.foldl_cons, List.foldl_nil,
        Clause.Group.effect_of_mem hown, mem_flags, testBit_combination]
      cases (s.flag f).contains v <;> simp
    have hafter := heffect (on || (s.flag f).contains v)
    rw [Bool.or_assoc, Bool.or_self] at hafter
    have hfold := foldl_effect_listed (s.unnamedWith c) (fun k => [⟨.raise, k.flags⟩])
      (fun k hk => (mem_unnamedWith.mp hk).2.symm) hown hafter (s.additions c) on
      (Or.inr (heffect on))
    rw [hfold]
    split
    next => rfl
    next hadd =>
      have hempty : s.combination v = 0 :=
        Decidable.byContradiction fun hne => hadd (mem_additions.mpr
          ⟨combination_lt s v, hne, List.ne_nil_of_mem hown⟩)
      have hlowered : (s.flag f).contains v = false :=
        calc
          (s.flag f).contains v = Nat.testBit (s.combination v) f.position :=
            (testBit_combination s f v).symm
          _ = Nat.testBit 0 f.position := by rw [hempty]
          _ = false := Nat.zero_testBit _
      rw [hlowered, Bool.or_false]
  next hv => exact foldl_effect_unlisted (fun k hk => hv (mem_unnamedWith.mp hk).1) _ on

/-- Applying the clauses of a set to the empty set gives back every bit of it. -/
theorem contains_foldl_clauses (hs : s.fits c = true) :
    (((s.clauses c).foldl (Clause.apply c) empty).flag f).contains v =
      (s.flag f).contains v := by
  rw [Clause.contains_foldl_apply, clauses, List.foldl_append, flag_empty,
    Mask.contains_empty, foldl_addition]
  by_cases hnamed : v < c.named
  · rw [foldl_namedClauses hnamed, if_neg (by omega)]
  · rw [foldl_namedClauses_of_le (by omega), Bool.false_or]
    split
    next => rfl
    next hv =>
      symm
      rw [← Bool.not_eq_true]
      intro hraised
      have hlt := contains_of_fits hs hraised
      omega

theorem owner_foldl_put (fs : List Flag) (s : CapSet) (on : Bool) (vs : Mask) :
    (fs.foldl (fun s f => s.put f on vs) s).owner = s.owner := by
  induction fs generalizing s with
  | nil => rfl
  | cons f fs ih => rw [List.foldl_cons, ih, put, owner_withFlag]

theorem owner_applyGroup (a : Clause.Address) (s : CapSet) (g : Clause.Group) :
    (g.apply c a s).owner = s.owner := by
  obtain ⟨operation, flags⟩ := g
  simp only [Clause.Group.apply, owner_foldl_put]
  cases operation <;> cases a <;> simp [owner_foldl_put, clear]

/-- Texts do not mention owners. -/
theorem owner_foldl_apply (cls : List Clause) (s : CapSet) :
    (cls.foldl (Clause.apply c) s).owner = s.owner := by
  have hgroups (a : Clause.Address) (gs : List Clause.Group) (s : CapSet) :
      (gs.foldl (Clause.Group.apply c a) s).owner = s.owner := by
    induction gs generalizing s with
    | nil => rfl
    | cons g gs ih => rw [List.foldl_cons, ih, owner_applyGroup]
  induction cls generalizing s with
  | nil => rfl
  | cons cl cls ih => rw [List.foldl_cons, ih, Clause.apply, hgroups]

@[simp] theorem toText_unowned (c : Capacity) (s : CapSet) :
    s.unowned.toText c = s.toText c := rfl

theorem foldl_clauses (hs : s.fits c = true) :
    (s.clauses c).foldl (Clause.apply c) empty = s.unowned := by
  refine ext_flag (fun f => Mask.ext fun v => ?_) (owner_foldl_apply _ _)
  rw [contains_foldl_clauses hs, flag_unowned]

theorem clauses_ne_nil (c : Capacity) (s : CapSet) : s.clauses c ≠ [] := by
  rw [clauses, namedClauses]
  split <;> simp

/-- What is read back from the text of a set has every flag of the set, and no owner. -/
theorem ofText_toText_eq (hs : s.fits c = true) :
    ofText c (s.toText c) = .ok s.unowned := by
  have hvalid : ∀ cl ∈ s.clauses c, cl.IsValid c := fun cl hcl => isValid_of_mem_clauses hcl
  have hread := Clause.mapM_read?_words hvalid
  have hwords : Text.words (s.render c) ≠ [] := by
    intro hnil
    rw [render] at hnil
    rw [hnil] at hread
    exact clauses_ne_nil c s (Option.some.inj hread).symm
  have hset : read? c (s.render c) = some s.unowned := by
    rw [read?]
    split
    next hnil => exact absurd hnil hwords
    next => rw [render, hread, Option.map_some, foldl_clauses hs]
  rw [ofText, toText, String.toList_ofList, hset]

/-- A set that fits is read back from its text and is written in the same way again, so
sets with the same text raise the same values in every flag. -/
theorem ofText_toText {c : Capacity} {s t : CapSet} (hs : s.fits c = true)
    (ht : t.fits c = true) :
    (∃ u, ofText c (s.toText c) = .ok u ∧
      (∀ f v, (u.flag f).contains v = (s.flag f).contains v) ∧
      u.toText c = s.toText c) ∧
    (s.toText c = t.toText c ↔ s.agrees t = true) := by
  refine ⟨⟨s.unowned, ofText_toText_eq hs, fun f v => by rw [flag_unowned],
    toText_unowned c s⟩, ?_⟩
  rw [agrees_iff]
  constructor
  · intro htext f
    have hread := ofText_toText_eq hs
    rw [htext, ofText_toText_eq ht, Except.ok.injEq] at hread
    rw [← flag_unowned s, ← hread, flag_unowned]
  · intro hflags
    have hsets : s.unowned = t.unowned :=
      ext_flag (fun f => by rw [flag_unowned, flag_unowned, hflags f]) rfl
    calc
      s.toText c = s.unowned.toText c := (toText_unowned c s).symm
      _ = t.unowned.toText c := by rw [hsets]
      _ = t.toText c := toText_unowned c t

/-- A kernel with two values beyond the named ones. -/
def beyondNames : Capacity := ⟨.third, 43, by decide, by decide⟩

/-- A set with deviations from a background and with a value that has no name. -/
def mixedSet : CapSet := ⟨⟨0x7FFFFFFFFF7⟩, ⟨0x1FFFFFFFFFF⟩, ⟨0x40000000081⟩, some 1000⟩

example : mixedSet.toText beyondNames =
    "=ep cap_chown,cap_setuid+i cap_fowner-e 42+ei 41+e" := by decide +kernel

theorem ofText_toText_mixedSet :
    mixedSet.fits beyondNames = true ∧ empty.fits beyondNames = true ∧
    (∃ u, ofText beyondNames (mixedSet.toText beyondNames) = .ok u ∧
      (∀ f v, (u.flag f).contains v = (mixedSet.flag f).contains v) ∧
      u.toText beyondNames = mixedSet.toText beyondNames) ∧
    (mixedSet.toText beyondNames = empty.toText beyondNames ↔
      mixedSet.agrees empty = true) :=
  ⟨by decide, by decide, ofText_toText (by decide) (by decide)⟩

end Capabilities.CapSet
