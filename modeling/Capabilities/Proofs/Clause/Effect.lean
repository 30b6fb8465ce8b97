import Capabilities.CapSet.Clause

/-!
# The effect of a clause on one bit

Applying clauses changes each bit of a set on its own: what becomes of a flag
of a value depends on that bit and on the clauses alone. `effect` is this rule,
and `contains_foldl_apply` carries it from groups to whole texts.
-/

namespace Capabilities

theorem CapSet.contains_flag_put (s : CapSet) (f g : Flag) (on : Bool) (vs : Mask)
    (v : Value) :
    ((s.put g on vs).flag f).contains v =
      if f = g ∧ vs.contains v = true then on else (s.flag f).contains v := by
  rw [put, flag_withFlag]
  by_cases hf : f = g
  · subst hf
    cases on <;> cases hv : vs.contains v <;> simp [hv]
  · simp [hf]

/-- Several flags are changed one after the other. -/
theorem CapSet.contains_foldl_put (fs : List Flag) (s : CapSet) (f : Flag) (on : Bool)
    (vs : Mask) (v : Value) :
    ((fs.foldl (fun s g => s.put g on vs) s).flag f).contains v =
      if f ∈ fs ∧ vs.contains v = true then on else (s.flag f).contains v := by
  induction fs generalizing s with
  | nil => simp
  | cons g fs ih =>
      rw [List.foldl_cons, ih, contains_flag_put]
      by_cases hv : vs.contains v = true <;> by_cases hg : f = g <;> by_cases hf : f ∈ fs <;>
        simp [hv, hg, hf]

namespace Clause

/-- What a group makes of the bit of a flag and a value. -/
def Group.effect (c : Capacity) (a : Address) (g : Group) (f : Flag) (v : Value)
    (on : Bool) : Bool :=
  if f ∈ g.flags ∧ (a.mask c).contains v = true then g.operation != .lower
  else if g.operation = .reset ∧ (a = .background ∨ (a.mask c).contains v = true) then false
  else on

/-- What a clause makes of the bit of a flag and a value. -/
def effect (c : Capacity) (cl : Clause) (f : Flag) (v : Value) (on : Bool) : Bool :=
  cl.groups.foldl (fun on g => g.effect c cl.address f v on) on

theorem Group.contains_apply (c : Capacity) (a : Address) (s : CapSet) (g : Group)
    (f : Flag) (v : Value) :
    ((g.apply c a s).flag f).contains v = g.effect c a f v ((s.flag f).contains v) := by
  obtain ⟨operation, flags⟩ := g
  simp only [apply, effect, CapSet.contains_foldl_put]
  congr 1
  cases operation with
  | reset =>
      cases a with
      | background => simp
      | all => simp [CapSet.contains_foldl_put, Flag.mem_all]
      | listed vs => simp [CapSet.contains_foldl_put, Flag.mem_all]
  | raise => simp
  | lower => simp

theorem contains_apply (c : Capacity) (s : CapSet) (cl : Clause) (f : Flag) (v : Value) :
    ((cl.apply c s).flag f).contains v = cl.effect c f v ((s.flag f).contains v) := by
  obtain ⟨a, gs⟩ := cl
  simp only [apply, effect]
  induction gs generalizing s with
  | nil => rfl
  | cons g gs ih => rw [List.foldl_cons, ih, Group.contains_apply, List.foldl_cons]

/-- A bit after a text is the result of the effects of its clauses on the bit before. -/
theorem contains_foldl_apply (c : Capacity) (cls : List Clause) (s : CapSet) (f : Flag)
    (v : Value) :
    ((cls.foldl (apply c) s).flag f).contains v =
      cls.foldl (fun on cl => cl.effect c f v on) ((s.flag f).contains v) := by
  induction cls generalizing s with
  | nil => rfl
  | cons cl cls ih => rw [List.foldl_cons, ih, contains_apply, List.foldl_cons]

/-- A clause that lists other values leaves a bit as it is. -/
theorem effect_of_not_mem {c : Capacity} {vs : List Value} {gs : List Group} {f : Flag}
    {v : Value} (h : v ∉ vs) (on : Bool) :
    (⟨.listed vs, gs⟩ : Clause).effect c f v on = on := by
  induction gs generalizing on with
  | nil => rfl
  | cons g gs ih =>
      have hg : g.effect c (.listed vs) f v on = on := by
        simp [Group.effect, Address.mask, h]
      exact (congrArg _ hg).trans (ih on)

/-- Raising groups and lowering groups act on listed values as they say. -/
theorem Group.effect_of_mem {c : Capacity} {vs : List Value} {g : Group} {f : Flag}
    {v : Value} (h : v ∈ vs) (on : Bool) :
    g.effect c (.listed vs) f v on =
      if f ∈ g.flags then g.operation != .lower
      else if g.operation = .reset then false else on := by
  simp [effect, Address.mask, h]

end Clause

end Capabilities
