import Capabilities.CapSet.Text
import Capabilities.Proofs.Clause.Effect
import Capabilities.Proofs.Clause.Reading

/-!
# The clauses of a set

Which values each clause of a set lists, and what its groups do to their bits.
Every clause is valid, so it can be read back.
-/

namespace Capabilities.CapSet

theorem mem_combinations {k : Nat} : k ∈ combinations ↔ k < 8 := by
  simp only [combinations, List.mem_cons, List.not_mem_nil, or_false]
  omega

theorem combination_lt (s : CapSet) (v : Value) : s.combination v < 8 := by
  rw [combination]
  split <;> split <;> split <;> decide

/-- A combination holds the bits of its value in all flags. -/
theorem testBit_combination (s : CapSet) (f : Flag) (v : Value) :
    (s.combination v).testBit f.position = (s.flag f).contains v := by
  cases f <;> simp only [combination, Flag.position, flag] <;>
    cases s.effective.contains v <;> cases s.permitted.contains v <;>
    cases s.inheritable.contains v <;> rfl

@[simp] theorem mem_flags {k : Combination} {f : Flag} :
    f ∈ k.flags ↔ k.testBit f.position = true := by
  simp [Combination.flags, Flag.mem_all]

theorem flags_ne_nil {k : Combination} (hk : k < 8) (hne : k ≠ 0) : k.flags ≠ [] := by
  have hall : ∀ j < 8, j ≠ 0 → Combination.flags j ≠ [] := by decide
  exact hall k hk hne

/-- The search for the background stays among the candidates. -/
theorem foldl_choose_mem (better : Combination → Combination → Prop)
    [∀ best k, Decidable (better best k)] (ks : List Combination) (start : Combination) :
    ks.foldl (fun best k => if better best k then k else best) start ∈ start :: ks := by
  induction ks generalizing start with
  | nil => simp
  | cons k ks ih =>
      rw [List.foldl_cons]
      by_cases h : better start k
      · rw [if_pos h]
        exact List.mem_cons_of_mem _ (ih k)
      · rw [if_neg h]
        rcases List.mem_cons.mp (ih start) with heq | hmem
        · rw [heq]
          exact List.mem_cons_self
        · exact List.mem_cons_of_mem _ (List.mem_cons_of_mem _ hmem)

theorem background_lt (c : Capacity) (s : CapSet) : s.background c < 8 := by
  have hmem := foldl_choose_mem
    (fun best k => (s.namedWith c best).length ≤ (s.namedWith c k).length) combinations 7
  rcases List.mem_cons.mp hmem with heq | hin
  · rw [background, heq]
    decide
  · exact mem_combinations.mp hin

theorem mem_namedWith {c : Capacity} {s : CapSet} {k : Combination} {v : Nat} :
    v ∈ s.namedWith c k ↔ v < c.named ∧ s.combination v = k := by
  simp [namedWith]

theorem named_le_count (c : Capacity) : c.named ≤ c.count := Nat.min_le_right _ _

theorem mem_unnamedWith {c : Capacity} {s : CapSet} {k : Combination} {v : Nat} :
    v ∈ s.unnamedWith c k ↔ (c.named ≤ v ∧ v < c.count) ∧ s.combination v = k := by
  have hle := named_le_count c
  have hend : c.named + (c.count - c.named) = c.count := by omega
  simp [unnamedWith, List.mem_range'_1, hend]

theorem mem_deviations {c : Capacity} {s : CapSet} {k : Combination} :
    k ∈ s.deviations c ↔ k < 8 ∧ k ≠ s.background c ∧ s.namedWith c k ≠ [] := by
  simp [deviations, mem_combinations]

theorem mem_additions {c : Capacity} {s : CapSet} {k : Combination} :
    k ∈ s.additions c ↔ k < 8 ∧ k ≠ 0 ∧ s.unnamedWith c k ≠ [] := by
  simp [additions, mem_combinations]

/-- The groups raise what is missing, lower what is too much, and leave the rest. -/
theorem effect_changes {c : Capacity} {vs : List Value} {v : Value} (hv : v ∈ vs)
    (before after : Combination) (f : Flag) (on : Bool) :
    (⟨.listed vs, changes before after⟩ : Clause).effect c f v on =
      if after.testBit f.position = before.testBit f.position then on
      else after.testBit f.position := by
  have h7 : Nat.testBit 7 f.position = true := by cases f <;> decide
  have hup : f ∈ Combination.flags (after &&& (7 ^^^ before)) ↔
      after.testBit f.position = true ∧ before.testBit f.position = false := by
    simp [h7]
  have hdown : f ∈ Combination.flags (before &&& (7 ^^^ after)) ↔
      before.testBit f.position = true ∧ after.testBit f.position = false := by
    simp [h7]
  have hgroup (op : Clause.Operation) (hop : op ≠ .reset) (fs : List Flag) (on : Bool) :
      (if fs.isEmpty then [] else [(⟨op, fs⟩ : Clause.Group)]).foldl
        (fun on g => g.effect c (.listed vs) f v on) on =
      if f ∈ fs then op != .lower else on := by
    cases fs with
    | nil => simp
    | cons g gs => simp [Clause.Group.effect_of_mem hv, hop]
  simp only [Clause.effect, changes, List.foldl_append]
  rw [hgroup .raise (by decide), hgroup .lower (by decide)]
  simp only [hup, hdown]
  cases after.testBit f.position <;> cases before.testBit f.position <;> simp

theorem changes_ne_nil {before after : Combination} (hbefore : before < 8) (hafter : after < 8)
    (hne : after ≠ before) : changes before after ≠ [] := by
  have hall : ∀ b < 8, ∀ a < 8, a ≠ b → changes b a ≠ [] := by decide
  exact hall before hbefore after hafter hne

theorem isComplete_of_mem_changes {before after : Combination} {g : Clause.Group}
    (h : g ∈ changes before after) : g.isComplete = true := by
  simp only [changes, List.mem_append] at h
  rcases h with h | h <;> split at h <;> simp_all [Clause.Group.isComplete]

variable {c : Capacity} {s : CapSet}

theorem isValid_deviation {k : Combination} (hk : k ∈ s.deviations c) :
    (s.deviation c k).IsValid c := by
  obtain ⟨hlt, hne, hlisted⟩ := mem_deviations.mp hk
  refine ⟨changes_ne_nil (background_lt c s) hlt hne,
    fun g hg => isComplete_of_mem_changes hg, by simp [deviation, Clause.isAnchored],
    hlisted, fun v hv => ?_⟩
  have hlt := (mem_namedWith.mp hv).1
  exact decide_eq_true (Nat.lt_of_lt_of_le hlt (named_le_count c))

theorem isValid_reset {k : Combination} (hk : k ∈ s.deviations c) :
    (⟨.listed (s.namedWith c k), [⟨.reset, k.flags⟩]⟩ : Clause).IsValid c := by
  refine ⟨by simp, by simp [Clause.Group.isComplete], by simp [Clause.isAnchored],
    (isValid_deviation hk).address_valid⟩

theorem isValid_background (k : Combination) :
    (⟨.background, [⟨.reset, k.flags⟩]⟩ : Clause).IsValid c := by
  refine ⟨by simp, by simp [Clause.Group.isComplete], by simp [Clause.isAnchored], trivial⟩

theorem isValid_addition {k : Combination} (hk : k ∈ s.additions c) :
    (⟨.listed (s.unnamedWith c k), [⟨.raise, k.flags⟩]⟩ : Clause).IsValid c := by
  obtain ⟨hlt, hne, hlisted⟩ := mem_additions.mp hk
  refine ⟨by simp, ?_, by simp [Clause.isAnchored],
    hlisted, fun v hv => decide_eq_true (mem_unnamedWith.mp hv).1.2⟩
  simp [Clause.Group.isComplete, flags_ne_nil hlt hne]

theorem isValid_of_mem_clauses {cl : Clause} (h : cl ∈ s.clauses c) : cl.IsValid c := by
  rcases List.mem_append.mp h with hnamed | hadd
  · rw [namedClauses] at hnamed
    split at hnamed
    next k rest hb hdev =>
      rcases List.mem_cons.mp hnamed with rfl | hrest
      · exact isValid_reset (hdev ▸ List.mem_cons_self)
      · obtain ⟨k', hk', rfl⟩ := List.mem_map.mp hrest
        exact isValid_deviation (hdev ▸ List.mem_cons_of_mem _ hk')
    next =>
      rcases List.mem_cons.mp hnamed with rfl | hrest
      · exact isValid_background _
      · obtain ⟨k', hk', rfl⟩ := List.mem_map.mp hrest
        exact isValid_deviation hk'
  · obtain ⟨k, hk, rfl⟩ := List.mem_map.mp hadd
    exact isValid_addition hk

end Capabilities.CapSet
