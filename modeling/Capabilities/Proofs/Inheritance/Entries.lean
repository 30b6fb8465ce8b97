import Capabilities.Inheritance.Text
import Capabilities.Proofs.Text.Separation
import Capabilities.Proofs.Value.Reading

/-!
# Entries of a tuple text

An entry grants its value in some of the three parts, and a list of entries
grants what any of them does. The entry that a tuple has for a value grants
exactly the parts in which the value is raised, provided that ambient values are
inheritable: the marks leave out that they are.
-/

namespace Capabilities.Inheritance

variable {c : Capacity} {x : Inheritance} {p : Part} {v : Value}

theorem ext_part {x y : Inheritance} (h : ∀ p, x.part p = y.part p) : x = y := by
  obtain ⟨i, a, b⟩ := x
  obtain ⟨i', a', b'⟩ := y
  have hi : i = i' := h .inheritable
  have ha : a = a' := h .ambient
  have hb : b = b' := h .blocked
  rw [hi, ha, hb]

namespace Entry

/-- Whether an entry raises its value in a part. -/
def grants (e : Entry) : Part → Bool
  | .inheritable => e.makesInheritable
  | .ambient => e.makesAmbient
  | .blocked => e.blocks

theorem contains_apply (x : Inheritance) (e : Entry) (p : Part) (v : Value) :
    ((apply x e).part p).contains v =
      ((x.part p).contains v || (e.grants p && decide (e.value = v))) := by
  cases p with
  | inheritable => cases h : e.makesInheritable <;> simp [apply, part, grants, h]
  | ambient => cases h : e.makesAmbient <;> simp [apply, part, grants, h]
  | blocked => cases h : e.blocks <;> simp [apply, part, grants, h]

theorem contains_foldl_apply (es : List Entry) (x : Inheritance) (p : Part) (v : Value) :
    ((es.foldl apply x).part p).contains v = true ↔
      (x.part p).contains v = true ∨ ∃ e ∈ es, e.value = v ∧ e.grants p = true := by
  induction es generalizing x with
  | nil => simp
  | cons e es ih =>
      rw [List.foldl_cons, ih, contains_apply, List.exists_mem_cons_iff]
      simp only [Bool.or_eq_true, Bool.and_eq_true, decide_eq_true_eq, or_assoc, and_comm]

/-- The tuple of some entries raises what any of them grants. -/
theorem contains_foldl_apply_empty {es : List Entry} {p : Part} {v : Value} :
    ((es.foldl apply empty).part p).contains v = true ↔
      ∃ e ∈ es, e.value = v ∧ e.grants p = true := by
  rw [contains_foldl_apply, part_empty, Mask.contains_empty]
  simp

/-- What makes its value ambient makes it inheritable. -/
theorem grants_inheritable {e : Entry} (h : e.grants .ambient = true) :
    e.grants .inheritable = true := by
  simp only [grants, makesAmbient] at h
  simp only [grants, makesInheritable, h, Bool.or_true, Bool.true_or]

/-- Every entry grants something: an entry without marks makes its value inheritable. -/
theorem exists_grants {e : Entry} (h : ∀ ch ∈ e.marks, isMark ch = true) :
    ∃ p, e.grants p = true := by
  obtain ⟨marks, value⟩ := e
  cases marks with
  | nil => exact ⟨.inheritable, rfl⟩
  | cons ch marks =>
      have hmark := h ch List.mem_cons_self
      simp only [isMark, Bool.or_eq_true, beq_iff_eq] at hmark
      rcases hmark with (rfl | rfl) | rfl
      · exact ⟨.blocked, by simp [grants, blocks]⟩
      · exact ⟨.ambient, by simp [grants, makesAmbient]⟩
      · exact ⟨.inheritable, by simp [grants, makesInheritable]⟩

theorem isMark_eq_false {ch : Char} (h : Value.isNameChar ch = true) : isMark ch = false := by
  rw [← Bool.not_eq_true]
  intro hmark
  simp only [isMark, Bool.or_eq_true, beq_iff_eq] at hmark
  rcases hmark with (rfl | rfl) | rfl <;> exact absurd h (by decide)

/-- The marks end where something else begins. -/
theorem cut_after_marks {marks rest : List Char} (h : ∀ ch ∈ marks, isMark ch = true)
    (hrest : ∀ ch ∈ rest, isMark ch = false) :
    (marks ++ rest).takeWhile isMark = marks ∧ (marks ++ rest).dropWhile isMark = rest := by
  rw [List.takeWhile_append_of_pos h, List.dropWhile_append_of_pos h]
  cases rest with
  | nil => simp
  | cons ch rest => simp [hrest ch List.mem_cons_self]

theorem read?_render {e : Entry} (h : ∀ ch ∈ e.marks, isMark ch = true)
    (hv : c.admits e.value = true) : read? c e.render = some e := by
  obtain ⟨hmarks, hvalue⟩ := cut_after_marks h fun ch hch =>
    isMark_eq_false (Value.isNameChar_of_mem_render (v := e.value) hch)
  rw [read?, render, hmarks, hvalue, Value.read?_render hv]
  rfl

theorem comma_not_mem_render {e : Entry} (h : ∀ ch ∈ e.marks, isMark ch = true) :
    ',' ∉ e.render := by
  intro hmem
  rcases List.mem_append.mp hmem with hmarks | hvalue
  · exact absurd (h ',' hmarks) (by decide)
  · exact absurd (Value.isNameChar_of_mem_render hvalue) (by decide)

theorem isMark_of_read? {cs : List Char} {e : Entry} (h : read? c cs = some e) :
    ∀ ch ∈ e.marks, isMark ch = true := by
  obtain ⟨v, -, rfl⟩ := Option.map_eq_some_iff.mp h
  exact List.all_eq_true.mp List.all_takeWhile

theorem lt_count_of_read? {cs : List Char} {e : Entry} (h : read? c cs = some e) :
    e.value < c.count := by
  obtain ⟨v, hv, rfl⟩ := Option.map_eq_some_iff.mp h
  exact (Value.read?_eq_some_iff.mp hv).lt_count

end Entry

theorem exists_entry_eq (h : (x.part p).contains v = true) : ∃ e, x.entry? v = some e := by
  refine ⟨_, if_pos ?_⟩
  cases p <;> simp only [part] at h <;> simp [h]

theorem value_of_entry_eq {e : Entry} (h : x.entry? v = some e) : e.value = v := by
  obtain ⟨-, heq⟩ := Option.ite_none_right_eq_some.mp h
  cases heq
  rfl

theorem isMark_of_entry_eq {e : Entry} (h : x.entry? v = some e) :
    ∀ ch ∈ e.marks, isMark ch = true := by
  obtain ⟨-, heq⟩ := Option.ite_none_right_eq_some.mp h
  cases heq
  intro ch hch
  rcases List.mem_append.mp hch with hblocked | hother
  · split at hblocked
    next => exact List.mem_singleton.mp hblocked ▸ rfl
    next => cases hblocked
  · split at hother
    next => exact List.mem_singleton.mp hother ▸ rfl
    next =>
      split at hother
      next => exact List.mem_singleton.mp hother ▸ rfl
      next => cases hother

/-- That ambient values are inheritable is what the mark for ambient ones leaves unsaid. -/
theorem grants_of_entry_eq (hclosed : x.ambient.contains v = true → x.inheritable.contains v = true)
    {e : Entry} (h : x.entry? v = some e) (p : Part) :
    e.grants p = (x.part p).contains v := by
  obtain ⟨hmentioned, heq⟩ := Option.ite_none_right_eq_some.mp h
  cases heq
  cases p <;> simp only [Entry.grants, Entry.makesInheritable, Entry.makesAmbient, Entry.blocks,
    part] <;>
    cases hi : x.inheritable.contains v <;> cases ha : x.ambient.contains v <;>
    cases hb : x.blocked.contains v <;> simp_all

theorem mem_entries {e : Entry} :
    e ∈ x.entries c ↔ ∃ v < c.count, x.entry? v = some e := by
  simp [entries, Capacity.values, List.mem_filterMap]

end Capabilities.Inheritance
