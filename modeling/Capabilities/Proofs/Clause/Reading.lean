import Capabilities.Proofs.Clause.Grammar
import Capabilities.Proofs.Text.Separation

/-!
# Reading a written clause

The written form of a valid clause denotes it, so it is read back as itself: its
values, its groups and the order of both. The written form is a single word, so
clauses can stand next to each other with a space between them.
-/

namespace Capabilities.Clause

/-- A list of values can be written when it is not empty, and read back when every value
is supported. -/
def Address.IsValid (c : Capacity) : Address → Prop
  | background => True
  | all => True
  | listed vs => vs ≠ [] ∧ ∀ v ∈ vs, c.admits v = true

theorem Address.denotes_render {c : Capacity} {a : Address} (h : a.IsValid c) :
    Denotes c a.render a := by
  cases a with
  | background => exact .background
  | all => exact .all
  | listed vs =>
      obtain ⟨hne, hadmits⟩ := h
      refine .listed (lists_intercalate (by simpa using hne) ?_)
      exact Text.mapM_map_eq_some fun v hv => Value.read?_render (hadmits v hv)

/-- What the grammar asks of a clause. -/
structure IsValid (c : Capacity) (cl : Clause) : Prop where
  groups_ne_nil : cl.groups ≠ []
  complete : ∀ g ∈ cl.groups, g.isComplete = true
  anchored : cl.isAnchored = true
  address_valid : cl.address.IsValid c

theorem isSymbol_eq_false_of_isNameChar {ch : Char} (h : Value.isNameChar ch = true) :
    isSymbol ch = false := by
  apply isSymbol_eq_false
  intro op heq
  rw [← heq] at h
  cases op <;> exact absurd h (by decide)

/-- The characters before the groups of a clause. -/
theorem mem_render_address {a : Address} {ch : Char} (h : ch ∈ a.render) :
    Value.isNameChar ch = true ∨ ch = ',' := by
  cases a with
  | background => simp [Address.render] at h
  | all =>
      have hall : Address.all.render.all Value.isNameChar = true := by decide
      exact Or.inl (List.all_eq_true.mp hall ch h)
  | listed vs =>
      rcases Text.mem_intercalate h with hsep | ⟨text, htext, hch⟩
      · exact Or.inr (by simpa using hsep)
      · obtain ⟨v, -, rfl⟩ := List.mem_map.mp htext
        exact Or.inl (Value.isNameChar_of_mem_render hch)

theorem isSymbol_of_mem_address {a : Address} {ch : Char} (h : ch ∈ a.render) :
    isSymbol ch = false := by
  rcases mem_render_address h with hname | rfl
  · exact isSymbol_eq_false_of_isNameChar hname
  · decide

theorem denotes_render {c : Capacity} {cl : Clause} (h : cl.IsValid c) :
    Denotes c cl.render cl := by
  obtain ⟨address, groups⟩ := cl
  have hnames := Address.denotes_render h.address_valid
  have hplain : ∀ ch ∈ address.render, ch ≠ '=' ∧ ch ≠ '+' ∧ ch ≠ '-' := fun ch hch =>
    isSymbol_eq_false_iff.mp (isSymbol_of_mem_address hch)
  have hgroups : Groups (groups.flatMap Group.render) groups :=
    groups_iff.mpr ⟨h.groups_ne_nil, h.complete, rfl⟩
  exact .intro hnames hplain hgroups ((isAnchored_iff hnames hgroups).mp h.anchored)

theorem read?_render {c : Capacity} {cl : Clause} (h : cl.IsValid c) :
    read? c cl.render = some cl :=
  read?_eq_some_iff.mpr (denotes_render h)

theorem isBlank_of_mem_address {a : Address} {ch : Char} (h : ch ∈ a.render) :
    Text.isBlank ch = false := by
  rcases mem_render_address h with hname | rfl
  · have hrange := Value.toNat_of_isNameChar hname
    exact Text.isBlank_eq_false (by omega) (by omega)
  · decide

theorem isBlank_of_mem_group {g : Group} {ch : Char} (h : ch ∈ g.render) :
    Text.isBlank ch = false := by
  rcases List.mem_cons.mp h with rfl | hletter
  · cases g.operation <;> decide
  · obtain ⟨f, -, rfl⟩ := List.mem_map.mp hletter
    cases f <;> decide

theorem isWord_render {cl : Clause} (h : cl.groups ≠ []) : Text.IsWord cl.render := by
  obtain ⟨g, gs, hgs⟩ := List.exists_cons_of_ne_nil h
  constructor
  · simp [render, hgs, Group.render]
  · intro ch hch
    rcases List.mem_append.mp hch with haddress | hgroups
    · exact isBlank_of_mem_address haddress
    · obtain ⟨group, -, hgroup⟩ := List.mem_flatMap.mp hgroups
      exact isBlank_of_mem_group hgroup

/-- Clauses with spaces between them are found again as the words of the text. -/
theorem mapM_read?_words {c : Capacity} {cls : List Clause} (h : ∀ cl ∈ cls, cl.IsValid c) :
    (Text.words ([' '].intercalate (cls.map render))).mapM (read? c) = some cls := by
  have hwords : ∀ word ∈ cls.map render, Text.IsWord word := by
    intro word hword
    obtain ⟨cl, hcl, rfl⟩ := List.mem_map.mp hword
    exact isWord_render (h cl hcl).groups_ne_nil
  rw [Text.words_intercalate _ hwords]
  exact Text.mapM_map_eq_some fun cl hcl => read?_render (h cl hcl)

end Capabilities.Clause
