import Capabilities.Proofs.CapSet.Flags
import Capabilities.Proofs.Inheritance.Entries

/-!
# Valid tuples

A tuple is valid when every ambient value is inheritable and every raised value
is supported. The empty tuple is valid, reading gives valid tuples only, and
changes of valid tuples give valid tuples again, as long as they are filled from
supported values.
-/

namespace Capabilities.Inheritance

/-- Ambient values are inheritable, and nothing beyond the supported values is raised. -/
structure IsValid (c : Capacity) (x : Inheritance) : Prop where
  closed : ∀ v, x.ambient.contains v = true → x.inheritable.contains v = true
  lt_count : ∀ p v, (x.part p).contains v = true → v < c.count

variable {c : Capacity} {x : Inheritance}

theorem isValid_empty (c : Capacity) : empty.IsValid c := by
  constructor
  · intro v hv
    exact hv
  · intro p v hv
    rw [part_empty, Mask.contains_empty] at hv
    cases hv

theorem contains_change (m : Mask) (on : Bool) (u v : Value) :
    (change m on u).contains v = if u = v then on else m.contains v := by
  cases on <;> by_cases h : u = v <;> simp [change, h]

/-- Whether a change in one part is made in another part as well: what is raised in the ambient
part becomes inheritable, and what is lowered in the inheritable part is no longer ambient. -/
def Part.carries (p : Part) (on : Bool) (q : Part) : Bool :=
  p = q || (p = .ambient && q = .inheritable && on) || (p = .inheritable && q = .ambient && !on)

/-- A change touches one value only, although whole words are compared. -/
theorem contains_put (hclosed : ∀ v, x.ambient.contains v = true → x.inheritable.contains v = true)
    (p q : Part) (on : Bool) (u v : Value) :
    ((x.put p on u).part q).contains v =
      if u = v ∧ p.carries on q = true then on else (x.part q).contains v := by
  -- An ambient value of the same word is inheritable already, so only `u` can change.
  have hv := hclosed v
  cases p with
  | inheritable =>
      cases q with
      | inheritable => simp [put, part, Part.carries, contains_change]
      | ambient =>
          simp only [put, part, Mask.contains_sdiff, Mask.contains_word, contains_change]
          by_cases huv : u = v
          · subst huv
            cases on <;> simp [Part.carries]
          · cases ha : x.ambient.contains v with
            | false => simp [huv]
            | true => simp [huv, hv ha]
      | blocked => simp [put, part, Part.carries]
  | ambient =>
      cases q with
      | inheritable =>
          simp only [put, part, Mask.contains_union, Mask.contains_inter, Mask.contains_word,
            contains_change]
          by_cases huv : u = v
          · subst huv
            cases on <;> simp [Part.carries]
          · cases ha : x.ambient.contains v with
            | false => simp [huv]
            | true => simp [huv, hv ha]
      | ambient => simp [put, part, Part.carries, contains_change]
      | blocked => simp [put, part, Part.carries]
  | blocked =>
      cases q <;> simp [put, part, Part.carries, contains_change]

theorem IsValid.put (hx : x.IsValid c) (p : Part) (on : Bool) {u : Value} (hu : u < c.count) :
    (x.put p on u).IsValid c := by
  constructor
  · intro v hv
    have hclosed := hx.closed v
    change ((x.put p on u).part .ambient).contains v = true at hv
    change ((x.put p on u).part .inheritable).contains v = true
    rw [contains_put hx.closed] at hv ⊢
    by_cases huv : u = v
    · cases p <;> cases on <;> simp_all [Part.carries, part]
    · simp only [huv, false_and, if_false] at hv ⊢
      exact hclosed hv
  · intro q v hv
    rw [contains_put hx.closed] at hv
    split at hv
    next h => exact h.1 ▸ hu
    next => exact hx.lt_count q v hv

theorem IsValid.set (hx : x.IsValid c) {p : Part} {on : Bool} {vs : List Value}
    {y : Inheritance} (h : x.set c p on vs = .ok y) : y.IsValid c := by
  rw [Inheritance.set] at h
  split at h
  next hadmits =>
    cases h
    rw [List.all_eq_true] at hadmits
    induction vs generalizing x with
    | nil => exact hx
    | cons v vs ih =>
        obtain ⟨hv, hvs⟩ := List.forall_mem_cons.mp hadmits
        exact ih (hx.put p on (of_decide_eq_true hv)) hvs
  next => cases h

theorem IsValid.fill (hx : x.IsValid c) (p : Part) {source : Mask}
    (hsource : ∀ v, source.contains v = true → v < c.count) : (x.fill c p source).IsValid c := by
  cases p with
  | inheritable =>
      constructor
      · intro v hv
        simp only [Inheritance.fill, Mask.contains_inter, Bool.and_eq_true] at hv
        exact hv.2
      · intro q v hv
        cases q with
        | inheritable => exact hsource v hv
        | ambient =>
            simp only [Inheritance.fill, part, Mask.contains_inter, Bool.and_eq_true] at hv
            exact hsource v hv.2
        | blocked => exact hx.lt_count .blocked v hv
  | ambient =>
      constructor
      · intro v hv
        simp only [Inheritance.fill, Mask.contains_union, Bool.or_eq_true] at hv ⊢
        exact .inr hv
      · intro q v hv
        cases q with
        | inheritable =>
            simp only [Inheritance.fill, part, Mask.contains_union, Bool.or_eq_true] at hv
            exact hv.elim (hx.lt_count .inheritable v) (hsource v)
        | ambient => exact hsource v hv
        | blocked => exact hx.lt_count .blocked v hv
  | blocked =>
      constructor
      · exact hx.closed
      · intro q v hv
        cases q with
        | inheritable => exact hx.lt_count .inheritable v hv
        | ambient => exact hx.lt_count .ambient v hv
        | blocked =>
            simp only [Inheritance.fill, part, Mask.contains_sdiff, Mask.contains_below,
              Bool.and_eq_true, decide_eq_true_eq] at hv
            exact hv.1

theorem ofText_eq_ok_iff {text : String} :
    ofText c text = .ok x ↔ read? c text.toList = some x := by
  rw [ofText]
  cases read? c text.toList <;> simp

/-- An ambient entry is an inheritable one. -/
theorem isValid_foldl_apply {es : List Entry} (h : ∀ e ∈ es, e.value < c.count) :
    (es.foldl Entry.apply empty).IsValid c := by
  constructor
  · intro v hv
    obtain ⟨e, he, hvalue, hgrants⟩ :=
      (Entry.contains_foldl_apply_empty (p := .ambient)).mp hv
    exact (Entry.contains_foldl_apply_empty (p := .inheritable)).mpr
      ⟨e, he, hvalue, Entry.grants_inheritable hgrants⟩
  · intro p v hv
    obtain ⟨e, he, rfl, -⟩ := Entry.contains_foldl_apply_empty.mp hv
    exact h e he

theorem isValid_of_ofText {text : String} (h : ofText c text = .ok x) : x.IsValid c := by
  have hread := ofText_eq_ok_iff.mp h
  rw [read?] at hread
  split at hread
  next =>
    cases hread
    exact isValid_empty c
  next =>
    obtain ⟨es, hes, rfl⟩ := Option.map_eq_some_iff.mp hread
    apply isValid_foldl_apply
    intro e he
    obtain ⟨piece, -, hpiece⟩ := Text.exists_read_of_mem hes he
    exact Entry.lt_count_of_read? hpiece

end Capabilities.Inheritance
