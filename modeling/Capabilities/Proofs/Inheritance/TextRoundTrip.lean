import Capabilities.Proofs.CapSet.TextRoundTrip
import Capabilities.Proofs.Workspace.Contents

/-!
# Reading a tuple back

A valid tuple is read back from its text: the text is cut at its commas into the
entries, each entry is read as it was written, and together they grant what the
tuple raises. A workspace that starts with supported sets and without tuples
never holds a tuple that is not valid, whatever edits are made.
-/

namespace Capabilities

namespace Inheritance

variable {c : Capacity} {x : Inheritance}

theorem isMark_of_mem_entries {e : Entry} (h : e ∈ x.entries c) :
    ∀ ch ∈ e.marks, isMark ch = true := by
  obtain ⟨v, -, hentry⟩ := mem_entries.mp h
  exact isMark_of_entry_eq hentry

theorem admits_of_mem_entries {e : Entry} (h : e ∈ x.entries c) : c.admits e.value = true := by
  obtain ⟨v, hv, hentry⟩ := mem_entries.mp h
  rw [value_of_entry_eq hentry]
  exact decide_eq_true hv

theorem mapM_entries :
    ((x.entries c).map Entry.render).mapM (Entry.read? c) = some (x.entries c) :=
  Text.mapM_map_eq_some fun _ he =>
    Entry.read?_render (isMark_of_mem_entries he) (admits_of_mem_entries he)

theorem splitOn_render (h : x.entries c ≠ []) :
    (x.render c).splitOn ',' = (x.entries c).map Entry.render := by
  refine List.splitOn_intercalate _ ?_ (by simpa using h)
  intro piece hpiece
  obtain ⟨e, he, rfl⟩ := List.mem_map.mp hpiece
  exact Entry.comma_not_mem_render (isMark_of_mem_entries he)

/-- Every entry leaves something in the text. -/
theorem render_eq_nil_iff : x.render c = [] ↔ x.entries c = [] := by
  constructor
  · intro hrender
    by_contra hentries
    have hread := mapM_entries (c := c) (x := x)
    rw [← splitOn_render hentries, hrender] at hread
    cases hread
  · intro hentries
    rw [render, hentries]
    rfl

theorem foldl_apply_entries (hx : x.IsValid c) :
    (x.entries c).foldl Entry.apply empty = x := by
  refine ext_part fun p => Mask.ext fun v => ?_
  rw [Bool.eq_iff_iff, Entry.contains_foldl_apply_empty]
  constructor
  · rintro ⟨e, he, hvalue, hgrants⟩
    obtain ⟨u, -, hentry⟩ := mem_entries.mp he
    rw [value_of_entry_eq hentry] at hvalue
    subst hvalue
    rwa [grants_of_entry_eq (hx.closed u) hentry] at hgrants
  · intro hv
    obtain ⟨e, hentry⟩ := exists_entry_eq hv
    refine ⟨e, mem_entries.mpr ⟨v, hx.lt_count p v hv, hentry⟩, value_of_entry_eq hentry, ?_⟩
    rwa [grants_of_entry_eq (hx.closed v) hentry]

theorem ofText_toText_of_isValid (hx : x.IsValid c) : ofText c (x.toText c) = .ok x := by
  rw [ofText_eq_ok_iff, toText, String.toList_ofList, read?]
  have hfold := foldl_apply_entries hx
  by_cases hentries : x.entries c = []
  · rw [if_pos (render_eq_nil_iff.mpr hentries), ← hfold, hentries]
    rfl
  · rw [if_neg (mt render_eq_nil_iff.mp hentries), splitOn_render hentries, mapM_entries,
      Option.map_some, hfold]

theorem read?_eq_some_empty_iff {cs : List Char} : read? c cs = some empty ↔ cs = [] := by
  constructor
  · intro hread
    by_contra hcs
    rw [read?, if_neg hcs] at hread
    obtain ⟨es, hes, hfold⟩ := Option.map_eq_some_iff.mp hread
    have hpieces := (Text.mapM_eq_some_iff.mp hes).length_eq
    obtain ⟨e, he⟩ : ∃ e, e ∈ es := by
      apply List.exists_mem_of_length_pos
      rw [← hpieces]
      exact List.length_pos_iff.mpr (List.splitOn_ne_nil _ _)
    -- The first piece already raises something.
    obtain ⟨piece, -, hpiece⟩ := Text.exists_read_of_mem hes he
    obtain ⟨p, hgrants⟩ := Entry.exists_grants (Entry.isMark_of_read? hpiece)
    have hraised := Entry.contains_foldl_apply_empty.mpr ⟨e, he, rfl, hgrants⟩
    rw [hfold, part_empty, Mask.contains_empty] at hraised
    cases hraised
  · rintro rfl
    rfl

theorem ofText_eq_ok_empty_iff {text : String} : ofText c text = .ok empty ↔ text = "" := by
  rw [ofText_eq_ok_iff, read?_eq_some_empty_iff, String.toList_eq_nil_iff]

theorem toText_eq_empty_iff (hx : x.IsValid c) : x.toText c = "" ↔ x = empty := by
  rw [← ofText_eq_ok_empty_iff (c := c), ofText_toText_of_isValid hx, Except.ok.injEq]

end Inheritance

namespace Workspace

variable {c : Capacity} {w : Workspace}

/-- Whatever edits are made in a workspace of supported sets that holds no tuples yet, every
tuple is read back from its text and written in the same way again. The empty text is that of
the empty tuple, and no other text is read as it. -/
theorem ofText_toText_tuple (hsets : ∀ name, (w.set name).fits c = true)
    (htuples : ∀ name, w.tuple name = Inheritance.empty) {edits : List Edit} {name : String}
    {x : Inheritance} (hx : (w.editAll c edits).tuple name = x) :
    (∃ y, Inheritance.ofText c (x.toText c) = .ok y ∧
      (∀ p v, (y.part p).contains v = (x.part p).contains v) ∧
      y.toText c = x.toText c) ∧
    (x.toText c = "" ↔ x = Inheritance.empty) ∧
    ∀ text, Inheritance.ofText c text = .ok Inheritance.empty ↔ text = "" := by
  have hsound : w.IsSound c :=
    ⟨hsets, fun n => (htuples n).symm ▸ Inheritance.isValid_empty c⟩
  have hvalid : x.IsValid c := hx ▸ (hsound.editAll edits).isValid name
  exact ⟨⟨x, Inheritance.ofText_toText_of_isValid hvalid, fun _ _ => rfl, rfl⟩,
    Inheritance.toText_eq_empty_iff hvalid, fun _ => Inheritance.ofText_eq_ok_empty_iff⟩

/-- A workspace with one set, which raises named values and one without a name. -/
def oneSet : Workspace :=
  empty.putSet "granted" ⟨∅, Mask.ofList [0, 7, 42], Mask.ofList [6], some 1000⟩

/-- Edits of tuples; one of them fails. -/
def tupleEdits : List Edit :=
  [.parseTuple "first" "!^cap_chown,cap_kill,!%6", .copyTuple "second" "first",
    .fillTuple "second" .ambient "granted" .permitted,
    .assignTuple "second" .inheritable false [0, 43],
    .assignTuple "second" .inheritable false [7],
    .assignTuple "second" .blocked true [42, 41, 42]]

/-- What the edits make of the second tuple. -/
def editedTuple : Inheritance :=
  ⟨Mask.ofList [0, 5, 6, 42], Mask.ofList [0, 42], Mask.ofList [0, 6, 41, 42]⟩

theorem ofText_toText_editedTuple :
    (∀ name, (oneSet.set name).fits CapSet.beyondNames = true) ∧
    (∀ name, oneSet.tuple name = Inheritance.empty) ∧
    (oneSet.editAll CapSet.beyondNames tupleEdits).tuple "second" = editedTuple ∧
    (∃ y, Inheritance.ofText CapSet.beyondNames (editedTuple.toText CapSet.beyondNames) = .ok y ∧
      (∀ p v, (y.part p).contains v = (editedTuple.part p).contains v) ∧
      y.toText CapSet.beyondNames = editedTuple.toText CapSet.beyondNames) ∧
    (editedTuple.toText CapSet.beyondNames = "" ↔ editedTuple = Inheritance.empty) ∧
    ∀ text, Inheritance.ofText CapSet.beyondNames text = .ok Inheritance.empty ↔ text = "" := by
  have hsets (name : String) : (oneSet.set name).fits CapSet.beyondNames = true := by
    rw [oneSet, set_putSet]
    split
    next => decide
    next => exact CapSet.fits_empty _
  have htuple : (oneSet.editAll CapSet.beyondNames tupleEdits).tuple "second" = editedTuple := by
    decide +kernel
  exact ⟨hsets, fun _ => rfl, htuple, ofText_toText_tuple hsets (fun _ => rfl) htuple⟩

end Workspace

end Capabilities
