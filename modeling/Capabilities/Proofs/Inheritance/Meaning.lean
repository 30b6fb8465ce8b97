import Capabilities.Proofs.CapSet.TextRoundTrip
import Capabilities.Proofs.Inheritance.PlainTuple

/-!
# The meaning of a tuple text

A text of entries is cut at its commas, and each entry is marks with a value
after them. The grammar says which entries a text denotes, without a look at how
it is read, and the tuple that is read from the text raises what some of its
entries grants. So nothing depends on the order of the entries or on how often
they stand there, and texts with a comma between them grant what both of them do.
-/

namespace Capabilities.Inheritance

variable {c : Capacity}

namespace Entry

/-- Marks, as many as there are, and what denotes a value after them. -/
inductive Denotes (c : Capacity) : List Char → Entry → Prop
  | intro {marks cs : List Char} {v : Value}
      (hmarks : ∀ ch ∈ marks, ch = '!' ∨ ch = '^' ∨ ch = '%') (hvalue : Value.Denotes c cs v) :
      Denotes c (marks ++ cs) ⟨marks, v⟩

theorem isMark_iff {ch : Char} : isMark ch = true ↔ ch = '!' ∨ ch = '^' ∨ ch = '%' := by
  simp [isMark, or_assoc]

/-- A mark is no part of what denotes a value. -/
theorem isMark_of_denotes {cs : List Char} {v : Value} (h : Value.Denotes c cs v) {ch : Char}
    (hch : ch ∈ cs) : isMark ch = false := by
  rw [← Bool.not_eq_true, isMark_iff]
  intro hmark
  have hname := h.isNameChar_toLower hch
  rcases hmark with rfl | rfl | rfl <;> exact absurd hname (by decide)

theorem read?_eq_some_iff {cs : List Char} {e : Entry} :
    read? c cs = some e ↔ Denotes c cs e := by
  constructor
  · intro h
    obtain ⟨v, hv, rfl⟩ := Option.map_eq_some_iff.mp h
    have hmarks : ∀ ch ∈ cs.takeWhile isMark, ch = '!' ∨ ch = '^' ∨ ch = '%' := fun ch hch =>
      isMark_iff.mp (List.all_eq_true.mp List.all_takeWhile ch hch)
    have hdenotes := Denotes.intro hmarks (Value.read?_eq_some_iff.mp hv)
    rwa [List.takeWhile_append_dropWhile] at hdenotes
  · rintro ⟨hmarks, hvalue⟩
    obtain ⟨hbefore, hafter⟩ := cut_after_marks (fun ch hch => isMark_iff.mpr (hmarks ch hch))
      fun ch hch => isMark_of_denotes hvalue hch
    rw [read?, hbefore, hafter, Value.read?_eq_some_iff.mpr hvalue, Option.map_some]

theorem grants_ambient {e : Entry} : e.grants .ambient = true ↔ '^' ∈ e.marks := by
  simp [grants, makesAmbient]

theorem grants_blocked {e : Entry} : e.grants .blocked = true ↔ '!' ∈ e.marks := by
  simp [grants, blocks]

theorem grants_inheritable_iff {e : Entry} :
    e.grants .inheritable = true ↔ e.marks = [] ∨ '^' ∈ e.marks ∨ '%' ∈ e.marks := by
  simp [grants, makesInheritable, or_assoc]

end Entry

/-- No text at all, or entries with a comma between them. -/
def Denotes (c : Capacity) (cs : List Char) (es : List Entry) : Prop :=
  (cs = [] ∧ es = []) ∨
    ∃ pieces, Text.Separated ',' cs pieces ∧ List.Forall₂ (Entry.Denotes c) pieces es

/-- Of no text at all there is a single piece, which is not an entry. -/
theorem entries?_eq_some_iff {cs : List Char} {es : List Entry} :
    entries? c cs = some es ↔ Denotes c cs es := by
  have hpieces : (∃ pieces, Text.Separated ',' cs pieces ∧
      List.Forall₂ (Entry.Denotes c) pieces es) ↔
        (cs.splitOn ',').mapM (Entry.read? c) = some es := by
    simp only [Text.separated_iff, exists_eq_left', Text.mapM_eq_some_iff,
      Entry.read?_eq_some_iff]
  rw [entries?, Denotes, hpieces]
  split
  next hnil =>
    subst hnil
    have hread : Entry.read? c [] = none := by simp [Entry.read?, Value.read?_nil]
    simp [hread, eq_comm]
  next hne => simp [hne]

theorem entries?_append_comma {cs cs' : List Char} (hcs : cs ≠ []) (hcs' : cs' ≠ []) :
    entries? c (cs ++ ',' :: cs') =
      (entries? c cs).bind fun es => (entries? c cs').map fun es' => es ++ es' := by
  rw [entries?, if_neg (by simp), Text.splitOn_append_cons, List.mapM_append, entries?,
    if_neg hcs, entries?, if_neg hcs']
  cases (cs.splitOn ',').mapM (Entry.read? c) with
  | none => rfl
  | some es => cases (cs'.splitOn ',').mapM (Entry.read? c) <;> rfl

theorem ofText_eq_entries? (c : Capacity) (text : String) :
    ofText c text = match entries? c text.toList with
      | some es => .ok (es.foldl Entry.apply empty)
      | none => .error .badText := by
  rw [ofText, read?_eq_map_entries?]
  cases entries? c text.toList <;> rfl

theorem ofText_of_denotes {text : String} {es : List Entry} (h : Denotes c text.toList es) :
    ofText c text = .ok (es.foldl Entry.apply empty) := by
  rw [ofText_eq_entries?, entries?_eq_some_iff.mpr h]

theorem exists_ofText_iff {text : String} :
    (∃ x, ofText c text = .ok x) ↔ ∃ es, Denotes c text.toList es := by
  simp only [← entries?_eq_some_iff, ofText_eq_entries?]
  cases entries? c text.toList <;> simp

theorem foldl_apply_append (es es' : List Entry) (p : Part) :
    ((es ++ es').foldl Entry.apply empty).part p =
      (es.foldl Entry.apply empty).part p ∪ (es'.foldl Entry.apply empty).part p := by
  apply Mask.ext
  intro v
  rw [Bool.eq_iff_iff, Mask.contains_union, Bool.or_eq_true]
  simp only [Entry.contains_foldl_apply_empty, List.mem_append, or_and_right, exists_or]

/-- Neither the order of the entries nor how often they stand there matters. -/
theorem foldl_apply_congr {es es' : List Entry} (h : ∀ e, e ∈ es ↔ e ∈ es') :
    es.foldl Entry.apply empty = es'.foldl Entry.apply empty := by
  refine ext_part fun p => Mask.ext fun v => ?_
  rw [Bool.eq_iff_iff]
  simp only [Entry.contains_foldl_apply_empty, h]

/-- A text is accepted exactly if it denotes entries, which the empty text does, and refused as a
bad one otherwise. A value is then ambient, blocked or inheritable as the marks of some entry for
it say. Texts with a comma between them are accepted if both of them are, and grant what either
of them does; so texts with the same entries mean the same. -/
theorem ofText_grants (c : Capacity) :
    (∀ text, ((∃ x, ofText c text = .ok x) ↔ ∃ es, Denotes c text.toList es) ∧
      ((¬ ∃ es, Denotes c text.toList es) → ofText c text = .error .badText)) ∧
    (∀ text es, Denotes c text.toList es → ∃ x, ofText c text = .ok x ∧ ∀ v,
      (x.ambient.contains v = true ↔ ∃ e ∈ es, e.value = v ∧ '^' ∈ e.marks) ∧
      (x.blocked.contains v = true ↔ ∃ e ∈ es, e.value = v ∧ '!' ∈ e.marks) ∧
      (x.inheritable.contains v = true ↔
        ∃ e ∈ es, e.value = v ∧ (e.marks = [] ∨ '^' ∈ e.marks ∨ '%' ∈ e.marks))) ∧
    (∀ first second, first ≠ "" → second ≠ "" →
      ((∃ z, ofText c (first ++ "," ++ second) = .ok z) ↔
        (∃ x, ofText c first = .ok x) ∧ ∃ y, ofText c second = .ok y) ∧
      ∀ x y, ofText c first = .ok x → ofText c second = .ok y →
        ∃ z, ofText c (first ++ "," ++ second) = .ok z ∧ ∀ p, z.part p = x.part p ∪ y.part p) ∧
    ∀ text text' es es', Denotes c text.toList es → Denotes c text'.toList es' →
      (∀ e, e ∈ es ↔ e ∈ es') → ofText c text = ofText c text' := by
  refine ⟨fun text => ⟨exists_ofText_iff, ?_⟩, ?_, ?_, ?_⟩
  · intro hnone
    rw [← exists_ofText_iff] at hnone
    rw [ofText_eq_entries?] at hnone ⊢
    cases hentries : entries? c text.toList with
    | none => rfl
    | some es => simp [hentries] at hnone
  · intro text es hes
    refine ⟨_, ofText_of_denotes hes, fun v => ?_⟩
    have hraised (p : Part) : ((es.foldl Entry.apply empty).part p).contains v = true ↔ _ :=
      Entry.contains_foldl_apply_empty
    exact ⟨(hraised .ambient).trans (by simp only [Entry.grants_ambient]),
      (hraised .blocked).trans (by simp only [Entry.grants_blocked]),
      (hraised .inheritable).trans (by simp only [Entry.grants_inheritable_iff])⟩
  · intro first second hfirst hsecond
    have hjoined : entries? c (first ++ "," ++ second).toList =
        (entries? c first.toList).bind fun es => (entries? c second.toList).map (es ++ ·) := by
      rw [← entries?_append_comma (mt String.toList_eq_nil_iff.mp hfirst)
        (mt String.toList_eq_nil_iff.mp hsecond)]
      simp [String.toList_append]
    simp only [ofText_eq_entries?, hjoined]
    cases entries? c first.toList with
    | none => simp
    | some es =>
        cases entries? c second.toList with
        | none => simp
        | some es' =>
            refine ⟨by simp, ?_⟩
            rintro x y ⟨⟩ ⟨⟩
            exact ⟨_, rfl, foldl_apply_append es es'⟩
  · intro text text' es es' hes hes' hsame
    rw [ofText_of_denotes hes, ofText_of_denotes hes', foldl_apply_congr hsame]

/-- Entries with repeated and mixed marks, some of them for the same value. -/
def mixedText : String := "!^cap_kill,%%41,CAP_KILL,!005,0"

/-- What the entries grant together. -/
def mixedTuple : Inheritance :=
  ⟨Mask.ofList [0, 5, 41], Mask.ofList [5], Mask.ofList [5]⟩

theorem ofText_grants_mixedText :
    ofText CapSet.beyondNames mixedText = .ok mixedTuple ∧
    ∃ es, Denotes CapSet.beyondNames mixedText.toList es ∧ ∀ v,
      (mixedTuple.ambient.contains v = true ↔ ∃ e ∈ es, e.value = v ∧ '^' ∈ e.marks) ∧
      (mixedTuple.blocked.contains v = true ↔ ∃ e ∈ es, e.value = v ∧ '!' ∈ e.marks) ∧
      (mixedTuple.inheritable.contains v = true ↔
        ∃ e ∈ es, e.value = v ∧ (e.marks = [] ∨ '^' ∈ e.marks ∨ '%' ∈ e.marks)) := by
  have hread : ofText CapSet.beyondNames mixedText = .ok mixedTuple := by decide +kernel
  obtain ⟨haccepted, hmeaning, -⟩ := ofText_grants CapSet.beyondNames
  obtain ⟨es, hes⟩ := (haccepted mixedText).1.mp ⟨_, hread⟩
  obtain ⟨x, hx, hraised⟩ := hmeaning mixedText es hes
  obtain rfl : x = mixedTuple := Except.ok.inj (hx.symm.trans hread)
  exact ⟨hread, es, hes, hraised⟩

end Capabilities.Inheritance
