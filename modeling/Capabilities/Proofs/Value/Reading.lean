import Capabilities.Value

/-!
# Reading a written value

The names differ, are in lower case and hold no digits, so a written value is
read back as itself. The characters of a written value are letters, digits and
underscores, which keeps it apart from everything around it.
-/

namespace Capabilities.Value

/-- The characters of which names consist. -/
def isNameLetter (ch : Char) : Bool := ch.isLower || ch == '_'

/-- The characters of which written values consist. -/
def isNameChar (ch : Char) : Bool := isNameLetter ch || ch.isDigit

theorem names_nodup : names.Nodup := by decide +kernel

/-- Every name begins alike and is in lower case. -/
theorem spelling : ∀ name ∈ names,
    name.toList.take 4 = ['c', 'a', 'p', '_'] ∧ name.toList.all isNameLetter = true := by
  decide +kernel

theorem underscore_mem_name {name : String} (h : name ∈ names) : '_' ∈ name.toList := by
  refine List.mem_of_mem_take (i := 4) ?_
  rw [(spelling name h).1]
  decide

theorem isNameLetter_of_mem_name {name : String} (h : name ∈ names) {ch : Char}
    (hch : ch ∈ name.toList) : isNameLetter ch = true :=
  List.all_eq_true.mp (spelling name h).2 ch hch

theorem toNat_of_isLower {ch : Char} (h : ch.isLower = true) :
    0x61 ≤ ch.toNat ∧ ch.toNat ≤ 0x7A := by
  obtain ⟨hlow, hhigh⟩ := Bool.and_eq_true_iff.mp h
  exact ⟨UInt32.le_iff_toNat_le.mp (of_decide_eq_true hlow),
    UInt32.le_iff_toNat_le.mp (of_decide_eq_true hhigh)⟩

/-- Digits, the underscore and letters in lower case, in the order of their code points. -/
theorem toNat_of_isNameChar {ch : Char} (h : isNameChar ch = true) :
    (0x30 ≤ ch.toNat ∧ ch.toNat ≤ 0x39) ∨ ch.toNat = 0x5F ∨
      (0x61 ≤ ch.toNat ∧ ch.toNat ≤ 0x7A) := by
  simp only [isNameChar, isNameLetter, Bool.or_eq_true, beq_iff_eq] at h
  rcases h with (h | rfl) | h
  · exact Or.inr (Or.inr (toNat_of_isLower h))
  · exact Or.inr (Or.inl rfl)
  · exact Or.inl (Char.isDigit_iff_toNat.mp h)

/-- Nothing in a written value changes with its case. -/
theorem toLower_of_isNameChar {ch : Char} (h : isNameChar ch = true) : ch.toLower = ch := by
  unfold Char.toLower
  rw [dif_neg]
  rintro ⟨hlow, hhigh⟩
  have hge : 0x41 ≤ ch.toNat := UInt32.le_iff_toNat_le.mp hlow
  have hle : ch.toNat ≤ 0x5A := UInt32.le_iff_toNat_le.mp hhigh
  have hname := toNat_of_isNameChar h
  omega

theorem map_toLower {cs : List Char} (h : ∀ ch ∈ cs, isNameChar ch = true) :
    cs.map Char.toLower = cs := by
  conv => rhs; rw [← List.map_id cs]
  exact List.map_congr_left fun ch hch => toLower_of_isNameChar (h ch hch)

theorem isNameChar_of_mem_name {name : String} (h : name ∈ names) {ch : Char}
    (hch : ch ∈ name.toList) : isNameChar ch = true := by
  simp [isNameChar, isNameLetter_of_mem_name h hch]

theorem isDigit_of_mem_toDigits {v : Nat} {ch : Char} (h : ch ∈ Nat.toDigits 10 v) :
    ch.isDigit = true :=
  Nat.isDigit_of_mem_toDigits (by decide) (by decide) h

theorem isNameChar_of_mem_toDigits {v : Nat} {ch : Char} (h : ch ∈ Nat.toDigits 10 v) :
    isNameChar ch = true := by
  simp [isNameChar, isDigit_of_mem_toDigits h]

theorem isNameChar_of_mem_render {v : Value} {ch : Char} (h : ch ∈ render v) :
    isNameChar ch = true := by
  unfold render name? at h
  split at h
  next name hname => exact isNameChar_of_mem_name (List.mem_of_getElem? hname) h
  next => exact isNameChar_of_mem_toDigits h

/-- The names differ, so a name in any case is that of a single value. -/
theorem ofName?_eq_some_iff {cs : List Char} {v : Value} :
    ofName? cs = some v ↔ ∃ name, name? v = some name ∧ cs.map Char.toLower = name.toList := by
  rw [ofName?, List.findIdx?_eq_some_iff_getElem]
  constructor
  · rintro ⟨hlt, hname, -⟩
    exact ⟨names[v], List.getElem?_eq_getElem hlt, (beq_iff_eq.mp hname).symm⟩
  · rintro ⟨name, hname, hcase⟩
    obtain ⟨hlt, rfl⟩ := List.getElem?_eq_some_iff.mp hname
    refine ⟨hlt, beq_iff_eq.mpr hcase.symm, fun u hu => ?_⟩
    rw [hcase, Bool.not_eq_true, beq_eq_false_iff_ne]
    intro heq
    exact absurd (String.toList_inj.mp heq)
      (List.pairwise_iff_getElem.mp names_nodup u v (by omega) hlt hu)

/-- Digits are no name: every name holds an underscore. -/
theorem ofName?_digits {cs : List Char} (h : ∀ ch ∈ cs, ch.isDigit = true) :
    ofName? cs = none := by
  have hlower : cs.map Char.toLower = cs := map_toLower fun ch hch => by simp [isNameChar, h ch hch]
  rw [ofName?, hlower, List.findIdx?_eq_none_iff]
  intro name hname
  rw [beq_eq_false_iff_ne]
  intro heq
  have hmem := heq ▸ underscore_mem_name hname
  exact absurd (h '_' hmem) (by decide)

theorem ofDigits?_eq_some_iff {cs : List Char} {v : Nat} :
    ofDigits? cs = some v ↔
      cs ≠ [] ∧ (∀ ch ∈ cs, ch.isDigit = true) ∧ Nat.ofDigitChars 10 cs 0 = v := by
  simp [ofDigits?, and_assoc]

/-- A name in any case of its ASCII letters, or a number in decimal digits, of a supported
value. -/
inductive Denotes (c : Capacity) : List Char → Value → Prop
  | name {cs : List Char} {v : Value} {name : String} (hname : name? v = some name)
      (hcase : cs.map Char.toLower = name.toList) (hv : v < c.count) : Denotes c cs v
  | number {cs : List Char} (hne : cs ≠ []) (hdigits : ∀ ch ∈ cs, ch.isDigit = true)
      (hv : Nat.ofDigitChars 10 cs 0 < c.count) : Denotes c cs (Nat.ofDigitChars 10 cs 0)

theorem read?_eq_some_iff {c : Capacity} {cs : List Char} {v : Value} :
    read? c cs = some v ↔ Denotes c cs v := by
  rw [read?, Option.filter_eq_some_iff, Option.or_eq_some_iff, ofName?_eq_some_iff,
    ofDigits?_eq_some_iff]
  constructor
  · rintro ⟨⟨name, hname, hcase⟩ | ⟨-, hne, hdigits, rfl⟩, hv⟩
    · exact .name hname hcase (of_decide_eq_true hv)
    · exact .number hne hdigits (of_decide_eq_true hv)
  · intro h
    cases h with
    | name hname hcase hv => exact ⟨.inl ⟨_, hname, hcase⟩, decide_eq_true hv⟩
    | number hne hdigits hv =>
        exact ⟨.inr ⟨ofName?_digits hdigits, hne, hdigits, rfl⟩, decide_eq_true hv⟩

theorem Denotes.lt_count {c : Capacity} {cs : List Char} {v : Value} (h : Denotes c cs v) :
    v < c.count := by
  cases h with
  | name _ _ hv => exact hv
  | number _ _ hv => exact hv

/-- What denotes a value consists of the characters of written values, in any case. -/
theorem Denotes.isNameChar_toLower {c : Capacity} {cs : List Char} {v : Value}
    (h : Denotes c cs v) {ch : Char} (hch : ch ∈ cs) : isNameChar ch.toLower = true := by
  cases h with
  | name hname hcase _ =>
      have hlower : ch.toLower ∈ cs.map Char.toLower := List.mem_map_of_mem hch
      rw [hcase] at hlower
      exact isNameChar_of_mem_name (List.mem_of_getElem? hname) hlower
  | number _ hdigits _ =>
      have hname : isNameChar ch = true := by simp [isNameChar, hdigits ch hch]
      rwa [toLower_of_isNameChar hname]

/-- Something denotes a value only if it holds an underscore or a digit. -/
theorem Denotes.exists_mem {c : Capacity} {cs : List Char} {v : Value} (h : Denotes c cs v) :
    ∃ ch ∈ cs, ch.toLower = '_' ∨ ch.isDigit = true := by
  cases h with
  | name hname hcase _ =>
      have hmem := underscore_mem_name (List.mem_of_getElem? hname)
      rw [← hcase] at hmem
      obtain ⟨ch, hch, hlower⟩ := List.mem_map.mp hmem
      exact ⟨ch, hch, .inl hlower⟩
  | number hne hdigits _ =>
      obtain ⟨ch, rest, rfl⟩ := List.exists_cons_of_ne_nil hne
      exact ⟨ch, List.mem_cons_self, .inr (hdigits ch List.mem_cons_self)⟩

theorem read?_nil (c : Capacity) : read? c [] = none := by
  rw [Option.eq_none_iff_forall_ne_some]
  intro v hv
  obtain ⟨ch, hch, -⟩ := (read?_eq_some_iff.mp hv).exists_mem
  cases hch

theorem ofName?_of_name {name : String} {v : Value} (h : name? v = some name) :
    ofName? name.toList = some v := by
  have hmem : name ∈ names := List.mem_of_getElem? h
  exact ofName?_eq_some_iff.mpr
    ⟨name, h, map_toLower fun ch hch => isNameChar_of_mem_name hmem hch⟩

theorem ofName?_toDigits (v : Nat) : ofName? (Nat.toDigits 10 v) = none :=
  ofName?_digits fun _ hch => isDigit_of_mem_toDigits hch

theorem ofDigits?_toDigits (v : Nat) : ofDigits? (Nat.toDigits 10 v) = some v :=
  ofDigits?_eq_some_iff.mpr ⟨Nat.toDigits_ne_nil, fun _ hch => isDigit_of_mem_toDigits hch,
    Nat.ofDigitChars_ten_toDigits⟩

/-- A written value tells which one it is, whether it is supported or not. -/
theorem ofName?_or_ofDigits?_render (v : Value) :
    (ofName? (render v)).or (ofDigits? (render v)) = some v := by
  unfold render
  split
  next name hname => rw [ofName?_of_name hname, Option.some_or]
  next => rw [ofName?_toDigits, Option.none_or, ofDigits?_toDigits]

/-- A supported value is read back from its written form. -/
theorem read?_render {c : Capacity} {v : Value} (h : c.admits v = true) :
    read? c (render v) = some v := by
  rw [read?, ofName?_or_ofDigits?_render, Option.filter_some, if_pos h]

/-- A supported value is read from its number, also if it has a name. -/
theorem read?_toDigits {c : Capacity} {v : Value} (h : c.admits v = true) :
    read? c (Nat.toDigits 10 v) = some v := by
  rw [read?, ofName?_toDigits, Option.none_or, ofDigits?_toDigits, Option.filter_some, if_pos h]

end Capabilities.Value
