import Capabilities.CapSet.Clause
import Capabilities.Proofs.Value.Reading

/-!
# The grammar of clauses

A clause is made of names and groups, and a group of a sign and letters. The
grammar says what each of them denotes, and each is read exactly from what
denotes it.
-/

namespace Capabilities.Clause

variable {c : Capacity}

/-- Values with a comma between them. -/
inductive Lists (c : Capacity) : List Char → List Value → Prop
  | one {cs : List Char} {v : Value} (h : Value.Denotes c cs v) : Lists c cs [v]
  | more {cs rest : List Char} {v : Value} {vs : List Value} (h : Value.Denotes c cs v)
      (more : Lists c rest vs) : Lists c (cs ++ ',' :: rest) (v :: vs)

/-- The part of a clause that says which values are addressed. -/
inductive Address.Denotes (c : Capacity) : List Char → Address → Prop
  | background : Denotes c [] .background
  | all : Denotes c ['a', 'l', 'l'] .all
  | listed {cs : List Char} {vs : List Value} (h : Lists c cs vs) : Denotes c cs (.listed vs)

theorem comma_not_mem_of_denotes {cs : List Char} {v : Value} (h : Value.Denotes c cs v) :
    ',' ∉ cs :=
  fun hmem => absurd (h.isNameChar_toLower hmem) (by decide)

theorem lists_intercalate {parts : List (List Char)} (hne : parts ≠ []) {vs : List Value}
    (h : parts.mapM (Value.read? c) = some vs) : Lists c ([','].intercalate parts) vs := by
  induction parts generalizing vs with
  | nil => exact absurd rfl hne
  | cons part rest ih =>
      simp only [List.mapM_cons, Option.pure_def, Option.bind_eq_bind, Option.bind_eq_some_iff,
        Option.some.injEq] at h
      obtain ⟨v, hv, us, hus, rfl⟩ := h
      have hpart := Value.read?_eq_some_iff.mp hv
      cases rest with
      | nil =>
          cases hus
          simpa using Lists.one hpart
      | cons next rest =>
          rw [List.intercalate_cons_cons]
          simpa using Lists.more hpart (ih (by simp) hus)

/-- The commas cut a list of values into what denotes one value each. -/
theorem mapM_splitOn_eq_some_iff {cs : List Char} {vs : List Value} :
    (cs.splitOn ',').mapM (Value.read? c) = some vs ↔ Lists c cs vs := by
  constructor
  · intro h
    have hjoined : [','].intercalate (cs.splitOn ',') = cs := List.intercalate_splitOn ','
    exact hjoined ▸ lists_intercalate (List.splitOn_ne_nil ',' cs) h
  · intro h
    have hcomma {cs : List Char} {v : Value} (h : Value.Denotes c cs v) :
        ∀ ch ∈ cs, (ch == ',') = false := fun ch hch =>
      beq_false_of_ne fun heq => comma_not_mem_of_denotes h (heq ▸ hch)
    induction h with
    | one h =>
        rw [List.splitOn_eq_splitOnP, List.splitOnP_eq_singleton (hcomma h)]
        simp [Value.read?_eq_some_iff.mpr h]
    | more h _ ih =>
        rw [List.splitOn_eq_splitOnP] at ih ⊢
        rw [List.splitOnP_append_cons_of_forall_mem (hcomma h) ',' (by decide)]
        simp [Value.read?_eq_some_iff.mpr h, ih]

/-- No list of values is empty, and none is the word for all of them. -/
theorem Lists.ne {cs : List Char} {vs : List Value} (h : Lists c cs vs) :
    cs ≠ [] ∧ cs ≠ ['a', 'l', 'l'] := by
  cases h with
  | one h =>
      obtain ⟨ch, hch, hspecial⟩ := h.exists_mem
      constructor
      · rintro rfl
        cases hch
      · rintro rfl
        have hletter : ch = 'a' ∨ ch = 'l' := by simpa using hch
        rcases hletter with rfl | rfl <;> exact absurd hspecial (by decide)
  | @more cs rest v vs h _ =>
      constructor
      · simp
      · intro heq
        have hmem : ',' ∈ cs ++ ',' :: rest := by simp
        rw [heq] at hmem
        exact absurd hmem (by decide)

theorem Address.read?_eq_some_iff {cs : List Char} {a : Address} :
    read? c cs = some a ↔ Denotes c cs a := by
  constructor
  · intro h
    unfold read? at h
    split at h
    next hnil =>
      cases h
      exact hnil ▸ .background
    next =>
      split at h
      next hall =>
        cases h
        exact hall ▸ .all
      next =>
        obtain ⟨vs, hvs, rfl⟩ := Option.map_eq_some_iff.mp h
        exact .listed (mapM_splitOn_eq_some_iff.mp hvs)
  · intro h
    cases h with
    | background => rfl
    | all => rfl
    | listed h =>
        rw [read?, if_neg h.ne.1, if_neg h.ne.2, mapM_splitOn_eq_some_iff.mpr h]
        rfl

/-- Only supported values are listed. -/
theorem Lists.lt_count {cs : List Char} {vs : List Value} {v : Value} (h : Lists c cs vs)
    (hv : v ∈ vs) : v < c.count := by
  induction h with
  | one h =>
      obtain rfl := List.mem_singleton.mp hv
      exact h.lt_count
  | more h _ ih =>
      rcases List.mem_cons.mp hv with rfl | hrest
      · exact h.lt_count
      · exact ih hrest

/-- Only supported values are addressed. -/
theorem Address.Denotes.lt_count {cs : List Char} {a : Address} {v : Value}
    (h : Denotes c cs a) (hv : (a.mask c).contains v = true) : v < c.count := by
  cases h with
  | background =>
      rw [mask, Mask.contains_below, decide_eq_true_eq] at hv
      exact Nat.lt_of_lt_of_le hv (Nat.min_le_right _ _)
  | all => simpa [mask] using hv
  | listed h => exact h.lt_count (by simpa [mask] using hv)

/-- A group is a sign and letters, of which there are some unless the sign is that of a reset. -/
inductive Group.Denotes : List Char → Group → Prop
  | reset (fs : List Flag) : Denotes ('=' :: fs.map Flag.letter) ⟨.reset, fs⟩
  | raise {fs : List Flag} (hne : fs ≠ []) : Denotes ('+' :: fs.map Flag.letter) ⟨.raise, fs⟩
  | lower {fs : List Flag} (hne : fs ≠ []) : Denotes ('-' :: fs.map Flag.letter) ⟨.lower, fs⟩

/-- One group or more. -/
inductive Groups : List Char → List Group → Prop
  | one {cs : List Char} {g : Group} (h : Group.Denotes cs g) : Groups cs [g]
  | more {cs rest : List Char} {g : Group} {gs : List Group} (h : Group.Denotes cs g)
      (more : Groups rest gs) : Groups (cs ++ rest) (g :: gs)

theorem Group.denotes_iff {cs : List Char} {g : Group} :
    Denotes cs g ↔ g.isComplete = true ∧ cs = g.render := by
  constructor
  · intro h
    cases h with
    | reset fs => exact ⟨rfl, rfl⟩
    | raise hne => exact ⟨by simpa [isComplete] using hne, rfl⟩
    | lower hne => exact ⟨by simpa [isComplete] using hne, rfl⟩
  · rintro ⟨hcomplete, rfl⟩
    obtain ⟨op, fs⟩ := g
    cases op with
    | reset => exact .reset fs
    | raise => exact .raise (by simpa [isComplete] using hcomplete)
    | lower => exact .lower (by simpa [isComplete] using hcomplete)

theorem groups_iff {cs : List Char} {gs : List Group} :
    Groups cs gs ↔ gs ≠ [] ∧ (∀ g ∈ gs, g.isComplete = true) ∧ cs = gs.flatMap Group.render := by
  constructor
  · intro h
    induction h with
    | one h =>
        obtain ⟨hcomplete, rfl⟩ := Group.denotes_iff.mp h
        simp [hcomplete]
    | more h _ ih =>
        obtain ⟨hcomplete, rfl⟩ := Group.denotes_iff.mp h
        obtain ⟨-, hrest, rfl⟩ := ih
        exact ⟨by simp, List.forall_mem_cons.mpr ⟨hcomplete, hrest⟩, rfl⟩
  · rintro ⟨hne, hcomplete, rfl⟩
    induction gs with
    | nil => exact absurd rfl hne
    | cons g rest ih =>
        obtain ⟨hg, hrest⟩ := List.forall_mem_cons.mp hcomplete
        have hgroup := Group.denotes_iff.mpr ⟨hg, rfl⟩
        cases rest with
        | nil => simpa using Groups.one hgroup
        | cons next rest => exact .more hgroup (ih (by simp) hrest)

theorem Operation.ofSymbol?_eq_some_iff {ch : Char} {op : Operation} :
    ofSymbol? ch = some op ↔ op.symbol = ch := by
  constructor
  · intro h
    have hfound := List.find?_some h
    exact beq_iff_eq.mp hfound
  · rintro rfl
    exact ofSymbol?_symbol op

theorem ofSymbol?_letter (f : Flag) : Operation.ofSymbol? f.letter = none := by
  cases f <;> decide

namespace Group

theorem scan?_letters (fs : List Flag) (rest : List Char) :
    scan? (fs.map Flag.letter ++ rest) =
      (scan? rest).map fun found => (fs ++ found.1, found.2) := by
  induction fs with
  | nil => simp
  | cons f fs ih =>
      simp only [List.map_cons, List.cons_append, scan?, ih, ofSymbol?_letter,
        Flag.ofLetter?_letter]
      cases scan? rest <;> rfl

/-- The symbols cut the written groups where they began. -/
theorem scan?_flatMap_render (gs : List Group) :
    scan? (gs.flatMap render) = some ([], gs) := by
  induction gs with
  | nil => rfl
  | cons g gs ih =>
      simp only [List.flatMap_cons, render, List.cons_append, scan?, scan?_letters, ih,
        Option.map_some, List.append_nil, Option.bind_some, Operation.ofSymbol?_symbol]

theorem readAll?_flatMap_render {gs : List Group} (hne : gs ≠ [])
    (hcomplete : ∀ g ∈ gs, g.isComplete = true) :
    readAll? (gs.flatMap render) = some gs := by
  cases gs with
  | nil => exact absurd rfl hne
  | cons g gs =>
      have hall : (g :: gs).all isComplete = true := List.all_eq_true.mpr hcomplete
      rw [readAll?, scan?_flatMap_render]
      simp only [hall, if_pos]

/-- What is found in the operations of a clause is all that there is. -/
theorem eq_of_scan? {cs : List Char} {fs : List Flag} {gs : List Group}
    (h : scan? cs = some (fs, gs)) : cs = fs.map Flag.letter ++ gs.flatMap render := by
  induction cs generalizing fs gs with
  | nil =>
      cases h
      rfl
  | cons ch rest ih =>
      obtain ⟨⟨letters, groups⟩, hrest, hfound⟩ := Option.bind_eq_some_iff.mp h
      have htail := ih hrest
      cases hop : Operation.ofSymbol? ch with
      | some op =>
          rw [hop] at hfound
          cases hfound
          obtain rfl := Operation.ofSymbol?_eq_some_iff.mp hop
          rw [htail]
          rfl
      | none =>
          rw [hop] at hfound
          obtain ⟨f, hletter, heq⟩ := Option.map_eq_some_iff.mp hfound
          cases heq
          have hch := List.find?_some hletter
          obtain rfl := beq_iff_eq.mp hch
          rw [htail]
          rfl

theorem readAll?_eq_some_iff {cs : List Char} {gs : List Group} :
    readAll? cs = some gs ↔ Groups cs gs := by
  rw [groups_iff]
  constructor
  · intro h
    unfold readAll? at h
    split at h
    next g rest hscan =>
      split at h
      next hcomplete =>
        cases h
        exact ⟨by simp, List.all_eq_true.mp hcomplete, eq_of_scan? hscan⟩
      next => cases h
    next => cases h
  · rintro ⟨hne, hcomplete, rfl⟩
    exact readAll?_flatMap_render hne hcomplete

end Group

/-- Names in which no sign stands, followed by groups. Without any names, the first group is a
reset. -/
inductive Denotes (c : Capacity) : List Char → Clause → Prop
  | intro {names signs : List Char} {a : Address} {gs : List Group}
      (hnames : Address.Denotes c names a) (hplain : ∀ ch ∈ names, ch ≠ '=' ∧ ch ≠ '+' ∧ ch ≠ '-')
      (hgroups : Groups signs gs) (hfirst : names = [] → signs.head? = some '=') :
      Denotes c (names ++ signs) ⟨a, gs⟩

theorem isSymbol_eq_false {ch : Char} (h : ∀ op : Operation, op.symbol ≠ ch) :
    isSymbol ch = false := by
  simp only [isSymbol, Operation.ofSymbol?, List.find?_isSome, ← Bool.not_eq_true]
  rintro ⟨op, -, heq⟩
  exact h op (beq_iff_eq.mp heq)

theorem isSymbol_eq_false_iff {ch : Char} :
    isSymbol ch = false ↔ ch ≠ '=' ∧ ch ≠ '+' ∧ ch ≠ '-' := by
  constructor
  · intro h
    refine ⟨?_, ?_, ?_⟩ <;> rintro rfl <;> exact absurd h (by decide)
  · rintro ⟨hreset, hraise, hlower⟩
    apply isSymbol_eq_false
    intro op
    cases op with
    | reset => exact hreset.symm
    | raise => exact hraise.symm
    | lower => exact hlower.symm

theorem Groups.head? {cs : List Char} {gs : List Group} (h : Groups cs gs) :
    ∃ g rest, gs = g :: rest ∧ cs.head? = some g.operation.symbol := by
  obtain ⟨hne, -, rfl⟩ := groups_iff.mp h
  obtain ⟨g, rest, rfl⟩ := List.exists_cons_of_ne_nil hne
  exact ⟨g, rest, rfl, rfl⟩

theorem isAnchored_iff {names signs : List Char} {a : Address} {gs : List Group}
    (hnames : Address.Denotes c names a) (hgroups : Groups signs gs) :
    isAnchored ⟨a, gs⟩ = true ↔ (names = [] → signs.head? = some '=') := by
  obtain ⟨g, rest, rfl, hhead⟩ := hgroups.head?
  have hbackground : names = [] ↔ a = .background := by
    cases hnames with
    | background => simp
    | all => simp
    | listed h => simp [h.ne.1]
  have hreset : signs.head? = some '=' ↔ g.operation = .reset := by
    rw [hhead]
    cases g.operation <;> decide
  rw [hbackground, hreset, Decidable.imp_iff_not_or]
  simp [isAnchored]

/-- The groups begin with the first symbol of the clause. -/
theorem cut_at_symbol {names signs : List Char} (hnames : ∀ ch ∈ names, isSymbol ch = false)
    {op : Operation} (hsigns : signs.head? = some op.symbol) :
    (names ++ signs).takeWhile (fun ch => !isSymbol ch) = names ∧
      (names ++ signs).dropWhile (fun ch => !isSymbol ch) = signs := by
  have hnames' : ∀ ch ∈ names, (!isSymbol ch) = true := fun ch hch => by
    rw [hnames ch hch, Bool.not_false]
  obtain ⟨rest, rfl⟩ := List.head?_eq_some_iff.mp hsigns
  have hsymbol : isSymbol op.symbol = true := by simp [isSymbol]
  rw [List.takeWhile_append_of_pos hnames', List.dropWhile_append_of_pos hnames']
  simp [hsymbol]

/-- A clause is read exactly from what denotes it. -/
theorem read?_eq_some_iff {cs : List Char} {cl : Clause} :
    read? c cs = some cl ↔ Denotes c cs cl := by
  constructor
  · intro h
    obtain ⟨gs, hgs, h⟩ := Option.bind_eq_some_iff.mp h
    obtain ⟨a, ha, h⟩ := Option.bind_eq_some_iff.mp h
    have hgroups := Group.readAll?_eq_some_iff.mp hgs
    have hnames := Address.read?_eq_some_iff.mp ha
    obtain ⟨hanchored, heq⟩ := Option.ite_none_right_eq_some.mp h
    cases heq
    have hplain : ∀ ch ∈ cs.takeWhile (fun ch => !isSymbol ch), isSymbol ch = false := by
      intro ch hch
      have hbefore := List.all_eq_true.mp List.all_takeWhile ch hch
      simpa using hbefore
    have hdenotes := Denotes.intro hnames (fun ch hch => isSymbol_eq_false_iff.mp (hplain ch hch))
      hgroups ((isAnchored_iff hnames hgroups).mp hanchored)
    rwa [List.takeWhile_append_dropWhile] at hdenotes
  · rintro ⟨hnames, hplain, hgroups, hfirst⟩
    obtain ⟨g, rest, -, hhead⟩ := hgroups.head?
    obtain ⟨hbefore, hafter⟩ :=
      cut_at_symbol (fun ch hch => isSymbol_eq_false_iff.mpr (hplain ch hch)) hhead
    simp only [read?, hbefore, hafter, Group.readAll?_eq_some_iff.mpr hgroups,
      Address.read?_eq_some_iff.mpr hnames, (isAnchored_iff hnames hgroups).mpr hfirst,
      Option.bind_some, if_true]

end Capabilities.Clause
