import Capabilities.CapSet.Text
import Mathlib.Data.List.Forall2

/-!
# Words and pieces of texts

Joining words with a space and taking the words of the result are inverse,
as long as no word is empty and no word holds a blank. Any text is words with
blanks around them, and pieces with a separator between them, in one way only.
-/

namespace Capabilities.Text

theorem mem_intercalate {ch : Char} {sep : List Char} {parts : List (List Char)}
    (h : ch ∈ sep.intercalate parts) : ch ∈ sep ∨ ∃ part ∈ parts, ch ∈ part := by
  induction parts with
  | nil => simp at h
  | cons part rest ih =>
      cases rest with
      | nil => exact Or.inr ⟨part, by simp, by simpa using h⟩
      | cons next rest =>
          rw [List.intercalate_cons_cons, List.append_assoc, List.mem_append,
            List.mem_append] at h
          rcases h with h | h | h
          · exact Or.inr ⟨part, by simp, h⟩
          · exact Or.inl h
          · rcases ih h with hsep | ⟨found, hfound, hch⟩
            · exact Or.inl hsep
            · exact Or.inr ⟨found, List.mem_cons_of_mem _ hfound, hch⟩

/-- Visible ASCII characters are no blanks. -/
theorem isBlank_eq_false {ch : Char} (hlow : 0x20 < ch.toNat) (hhigh : ch.toNat < 0x7F) :
    isBlank ch = false := by
  simp only [isBlank, List.any_eq_false, Bool.and_eq_true, decide_eq_true_eq]
  intro range hrange
  have hoff : range.2 ≤ 0x20 ∨ 0x7F ≤ range.1 := by revert range; decide
  omega

/-- A word that survives among others: it is not empty and holds no blank. -/
structure IsWord (word : List Char) : Prop where
  ne_nil : word ≠ []
  not_blank : ∀ ch ∈ word, isBlank ch = false

theorem splitOnP_intercalate_space (word : List Char) (rest : List (List Char))
    (h : ∀ w ∈ word :: rest, IsWord w) :
    ([' '].intercalate (word :: rest)).splitOnP isBlank = word :: rest := by
  induction rest generalizing word with
  | nil =>
      have hword := (h word (by simp)).not_blank
      simpa using List.splitOnP_eq_singleton hword
  | cons next rest ih =>
      have hword := (h word (by simp)).not_blank
      have htail := ih next fun w hw => h w (List.mem_cons_of_mem _ hw)
      rw [List.intercalate_cons_cons]
      simp only [List.append_assoc, List.singleton_append]
      rw [List.splitOnP_append_cons_of_forall_mem hword ' ' (by decide), htail]

theorem words_intercalate (ws : List (List Char)) (h : ∀ w ∈ ws, IsWord w) :
    words ([' '].intercalate ws) = ws := by
  cases ws with
  | nil => rfl
  | cons word rest =>
      rw [words, splitOnP_intercalate_space word rest h, List.filter_eq_self]
      intro w hw
      simpa using (h w hw).ne_nil

/-- Words with blanks around them, of which there is at least one between two words. -/
inductive Spaced : List Char → List (List Char) → Prop
  | nil : Spaced [] []
  | blank {ch : Char} {cs : List Char} {ws : List (List Char)} (h : isBlank ch = true)
      (rest : Spaced cs ws) : Spaced (ch :: cs) ws
  | word {w cs : List Char} {ws : List (List Char)} (h : IsWord w)
      (stop : ∀ ch, cs.head? = some ch → isBlank ch = true) (rest : Spaced cs ws) :
      Spaced (w ++ cs) (w :: ws)

theorem words_cons_of_isBlank {ch : Char} (h : isBlank ch = true) (cs : List Char) :
    words (ch :: cs) = words cs := by
  rw [words, List.splitOnP_cons_eq_if_modifyHead, if_pos h]
  rfl

theorem words_append {w cs : List Char} (h : IsWord w)
    (stop : ∀ ch, cs.head? = some ch → isBlank ch = true) : words (w ++ cs) = w :: words cs := by
  have hword : (!w.isEmpty) = true := by simpa using h.ne_nil
  cases cs with
  | nil =>
      rw [List.append_nil, words, List.splitOnP_eq_singleton h.not_blank, List.filter_cons,
        if_pos hword]
      rfl
  | cons ch cs =>
      have hblank := stop ch rfl
      rw [words_cons_of_isBlank hblank, words,
        List.splitOnP_append_cons_of_forall_mem h.not_blank ch hblank, List.filter_cons,
        if_pos hword]
      rfl

theorem exists_spaced (cs : List Char) : ∃ ws, Spaced cs ws := by
  induction cs with
  | nil => exact ⟨[], .nil⟩
  | cons ch rest ih =>
      obtain ⟨ws, hrest⟩ := ih
      cases hblank : isBlank ch with
      | true => exact ⟨ws, .blank hblank hrest⟩
      | false =>
          -- The character either begins a word of its own or the word that follows.
          have hword : IsWord [ch] := ⟨by simp, by simpa using hblank⟩
          cases hrest with
          | nil => exact ⟨[[ch]], .word hword (by simp) .nil⟩
          | @blank next cs ws hnext hrest =>
              exact ⟨[ch] :: ws, .word hword (by simpa using hnext) (.blank hnext hrest)⟩
          | @word w cs ws hw stop hrest =>
              have hlonger : IsWord (ch :: w) :=
                ⟨by simp, List.forall_mem_cons.mpr ⟨hblank, hw.not_blank⟩⟩
              exact ⟨(ch :: w) :: ws, .word hlonger stop hrest⟩

/-- The words of a text are what stands between its blanks. -/
theorem spaced_iff {cs : List Char} {ws : List (List Char)} : Spaced cs ws ↔ words cs = ws := by
  have hwords {ws : List (List Char)} (h : Spaced cs ws) : words cs = ws := by
    induction h with
    | nil => rfl
    | blank h _ ih => rw [words_cons_of_isBlank h, ih]
    | word h stop _ ih => rw [words_append h stop, ih]
  constructor
  · exact hwords
  · rintro rfl
    obtain ⟨ws, h⟩ := exists_spaced cs
    rwa [hwords h]

/-- Pieces with a separator between them, none of which holds the separator itself. -/
inductive Separated (sep : Char) : List Char → List (List Char) → Prop
  | last {piece : List Char} (h : sep ∉ piece) : Separated sep piece [piece]
  | next {piece cs : List Char} {pieces : List (List Char)} (h : sep ∉ piece)
      (rest : Separated sep cs pieces) : Separated sep (piece ++ sep :: cs) (piece :: pieces)

theorem exists_separated (sep : Char) (cs : List Char) : ∃ pieces, Separated sep cs pieces := by
  induction cs with
  | nil => exact ⟨[[]], .last (by simp)⟩
  | cons ch rest ih =>
      obtain ⟨pieces, hrest⟩ := ih
      by_cases hsep : ch = sep
      · subst hsep
        exact ⟨[] :: pieces, .next List.not_mem_nil hrest⟩
      · -- The character is the first one of the first piece.
        have hlonger {piece : List Char} (h : sep ∉ piece) : sep ∉ ch :: piece :=
          List.not_mem_cons_of_ne_of_not_mem (Ne.symm hsep) h
        cases hrest with
        | last h => exact ⟨[ch :: rest], .last (hlonger h)⟩
        | @next piece cs pieces h rest => exact ⟨(ch :: piece) :: pieces, .next (hlonger h) rest⟩

/-- The pieces of a text are what stands between its separators. -/
theorem separated_iff {sep : Char} {cs : List Char} {pieces : List (List Char)} :
    Separated sep cs pieces ↔ cs.splitOn sep = pieces := by
  have hpieces {pieces : List (List Char)} (h : Separated sep cs pieces) :
      cs.splitOn sep = pieces := by
    have hplain {piece : List Char} (h : sep ∉ piece) : ∀ ch ∈ piece, (ch == sep) = false :=
      fun ch hch => beq_false_of_ne fun heq => h (heq ▸ hch)
    simp only [List.splitOn_eq_splitOnP]
    induction h with
    | last h => exact List.splitOnP_eq_singleton (hplain h)
    | next h _ ih => rw [List.splitOnP_append_cons_of_forall_mem (hplain h) sep (by simp), ih]
  constructor
  · exact hpieces
  · rintro rfl
    obtain ⟨pieces, h⟩ := exists_separated sep cs
    rwa [hpieces h]

theorem splitOn_append_cons (sep : Char) (cs cs' : List Char) :
    (cs ++ sep :: cs').splitOn sep = cs.splitOn sep ++ cs'.splitOn sep := by
  simp only [List.splitOn_eq_splitOnP]
  exact List.splitOnP_append_cons cs cs' (beq_self_eq_true sep)

/-- Pieces that are read back one by one are read back together. -/
theorem mapM_map_eq_some {α : Type} {read : List Char → Option α} {write : α → List Char}
    {items : List α} (h : ∀ a ∈ items, read (write a) = some a) :
    (items.map write).mapM read = some items := by
  induction items with
  | nil => rfl
  | cons a rest ih =>
      have ha := h a List.mem_cons_self
      have hrest := ih fun b hb => h b (List.mem_cons_of_mem _ hb)
      simp [List.mapM_cons, ha, hrest]

/-- Pieces are read together exactly if each of them is. -/
theorem isSome_mapM_iff {α : Type} {read : List Char → Option α} {pieces : List (List Char)} :
    (pieces.mapM read).isSome = true ↔ ∀ piece ∈ pieces, (read piece).isSome = true := by
  induction pieces with
  | nil => simp
  | cons piece rest ih =>
      rw [List.forall_mem_cons, ← ih, List.mapM_cons]
      cases read piece with
      | none => simp
      | some a => cases rest.mapM read <;> simp

/-- Pieces are read as the items that they are read as one by one. -/
theorem mapM_eq_some_iff {α : Type} {read : List Char → Option α} {pieces : List (List Char)}
    {items : List α} :
    pieces.mapM read = some items ↔
      List.Forall₂ (fun piece a => read piece = some a) pieces items := by
  induction pieces generalizing items with
  | nil => simp [eq_comm]
  | cons piece rest ih =>
      simp only [List.mapM_cons, Option.pure_def, Option.bind_eq_bind, Option.bind_eq_some_iff,
        Option.some.injEq, ih, List.forall₂_cons_left_iff]
      constructor
      · rintro ⟨a, ha, tail, htail, rfl⟩
        exact ⟨a, tail, ha, htail, rfl⟩
      · rintro ⟨a, tail, ha, htail, rfl⟩
        exact ⟨a, ha, tail, htail, rfl⟩

theorem exists_read_of_mem {α : Type} {read : List Char → Option α} {pieces : List (List Char)}
    {items : List α} (h : pieces.mapM read = some items) {a : α} (ha : a ∈ items) :
    ∃ piece ∈ pieces, read piece = some a := by
  rw [mapM_eq_some_iff] at h
  induction h with
  | nil => cases ha
  | cons hhead _ ih =>
      rcases List.mem_cons.mp ha with rfl | hrest
      · exact ⟨_, List.mem_cons_self, hhead⟩
      · obtain ⟨piece, hpiece, hread⟩ := ih hrest
        exact ⟨piece, List.mem_cons_of_mem _ hpiece, hread⟩

end Capabilities.Text
