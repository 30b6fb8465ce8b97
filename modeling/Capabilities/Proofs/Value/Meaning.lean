import Capabilities.Proofs.Value.Reading
import Mathlib.Data.List.Induction
import Mathlib.Data.Nat.Digits.Defs

/-!
# What a written value means

A text is read as a value exactly if it is the name of the value, in any case, or if
it is a decimal number with that value; in either case the value must be supported.
Numbers of any length are read as if there were no end of bits: what 32 bits do not
hold is not supported anyway. No two values are written alike.
-/

namespace Capabilities.Value

theorem toNat_ofNat_of_lt {n : Nat} (h : n < 2 ^ 32) : (BitVec.ofNat 32 n).toNat = n := by
  rw [BitVec.toNat_ofNat, Nat.mod_eq_of_lt h]

theorem le_ofDigitChars (cs : List Char) (n : Nat) : n ≤ Nat.ofDigitChars 10 cs n := by
  induction cs generalizing n with
  | nil => exact le_rfl
  | cons ch rest ih =>
      rw [Nat.ofDigitChars_cons]
      exact le_trans (by omega) (ih _)

theorem digit_le_nine {ch : Char} (h : ch.isDigit = true) : ch.toNat - '0'.toNat ≤ 9 := by
  have hrange : 48 ≤ ch.toNat ∧ ch.toNat ≤ 57 := Char.isDigit_iff_toNat.mp h
  have hzero : '0'.toNat = 48 := rfl
  omega

/-- A digit is appended exactly if 32 bits hold the result. -/
theorem appendDigit?_eq_some_iff {ch : Char} (h : ch.isDigit = true) {n w : BitVec 32} :
    appendDigit? n ch = some w ↔ w.toNat = 10 * n.toNat + (ch.toNat - '0'.toNat) := by
  have hnine := digit_le_nine h
  have hdigit : (BitVec.ofNat 32 (ch.toNat - '0'.toNat)).toNat = ch.toNat - '0'.toNat :=
    toNat_ofNat_of_lt (by omega)
  have hten : (10#32).toNat = 10 := rfl
  have hw := w.isLt
  simp only [appendDigit?, BitVec.umulOverflow, BitVec.uaddOverflow, decide_eq_true_eq, hten,
    hdigit, BitVec.toNat_mul]
  split
  next hmul => exact iff_of_false nofun (by omega)
  next hmul =>
    have htenfold : n.toNat * 10 % 2 ^ 32 = n.toNat * 10 := Nat.mod_eq_of_lt (by omega)
    rw [htenfold]
    split
    next hadd => exact iff_of_false nofun (by omega)
    next hadd =>
      rw [Option.some_inj, ← BitVec.toNat_inj, BitVec.toNat_add, hdigit, BitVec.toNat_mul, hten,
        htenfold, Nat.mod_eq_of_lt (by omega)]
      omega

/-- Digits are read exactly if 32 bits hold their number. -/
theorem foldlM_appendDigit?_eq_some_iff {cs : List Char} (h : ∀ ch ∈ cs, ch.isDigit = true)
    {n w : BitVec 32} :
    cs.foldlM appendDigit? n = some w ↔ w.toNat = Nat.ofDigitChars 10 cs n.toNat := by
  induction cs generalizing n with
  | nil => simp [← BitVec.toNat_inj, eq_comm]
  | cons ch rest ih =>
      have hdigit := h ch List.mem_cons_self
      have hrest : ∀ ch ∈ rest, ch.isDigit = true := fun ch hch =>
        h ch (List.mem_cons_of_mem _ hch)
      rw [List.foldlM_cons, Nat.ofDigitChars_cons, Option.bind_eq_bind, Option.bind_eq_some_iff]
      constructor
      · rintro ⟨next, hnext, hw⟩
        rw [appendDigit?_eq_some_iff hdigit] at hnext
        rw [← hnext]
        exact (ih hrest).mp hw
      · intro hw
        -- The digits so far fit, since a number only grows with the digits that follow.
        have hgrows := le_ofDigitChars rest (10 * n.toNat + (ch.toNat - '0'.toNat))
        have hfits := w.isLt
        have hnext : (BitVec.ofNat 32 (10 * n.toNat + (ch.toNat - '0'.toNat))).toNat =
            10 * n.toNat + (ch.toNat - '0'.toNat) := toNat_ofNat_of_lt (by omega)
        exact ⟨_, (appendDigit?_eq_some_iff hdigit).mpr hnext, (ih hrest).mpr (by rwa [hnext])⟩

theorem wordOfDigits?_eq_some_iff {cs : List Char} {w : BitVec 32} :
    wordOfDigits? cs = some w ↔ ofDigits? cs = some w.toNat := by
  rw [wordOfDigits?, ofDigits?]
  split
  next hdigits =>
    have hall : ∀ ch ∈ cs, ch.isDigit = true :=
      List.all_eq_true.mp (Bool.and_eq_true_iff.mp hdigits).2
    rw [foldlM_appendDigit?_eq_some_iff hall, Option.some_inj, eq_comm]
    rfl
  next => simp

/-- The values that have a name fit 32 bits. -/
theorem toNat_ofNat_of_ofName? {cs : List Char} {v : Value} (h : ofName? cs = some v) :
    (BitVec.ofNat 32 v).toNat = v := by
  obtain ⟨name, hname, -⟩ := ofName?_eq_some_iff.mp h
  have hlt : v < nameCount := (List.getElem?_eq_some_iff.mp hname).1
  exact toNat_ofNat_of_lt (lt_of_lt_of_le hlt (by decide))

/-- So do all that any kernel supports. -/
theorem toNat_ofNat_of_lt_count {c : Capacity} {v : Value} (h : v < c.count) :
    (BitVec.ofNat 32 v).toNat = v := by
  have hcount : c.count ≤ 2 ^ 32 :=
    c.count_le.trans ((Nat.mul_le_mul_left 32 c.abi.words_le_two).trans (by decide))
  exact toNat_ofNat_of_lt (lt_of_lt_of_le h hcount)

theorem readWord?_eq_some_iff {c : Capacity} {cs : List Char} {w : BitVec 32} :
    readWord? c cs = some w ↔ read? c cs = some w.toNat := by
  rw [readWord?, read?, Option.filter_eq_some_iff, Option.filter_eq_some_iff]
  refine and_congr_left fun _ => ?_
  cases hname : ofName? cs with
  | none => exact wordOfDigits?_eq_some_iff
  | some v =>
      rw [Option.map_some, Option.some_or, Option.some_or, Option.some_inj, Option.some_inj,
        ← BitVec.toNat_inj, toNat_ofNat_of_ofName? hname]

/-- Reading in 32 bits is reading without bounds, since only supported values are read. -/
theorem map_toNat_readWord? (c : Capacity) (cs : List Char) :
    (readWord? c cs).map BitVec.toNat = read? c cs := by
  refine Option.ext fun v => ?_
  rw [Option.map_eq_some_iff]
  constructor
  · rintro ⟨w, hw, rfl⟩
    exact readWord?_eq_some_iff.mp hw
  · intro hv
    have hword := toNat_ofNat_of_lt_count (read?_eq_some_iff.mp hv).lt_count
    exact ⟨_, readWord?_eq_some_iff.mpr (hword.symm ▸ hv), hword⟩

theorem map_toNat_wordOfText (c : Capacity) (text : String) :
    (wordOfText c text).map BitVec.toNat = ofText c text := by
  rw [wordOfText, ofText, ← map_toNat_readWord?]
  cases readWord? c text.toList <;> rfl

/-- The number with the given decimal digits, of which the first one weighs most. -/
def decimal (cs : List Char) : Nat :=
  Nat.ofDigits 10 (cs.reverse.map fun ch => ch.toNat - '0'.toNat)

theorem ofDigitChars_eq_decimal (cs : List Char) : Nat.ofDigitChars 10 cs 0 = decimal cs := by
  induction cs using List.reverseRecOn with
  | nil => rfl
  | append_singleton rest ch ih =>
      rw [Nat.ofDigitChars_append, Nat.ofDigitChars_cons, Nat.ofDigitChars_nil, ih, decimal,
        decimal, List.reverse_append, List.reverse_singleton, List.singleton_append,
        List.map_cons, Nat.ofDigits_cons, Nat.add_comm]

theorem toList_toLower (text : String) : text.toLower.toList = text.toList.map Char.toLower :=
  String.toList_map

/-- The names are in lower case, so it does not matter whether their case is ignored, too. -/
theorem toLower_eq_iff {name : String} (h : name ∈ names) {text : String} :
    text.toLower = name.toLower ↔ text.toList.map Char.toLower = name.toList := by
  rw [← String.toList_inj, toList_toLower, toList_toLower,
    map_toLower fun _ hch => isNameChar_of_mem_name h hch]

theorem denotes_iff {c : Capacity} {text : String} {v : Value} :
    Denotes c text.toList v ↔ v < c.count ∧
      ((∃ name, name? v = some name ∧ text.toLower = name.toLower) ∨
        text ≠ "" ∧ (∀ ch ∈ text.toList, ch.isDigit = true) ∧ decimal text.toList = v) := by
  constructor
  · intro h
    refine ⟨h.lt_count, ?_⟩
    cases h with
    | name hname hcase _ =>
        exact .inl ⟨_, hname, (toLower_eq_iff (List.mem_of_getElem? hname)).mpr hcase⟩
    | number hne hdigits _ =>
        exact .inr ⟨fun hempty => hne (String.toList_eq_nil_iff.mpr hempty), hdigits,
          (ofDigitChars_eq_decimal _).symm⟩
  · rintro ⟨hv, ⟨name, hname, hcase⟩ | ⟨hne, hdigits, rfl⟩⟩
    · exact .name hname ((toLower_eq_iff (List.mem_of_getElem? hname)).mp hcase) hv
    · rw [← ofDigitChars_eq_decimal] at hv ⊢
      exact .number (fun hempty => hne (String.toList_eq_nil_iff.mp hempty)) hdigits hv

theorem ofText_eq_ok_iff {c : Capacity} {text : String} {v : Value} :
    ofText c text = .ok v ↔ read? c text.toList = some v := by
  rw [ofText]
  cases read? c text.toList <;> simp

theorem ofText_eq_error {c : Capacity} {text : String} {f : Fault}
    (h : ofText c text = .error f) : f = .badValue := by
  unfold ofText at h
  split at h <;> cases h
  rfl

theorem toText_injective : Function.Injective toText := by
  intro u v h
  have hrender : render u = render v := String.ofList_injective h
  have hu := ofName?_or_ofDigits?_render u
  rw [hrender, ofName?_or_ofDigits?_render] at hu
  exact (Option.some.inj hu).symm

/-- A text is read as a value exactly if the value is supported and the text is its name, in any
case, or its number, in any number of decimal digits. Any other text is refused, always with the
same fault, and reading in numbers of 32 bits comes to the same. A supported value is read from its
written form and from its number, and no two values are written alike. -/
theorem ofText_exact (c : Capacity) :
    (∀ text v, ofText c text = .ok v ↔ v < c.count ∧
      ((∃ name, name? v = some name ∧ text.toLower = name.toLower) ∨
        text ≠ "" ∧ (∀ ch ∈ text.toList, ch.isDigit = true) ∧ decimal text.toList = v)) ∧
    (∀ text f, ofText c text = .error f → f = .badValue) ∧
    (∀ text, (wordOfText c text).map BitVec.toNat = ofText c text) ∧
    (∀ v < c.count, ofText c (toText v) = .ok v ∧ ofText c (toString v) = .ok v) ∧
    ∀ u v, toText u = toText v → u = v := by
  refine ⟨fun text v => (ofText_eq_ok_iff.trans read?_eq_some_iff).trans denotes_iff,
    fun text f => ofText_eq_error, map_toNat_wordOfText c, fun v hv => ?_,
    fun u v h => toText_injective h⟩
  constructor
  · rw [ofText_eq_ok_iff, toText, String.toList_ofList]
    exact read?_render (decide_eq_true hv)
  · rw [ofText_eq_ok_iff, Nat.toString_eq_repr, Nat.toList_repr]
    exact read?_toDigits (decide_eq_true hv)

/-- A kernel that supports three values which have no name. -/
def wideCapacity : Capacity := Capacity.ofProbe .third fun v => decide (v < 44)

theorem ofText_exact_wideCapacity :
    43 < wideCapacity.count ∧ ofText wideCapacity (toText 43) = .ok 43 ∧
      ofText wideCapacity "00000000000043" = .ok 43 ∧ ofText wideCapacity "Cap_Bpf" = .ok 39 ∧
      toText 43 ≠ toText 39 := by
  obtain ⟨hread, -, -, hwritten, hdiffer⟩ := ofText_exact wideCapacity
  have hunnamed : 43 < wideCapacity.count := by decide +kernel
  have hnamed : 39 < wideCapacity.count := by decide +kernel
  have hcase : "Cap_Bpf".toLower = "cap_bpf".toLower :=
    (toLower_eq_iff (by decide)).mpr (by decide)
  have hdigits : ∀ ch ∈ "00000000000043".toList, ch.isDigit = true :=
    List.all_eq_true.mp (by decide +kernel)
  have hnumber : decimal "00000000000043".toList = 43 := by decide +kernel
  exact ⟨hunnamed, (hwritten 43 hunnamed).1,
    (hread _ _).mpr ⟨hunnamed, .inr ⟨by decide, hdigits, hnumber⟩⟩,
    (hread _ _).mpr ⟨hnamed, .inl ⟨"cap_bpf", rfl, hcase⟩⟩,
    fun h => absurd (hdiffer 43 39 h) (by decide)⟩

end Capabilities.Value
