import Capabilities.CapSet.FileAttribute
import Capabilities.Proofs.Bytes.Words
import Capabilities.Proofs.CapSet.Flags

/-!
# Which sets a file can carry

An attribute is read back from its bytes when its masks fit the words of its
revision. A set is carried by a file exactly when its effective flag is lowered
altogether or raises all that is permitted or inheritable; it is then read back
with its owner, and without a floor its attribute is as short as any that means
the same set.
-/

namespace Capabilities.FileAttribute

theorem isWord_low (m : Mask) : Bytes.IsWord (low m) := by
  intro v hv
  have hin : (m ∩ Mask.below 32).contains v = true := hv
  simp only [Mask.contains_inter, Mask.contains_below, Bool.and_eq_true,
    decide_eq_true_eq] at hin
  exact hin.2

theorem isWord_high (m : Mask) : Bytes.IsWord (high m) := isWord_low ⟨m.bits >>> 32⟩

theorem contains_low (m : Mask) (v : Nat) :
    (low m).testBit v = (m.contains v && decide (v < 32)) := by
  show (m ∩ Mask.below 32).contains v = _
  rw [Mask.contains_inter, Mask.contains_below]

theorem contains_high (m : Mask) (v : Nat) :
    (high m).testBit v = (m.contains (32 + v) && decide (v < 32)) := by
  show ((⟨m.bits >>> 32⟩ : Mask) ∩ Mask.below 32).contains v = _
  rw [Mask.contains_inter, Mask.contains_below, Mask.contains, Nat.testBit_shiftRight]
  rfl

theorem contains_join (lower upper v : Nat) :
    (join lower upper).contains v =
      (lower.testBit v || (decide (32 ≤ v) && upper.testBit (v - 32))) := by
  rw [join, Mask.contains, Nat.testBit_or, Nat.testBit_shiftLeft]

/-- A mask of two words is joined from them. -/
theorem join_low_high {m : Mask} (h : ∀ v, m.contains v = true → v < 64) :
    join (low m) (high m) = m := by
  apply Mask.ext
  intro v
  rw [contains_join, contains_low, contains_high]
  cases hv : m.contains v with
  | false =>
      by_cases hlt : v < 32
      · simp [Nat.not_le.mpr hlt]
      · rw [show 32 + (v - 32) = v by omega, hv]
        simp
  | true =>
      have hbound := h v hv
      by_cases hlt : v < 32
      · simp [hlt]
      · rw [show 32 + (v - 32) = v by omega, hv]
        simp
        omega

theorem join_low_zero {m : Mask} (h : ∀ v, m.contains v = true → v < 32) :
    join (low m) 0 = m := by
  apply Mask.ext
  intro v
  rw [contains_join, contains_low]
  cases hv : m.contains v with
  | false => simp
  | true => simpa using h v hv

namespace Revision

/-- How many numbers the masks of a revision can hold. -/
def span : Revision → Nat
  | short => 32
  | long => 64
  | owned _ => 64

/-- How many bytes an attribute of a revision takes. -/
def size : Revision → Nat
  | short => 12
  | long => 20
  | owned _ => 24

end Revision

/-- The masks hold nothing beyond the words of the revision. -/
def IsWithinWords (a : FileAttribute) : Prop :=
  ∀ v, (a.permitted.contains v = true ∨ a.inheritable.contains v = true) → v < a.revision.span

theorem isWord_uid (uid : UserId) : Bytes.IsWord uid.toNat := by
  intro v hv
  have hpow : 2 ^ v < 2 ^ 32 :=
    calc
      2 ^ v ≤ uid.toNat := Nat.ge_two_pow_of_testBit hv
      _ < 2 ^ 32 := uid.toNat_lt
  exact (Nat.pow_lt_pow_iff_right (by decide)).mp hpow

theorem ofBytes?_toBytes {a : FileAttribute} (h : a.IsWithinWords) :
    ofBytes? a.toBytes = some a := by
  obtain ⟨revision, effective, p, i⟩ := a
  have hflag : (if effective then 1 else 0 : UInt8).toNat.testBit 0 = effective := by
    cases effective <;> decide
  have hp : ∀ v, p.contains v = true → v < revision.span := fun v hv => h v (Or.inl hv)
  have hi : ∀ v, i.contains v = true → v < revision.span := fun v hv => h v (Or.inr hv)
  cases revision with
  | short =>
      have hwords := Bytes.words?_flatMap_ofNat [low p, low i] (by simp [isWord_low])
      simp only [toBytes, List.cons_append, List.nil_append, ofBytes?, Revision.number, hwords,
        hflag, join_low_zero hp, join_low_zero hi]
  | long =>
      have hwords := Bytes.words?_flatMap_ofNat [low p, low i, high p, high i]
        (by simp [isWord_low, isWord_high])
      simp only [toBytes, List.cons_append, List.nil_append, ofBytes?, Revision.number, hwords,
        hflag, join_low_high hp, join_low_high hi]
  | owned uid =>
      have hwords := Bytes.words?_flatMap_ofNat [low p, low i, high p, high i, uid.toNat]
        (by simp [isWord_low, isWord_high, isWord_uid])
      simp only [toBytes, List.cons_append, List.nil_append, ofBytes?, Revision.number, hwords,
        hflag, join_low_high hp, join_low_high hi, UInt32.ofNat_toNat]

theorem length_toBytes (a : FileAttribute) : a.toBytes.length = a.revision.size := by
  obtain ⟨revision, effective, p, i⟩ := a
  cases revision <;> simp [toBytes, Revision.size]

theorem lt_of_contains_join {lower upper v : Nat} (hlower : Bytes.IsWord lower)
    (hupper : Bytes.IsWord upper) (h : (join lower upper).contains v = true) : v < 64 := by
  rw [contains_join, Bool.or_eq_true, Bool.and_eq_true, decide_eq_true_eq] at h
  rcases h with h | ⟨hle, h⟩
  · have := hlower v h
    omega
  · have := hupper _ h
    omega

/-- Masks that are joined from two words fit a revision of two words. -/
theorem isWithinWords_join {revision : Revision} (hspan : revision.span = 64) (effective : Bool)
    {p i p' i' : Nat} (hp : Bytes.IsWord p) (hi : Bytes.IsWord i) (hp' : Bytes.IsWord p')
    (hi' : Bytes.IsWord i') :
    IsWithinWords ⟨revision, effective, join p p', join i i'⟩ := by
  intro v hv
  rw [hspan]
  rcases hv with hv | hv
  · exact lt_of_contains_join hp hp' hv
  · exact lt_of_contains_join hi hi' hv

/-- Masks of one word fit the revision of one word. -/
theorem isWithinWords_short (effective : Bool) {p i : Nat} (hp : Bytes.IsWord p)
    (hi : Bytes.IsWord i) : IsWithinWords ⟨.short, effective, join p 0, join i 0⟩ := by
  intro v hv
  simp only [contains_join, Nat.zero_testBit, Bool.and_false, Bool.or_false] at hv
  rcases hv with hv | hv
  · exact hp v hv
  · exact hi v hv

/-- What is read from bytes takes as many of them as its revision asks for, and its masks
come from the words of the revision. -/
theorem of_ofBytes?_eq_some {data : Bytes} {a : FileAttribute} (h : ofBytes? data = some a) :
    data.length = a.revision.size ∧ a.IsWithinWords := by
  unfold ofBytes? at h
  split at h
  next flags _ _ revision body =>
    simp only at h
    have hword {ws : List Nat} (hwords : Bytes.words? body = some ws) :
        body.length = 4 * ws.length ∧ ∀ w ∈ ws, Bytes.IsWord w :=
      ⟨Bytes.length_of_words? hwords, fun w hw => Bytes.isWord_of_words? hwords hw⟩
    split at h
    next p i hwords =>
      cases h
      obtain ⟨hlen, hws⟩ := hword hwords
      refine ⟨by simpa [Revision.size] using hlen, ?_⟩
      exact isWithinWords_short _ (hws p (by simp)) (hws i (by simp))
    next p i p' i' hwords =>
      cases h
      obtain ⟨hlen, hws⟩ := hword hwords
      refine ⟨by simpa [Revision.size] using hlen, ?_⟩
      exact isWithinWords_join rfl _ (hws p (by simp)) (hws i (by simp)) (hws p' (by simp))
        (hws i' (by simp))
    next p i p' i' uid hwords =>
      cases h
      obtain ⟨hlen, hws⟩ := hword hwords
      refine ⟨by simpa [Revision.size] using hlen, ?_⟩
      exact isWithinWords_join rfl _ (hws p (by simp)) (hws i (by simp)) (hws p' (by simp))
        (hws i' (by simp))
    next => simp at h
  next => simp at h

variable {c : Capacity} {s : CapSet}

/-- The single effective bit of a file can stand for the effective flag. -/
def IsCarried (s : CapSet) : Prop :=
  s.effective = ∅ ∨ s.effective = s.permitted ∪ s.inheritable

instance (s : CapSet) : Decidable (IsCarried s) := inferInstanceAs (Decidable (_ ∨ _))

theorem ofCapSet_of_isCarried (h : IsCarried s) (floor : Nat) :
    ofCapSet c floor s =
      .ok ⟨revisionFor c floor s, !s.effective.isEmpty, s.permitted, s.inheritable⟩ := by
  rw [ofCapSet, if_pos]
  rw [Bool.or_eq_true, Mask.isEmpty_iff, decide_eq_true_eq]
  exact h

theorem ofCapSet_of_not_isCarried (h : ¬ IsCarried s) (floor : Nat) :
    ofCapSet c floor s = .error .badValue := by
  rw [ofCapSet, if_neg]
  rw [Bool.or_eq_true, Mask.isEmpty_iff, decide_eq_true_eq]
  exact h

theorem encode_of_not_isCarried (h : ¬ IsCarried s) (floor : Nat) :
    encode c floor s = .error .badValue := by
  rw [encode, ofCapSet_of_not_isCarried h]
  rfl

theorem owner?_revisionFor (c : Capacity) (floor : Nat) (s : CapSet) :
    (revisionFor c floor s).owner? = s.owner := by
  rw [revisionFor]
  split
  next uid howner => rw [howner]; rfl
  next howner => rw [howner]; split <;> rfl

theorem inter_below_of_lt {m : Mask} {bound : Nat}
    (h : ∀ v, m.contains v = true → v < bound) : m ∩ Mask.below bound = m := by
  apply Mask.ext
  intro v
  rw [Mask.contains_inter, Mask.contains_below]
  cases hv : m.contains v with
  | false => rfl
  | true => simpa using h v hv

/-- A set that is carried and fits is the meaning of its attribute. -/
theorem toCapSet_of_isCarried (hs : s.fits c = true) (h : IsCarried s) (floor : Nat) :
    toCapSet c ⟨revisionFor c floor s, !s.effective.isEmpty, s.permitted, s.inheritable⟩ = s := by
  have hp : s.permitted ∩ Mask.below c.count = s.permitted :=
    inter_below_of_lt fun v hv => CapSet.contains_of_fits (f := .permitted) hs hv
  have hi : s.inheritable ∩ Mask.below c.count = s.inheritable :=
    inter_below_of_lt fun v hv => CapSet.contains_of_fits (f := .inheritable) hs hv
  have he : (if !s.effective.isEmpty then s.permitted ∪ s.inheritable else ∅) =
      s.effective := by
    by_cases hempty : s.effective = ∅
    · rw [hempty]
      rfl
    · have hisEmpty : s.effective.isEmpty = false := by
        rw [← Bool.not_eq_true, Mask.isEmpty_iff]
        exact hempty
      rw [hisEmpty, h.resolve_left hempty]
      rfl
  simp only [toCapSet, hp, hi, owner?_revisionFor, he]

/-- The meaning of an attribute is always carried, since the effective bit is all it has. -/
theorem isCarried_toCapSet (c : Capacity) (a : FileAttribute) : IsCarried (a.toCapSet c) := by
  cases h : a.effective with
  | true => exact Or.inr (by simp [toCapSet, h])
  | false => exact Or.inl (by simp [toCapSet, h])

theorem fits_toCapSet (c : Capacity) (a : FileAttribute) : (a.toCapSet c).fits c = true := by
  rw [CapSet.fits_iff]
  intro f v hv
  cases f <;> simp only [CapSet.flag, toCapSet] at hv
  case effective =>
    split at hv
    next =>
      simp only [Mask.contains_union, Mask.contains_inter, Mask.contains_below,
        Bool.or_eq_true, Bool.and_eq_true, decide_eq_true_eq] at hv
      rcases hv with hv | hv <;> exact hv.2
    next => simp at hv
  case permitted => simp at hv; exact hv.2
  case inheritable => simp at hv; exact hv.2

theorem isWithinWords_revisionFor (hs : s.fits c = true) (floor : Nat) (effective : Bool) :
    IsWithinWords ⟨revisionFor c floor s, effective, s.permitted, s.inheritable⟩ := by
  intro v hv
  have hraised : s.raised.contains v = true := by
    rw [CapSet.contains_raised]
    rcases hv with hv | hv
    · exact ⟨.permitted, hv⟩
    · exact ⟨.inheritable, hv⟩
  have hcount : v < 64 := by
    obtain ⟨f, hf⟩ := CapSet.contains_raised.mp hraised
    have hlt := CapSet.contains_of_fits hs hf
    have hle := c.count_le
    have hwords := c.abi.words_le_two
    omega
  rw [revisionFor]
  split
  next => exact hcount
  next =>
    split
    next => exact hcount
    next hshort =>
      simp only [Bool.or_eq_true, not_or, Bool.not_eq_true', Bool.not_eq_false] at hshort
      have hwithin := (Mask.isWithin_iff _ _).mp hshort.1 v hraised
      rw [Mask.contains_below, decide_eq_true_eq] at hwithin
      exact hwithin

/-- A set that is carried is written, and read back with its owner. -/
theorem decode_of_isCarried (hs : s.fits c = true) (h : IsCarried s) (floor : Nat) :
    ∃ d, encode c floor s = .ok d ∧ d.length = (revisionFor c floor s).size ∧
      decode c d = .ok s := by
  refine ⟨_, by rw [encode, ofCapSet_of_isCarried h]; rfl, length_toBytes _, ?_⟩
  rw [decode, ofBytes?_toBytes (isWithinWords_revisionFor hs floor _)]
  simp only [toCapSet_of_isCarried hs h]

/-- Whatever is raised in the meaning of an attribute lies in its words. -/
theorem lt_span_of_toCapSet {a : FileAttribute} (ha : a.IsWithinWords) {f : Flag} {v : Nat}
    (hv : ((a.toCapSet c).flag f).contains v = true) : v < a.revision.span := by
  refine ha v ?_
  cases f <;> simp only [CapSet.flag, toCapSet] at hv
  case effective =>
    split at hv
    next =>
      simp only [Mask.contains_union, Mask.contains_inter, Bool.or_eq_true,
        Bool.and_eq_true] at hv
      exact hv.imp And.left And.left
    next => simp at hv
  case permitted =>
    rw [Mask.contains_inter, Bool.and_eq_true] at hv
    exact Or.inl hv.1
  case inheritable =>
    rw [Mask.contains_inter, Bool.and_eq_true] at hv
    exact Or.inr hv.1

/-- Without a floor, the revision of a set is no longer than any whose attribute means it. -/
theorem size_revisionFor_le {floor : Nat} (hfloor : floor ≤ 4) {a : FileAttribute}
    (ha : a.IsWithinWords) : (revisionFor c floor (a.toCapSet c)).size ≤ a.revision.size := by
  have howner : (a.toCapSet c).owner = a.revision.owner? := rfl
  have hlow : ¬ 4 < floor := Nat.not_lt.mpr hfloor
  cases hrevision : a.revision with
  | short =>
      have hwithin : (a.toCapSet c).raised.isWithin (Mask.below 32) = true := by
        rw [Mask.isWithin_iff]
        intro v hv
        obtain ⟨f, hf⟩ := CapSet.contains_raised.mp hv
        have hspan := lt_span_of_toCapSet ha hf
        rw [hrevision] at hspan
        simpa [Revision.span] using hspan
      rw [hrevision] at howner
      simp [revisionFor, howner, Revision.owner?, hwithin, hlow]
  | long =>
      rw [hrevision] at howner
      rw [revisionFor]
      rw [howner]
      simp only [Revision.owner?]
      split <;> decide
  | owned uid =>
      generalize revisionFor c floor (a.toCapSet c) = revision
      cases revision <;> simp [Revision.size]

theorem decode_eq_ok_iff {d : Bytes} :
    decode c d = .ok s ↔ ∃ a, ofBytes? d = some a ∧ a.toCapSet c = s := by
  rw [decode]
  split
  next a ha => simp [ha]
  next hnone => simp [hnone]

theorem isCarried_of_decode {d : Bytes} (h : decode c d = .ok s) :
    IsCarried s ∧ s.fits c = true := by
  obtain ⟨a, -, rfl⟩ := decode_eq_ok_iff.mp h
  exact ⟨isCarried_toCapSet c a, fits_toCapSet c a⟩

/-- A set is written to a file exactly when some attribute means it, namely when its
effective flag is all or nothing, and it is read back as it was. What is read from a file
can be written again. Without a floor no shorter attribute means the same set. -/
theorem encode_isOk_iff_exists_decode {c : Capacity} {s : CapSet} (hs : s.fits c = true)
    (floor : Nat) :
    ((∃ d, encode c floor s = .ok d) ↔ ∃ d, decode c d = .ok s) ∧
    ((∃ d, decode c d = .ok s) ↔
      s.effective = ∅ ∨ s.effective = s.permitted ∪ s.inheritable) ∧
    ((¬ ∃ d, decode c d = .ok s) → encode c floor s = .error .badValue) ∧
    (∀ d, encode c floor s = .ok d → decode c d = .ok s) ∧
    (∀ d t, decode c d = .ok t → ∃ d', encode c floor t = .ok d' ∧ decode c d' = .ok t) ∧
    (floor ≤ 4 → ∀ d d', encode c floor s = .ok d → decode c d' = .ok s →
      d.length ≤ d'.length) := by
  have hread : (∃ d, decode c d = .ok s) ↔ IsCarried s := by
    constructor
    · rintro ⟨d, hd⟩
      exact (isCarried_of_decode hd).1
    · intro h
      obtain ⟨d, -, -, hd⟩ := decode_of_isCarried hs h floor
      exact ⟨d, hd⟩
  have hrefused (h : ¬ IsCarried s) : encode c floor s = .error .badValue :=
    encode_of_not_isCarried h floor
  have hwritten {d : Bytes} (hd : encode c floor s = .ok d) : IsCarried s :=
    Decidable.byContradiction fun h => by
      rw [hrefused h] at hd
      cases hd
  have hexact {d : Bytes} (hd : encode c floor s = .ok d) :
      decode c d = .ok s ∧ d.length = (revisionFor c floor s).size := by
    obtain ⟨d', hd', hlen, hback⟩ := decode_of_isCarried hs (hwritten hd) floor
    rw [hd] at hd'
    cases hd'
    exact ⟨hback, hlen⟩
  refine ⟨?_, hread, fun h => hrefused fun hc => h (hread.mpr hc), fun d hd => (hexact hd).1,
    ?_, ?_⟩
  · constructor
    · rintro ⟨d, hd⟩
      exact ⟨d, (hexact hd).1⟩
    · intro h
      obtain ⟨d, hd, -, -⟩ := decode_of_isCarried hs (hread.mp h) floor
      exact ⟨d, hd⟩
  · intro d t ht
    obtain ⟨hcarried, hfits⟩ := isCarried_of_decode ht
    obtain ⟨d', hd', -, hback⟩ := decode_of_isCarried hfits hcarried floor
    exact ⟨d', hd', hback⟩
  · intro hfloor d d' hd hd'
    obtain ⟨a, ha, rfl⟩ := decode_eq_ok_iff.mp hd'
    obtain ⟨hlen, hwords⟩ := of_ofBytes?_eq_some ha
    rw [(hexact hd).2, hlen]
    exact size_revisionFor_le hfloor hwords

/-- A set of one word that is bound to the owner of a namespace. -/
def boundSet : CapSet := ⟨⟨0x2081⟩, ⟨0x2001⟩, ⟨0x80⟩, some 100000⟩

/-- A kernel with as many values as names. -/
def usual : Capacity := ⟨.third, Value.nameCount, by decide, by decide⟩

theorem encode_boundSet :
    boundSet.fits usual = true ∧
    (∃ d, encode usual 4 boundSet = .ok d) ∧
    ∀ d d', encode usual 4 boundSet = .ok d → decode usual d' = .ok boundSet →
      d.length ≤ d'.length :=
  have hfits : boundSet.fits usual = true := by decide
  have hall := encode_isOk_iff_exists_decode hfits 4
  ⟨hfits, hall.1.mpr (hall.2.1.mpr (Or.inr (by decide))), hall.2.2.2.2.2 (by decide)⟩

end Capabilities.FileAttribute
