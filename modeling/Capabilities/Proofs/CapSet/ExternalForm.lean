import Capabilities.Proofs.CapSet.ExternalRoundTrip

/-!
# The byte strings of the external format

Reading takes a byte string apart in two steps: it must be framed, that is,
state as many triples as follow, and no bit of a triple may stand for a value
that is not supported. What remains are the encodings without a floor, followed
by any number of zero triples that the count includes. An encoding with a floor
is one of them.
-/

namespace Capabilities.CapSet.External

/-- A byte string that consists of the magic, a count, and three bytes for each one counted. -/
def IsFramed (data : Bytes) (n : UInt8) (body : Bytes) : Prop :=
  data = magic ++ n :: body ∧ body.length = 3 * n.toNat

/-- The byte of a flag in a triple. -/
def Triple.byte (t : Triple) : Flag → UInt8
  | .effective => t.effective
  | .permitted => t.permitted
  | .inheritable => t.inheritable

/-- The triple of a byte string that raises nothing. -/
def Triple.zero : Triple := ⟨0, 0, 0⟩

/-- The byte of a flag in triple `j` of a body. -/
def byteAt (body : Bytes) (f : Flag) (j : Nat) : UInt8 := body.getD (3 * j + f.position) 0

/-- Triples after the magic and their count. -/
def frame (ts : List Triple) : Bytes :=
  magic ++ UInt8.ofNat ts.length :: ts.flatMap Triple.toBytes

theorem length_flatMap_toBytes (ts : List Triple) :
    (ts.flatMap Triple.toBytes).length = 3 * ts.length := by
  induction ts with
  | nil => rfl
  | cons t ts ih =>
      rw [List.flatMap_cons, List.length_append, ih, List.length_cons]
      show 3 + 3 * ts.length = 3 * (ts.length + 1)
      omega

theorem exists_triples {n : Nat} {body : Bytes} (h : body.length = 3 * n) :
    ∃ ts : List Triple, ts.length = n ∧ body = ts.flatMap Triple.toBytes := by
  induction n generalizing body with
  | zero =>
      obtain rfl := List.eq_nil_of_length_eq_zero h
      exact ⟨[], rfl, rfl⟩
  | succ n ih =>
      match body, h with
      | e :: p :: i :: rest, h =>
          obtain ⟨ts, hlength, rfl⟩ := @ih rest (by simpa [Nat.mul_succ] using h)
          exact ⟨⟨e, p, i⟩ :: ts, by rw [List.length_cons, hlength], rfl⟩

theorem toNat_ofNat_of_le {n : Nat} (h : n ≤ maxCount) : (UInt8.ofNat n).toNat = n := by
  rw [UInt8.toNat_ofNat']
  exact Nat.mod_eq_of_lt (Nat.lt_succ_of_le h)

theorem isFramed_frame {ts : List Triple} (h : ts.length ≤ maxCount) :
    IsFramed (frame ts) (UInt8.ofNat ts.length) (ts.flatMap Triple.toBytes) := by
  refine ⟨rfl, ?_⟩
  rw [length_flatMap_toBytes, toNat_ofNat_of_le h]

theorem IsFramed.exists_frame {data : Bytes} {n : UInt8} {body : Bytes}
    (h : IsFramed data n body) :
    ∃ ts : List Triple, ts.length = n.toNat ∧ body = ts.flatMap Triple.toBytes ∧
      data = frame ts := by
  obtain ⟨rfl, hlength⟩ := h
  obtain ⟨ts, hts, rfl⟩ := exists_triples hlength
  refine ⟨ts, hts, rfl, ?_⟩
  rw [frame, hts, UInt8.ofNat_toNat]

theorem ofBytes?_eq_some {body : Bytes} {ts : List Triple} (h : Triple.ofBytes? body = some ts) :
    body = ts.flatMap Triple.toBytes := by
  fun_induction Triple.ofBytes? body generalizing ts with
  | case1 =>
      cases h
      rfl
  | case2 e p i rest ih =>
      obtain ⟨tail, htail, rfl⟩ := Option.map_eq_some_iff.mp h
      rw [ih htail]
      rfl
  | case3 => cases h

/-- The triples of a byte string are found exactly if it is the frame of so many as its count
can hold. -/
theorem triples?_eq_some_iff {data : Bytes} {ts : List Triple} :
    triples? data = some ts ↔ ts.length ≤ maxCount ∧ data = frame ts := by
  constructor
  · intro h
    obtain ⟨hmagic, h⟩ := Option.ite_none_right_eq_some.mp h
    split at h
    next n body hrest =>
      obtain ⟨hread, hcount⟩ := Option.filter_eq_some_iff.mp h
      have hlength : ts.length = n.toNat := beq_iff_eq.mp hcount
      refine ⟨hlength ▸ Nat.le_of_lt_succ n.toNat_lt, ?_⟩
      calc
        data = data.take magic.length ++ data.drop magic.length :=
          (List.take_append_drop magic.length data).symm
        _ = magic ++ n :: body := by rw [hmagic, hrest]
        _ = frame ts := by rw [frame, hlength, UInt8.ofNat_toNat, ← ofBytes?_eq_some hread]
    next => cases h
  · rintro ⟨hle, rfl⟩
    rw [triples?, frame, List.take_left, if_pos rfl, List.drop_left]
    simp [ofBytes?_flatMap_toBytes, toNat_ofNat_of_le hle]

theorem byteAt_flatMap (ts : List Triple) (f : Flag) (j : Nat) :
    byteAt (ts.flatMap Triple.toBytes) f j = (ts.map fun t => t.byte f).getD j 0 := by
  induction ts generalizing j with
  | nil => rfl
  | cons t ts ih =>
      cases j with
      | zero => cases f <;> rfl
      | succ j =>
          have hindex : 3 * (j + 1) + f.position = 3 * j + f.position + 3 := by omega
          have htail : byteAt ((t :: ts).flatMap Triple.toBytes) f (j + 1) =
              byteAt (ts.flatMap Triple.toBytes) f j := by
            rw [byteAt, byteAt, hindex]
            rfl
          rw [htail, ih]
          rfl

theorem bits_assemble (ts : List Triple) (f : Flag) :
    ((assemble ts).flag f).bits = Bytes.toNat (ts.map fun t => t.byte f) := by
  cases f <;> rfl

/-- Bit `b` of byte `j` stands for the value `8 * j + b`. -/
theorem contains_assemble_eq (ts : List Triple) (f : Flag) (j : Nat) {b : Nat} (hb : b < 8) :
    ((assemble ts).flag f).contains (8 * j + b) =
      (byteAt (ts.flatMap Triple.toBytes) f j).toNat.testBit b := by
  have hdiv : (8 * j + b) / 8 = j := by omega
  have hmod : (8 * j + b) % 8 = b := by omega
  rw [Mask.contains, bits_assemble, Bytes.testBit_toNat, hdiv, hmod, byteAt_flatMap]

theorem byteAt_of_le {ts : List Triple} {f : Flag} {j : Nat} (h : ts.length ≤ j) :
    byteAt (ts.flatMap Triple.toBytes) f j = 0 := by
  rw [byteAt_flatMap, List.getD_eq_getElem?_getD, List.getElem?_eq_none (by simpa using h)]
  rfl

/-- Some bit of a counted triple stands for a value that is not supported. -/
def Exceeds (c : Capacity) (n : UInt8) (body : Bytes) : Prop :=
  ∃ f j b, j < n.toNat ∧ b < 8 ∧ (byteAt body f j).toNat.testBit b = true ∧ c.count ≤ 8 * j + b

theorem fits_assemble_iff {c : Capacity} {n : UInt8} {ts : List Triple}
    (h : ts.length = n.toNat) :
    (assemble ts).fits c = true ↔ ¬ Exceeds c n (ts.flatMap Triple.toBytes) := by
  rw [fits_iff]
  constructor
  · rintro hfits ⟨f, j, b, -, hb, hbit, hcount⟩
    rw [← contains_assemble_eq ts f j hb] at hbit
    have hlt := hfits f _ hbit
    omega
  · intro hnone f v hv
    apply Decidable.byContradiction
    intro hle
    have hsplit : 8 * (v / 8) + v % 8 = v := by omega
    have hb : v % 8 < 8 := by omega
    rw [← hsplit, contains_assemble_eq ts f _ hb] at hv
    refine hnone ⟨f, v / 8, v % 8, ?_, hb, hv, by omega⟩
    apply Decidable.byContradiction
    intro hbeyond
    rw [byteAt_of_le (by omega)] at hv
    simp at hv

/-- The count that a byte string states. -/
def counted (data : Bytes) : Nat := (data.getD magic.length 0).toNat

/-- A byte string with zero triples appended and its count increased by their number. -/
def padded (k : Nat) (data : Bytes) : Bytes :=
  data.take magic.length ++ UInt8.ofNat (counted data + k) ::
    (data.drop (magic.length + 1) ++ List.replicate (3 * k) 0)

theorem counted_frame {ts : List Triple} (h : ts.length ≤ maxCount) :
    counted (frame ts) = ts.length := by
  rw [counted, frame]
  exact toNat_ofNat_of_le h

theorem flatMap_replicate_zero (k : Nat) :
    (List.replicate k Triple.zero).flatMap Triple.toBytes = List.replicate (3 * k) 0 := by
  induction k with
  | zero => rfl
  | succ k ih =>
      rw [List.replicate_succ, List.flatMap_cons, ih, Nat.mul_succ, Nat.add_comm,
        ← List.replicate_append_replicate]
      rfl

theorem padded_frame {ts : List Triple} (h : ts.length ≤ maxCount) (k : Nat) :
    padded k (frame ts) = frame (ts ++ List.replicate k Triple.zero) := by
  rw [padded, counted_frame h]
  simp only [frame, List.length_append, List.length_replicate, List.flatMap_append,
    flatMap_replicate_zero]
  rfl

/-- The first triples of a set. -/
def triples (s : CapSet) (n : Nat) : List Triple := (List.range n).map (triple s)

@[simp] theorem length_triples (s : CapSet) (n : Nat) : (triples s n).length = n := by
  simp [triples]

theorem encode_eq_frame (floor : Nat) (s : CapSet) :
    encode floor s = frame (triples s (count floor s)) := by
  rw [encode, frame, length_triples, triples, List.flatMap_map]

theorem length_frame_triples (s : CapSet) (n : Nat) :
    (frame (triples s n)).length = magic.length + 1 + 3 * n := by
  rw [frame, List.length_append, List.length_cons, length_flatMap_toBytes, length_triples]
  omega

theorem byte_triple (s : CapSet) (f : Flag) (j : Nat) :
    (triple s j).byte f = byte (s.flag f) j := by
  cases f <;> rfl

theorem Triple.ext_byte {t u : Triple} (h : ∀ f, t.byte f = u.byte f) : t = u := by
  obtain ⟨e, p, i⟩ := t
  obtain ⟨e', p', i'⟩ := u
  have he : e = e' := h .effective
  have hp : p = p' := h .permitted
  have hi : i = i' := h .inheritable
  rw [he, hp, hi]

theorem eq_of_testBit {a b : UInt8} (h : ∀ i < 8, a.toNat.testBit i = b.toNat.testBit i) :
    a = b := by
  apply UInt8.toNat_inj.mp
  apply Nat.eq_of_testBit_eq
  intro i
  by_cases hi : i < 8
  · exact h i hi
  · have hpow : 2 ^ 8 ≤ 2 ^ i := Nat.pow_le_pow_right (by decide) (by omega)
    rw [Nat.testBit_lt_two_pow (Nat.lt_of_lt_of_le a.toNat_lt hpow),
      Nat.testBit_lt_two_pow (Nat.lt_of_lt_of_le b.toNat_lt hpow)]

theorem testBit_byte (m : Mask) (j : Nat) {i : Nat} (hi : i < 8) :
    (byte m j).toNat.testBit i = m.contains (8 * j + i) := by
  rw [byte, UInt8.toNat_ofNat', Nat.testBit_mod_two_pow, Nat.testBit_shiftRight, Mask.contains]
  simp [hi]

/-- Triples are those of the set that they make up. -/
theorem triples_assemble (ts : List Triple) : triples (assemble ts) ts.length = ts := by
  apply List.ext_getElem
  · simp
  · intro j _ hj
    simp only [triples, List.getElem_map, List.getElem_range]
    apply Triple.ext_byte
    intro f
    apply eq_of_testBit
    intro i hi
    have hentry : (ts.map fun t => t.byte f).getD j 0 = ts[j].byte f := by
      simp [List.getD_eq_getElem?_getD, hj]
    rw [byte_triple, testBit_byte _ _ hi, contains_assemble_eq ts f j hi, byteAt_flatMap, hentry]

theorem triples_eq_of_flag_eq {s t : CapSet} (h : ∀ f, s.flag f = t.flag f) (n : Nat) :
    triples s n = triples t n := by
  apply List.map_congr_left
  intro j _
  apply Triple.ext_byte
  intro f
  rw [byte_triple, byte_triple, h f]

/-- Beyond the last raised value there are zero triples only. -/
theorem triples_add {s : CapSet} {n : Nat} (h : usedBytes s ≤ n) (k : Nat) :
    triples s (n + k) = triples s n ++ List.replicate k Triple.zero := by
  have hzero : ∀ j, n ≤ j → triple s j = Triple.zero := by
    intro j hj
    apply Triple.ext_byte
    intro f
    apply eq_of_testBit
    intro i hi
    have hlowered : (s.flag f).contains (8 * j + i) = false := by
      rw [← Bool.not_eq_true]
      intro hraised
      have hlt := lt_usedBytes hraised
      omega
    rw [byte_triple, testBit_byte _ _ hi, hlowered]
    cases f <;> simp [Triple.zero, Triple.byte]
  rw [triples, List.range_add, List.map_append, List.map_map]
  congr 1
  rw [List.eq_replicate_iff]
  constructor
  · simp
  · intro t ht
    obtain ⟨j, -, rfl⟩ := List.mem_map.mp ht
    exact hzero (n + j) (Nat.le_add_right n j)

theorem usedBytes_le_iff {s : CapSet} {n : Nat} :
    usedBytes s ≤ n ↔ ∀ f v, (s.flag f).contains v = true → v < 8 * n := by
  constructor
  · intro h f v hv
    have hlt := lt_usedBytes hv
    omega
  · intro h
    have hwidth : s.raised.width ≤ 8 * n := by
      apply Mask.width_le
      intro v hv
      obtain ⟨f, hf⟩ := contains_raised.mp hv
      exact h f v hf
    rw [usedBytes]
    omega

theorem isEmpty_iff_usedBytes (s : CapSet) : s.isEmpty = true ↔ usedBytes s = 0 := by
  rw [← Nat.le_zero, usedBytes_le_iff, isEmpty, ← Bool.not_eq_false, Mask.isEmpty_eq_false_iff]
  simp only [contains_raised]
  constructor
  · intro h f v hv
    exact absurd ⟨v, f, hv⟩ h
  · rintro h ⟨v, f, hv⟩
    exact absurd (h f v hv) (Nat.not_lt_zero _)

theorem count_zero (s : CapSet) : count 0 s = usedBytes s := by
  rw [count, if_neg]
  omega

theorem count_eq {s : CapSet} (h : usedBytes s ≤ 8) (floor : Nat) :
    count floor s = if s.isEmpty then 0 else max (usedBytes s) (min floor maxCount) := by
  have hempty := isEmpty_iff_usedBytes s
  rw [count, maxCount]
  cases hs : s.isEmpty with
  | true =>
      rw [hs] at hempty
      have hzero := hempty.mp rfl
      simp [hzero]
  | false =>
      rw [hs] at hempty
      have hpos : usedBytes s ≠ 0 := fun hzero => by simpa using hempty.mpr hzero
      rw [if_neg Bool.false_ne_true]
      split <;> omega

variable {c : Capacity} {data : Bytes} {s : CapSet}

theorem decode_frame {ts : List Triple} (h : ts.length ≤ maxCount) :
    decode c (frame ts) =
      if (assemble ts).fits c then .ok (assemble ts) else .error .badValue := by
  rw [decode, triples?_eq_some_iff.mpr ⟨h, rfl⟩]

theorem decode_eq_badPayload_iff :
    decode c data = .error .badPayload ↔ ¬ ∃ n body, IsFramed data n body := by
  have hframed : (∃ n body, IsFramed data n body) ↔ ∃ ts, triples? data = some ts := by
    simp only [triples?_eq_some_iff]
    constructor
    · rintro ⟨n, body, h⟩
      obtain ⟨ts, hlength, -, hdata⟩ := h.exists_frame
      exact ⟨ts, hlength ▸ Nat.le_of_lt_succ n.toNat_lt, hdata⟩
    · rintro ⟨ts, hle, rfl⟩
      exact ⟨_, _, isFramed_frame hle⟩
  rw [hframed, decode]
  split
  next hnone => simp [hnone]
  next ts hts =>
    simp only [hts, Option.some.injEq, exists_eq', not_true, iff_false]
    split <;> simp

theorem decode_of_exceeds {n : UInt8} {body : Bytes} (h : IsFramed data n body)
    (hbeyond : Exceeds c n body) : decode c data = .error .badValue := by
  obtain ⟨ts, hlength, rfl, rfl⟩ := h.exists_frame
  have hle : ts.length ≤ maxCount := hlength ▸ Nat.le_of_lt_succ n.toNat_lt
  rw [decode_frame hle, if_neg]
  exact fun hfits => (fits_assemble_iff hlength).mp hfits hbeyond

/-- A framed byte string without values that are not supported is the set of its bits. -/
theorem decode_of_not_exceeds {n : UInt8} {body : Bytes} (h : IsFramed data n body)
    (hwithin : ¬ Exceeds c n body) :
    ∃ s, decode c data = .ok s ∧ s.owner = none ∧ ∀ f j b, b < 8 →
      (s.flag f).contains (8 * j + b) =
        (decide (j < n.toNat) && (byteAt body f j).toNat.testBit b) := by
  obtain ⟨ts, hlength, rfl, rfl⟩ := h.exists_frame
  have hle : ts.length ≤ maxCount := hlength ▸ Nat.le_of_lt_succ n.toNat_lt
  have hfits := (fits_assemble_iff hlength).mpr hwithin
  refine ⟨assemble ts, by rw [decode_frame hle, if_pos hfits], rfl, ?_⟩
  intro f j b hb
  rw [contains_assemble_eq ts f j hb]
  by_cases hj : j < n.toNat
  · simp [hj]
  · rw [byteAt_of_le (by omega)]
    simp

/-- What is read from a byte string agrees with a set exactly if the byte string holds the
triples of the set, and at least those that it needs. -/
theorem exists_decode_agrees_iff :
    (∃ t, decode c data = .ok t ∧ t.agrees s = true) ↔
      s.fits c = true ∧ ∃ n, usedBytes s ≤ n ∧ n ≤ maxCount ∧ data = frame (triples s n) := by
  constructor
  · rintro ⟨t, hread, hagrees⟩
    have hflags := (agrees_iff t s).mp hagrees
    rw [decode] at hread
    split at hread
    next => cases hread
    next ts hts =>
      obtain ⟨hle, rfl⟩ := triples?_eq_some_iff.mp hts
      split at hread
      next hfits =>
        cases hread
        have hs : s.fits c = true := by
          rw [fits_iff] at hfits ⊢
          intro f v hv
          exact hfits f v (by rwa [hflags f])
        have hused : usedBytes s ≤ ts.length := by
          rw [usedBytes_le_iff]
          intro f v hv
          apply Decidable.byContradiction
          intro hbeyond
          have hsplit : 8 * (v / 8) + v % 8 = v := by omega
          rw [← hflags f, ← hsplit, contains_assemble_eq ts f _ (Nat.mod_lt _ (by decide)),
            byteAt_of_le (by omega)] at hv
          simp at hv
        refine ⟨hs, ts.length, hused, hle, ?_⟩
        rw [← triples_eq_of_flag_eq hflags, triples_assemble]
      next => cases hread
  · rintro ⟨hs, n, hused, hle, rfl⟩
    have hset : assemble (triples s n) = s.unowned := assemble_triples hused
    have hfits : s.unowned.fits c = true := hs
    refine ⟨s.unowned, ?_, (agrees_iff _ _).mpr (flag_unowned s)⟩
    rw [decode_frame (by rwa [length_triples]), hset, if_pos hfits]

/-- Padding the encoding without a floor adds triples up to any number. -/
theorem padded_encode (h : usedBytes s ≤ maxCount) (k : Nat) :
    padded k (encode 0 s) = frame (triples s (usedBytes s + k)) := by
  rw [encode_eq_frame, count_zero, padded_frame (by rwa [length_triples]),
    triples_add (Nat.le_refl _)]

theorem counted_encode {floor : Nat} (h : count floor s ≤ maxCount) :
    counted (encode floor s) = count floor s := by
  rw [encode_eq_frame, counted_frame (by rwa [length_triples]), length_triples]

/-- Reading tells apart byte strings that are not framed, framed ones with a value that is not
supported, and all others, which are sets bit by bit. The byte strings of a set are its
encoding without a floor, with any number of zero triples appended and counted; so that
encoding is the only one of its length and none is shorter. An encoding with a floor counts as
many triples as the set needs or the floor asks for, and none if the set raises nothing. -/
theorem decode_exact_for_padded (c : Capacity) (data : Bytes) :
    (decode c data = .error .badPayload ↔ ¬ ∃ n body, IsFramed data n body) ∧
    (∀ n body, IsFramed data n body →
      (decode c data = .error .badValue ↔ Exceeds c n body) ∧
      (¬ Exceeds c n body → ∃ s, decode c data = .ok s ∧ s.owner = none ∧ ∀ f j b, b < 8 →
        (s.flag f).contains (8 * j + b) =
          (decide (j < n.toNat) && (byteAt body f j).toNat.testBit b))) ∧
    ∀ s : CapSet,
      ((∃ t, decode c data = .ok t ∧ t.agrees s = true) ↔
        s.fits c = true ∧ ∃ k, counted (encode 0 s) + k ≤ maxCount ∧
          data = padded k (encode 0 s)) ∧
      ((∃ t, decode c data = .ok t ∧ t.agrees s = true) →
        (encode 0 s).length ≤ data.length ∧
          (data.length = (encode 0 s).length → data = encode 0 s)) ∧
      (s.fits c = true →
        (∀ n, counted (encode 0 s) ≤ n ↔ ∀ f v, (s.flag f).contains v = true → v < 8 * n) ∧
        ∀ floor, ∃ k, encode floor s = padded k (encode 0 s) ∧
          counted (encode 0 s) + k =
            if s.isEmpty then 0 else max (counted (encode 0 s)) (min floor maxCount)) := by
  refine ⟨decode_eq_badPayload_iff, ?_, ?_⟩
  · intro n body hframed
    refine ⟨⟨fun hbad => ?_, decode_of_exceeds hframed⟩, decode_of_not_exceeds hframed⟩
    apply Classical.byContradiction
    intro hwithin
    obtain ⟨s, hs, -, -⟩ := decode_of_not_exceeds hframed hwithin
    rw [hs] at hbad
    cases hbad
  · intro s
    have hneeds (hs : s.fits c = true) : counted (encode 0 s) = usedBytes s := by
      have hused := usedBytes_le hs
      rw [counted_encode (count_le 0 hused), count_zero]
    have hforms : (∃ t, decode c data = .ok t ∧ t.agrees s = true) ↔
        s.fits c = true ∧ ∃ k, counted (encode 0 s) + k ≤ maxCount ∧
          data = padded k (encode 0 s) := by
      rw [exists_decode_agrees_iff]
      apply and_congr_right
      intro hs
      have hused : usedBytes s ≤ maxCount := Nat.le_trans (usedBytes_le hs) (by decide)
      simp only [hneeds hs, padded_encode hused]
      constructor
      · rintro ⟨n, hn, hle, rfl⟩
        exact ⟨n - usedBytes s, by omega, by rw [Nat.add_sub_cancel' hn]⟩
      · rintro ⟨k, hle, rfl⟩
        exact ⟨usedBytes s + k, Nat.le_add_right _ _, hle, rfl⟩
    refine ⟨hforms, ?_, ?_⟩
    · intro hread
      obtain ⟨-, n, hn, -, rfl⟩ := exists_decode_agrees_iff.mp hread
      have hshortest : encode 0 s = frame (triples s (usedBytes s)) := by
        rw [encode_eq_frame, count_zero]
      rw [hshortest, length_frame_triples, length_frame_triples]
      refine ⟨by omega, fun hlength => ?_⟩
      rw [show n = usedBytes s by omega]
    · intro hs
      have hused := usedBytes_le hs
      refine ⟨fun n => by rw [hneeds hs, usedBytes_le_iff], fun floor => ?_⟩
      have hcount := count_eq hused floor
      refine ⟨count floor s - usedBytes s, ?_, ?_⟩
      · rw [padded_encode (Nat.le_trans hused (by decide)), encode_eq_frame,
          Nat.add_sub_cancel' (usedBytes_le_count floor hused)]
      · rw [hneeds hs, ← hcount, Nat.add_sub_cancel' (usedBytes_le_count floor hused)]

example : encode 8 tallSet = padded 2 (encode 0 tallSet) ∧ counted (encode 0 tallSet) = 6 := by
  decide +kernel

end Capabilities.CapSet.External
