import Capabilities.CapSet.External
import Capabilities.Proofs.Bytes.Bits
import Capabilities.Proofs.CapSet.Flags
import Capabilities.Proofs.Mask.Algebra

/-!
# The external format carries a set to any kernel

A set is written with enough triples for every raised value, and reading puts
the bytes together again. What a kernel makes of them depends only on whether
it supports the raised values, not on the kernel that the set comes from or on
the number of triples asked for.
-/

namespace Capabilities.CapSet.External

theorem lt_usedBytes {s : CapSet} {f : Flag} {v : Nat} (h : (s.flag f).contains v = true) :
    v < 8 * usedBytes s := by
  have hwidth := Mask.lt_width (contains_raised.mpr ⟨f, h⟩)
  rw [usedBytes]
  omega

theorem usedBytes_le {c : Capacity} {s : CapSet} (hs : s.fits c = true) : usedBytes s ≤ 8 := by
  have hraised : ∀ v, s.raised.contains v = true → v < c.count := by
    intro v hv
    obtain ⟨f, hf⟩ := contains_raised.mp hv
    exact contains_of_fits hs hf
  have hwidth := Mask.width_le hraised
  have hcount := c.count_le
  have hwords := c.abi.words_le_two
  rw [usedBytes]
  omega

theorem usedBytes_le_count {s : CapSet} (floor : Nat) (h : usedBytes s ≤ 8) :
    usedBytes s ≤ count floor s := by
  rw [count, maxCount]
  split <;> omega

theorem count_le {s : CapSet} (floor : Nat) (h : usedBytes s ≤ 8) :
    count floor s ≤ maxCount := by
  rw [count, maxCount]
  split <;> omega

theorem ofBytes?_flatMap_toBytes (ts : List Triple) :
    Triple.ofBytes? (ts.flatMap Triple.toBytes) = some ts := by
  induction ts with
  | nil => rfl
  | cons t ts ih =>
      simp only [List.flatMap_cons, Triple.toBytes, List.cons_append, List.nil_append,
        Triple.ofBytes?] at ih ⊢
      rw [ih, Option.map_some]

theorem triples?_encode {s : CapSet} {floor : Nat} (h : count floor s ≤ maxCount) :
    triples? (encode floor s) = some ((List.range (count floor s)).map (triple s)) := by
  have hbyte : (UInt8.ofNat (count floor s)).toNat = count floor s := by
    rw [UInt8.toNat_ofNat', Nat.mod_eq_of_lt]
    unfold maxCount at h
    omega
  have hbody : (List.range (count floor s)).flatMap (fun j => (triple s j).toBytes) =
      ((List.range (count floor s)).map (triple s)).flatMap Triple.toBytes := by
    rw [List.flatMap_map]
  rw [triples?, encode, List.take_left, if_pos rfl, List.drop_left]
  simp only [hbody, ofBytes?_flatMap_toBytes, hbyte]
  simp

/-- Each mask is put together from its own bytes. -/
theorem contains_assemble {s : CapSet} {n : Nat} (f : Flag) (v : Nat) :
    ((assemble ((List.range n).map (triple s))).flag f).contains v =
      (decide (v < 8 * n) && (s.flag f).contains v) := by
  cases f <;>
    simp only [assemble, flag, List.map_map, Function.comp_def, triple, byte, Mask.contains,
      ← Bytes.ofNat_eq_map_range, Bytes.testBit_toNat_ofNat]

theorem assemble_triples {s : CapSet} {n : Nat} (h : usedBytes s ≤ n) :
    assemble ((List.range n).map (triple s)) = s.unowned := by
  refine ext_flag (fun f => Mask.ext fun v => ?_) rfl
  rw [contains_assemble, flag_unowned]
  cases hv : (s.flag f).contains v with
  | false => simp
  | true =>
      have := lt_usedBytes hv
      simp only [Bool.and_true, decide_eq_true_eq]
      omega

/-- A kernel reads the set that was written, or refuses it for a value it does not support. -/
theorem decode_encode_of_usedBytes_le {s : CapSet} (hused : usedBytes s ≤ 8) (c : Capacity)
    (floor : Nat) :
    decode c (encode floor s) =
      if s.fits c then .ok s.unowned else .error .badValue := by
  rw [decode, triples?_encode (count_le floor hused)]
  simp only [assemble_triples (usedBytes_le_count floor hused)]
  rfl

theorem decode_encode {c : Capacity} {s : CapSet} (hs : s.fits c = true) (c' : Capacity)
    (floor : Nat) :
    decode c' (encode floor s) =
      if s.fits c' then .ok s.unowned else .error .badValue :=
  decode_encode_of_usedBytes_le (usedBytes_le hs) c' floor

/-- A set that one kernel writes is taken over by another one exactly when that kernel
supports every raised value; the kernel that wrote it takes it back at every floor. -/
theorem decode_encode_between {c : Capacity} {s : CapSet} (hs : s.fits c = true)
    (c' : Capacity) (floor : Nat) :
    ((∀ f v, (s.flag f).contains v = true → v < c'.count) →
      ∃ t, decode c' (encode floor s) = .ok t ∧
        ∀ f v, (t.flag f).contains v = (s.flag f).contains v) ∧
    ((∃ f v, (s.flag f).contains v = true ∧ c'.count ≤ v) →
      decode c' (encode floor s) = .error .badValue) ∧
    ∃ t, decode c (encode floor s) = .ok t ∧
      ∀ f v, (t.flag f).contains v = (s.flag f).contains v := by
  have htaken {d : Capacity} (hd : s.fits d = true) :
      ∃ t, decode d (encode floor s) = .ok t ∧
        ∀ f v, (t.flag f).contains v = (s.flag f).contains v := by
    refine ⟨s.unowned, ?_, fun f v => by rw [flag_unowned]⟩
    rw [decode_encode hs, if_pos hd]
  refine ⟨fun h => htaken (fits_iff.mpr h), ?_, htaken hs⟩
  rintro ⟨f, v, hv, hle⟩
  rw [decode_encode hs, if_neg]
  intro hfits
  have hlt := contains_of_fits hfits hv
  omega

/-- A kernel of one word. -/
def narrow : Capacity := ⟨.first, 20, by decide, by decide⟩

/-- A kernel of two words, with a count that is no multiple of eight. -/
def wide : Capacity := ⟨.second, 45, by decide, by decide⟩

/-- A set whose highest value only the wide kernel supports. -/
def tallSet : CapSet := ⟨⟨1⟩, ⟨0x100000000001⟩, ⟨0x80⟩, none⟩

/-- Two kernels disagree about a set that was padded with as many triples as possible. -/
theorem decode_encode_tallSet :
    tallSet.fits wide = true ∧
    decode narrow (encode 300 tallSet) = .error .badValue ∧
    ∃ t, decode wide (encode 300 tallSet) = .ok t ∧
      ∀ f v, (t.flag f).contains v = (tallSet.flag f).contains v :=
  have hfits : tallSet.fits wide = true := by decide
  have hboth := decode_encode_between hfits narrow 300
  ⟨hfits, hboth.2.1 ⟨.permitted, 44, by decide, by decide⟩, hboth.2.2⟩

end Capabilities.CapSet.External
