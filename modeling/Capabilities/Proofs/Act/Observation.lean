import Capabilities.Act.Controls
import Capabilities.Proofs.CapSet.ExternalForm
import Capabilities.Proofs.CapSet.TextRoundTrip

/-!
# Sets that are read from the kernel

A set that is read from the kernel holds whatever the kernel shows in its words,
also the bits beyond the supported values. Such a bit is not written to texts,
but to byte strings, and reading refuses it there. So a set that was read is
carried by its text and by its byte string exactly if it fits the capacity, and
that is up to the kernel.
-/

namespace Capabilities

namespace CapSet

variable {c : Capacity} {s : CapSet} {f : Flag} {v : Nat}

/-- What is raised in a set among the supported values. -/
def supportedPart (c : Capacity) (s : CapSet) : CapSet :=
  { s with
    effective := s.effective ∩ Mask.below c.count
    permitted := s.permitted ∩ Mask.below c.count
    inheritable := s.inheritable ∩ Mask.below c.count }

theorem contains_supportedPart :
    ((s.supportedPart c).flag f).contains v =
      ((s.flag f).contains v && decide (v < c.count)) := by
  cases f <;> simp [supportedPart, flag]

theorem fits_supportedPart (c : Capacity) (s : CapSet) : (s.supportedPart c).fits c = true := by
  rw [fits_iff]
  intro f v hv
  rw [contains_supportedPart, Bool.and_eq_true, decide_eq_true_eq] at hv
  exact hv.2

theorem supportedPart_eq_self_iff : s.supportedPart c = s ↔ s.fits c = true := by
  constructor
  · intro h
    exact h ▸ fits_supportedPart c s
  · intro hs
    refine ext_flag (fun f => Mask.ext fun v => ?_) rfl
    rw [contains_supportedPart]
    cases hv : (s.flag f).contains v with
    | false => rfl
    | true => simpa using contains_of_fits hs hv

theorem combination_supportedPart (hv : v < c.count) :
    (s.supportedPart c).combination v = s.combination v := by
  simp [combination, supportedPart, hv]

theorem namedWith_supportedPart (c : Capacity) (s : CapSet) (k : Combination) :
    (s.supportedPart c).namedWith c k = s.namedWith c k := by
  refine List.filter_congr fun v hv => ?_
  rw [combination_supportedPart (Nat.lt_of_lt_of_le (List.mem_range.mp hv) (named_le_count c))]

theorem unnamedWith_supportedPart (c : Capacity) (s : CapSet) (k : Combination) :
    (s.supportedPart c).unnamedWith c k = s.unnamedWith c k := by
  have hend : c.named + (c.count - c.named) = c.count :=
    Nat.add_sub_cancel' (named_le_count c)
  refine List.filter_congr fun v hv => ?_
  rw [List.mem_range'_1, hend] at hv
  rw [combination_supportedPart hv.2]

/-- Nothing beyond the supported values is written. -/
theorem toText_supportedPart (c : Capacity) (s : CapSet) :
    (s.supportedPart c).toText c = s.toText c := by
  have hbackground : (s.supportedPart c).background c = s.background c := by
    simp only [background, namedWith_supportedPart]
  have hdeviation : (s.supportedPart c).deviation c = s.deviation c := by
    funext k
    simp only [deviation, hbackground, namedWith_supportedPart]
  simp only [toText, render, clauses, namedClauses, deviations, additions, hbackground,
    hdeviation, namedWith_supportedPart, unnamedWith_supportedPart]

theorem ofText_toText_supportedPart (c : Capacity) (s : CapSet) :
    ofText c (s.toText c) = .ok (s.supportedPart c).unowned := by
  rw [← toText_supportedPart, ofText_toText_eq (fits_supportedPart c s)]

end CapSet

namespace Act

variable {c : Capacity} {s : CapSet}

theorem contains_fitWords {f : Flag} {v : Nat} :
    ((fitWords c s).flag f).contains v =
      ((s.flag f).contains v && decide (v < c.width)) := by
  cases f <;> simp [fitWords, CapSet.flag]

theorem usedBytes_fitWords (c : Capacity) (s : CapSet) :
    CapSet.External.usedBytes (fitWords c s) ≤ 8 := by
  have hwords := c.abi.words_le_two
  rw [CapSet.External.usedBytes_le_iff]
  intro f v hv
  rw [contains_fitWords, Bool.and_eq_true, decide_eq_true_eq, Capacity.width] at hv
  omega

/-- What is read are the words of what the kernel has recorded for the process. -/
theorem eq_fitWords_of_readSetOf {s s' : Machine} {pid : Int} {t : CapSet}
    (h : (readSetOf pid).start s = some (.ok t, s')) :
    ∃ held, s.kernel.inspect s.credentials pid = .ok held ∧ t = fitWords s.capacity held := by
  have hrequest : (Act.request fun s => some (s.inspect pid)).start s =
      some ((s.inspect pid).1.mapError Fault.os, (s.inspect pid).2) := rfl
  rw [readSetOf, start_bind, hrequest] at h
  cases hscript : s.kernel.script.errno? .inspect pid s.main.index
      (.inspect :: s.main.attempts) with
  | some e =>
      simp [Machine.inspect, Kernel.attempt, hscript, Except.mapError] at h
  | none =>
      cases hheld : s.kernel.inspect s.credentials pid with
      | error e =>
          simp [Machine.inspect, Kernel.attempt, hscript, hheld, Except.mapError] at h
      | ok held =>
          refine ⟨held, rfl, ?_⟩
          simp only [Machine.inspect, Kernel.attempt, hscript, hheld] at h
          cases h
          rfl

/-- A set that is read, of whichever process, holds the bits that the kernel has recorded for it in
the words of its interface. The byte strings of the set are read back exactly if it fits the
capacity, and are refused for their values otherwise. Its text is read back as what is raised among
the supported values, which is the set itself exactly if it fits. And it fits exactly if the kernel
has recorded nothing in its words beyond the supported values. -/
theorem readSetOf_carried_iff {s s' : Machine} {pid : Int} {t : CapSet}
    (h : (readSetOf pid).start s = some (.ok t, s')) :
    ∃ held, s.kernel.inspect s.credentials pid = .ok held ∧
      (∀ f v, (t.flag f).contains v =
        ((held.flag f).contains v && decide (v < s.capacity.width))) ∧
      (∀ floor, CapSet.External.decode s.capacity (CapSet.External.encode floor t) =
        if t.fits s.capacity then .ok t else .error .badValue) ∧
      CapSet.ofText s.capacity (t.toText s.capacity) = .ok (t.supportedPart s.capacity) ∧
      (t.supportedPart s.capacity = t ↔ t.fits s.capacity = true) ∧
      (t.fits s.capacity = true ↔ ∀ f v, (held.flag f).contains v = true →
        v < s.capacity.width → v < s.capacity.count) := by
  obtain ⟨held, hheld, rfl⟩ := eq_fitWords_of_readSetOf h
  refine ⟨held, hheld, fun f v => contains_fitWords, fun floor => ?_, ?_,
    CapSet.supportedPart_eq_self_iff, ?_⟩
  · exact CapSet.External.decode_encode_of_usedBytes_le (usedBytes_fitWords _ _) _ floor
  · exact CapSet.ofText_toText_supportedPart _ _
  · rw [CapSet.fits_iff]
    simp only [contains_fitWords, Bool.and_eq_true, decide_eq_true_eq, and_imp]

/-- A process on a kernel of 41 values, for which the kernel has recorded bit 41 as well, and
another process with the highest bits of both words. -/
def surplusMachine : Machine :=
  Machine.start
    { version := Abi.third.code, valueCount := 41, boundingSupported := true,
      ambientSupported := true
      processes := [(7, ⟨∅, Mask.ofList [31, 63], Mask.single 3, none⟩)], script := [] }
    { effective := ∅, permitted := Mask.ofList [0, 41], inheritable := ∅, ambient := ∅,
      bounding := Mask.below 41, secbits := ∅, uid := 0, gid := 0, groups := [] }
    Table.empty

theorem readSetOf_carried_iff_surplusMachine :
    ∃ s', (readSetOf 7).start surplusMachine =
        some (.ok ⟨∅, Mask.ofList [31, 63], Mask.single 3, none⟩, s') ∧
      CapSet.External.decode surplusMachine.capacity (CapSet.External.encode 0
        ⟨∅, Mask.ofList [31, 63], Mask.single 3, none⟩) = .error .badValue := by
  have hread : (readSetOf 7).start surplusMachine =
      some (.ok ⟨∅, Mask.ofList [31, 63], Mask.single 3, none⟩, (surplusMachine.inspect 7).2) := rfl
  obtain ⟨-, -, -, hbytes, -⟩ := readSetOf_carried_iff hread
  refine ⟨_, hread, ?_⟩
  rw [hbytes 0, if_neg (by decide +kernel)]

/-- The set that a process reads of itself is refused when it is imported again, and another set
is read from its text. -/
theorem readSetOf_uncarried_surplusMachine :
    ∃ t s', (readSetOf 0).start surplusMachine = some (.ok t, s') ∧
      surplusMachine.capacity.count ≤ 41 ∧ t.permitted.contains 41 = true ∧
      CapSet.External.decode surplusMachine.capacity (CapSet.External.encode 0 t) =
        .error .badValue ∧
      ∃ u, CapSet.ofText surplusMachine.capacity (t.toText surplusMachine.capacity) = .ok u ∧
        u.agrees t = false := by
  refine ⟨⟨∅, Mask.ofList [0, 41], ∅, none⟩, _, rfl, by decide +kernel, by decide, ?_,
    _, CapSet.ofText_toText_supportedPart _ _, by decide +kernel⟩
  rw [CapSet.External.decode_encode_of_usedBytes_le (by decide), if_neg (by decide +kernel)]

end Act

end Capabilities
