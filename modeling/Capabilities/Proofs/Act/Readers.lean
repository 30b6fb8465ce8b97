import Capabilities.Proofs.Act.Course
import Capabilities.Proofs.Act.Reading
import Capabilities.Proofs.Kernel.Support
import Mathlib.Data.List.TakeWhile

/-!
# The ways to read a process agree

The masks of a process are read in several ways: as a set, as a tuple, as lists of
the ambient and of the bounding values, and value by value. The lists end at the
first value that the kernel does not answer for, the tuple takes such a value for
neither ambient nor blocked, and the bounding mask appears in it the other way
round. On a kernel that can be asked about the bounding mask all of them show the
same.
-/

namespace Capabilities

namespace Capacity

variable (c : Capacity)

theorem exists_values_eq_cons : ∃ rest, c.values = 0 :: rest := by
  obtain ⟨n, hcount⟩ := Nat.exists_eq_succ_of_ne_zero c.count_pos.ne'
  exact ⟨_, by rw [values, hcount, List.range_succ_eq_map]⟩

/-- Selected from the supported values, values are in ascending order. -/
theorem pairwise_lt_filter_values (p : Value → Bool) :
    (c.values.filter p).Pairwise (· < ·) :=
  List.pairwise_lt_range.filter p

end Capacity

namespace Kernel

variable (k : Kernel) (cr : Credentials)

/-- The ambient values that a thread lists, if there is an ambient mask. -/
def shownAmbient : Option (List Value) :=
  if k.ambients 0 then some (k.capacity.values.filter cr.ambient.contains) else none

/-- The bounding values that a thread lists. -/
def shownBounding : List Value := k.capacity.values.filter cr.bounding.contains

end Kernel

namespace Act

variable {α : Type} {k : Kernel} {cr : Credentials}

theorem Reads.yields {x : Act α} {a : α} (h : Reads k cr x (.ok a)) (hscript : k.script = [])
    {s : Machine} (hkernel : s.kernel = k) (hcredentials : s.credentials = cr) : x.Yields s a := by
  obtain ⟨attempts, hstart⟩ := h s hkernel hcredentials hscript
  exact ⟨_, hstart⟩

/-- An act ends in one way. -/
theorem Yields.unique {x : Act α} {s : Machine} {a b : α} (ha : x.Yields s a)
    (hb : x.Yields s b) : a = b := by
  obtain ⟨t, ht⟩ := ha
  obtain ⟨t', ht'⟩ := hb
  cases ht.symm.trans ht'
  rfl

theorem reads_collectAmbient (vs : List Value) :
    Reads k cr (collectAmbient vs)
      (.ok ((vs.takeWhile k.ambients).filter cr.ambient.contains)) := by
  induction vs with
  | nil => exact reads_pure []
  | cons v rest ih =>
      refine reads_bind (reads_attempt (reads_readAmbient v)) ?_
      rw [List.takeWhile_cons]
      cases k.ambients v with
      | false => exact reads_pure []
      | true =>
          rw [if_pos rfl, if_pos rfl, List.filter_cons]
          cases cr.ambient.contains v with
          | true => exact reads_bind ih (reads_pure _)
          | false => exact ih

/-- Without an answer for the first value there is no list. -/
theorem reads_listAmbient :
    Reads k cr listAmbient (.ok (if k.ambients 0 then
      some ((k.capacity.values.takeWhile k.ambients).filter cr.ambient.contains) else none)) := by
  refine reads_bind reads_capacity ?_
  obtain ⟨rest, hvalues⟩ := k.capacity.exists_values_eq_cons
  rw [hvalues]
  refine reads_bind (reads_attempt (reads_readAmbient 0)) ?_
  rw [List.takeWhile_cons]
  cases k.ambients 0 with
  | false => exact reads_pure none
  | true =>
      simp only [if_pos, List.filter_cons]
      cases cr.ambient.contains 0 with
      | true => exact reads_bind (reads_collectAmbient rest) (reads_pure _)
      | false => exact reads_bind (reads_collectAmbient rest) (reads_pure _)

theorem reads_collectBounding (vs : List Value) :
    Reads k cr (collectBounding vs)
      (.ok ((vs.takeWhile k.bounds).filter cr.bounding.contains)) := by
  induction vs with
  | nil => exact reads_pure []
  | cons v rest ih =>
      refine reads_bind (reads_readBounding v) ?_
      rw [List.takeWhile_cons]
      cases k.bounds v with
      | false => exact reads_pure []
      | true =>
          rw [if_pos rfl, if_pos rfl, List.filter_cons]
          cases cr.bounding.contains v with
          | true => exact reads_bind ih (reads_pure _)
          | false => exact ih

theorem reads_listBounding :
    Reads k cr listBounding
      (.ok ((k.capacity.values.takeWhile k.bounds).filter cr.bounding.contains)) :=
  reads_bind reads_capacity (reads_collectBounding _)

theorem reads_isSupported (v : Value) : Reads k cr (isSupported v) (.ok (k.bounds v)) := by
  refine reads_bind (reads_readBounding v) ?_
  cases k.bounds v <;> exact reads_pure _

theorem reads_shownAmbient (hbounding : k.bounds 0 = true) :
    Reads k cr listAmbient (.ok (k.shownAmbient cr)) := by
  have hlist : Reads k cr listAmbient _ := reads_listAmbient
  unfold Kernel.shownAmbient
  cases hambient : k.ambients 0 with
  | false => rwa [hambient] at hlist
  | true =>
      have hall : k.capacity.values.takeWhile k.ambients = k.capacity.values := by
        apply List.takeWhile_eq_self_iff.mpr
        intro v hv
        exact (Kernel.ambients_of_lt_count hbounding (Capacity.mem_values.mp hv)).trans hambient
      rwa [hambient, hall] at hlist

theorem reads_shownBounding (hbounding : k.bounds 0 = true) :
    Reads k cr listBounding (.ok (k.shownBounding cr)) := by
  have hall : k.capacity.values.takeWhile k.bounds = k.capacity.values := by
    apply List.takeWhile_eq_self_iff.mpr
    intro v hv
    exact Kernel.bounds_of_lt_count hbounding (Capacity.mem_values.mp hv)
  have hlist : Reads k cr listBounding _ := reads_listBounding
  rwa [hall] at hlist

theorem reads_isSupported_of_lt_count (hbounding : k.bounds 0 = true) {v : Value}
    (hv : v < k.capacity.count) : Reads k cr (isSupported v) (.ok true) :=
  Kernel.bounds_of_lt_count hbounding hv ▸ reads_isSupported v

end Act

namespace Kernel

variable {k : Kernel} {cr : Credentials}

theorem shownAmbient_eq_none_iff : k.shownAmbient cr = none ↔ k.ambients 0 = false := by
  unfold shownAmbient
  cases k.ambients 0 <;> simp

/-- Listed are the ambient values of the tuple. -/
theorem mem_shownAmbient_iff (hbounding : k.bounds 0 = true) {vs : List Value}
    (h : k.shownAmbient cr = some vs) (v : Value) :
    v ∈ vs ↔ (k.shownTuple cr).ambient.contains v = true := by
  unfold shownAmbient at h
  split at h
  next hambient =>
    cases h
    rw [List.mem_filter, Capacity.mem_values, contains_shownTuple_ambient, decide_eq_true_eq]
    constructor
    · rintro ⟨hv, hraised⟩
      exact ⟨hv, (ambients_of_lt_count hbounding hv).trans hambient, hraised⟩
    · rintro ⟨hv, -, hraised⟩
      exact ⟨hv, hraised⟩
  next => cases h

theorem pairwise_shownAmbient {vs : List Value} (h : k.shownAmbient cr = some vs) :
    vs.Pairwise (· < ·) := by
  unfold shownAmbient at h
  split at h
  next =>
    cases h
    exact Capacity.pairwise_lt_filter_values _ _
  next => cases h

/-- Listed are the bounding values that the tuple does not block. -/
theorem mem_shownBounding_iff (hbounding : k.bounds 0 = true) (v : Value) :
    v ∈ k.shownBounding cr ↔
      v < k.capacity.count ∧ (k.shownTuple cr).blocked.contains v = false := by
  rw [shownBounding, List.mem_filter, Capacity.mem_values, contains_shownTuple_blocked,
    decide_eq_false_iff_not]
  apply and_congr_right
  intro hv
  simp [hv, bounds_of_lt_count hbounding hv]

/-- Without an ambient mask nothing in the tuple is ambient. -/
theorem shownTuple_ambient_eq_empty (hbounding : k.bounds 0 = true)
    (hambient : k.ambients 0 = false) : (k.shownTuple cr).ambient = ∅ := by
  apply Mask.ext
  intro v
  rw [contains_shownTuple_ambient, Mask.contains_empty, decide_eq_false_iff_not]
  rintro ⟨hv, hanswered, -⟩
  rw [ambients_of_lt_count hbounding hv, hambient] at hanswered
  cases hanswered

end Kernel

namespace Act

/-- Where nothing fails and the bounding mask can be asked about, no way of reading a process fails,
and what is read depends on the kernel and the credentials of the calling thread alone, so not on
what was read before. The tuple has the inheritable values of the set; the ambient values are listed
exactly if the ambient mask is supported, and they are those of the tuple, which has none otherwise;
the bounding values are the supported ones that the tuple does not block; and the kernel answers
for every supported value. -/
theorem readers_agree {s : Machine} (hscript : s.kernel.script = [])
    (hbounding : s.kernel.bounds 0 = true) :
    ∃ caps x found ambient bounding,
      (∀ t : Machine, t.kernel = s.kernel → t.credentials = s.credentials →
        readSet.Yields t caps ∧ readTuple.Yields t x ∧ ambientSupported.Yields t found ∧
        listAmbient.Yields t ambient ∧ listBounding.Yields t bounding ∧
        ∀ v < s.capacity.count, (isSupported v).Yields t true) ∧
      x.inheritable = caps.inheritable ∧
      (ambient = none ↔ found = false) ∧ (found = false → x.ambient = ∅) ∧
      (∀ vs, ambient = some vs →
        vs.Pairwise (· < ·) ∧ ∀ v, v ∈ vs ↔ x.ambient.contains v = true) ∧
      bounding.Pairwise (· < ·) ∧
      ∀ v, v ∈ bounding ↔ v < s.capacity.count ∧ x.blocked.contains v = false := by
  refine ⟨s.kernel.shownFlags s.credentials, s.kernel.shownTuple s.credentials,
    s.kernel.ambients 0, s.kernel.shownAmbient s.credentials,
    s.kernel.shownBounding s.credentials, ?_, rfl, Kernel.shownAmbient_eq_none_iff,
    Kernel.shownTuple_ambient_eq_empty hbounding, ?_, Capacity.pairwise_lt_filter_values _ _,
    Kernel.mem_shownBounding_iff hbounding⟩
  · intro t hkernel hcredentials
    exact ⟨reads_readSet.yields hscript hkernel hcredentials,
      reads_readTuple.yields hscript hkernel hcredentials,
      reads_ambientSupported.yields hscript hkernel hcredentials,
      (reads_shownAmbient hbounding).yields hscript hkernel hcredentials,
      (reads_shownBounding hbounding).yields hscript hkernel hcredentials,
      fun v hv => (reads_isSupported_of_lt_count hbounding hv).yields hscript hkernel hcredentials⟩
  · intro vs hvs
    exact ⟨Kernel.pairwise_shownAmbient hvs, Kernel.mem_shownAmbient_iff hbounding hvs⟩

/-- A process on a kernel of the first generation, which knows more values than there is room for
and has recorded some of them. -/
def overfullMachine (ambientSupported : Bool) : Machine :=
  Machine.start
    { version := Abi.first.code, valueCount := 40, boundingSupported := true, ambientSupported,
      processes := [], script := [] }
    { effective := ∅, permitted := Mask.ofList [1, 25, 36], inheritable := Mask.ofList [1, 25, 36],
      ambient := Mask.ofList [1, 25, 36], bounding := Mask.ofList [0, 2, 31, 32, 39],
      secbits := ∅, uid := 0, gid := 0, groups := [] }
    Table.empty

theorem readers_agree_overfullMachine :
    (∃ x, readTuple.Yields (overfullMachine true) x ∧
      listAmbient.Yields (overfullMachine true) (some [1, 25]) ∧
      listBounding.Yields (overfullMachine true) [0, 2, 31] ∧
      (∀ v, v ∈ [1, 25] ↔ x.ambient.contains v = true) ∧
      ∀ v, v ∈ [0, 2, 31] ↔ v < 32 ∧ x.blocked.contains v = false) ∧
    ∃ x, readTuple.Yields (overfullMachine false) x ∧
      listAmbient.Yields (overfullMachine false) none ∧ x.ambient = ∅ := by
  constructor
  · obtain ⟨caps, x, found, ambient, bounding, hread, -, -, -, hambient, -, hbounding⟩ :=
      readers_agree (s := overfullMachine true) rfl (by decide +kernel)
    obtain ⟨-, htuple, -, hlisted, hlisted', -⟩ := hread _ rfl rfl
    have hcount : (overfullMachine true).capacity.count = 32 := by decide +kernel
    have hvalues : listAmbient.Yields (overfullMachine true) (some [1, 25]) :=
      exists_of_endsIn (by decide +kernel)
    have hvalues' : listBounding.Yields (overfullMachine true) [0, 2, 31] :=
      exists_of_endsIn (by decide +kernel)
    obtain rfl := hlisted.unique hvalues
    obtain rfl := hlisted'.unique hvalues'
    exact ⟨x, htuple, hvalues, hvalues', (hambient _ rfl).2, hcount ▸ hbounding⟩
  · obtain ⟨caps, x, found, ambient, bounding, hread, -, hnone, hempty, -⟩ :=
      readers_agree (s := overfullMachine false) rfl (by decide +kernel)
    obtain ⟨-, htuple, -, hlisted, -⟩ := hread _ rfl rfl
    have hvalues : listAmbient.Yields (overfullMachine false) none :=
      exists_of_endsIn (by decide +kernel)
    obtain rfl := hlisted.unique hvalues
    exact ⟨x, htuple, hvalues, hempty (hnone.mp rfl)⟩

end Act

end Capabilities
