import Capabilities.Act.Modes
import Capabilities.Proofs.CapSet.Flags
import Capabilities.Proofs.Mask.Algebra

/-!
# What a kernel supports

The search for the number of values ends at a value that the kernel admits to
knowing. A kernel that can be asked about the first value can be asked about
every value below that number; so all values of credentials and tuples that fit
the capacity can be asked about and changed.
-/

namespace Capabilities

namespace Capacity

theorem supported_search? {supported : Nat → Bool} {lo hi n : BitVec 32}
    (h : supported lo.toNat = true) (hn : search? supported lo hi = some n) :
    supported n.toNat = true := by
  fun_induction search? supported lo hi with
  | case1 lo =>
      cases hn
      exact h
  | case4 lo hi hopen hsum mid hmid hend ih => exact ih hmid hn
  | case7 lo hi hopen hsum mid hmid hzero hstart ih => exact ih h hn
  | _ => cases hn

/-- The last of the values that are found is supported, if the first one is. -/
theorem supported_pred_probe? {supported : Nat → Bool} {words r : Nat} (hwords : 0 < words)
    (hfits : words ≤ 0x4000000) (hzero : supported 0 = true)
    (hprobe : probe? words supported = some r) : supported (r - 1) = true := by
  obtain ⟨last, n, -, hn, -, hfound⟩ := probe?_of_supported hwords hfits hzero
  cases hprobe.symm.trans hfound
  have hfirst : supported (0#32).toNat = true := hzero
  exact supported_search? hfirst hn

theorem supported_of_lt_count {supported : Nat → Bool} {abi : Abi} {v : Nat}
    (hzero : supported 0 = true)
    (hbelow : ∀ u w, u ≤ w → supported w = true → supported u = true)
    (hv : v < (ofProbe abi supported).count) : supported v = true := by
  apply hbelow v _ (Nat.le_pred_of_lt hv)
  exact supported_pred_probe? abi.words_pos (Nat.le_trans abi.words_le_two (by decide)) hzero
    (probe?_eq_count abi supported)

theorem mem_values {c : Capacity} {v : Value} : v ∈ c.values ↔ v < c.count := List.mem_range

theorem ofList_values (c : Capacity) : Mask.ofList c.values = Mask.below c.count := by
  apply Mask.ext
  simp [mem_values]

end Capacity

namespace Kernel

variable {k : Kernel}

theorem knows_of_le {u v : Nat} (huv : u ≤ v) (h : k.knows v = true) : k.knows u = true := by
  simp only [knows, Bool.and_eq_true, decide_eq_true_eq] at h ⊢
  omega

/-- A kernel that can be asked about the bounding mask at all can be asked about every
supported value. -/
theorem bounds_of_lt_count (hbounding : k.bounds 0 = true) {v : Nat}
    (hv : v < k.capacity.count) : k.bounds v = true := by
  refine Capacity.supported_of_lt_count hbounding (fun u w huw hw => ?_) hv
  simp only [bounds, Bool.and_eq_true] at hw ⊢
  exact ⟨hw.1, knows_of_le huw hw.2⟩

/-- Such a kernel answers for the ambient bit of every supported value or of none. -/
theorem ambients_of_lt_count (hbounding : k.bounds 0 = true) {v : Nat}
    (hv : v < k.capacity.count) : k.ambients v = k.ambients 0 := by
  have hknows (u : Nat) (hu : k.bounds u = true) : k.knows u = true := by
    simp only [bounds, Bool.and_eq_true] at hu
    exact hu.2
  simp [ambients, hknows v (bounds_of_lt_count hbounding hv), hknows 0 hbounding]

end Kernel

/-- Whether a mask has supported values only. -/
def Mask.fits (c : Capacity) (m : Mask) : Bool := m.isWithin (Mask.below c.count)

theorem Mask.fits_iff {c : Capacity} {m : Mask} :
    m.fits c = true ↔ ∀ v, m.contains v = true → v < c.count := by
  simp [fits, isWithin_iff]

theorem Mask.contains_eq_false_of_fits {c : Capacity} {m : Mask} (h : m.fits c = true) {v : Nat}
    (hv : ¬ v < c.count) : m.contains v = false := by
  rw [Bool.eq_false_iff]
  exact fun hraised => hv (fits_iff.mp h v hraised)

theorem CapSet.fits_raise {c : Capacity} {s : CapSet} (hs : s.fits c = true) {v : Value}
    (hv : v < c.count) :
    CapSet.fits c { s with effective := s.effective ∪ Mask.single v } = true := by
  rw [CapSet.fits_iff] at hs ⊢
  intro f u hu
  cases f with
  | effective =>
      simp only [flag, Mask.contains_union, Mask.contains_single, Bool.or_eq_true,
        decide_eq_true_eq] at hu
      rcases hu with hu | rfl
      · exact hs .effective u hu
      · exact hv
  | permitted => exact hs .permitted u hu
  | inheritable => exact hs .inheritable u hu

/-- A supported value is raised beside what is effective, and any other is refused. -/
theorem CapSet.set_effective (c : Capacity) (s : CapSet) (v : Value) :
    s.set c .effective true [v] =
      if v < c.count then .ok { s with effective := s.effective ∪ Mask.single v }
      else .error .badValue := by
  have hsingle : Mask.ofList [v] = Mask.single v := by
    rw [Mask.ofList_cons, Mask.ofList_nil, Mask.union_empty]
  simp [set, put, withFlag, flag, Capacity.admits, hsingle]

/-- Whether the five masks of a thread have supported values only. -/
def Credentials.fits (c : Capacity) (cr : Credentials) : Bool :=
  cr.holdings.fits c && cr.ambient.fits c && cr.bounding.fits c

theorem Credentials.fits_holdings {c : Capacity} {cr : Credentials} (h : cr.fits c = true) :
    cr.holdings.fits c = true := by
  simp only [fits, Bool.and_eq_true] at h
  exact h.1.1

theorem Credentials.fits_ambient {c : Capacity} {cr : Credentials} (h : cr.fits c = true) :
    cr.ambient.fits c = true := by
  simp only [fits, Bool.and_eq_true] at h
  exact h.1.2

theorem Credentials.fits_bounding {c : Capacity} {cr : Credentials} (h : cr.fits c = true) :
    cr.bounding.fits c = true := by
  simp only [fits, Bool.and_eq_true] at h
  exact h.2

/-- Whether the three masks of a tuple have supported values only. -/
def Inheritance.fits (c : Capacity) (x : Inheritance) : Bool :=
  x.inheritable.fits c && x.ambient.fits c && x.blocked.fits c

/-- What fits the capacity fits the words of the interface. -/
theorem Act.fitWords_of_fits {c : Capacity} {s : CapSet} (h : s.fits c = true) :
    fitWords c s = s.unowned := by
  have hword (f : Flag) : s.flag f ∩ Mask.below c.width = s.flag f := by
    apply Mask.ext
    intro v
    rw [Mask.contains_inter, Mask.contains_below]
    cases hv : (s.flag f).contains v with
    | false => rfl
    | true =>
        have hlt := CapSet.contains_of_fits h hv
        have hwidth : c.count ≤ c.width := c.count_le
        simp only [Bool.true_and, decide_eq_true_eq]
        omega
  have heffective := hword .effective
  have hpermitted := hword .permitted
  have hinheritable := hword .inheritable
  simp only [CapSet.flag] at heffective hpermitted hinheritable
  simp only [fitWords, CapSet.unowned, heffective, hpermitted, hinheritable]

end Capabilities
