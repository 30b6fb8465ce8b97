import Capabilities.Proofs.CapSet.PlainSet

/-!
# Lawful ways to keep a set

A representation is lawful when each operation does to the raised numbers what
its plain counterpart does to the members. A kept set holds a plain set when it
raises exactly its members, which are supported, and has the same owner. Under a
lawful representation this is kept up by every operation: the plain set changes
along, and both succeed or fail in the same way. That includes texts, whose
meaning is a fold of such operations.
-/

namespace Capabilities

/-- A way to keep capability sets: the operations on them, and what can be seen of them. -/
structure Representation (σ : Type) extends SetOperations σ where
  owner : σ → Option UserId
  get : σ → Flag → Value → Except Fault Bool
  difference : σ → σ → Mask
  isEmpty : σ → Bool
  /-- Whether a number is raised, be it supported or not. -/
  raises : σ → Flag → Nat → Bool

namespace Representation

variable {σ : Type} {R : Representation σ} {c : Capacity}

/-- The kept set raises exactly the members of a plain set of supported numbers. -/
structure Holds (R : Representation σ) (c : Capacity) (s : σ) (p : PlainSet) : Prop where
  raises_iff : ∀ f v, R.raises s f v = true ↔ v ∈ p.members f
  lt_count : ∀ f v, v ∈ p.members f → v < c.count
  owner_eq : R.owner s = p.owner

/-- Both fail alike, or the kept set holds the plain one. -/
def Agrees (R : Representation σ) (c : Capacity) : Except Fault σ → Except Fault PlainSet → Prop
  | .ok s, .ok p => R.Holds c s p
  | .error f, .error g => f = g
  | _, _ => False

/-- What each operation does to the raised numbers and to the owner. -/
structure IsLawful (R : Representation σ) (c : Capacity) : Prop where
  raises_empty : ∀ f v, R.raises R.empty f v = false
  owner_empty : R.owner R.empty = none
  set_ok : ∀ s f on vs, (∀ v ∈ vs, v < c.count) → ∃ t, R.set s f on vs = .ok t ∧
    R.owner t = R.owner s ∧
    ∀ g v, R.raises t g v = if g = f ∧ v ∈ vs then on else R.raises s g v
  set_error : ∀ s f on vs, (∃ v ∈ vs, c.count ≤ v) → R.set s f on vs = .error .badValue
  raises_fill : ∀ s target source g v,
    R.raises (R.fill s target source) g v = R.raises s (if g = target then source else g) v
  owner_fill : ∀ s target source, R.owner (R.fill s target source) = R.owner s
  raises_clearFlag : ∀ s f g v,
    R.raises (R.clearFlag s f) g v = if g = f then false else R.raises s g v
  owner_clearFlag : ∀ s f, R.owner (R.clearFlag s f) = R.owner s
  raises_clear : ∀ s f v, R.raises (R.clear s) f v = false
  owner_clear : ∀ s, R.owner (R.clear s) = R.owner s
  raises_withOwner : ∀ s owner f v, R.raises (R.withOwner s owner) f v = R.raises s f v
  owner_withOwner : ∀ s owner, R.owner (R.withOwner s owner) = owner
  decodeExternal : ∀ data, R.Agrees c (R.decodeExternal data) (PlainSet.decodeExternal c data)
  decodeAttribute : ∀ data, R.Agrees c (R.decodeAttribute data) (PlainSet.decodeAttribute c data)
  get : ∀ s f v, R.get s f v = if v < c.count then .ok (R.raises s f v) else .error .badValue
  difference : ∀ s t n, (R.difference s t).contains n = true ↔
    ∃ f : Flag, f.position = n ∧ ∃ v, R.raises s f v ≠ R.raises t f v
  isEmpty : ∀ s, R.isEmpty s = true ↔ ∀ f v, R.raises s f v = false

variable {s : σ} {p : PlainSet}

theorem IsLawful.holds_empty (hR : R.IsLawful c) : R.Holds c R.empty PlainSet.empty where
  raises_iff f v := by simp [hR.raises_empty, PlainSet.empty]
  lt_count f v hv := by simp [PlainSet.empty] at hv
  owner_eq := hR.owner_empty

/-- One flag changes on both sides, and everything else stays. -/
theorem Holds.withMembers (h : R.Holds c s p) {t : σ} {f : Flag} {m : Finset Nat}
    (hraises : ∀ g v, R.raises t g v = true ↔ if g = f then v ∈ m else R.raises s g v = true)
    (hm : ∀ v ∈ m, v < c.count) (howner : R.owner t = R.owner s) :
    R.Holds c t (p.withMembers f m) where
  raises_iff g v := by
    rw [hraises, PlainSet.mem_withMembers]
    split
    next => rfl
    next => exact h.raises_iff g v
  lt_count g v hv := by
    rw [PlainSet.mem_withMembers] at hv
    split at hv
    next => exact hm v hv
    next => exact h.lt_count g v hv
  owner_eq := howner.trans h.owner_eq

theorem IsLawful.agrees_set (hR : R.IsLawful c) (h : R.Holds c s p) (f : Flag) (on : Bool)
    (vs : List Nat) : R.Agrees c (R.set s f on vs) (p.set c f on vs) := by
  rw [PlainSet.set]
  by_cases hvs : ∀ v ∈ vs, v < c.count
  · obtain ⟨t, ht, howner, hraises⟩ := hR.set_ok s f on vs hvs
    rw [ht, if_pos hvs]
    refine h.withMembers (fun g v => ?_) (fun v hv => ?_) howner
    · rw [hraises]
      by_cases hg : g = f
      · subst hg
        cases on <;> by_cases hv : v ∈ vs <;> simp [hv, h.raises_iff]
      · simp [hg]
    · cases on with
      | true =>
          rcases Finset.mem_union.mp hv with hold | hnew
          · exact h.lt_count f v hold
          · exact hvs v (List.mem_toFinset.mp hnew)
      | false => exact h.lt_count f v (Finset.mem_sdiff.mp hv).1
  · have hbeyond : ∃ v ∈ vs, c.count ≤ v := by simpa using hvs
    rw [hR.set_error s f on vs hbeyond, if_neg hvs]
    rfl

theorem IsLawful.holds_fill (hR : R.IsLawful c) (h : R.Holds c s p) (target source : Flag) :
    R.Holds c (R.fill s target source) (p.fill target source) := by
  refine h.withMembers (fun g v => ?_) (h.lt_count source) (hR.owner_fill s target source)
  rw [hR.raises_fill]
  split
  next => exact h.raises_iff source v
  next => rfl

theorem IsLawful.holds_clearFlag (hR : R.IsLawful c) (h : R.Holds c s p) (f : Flag) :
    R.Holds c (R.clearFlag s f) (p.clearFlag f) := by
  refine h.withMembers (fun g v => ?_) (by simp) (hR.owner_clearFlag s f)
  rw [hR.raises_clearFlag]
  split
  next => simp
  next => rfl

theorem IsLawful.holds_clear (hR : R.IsLawful c) (h : R.Holds c s p) :
    R.Holds c (R.clear s) p.clear where
  raises_iff g v := by simp [hR.raises_clear, PlainSet.clear]
  lt_count g v hv := by simp [PlainSet.clear] at hv
  owner_eq := (hR.owner_clear s).trans h.owner_eq

theorem IsLawful.holds_withOwner (hR : R.IsLawful c) (h : R.Holds c s p)
    (owner : Option UserId) : R.Holds c (R.withOwner s owner) { p with owner } where
  raises_iff f v := by rw [hR.raises_withOwner, h.raises_iff]
  lt_count := h.lt_count
  owner_eq := hR.owner_withOwner s owner

/-- Triples are read as they should be if reading fails for a raised number out of range only, and
raises what the triples do otherwise. -/
theorem agrees_ofTriples {ts : List CapSet.External.Triple} {x : Except Fault σ}
    (h : (∃ s, x = .ok s ∧ R.owner s = none ∧
        (∀ f v, R.raises s f v = PlainSet.tripleBit ts f v) ∧
        ∀ f v, PlainSet.tripleBit ts f v = true → v < c.count) ∨
      x = .error .badValue ∧ ∃ f v, c.count ≤ v ∧ PlainSet.tripleBit ts f v = true) :
    R.Agrees c x (PlainSet.ofTriples c ts) := by
  have hmem (f : Flag) (v : Nat) :
      v ∈ (Finset.range (8 * ts.length)).filter (PlainSet.tripleBit ts f ·) ↔
        PlainSet.tripleBit ts f v = true := by
    rw [Finset.mem_filter, Finset.mem_range]
    exact and_iff_right_of_imp PlainSet.lt_of_tripleBit
  rw [PlainSet.ofTriples]
  obtain ⟨s, rfl, howner, hraises, hlt⟩ | ⟨rfl, f, v, hcount, hbit⟩ := h
  · rw [if_pos fun f _ v hv => hlt f v ((hmem f v).mp hv)]
    refine ⟨fun f v => ?_, fun f v hv => hlt f v ((hmem f v).mp hv), howner⟩
    rw [hraises, hmem]
  · rw [if_neg fun hlt => Nat.not_lt.mpr hcount (hlt f (Flag.mem_all f) v ((hmem f v).mpr hbit))]
    rfl

theorem holds_ofAttribute {a : FileAttribute} (howner : R.owner s = a.revision.owner?)
    (hraises : ∀ f v, R.raises s f v = (decide (v < c.count) && PlainSet.attributeBit a v f)) :
    R.Holds c s (PlainSet.ofAttribute c a) where
  raises_iff f v := by simp [hraises, PlainSet.ofAttribute]
  lt_count f v hv := Finset.mem_range.mp (Finset.mem_filter.mp hv).1
  owner_eq := howner

theorem Agrees.bind {x : Except Fault σ} {y : Except Fault PlainSet} (h : R.Agrees c x y)
    {next : σ → Except Fault σ} {next' : PlainSet → Except Fault PlainSet}
    (hnext : ∀ s p, R.Holds c s p → R.Agrees c (next s) (next' p)) :
    R.Agrees c (x.bind next) (y.bind next') := by
  cases x <;> cases y
  case ok.ok s p => exact hnext s p h
  case error.error f g => exact h
  case ok.error => exact False.elim h
  case error.ok => exact False.elim h

theorem Holds.agrees_foldlM {α : Type} {next : σ → α → Except Fault σ}
    {next' : PlainSet → α → Except Fault PlainSet}
    (hnext : ∀ a s p, R.Holds c s p → R.Agrees c (next s a) (next' p a)) (h : R.Holds c s p)
    (items : List α) : R.Agrees c (items.foldlM next s) (items.foldlM next' p) := by
  induction items generalizing s p with
  | nil => exact h
  | cons a items ih =>
      rw [List.foldlM_cons, List.foldlM_cons]
      exact (hnext a s p h).bind fun s p hsp => ih hsp

theorem IsLawful.agrees_setAll (hR : R.IsLawful c) (h : R.Holds c s p) (on : Bool)
    (vs : List Nat) (fs : List Flag) :
    R.Agrees c (R.setAll on vs fs s) ((PlainSet.operations c).setAll on vs fs p) :=
  h.agrees_foldlM (fun f _ _ hsp => hR.agrees_set hsp f on vs) fs

theorem IsLawful.agrees_applyGroup (hR : R.IsLawful c) (h : R.Holds c s p)
    (step : Clause.Address × Clause.Group) :
    R.Agrees c (R.applyGroup c s step) ((PlainSet.operations c).applyGroup c p step) := by
  obtain ⟨a, operation, flags⟩ := step
  refine Agrees.bind ?_ fun s p hsp => hR.agrees_setAll hsp _ _ _
  cases operation with
  | reset =>
      cases a with
      | background => exact hR.holds_clear h
      | all => exact hR.agrees_setAll h false _ Flag.all
      | listed vs => exact hR.agrees_setAll h false vs Flag.all
  | raise => exact h
  | lower => exact h

theorem IsLawful.agrees_parse (hR : R.IsLawful c) (text : String) :
    R.Agrees c (R.parse c text) ((PlainSet.operations c).parse c text) := by
  rw [SetOperations.parse, SetOperations.parse]
  cases CapSet.clauses? c text.toList with
  | none => rfl
  | some cls =>
      exact hR.holds_empty.agrees_foldlM (fun step _ _ hsp => hR.agrees_applyGroup hsp step) _

end Representation

end Capabilities
