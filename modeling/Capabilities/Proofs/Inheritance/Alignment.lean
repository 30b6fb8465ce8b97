import Capabilities.Proofs.Act.Effect

/-!
# Bringing the masks in line with a tuple

Value by value, ambient values that a tuple does not grant are lowered and
bounding values that it blocks are dropped; then the ambient values that it
grants are raised. Each step is described by what it does to a whole mask, so
that a run over a list of values is described in the same way.
-/

namespace Capabilities

namespace Credentials

variable {cr : Credentials} {x : Inheritance}

/-- Whether a tuple blocks values that are still in the bounding mask. -/
def isBlockedBy (cr : Credentials) (x : Inheritance) : Bool :=
  !(x.blocked ∩ cr.bounding).isEmpty

theorem isBlockedBy_iff :
    cr.isBlockedBy x = true ↔
      ∃ v, x.blocked.contains v = true ∧ cr.bounding.contains v = true := by
  rw [isBlockedBy, Bool.not_eq_true', Mask.isEmpty_eq_false_iff]
  simp

end Credentials

namespace Kernel

/-- Whether a thread has, or can get, the ambient value that a tuple grants. -/
def grantsAmbient (supported : Bool) (cr : Credentials) (x : Inheritance) (v : Value) : Bool :=
  !x.ambient.contains v || (supported && (cr.ambient.contains v || admitsAmbient cr v))

/-- Granting one value makes no difference to the others. -/
theorem grantsAmbient_raise {supported : Bool} {cr : Credentials} {x : Inheritance} {u v : Value}
    (hu : grantsAmbient supported cr x u = true) :
    grantsAmbient supported { cr with ambient := cr.ambient ∪ (Mask.single u ∩ x.ambient) } x v =
      grantsAmbient supported cr x v := by
  have hadmits (a : Mask) : admitsAmbient { cr with ambient := a } v = admitsAmbient cr v := rfl
  by_cases huv : u = v
  · subst huv
    rw [hu]
    simp only [grantsAmbient, hadmits] at hu ⊢
    cases hx : x.ambient.contains u with
    | false => rfl
    | true =>
        simp only [hx, Bool.not_true, Bool.false_or, Bool.and_eq_true] at hu
        simp [hu.1, hx]
  · simp [grantsAmbient, hadmits, huv]

/-- Withdrawing values that a tuple does not grant makes no difference to those it grants. -/
theorem grantsAmbient_withdraw (supported : Bool) (cr : Credentials) (x : Inheritance)
    (m bounding : Mask) (v : Value) :
    grantsAmbient supported { cr with ambient := cr.ambient \ (m \ x.ambient), bounding } x v =
      grantsAmbient supported cr x v := by
  have hadmits (a b : Mask) :
      admitsAmbient { cr with ambient := a, bounding := b } v = admitsAmbient cr v := rfl
  cases hv : x.ambient.contains v <;> simp [grantsAmbient, hadmits, hv]

/-- An ambient value that a thread has or can get is permitted and inheritable. -/
theorem isWithin_of_grantsAmbient {supported : Bool} {cr : Credentials} {x : Inheritance}
    (hambient : cr.ambient.isWithin (cr.permitted ∩ cr.inheritable) = true)
    (h : ∀ v, grantsAmbient supported cr x v = true) :
    x.ambient.isWithin (cr.permitted ∩ cr.inheritable) = true := by
  rw [Mask.isWithin_iff] at hambient ⊢
  intro v hv
  have hgrants := h v
  simp only [grantsAmbient, hv, Bool.not_true, Bool.false_or, Bool.and_eq_true,
    Bool.or_eq_true] at hgrants
  rcases hgrants.2 with hheld | hadmits
  · exact hambient v hheld
  · simp only [admitsAmbient, Bool.and_eq_true] at hadmits
    simp [hadmits.1]

end Kernel

namespace Act

variable {k : Kernel} {cr : Credentials} {x : Inheritance}

theorem ensures_withdrawAmbient (hscript : k.script = []) {supported : Bool} {v : Value}
    (hv : k.ambients v = supported) (hnone : supported = false → cr.ambient = ∅)
    {Q : Except Fault Unit → Credentials → Prop}
    (h : Q (.ok ()) { cr with ambient := cr.ambient \ (Mask.single v \ x.ambient) }) :
    Ensures k cr (withdrawAmbient supported x v) Q := by
  have hasked : (supported && !x.ambient.contains v) = true → k.ambients v = true := by
    intro hcondition
    rw [hv]
    exact (Bool.and_eq_true_iff.mp hcondition).1
  refine (reads_provided_readAmbient hasked).ensures_bind hscript ?_
  rw [Mask.single_sdiff] at h
  cases hx : x.ambient.contains v with
  | true =>
      simp only [hx, if_true, Mask.sdiff_empty] at h
      rw [Bool.not_true, Bool.and_false, Bool.false_and]
      exact ensures_pure h
  | false =>
      simp only [hx, Bool.false_eq_true, if_false] at h
      rw [Bool.not_false, Bool.and_true]
      cases hlower : supported && cr.ambient.contains v with
      | true => exact ensures_lowerAmbient hscript (hv.trans (Bool.and_eq_true_iff.mp hlower).1) h
      | false =>
          have hlowered : cr.ambient.contains v = false := by
            cases hsupported : supported with
            | false => rw [hnone hsupported, Mask.contains_empty]
            | true => rwa [hsupported, Bool.true_and] at hlower
          rw [Mask.sdiff_single hlowered] at h
          exact ensures_pure h

theorem ensures_withdrawBounding (hscript : k.script = []) {v : Value} (hv : k.bounds v = true)
    (hhas : cr.isBlockedBy x = true → cr.has Value.setpcap = true)
    {Q : Except Fault Unit → Credentials → Prop}
    (h : Q (.ok ()) { cr with bounding := cr.bounding \ (Mask.single v ∩ x.blocked) }) :
    Ensures k cr (withdrawBounding x v) Q := by
  refine (reads_provided fun _ => reads_isBounding v).ensures_bind hscript ?_
  rw [Mask.single_inter] at h
  cases hx : x.blocked.contains v with
  | false =>
      simp only [hx, Bool.false_eq_true, if_false, Mask.sdiff_empty] at h
      exact ensures_pure h
  | true =>
      simp only [hx, if_true] at h
      rw [hv, Bool.true_and, Bool.true_and]
      cases hdrop : cr.bounding.contains v with
      | false =>
          rw [Mask.sdiff_single hdrop] at h
          exact ensures_pure h
      | true =>
          exact ensures_dropBounding hscript hv
            (hhas (Credentials.isBlockedBy_iff.mpr ⟨v, hx, hdrop⟩)) h

/-- What is lost of the ambient and the bounding mask by withdrawing. -/
theorem ensures_withdraw (hscript : k.script = []) {supported : Bool} {vs : List Value}
    (hbounds : ∀ v ∈ vs, k.bounds v = true) (hambients : ∀ v ∈ vs, k.ambients v = supported)
    (hnone : supported = false → cr.ambient = ∅)
    (hhas : cr.isBlockedBy x = true → cr.has Value.setpcap = true)
    {Q : Except Fault Unit → Credentials → Prop}
    (h : Q (.ok ()) { cr with
      ambient := cr.ambient \ (Mask.ofList vs \ x.ambient)
      bounding := cr.bounding \ (Mask.ofList vs ∩ x.blocked) }) :
    Ensures k cr (withdraw supported x vs) Q := by
  induction vs generalizing cr with
  | nil =>
      simp only [Mask.ofList_nil, Mask.empty_sdiff, Mask.empty_inter, Mask.sdiff_empty] at h
      exact ensures_pure h
  | cons v rest ih =>
      obtain ⟨hboundsFirst, hboundsRest⟩ := List.forall_mem_cons.mp hbounds
      obtain ⟨hambientsFirst, hambientsRest⟩ := List.forall_mem_cons.mp hambients
      rw [Mask.ofList_cons, Mask.union_sdiff, Mask.union_inter, Mask.sdiff_union,
        Mask.sdiff_union] at h
      refine ensures_bind (ensures_withdrawAmbient hscript hambientsFirst hnone ?_)
      refine ensures_bind (ensures_withdrawBounding hscript hboundsFirst ?_ ?_)
      · exact hhas
      refine ih hboundsRest hambientsRest ?_ ?_ h
      · intro hunsupported
        simp [hnone hunsupported]
      · -- The bounding mask only shrinks, so the rest needs no more than the whole.
        intro hblocked
        obtain ⟨u, hx, hu⟩ := Credentials.isBlockedBy_iff.mp hblocked
        simp only [Mask.contains_sdiff, Bool.and_eq_true] at hu
        exact hhas (Credentials.isBlockedBy_iff.mpr ⟨u, hx, hu.1⟩)

/-- An ambient value that a tuple grants is there afterwards, or there is a fault. -/
theorem ensures_grantAmbient (hscript : k.script = []) {supported : Bool} {v : Value}
    (hv : k.ambients v = supported) {Q : Except Fault Unit → Credentials → Prop}
    (hgranted : Kernel.grantsAmbient supported cr x v = true →
      Q (.ok ()) { cr with ambient := cr.ambient ∪ (Mask.single v ∩ x.ambient) })
    (hrefused : Kernel.grantsAmbient supported cr x v = false → ∀ f, Q (.error f) cr) :
    Ensures k cr (grantAmbient supported x v) Q := by
  rw [Mask.single_inter] at hgranted
  unfold grantAmbient
  split
  next hx =>
    simp only [Kernel.grantsAmbient, hx, Bool.not_true, Bool.false_or, if_true] at hgranted hrefused
    have hasked : supported = true → k.ambients v = true := fun hsupported => hv.trans hsupported
    refine (reads_provided_readAmbient hasked).ensures_bind hscript ?_
    cases hheld : supported && cr.ambient.contains v with
    | true =>
        have hsame : cr.ambient ∪ Mask.single v = cr.ambient := by
          apply Mask.union_eq_left
          rw [Mask.single_isWithin]
          exact (Bool.and_eq_true_iff.mp hheld).2
        rw [hsame] at hgranted
        refine ensures_pure (hgranted ?_)
        rw [Bool.and_or_distrib_left, hheld, Bool.true_or]
    | false =>
        refine ensures_raiseAmbient hscript ?_ ?_
        · intro hsupported hadmits
          apply hgranted
          rw [hadmits, Bool.or_true, Bool.and_true, ← hv, hsupported]
        · intro hdenied
          apply hrefused
          rw [Bool.and_or_distrib_left, hheld, Bool.false_or, ← hv, hdenied]
  next hx =>
    simp only [hx, Bool.false_eq_true, if_false, Mask.union_empty] at hgranted
    exact ensures_pure (hgranted (by simp [Kernel.grantsAmbient, hx]))

/-- Either all values are granted, or there is a fault. -/
theorem ensures_grant (hscript : k.script = []) {supported : Bool} {vs : List Value}
    (hambients : ∀ v ∈ vs, k.ambients v = supported)
    {Q : Except Fault Unit → Credentials → Prop}
    (hgranted : (∀ v ∈ vs, Kernel.grantsAmbient supported cr x v = true) →
      Q (.ok ()) { cr with ambient := cr.ambient ∪ (Mask.ofList vs ∩ x.ambient) })
    (hrefused : ∀ v ∈ vs, Kernel.grantsAmbient supported cr x v = false →
      ∀ f cr', Q (.error f) cr') :
    Ensures k cr (grant supported x vs) Q := by
  induction vs generalizing cr with
  | nil =>
      simp only [Mask.ofList_nil, Mask.empty_inter, Mask.union_empty] at hgranted
      exact ensures_pure (hgranted (by simp))
  | cons v rest ih =>
      obtain ⟨hambientsFirst, hambientsRest⟩ := List.forall_mem_cons.mp hambients
      obtain ⟨hrefusedFirst, hrefusedRest⟩ := List.forall_mem_cons.mp hrefused
      rw [Mask.ofList_cons, Mask.union_inter, ← Mask.union_assoc] at hgranted
      refine ensures_bind (ensures_grantAmbient hscript hambientsFirst ?_ ?_)
      · -- Whether the rest is granted does not depend on the first value.
        intro hfirst
        refine ih hambientsRest ?_ ?_
        · intro hrest
          apply hgranted
          refine List.forall_mem_cons.mpr ⟨hfirst, fun u hu => ?_⟩
          rw [← Kernel.grantsAmbient_raise hfirst]
          exact hrest u hu
        · intro u hu hdenied
          rw [Kernel.grantsAmbient_raise hfirst] at hdenied
          exact hrefusedRest u hu hdenied
      · intro hdenied f
        exact hrefusedFirst hdenied f _

/-- The ambient mask becomes that of the tuple, and the bounding mask loses what it blocks. -/
theorem ensures_applyMasks (hscript : k.script = []) (hbounding : k.bounds 0 = true)
    (hambient : cr.ambient.fits k.capacity = true) (hbound : cr.bounding.fits k.capacity = true)
    (hx : x.ambient.fits k.capacity = true) (hnone : k.ambients 0 = false → cr.ambient = ∅)
    (hhas : cr.isBlockedBy x = true → cr.has Value.setpcap = true)
    {Q : Except Fault Unit → Credentials → Prop}
    (hgranted : (∀ v, Kernel.grantsAmbient (k.ambients 0) cr x v = true) →
      Q (.ok ()) { cr with ambient := x.ambient, bounding := cr.bounding \ x.blocked })
    (hrefused : ∀ v, Kernel.grantsAmbient (k.ambients 0) cr x v = false →
      ∀ f cr', Q (.error f) cr') :
    Ensures k cr (applyMasks x) Q := by
  have hbounds : ∀ v ∈ k.capacity.values, k.bounds v = true := fun v hv =>
    Kernel.bounds_of_lt_count hbounding (Capacity.mem_values.mp hv)
  have hambients : ∀ v ∈ k.capacity.values, k.ambients v = k.ambients 0 := fun v hv =>
    Kernel.ambients_of_lt_count hbounding (Capacity.mem_values.mp hv)
  refine reads_ambientSupported.ensures_bind hscript ?_
  refine reads_capacity.ensures_bind hscript (ensures_bind ?_)
  refine ensures_withdraw hscript hbounds hambients hnone hhas ?_
  refine ensures_grant hscript hambients ?_ ?_
  · intro hall
    have hambientAfter : cr.ambient \ (Mask.ofList k.capacity.values \ x.ambient) ∪
        (Mask.ofList k.capacity.values ∩ x.ambient) = x.ambient := by
      rw [Capacity.ofList_values]
      apply Mask.ext
      intro v
      by_cases hv : v < k.capacity.count
      · cases hvx : x.ambient.contains v <;> simp [hv, hvx]
      · have hheld := Mask.contains_eq_false_of_fits hambient hv
        have hwanted := Mask.contains_eq_false_of_fits hx hv
        simp [hheld, hwanted]
    have hboundingAfter : cr.bounding \ (Mask.ofList k.capacity.values ∩ x.blocked) =
        cr.bounding \ x.blocked := by
      rw [Capacity.ofList_values]
      apply Mask.ext
      intro v
      by_cases hv : v < k.capacity.count
      · simp [hv]
      · have hheld := Mask.contains_eq_false_of_fits hbound hv
        simp [hheld]
    rw [hambientAfter, hboundingAfter]
    refine hgranted fun v => ?_
    by_cases hv : v < k.capacity.count
    · rw [← Kernel.grantsAmbient_withdraw]
      exact hall v (Capacity.mem_values.mpr hv)
    · have hwanted := Mask.contains_eq_false_of_fits hx hv
      rw [Kernel.grantsAmbient, hwanted, Bool.not_false, Bool.true_or]
  · intro v _ hdenied
    rw [Kernel.grantsAmbient_withdraw] at hdenied
    exact hrefused v hdenied

end Act

end Capabilities
