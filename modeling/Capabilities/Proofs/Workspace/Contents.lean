import Capabilities.Proofs.CapSet.Meaning
import Capabilities.Proofs.FileAttribute.RoundTrip
import Capabilities.Proofs.Inheritance.Validity
import Capabilities.Workspace

/-!
# The contents of a workspace

A workspace is seen through the contents of its names. An edit changes the
content of one name at most, and whatever it assigns is supported: all sets fit
the capacity and all tuples are valid, if they were before.
-/

namespace Capabilities

namespace CapSet

variable {c : Capacity} {s : CapSet}

theorem fits_set (hs : s.fits c = true) {f : Flag} {on : Bool} {vs : List Value} {t : CapSet}
    (h : s.set c f on vs = .ok t) : t.fits c = true := by
  rw [set] at h
  split at h
  next hadmits =>
    cases h
    rw [List.all_eq_true] at hadmits
    refine fits_withFlag hs fun v hv => ?_
    cases on with
    | true =>
        rw [if_pos rfl, Mask.contains_union, Mask.contains_ofList, Bool.or_eq_true,
          decide_eq_true_eq] at hv
        rcases hv with hold | hnew
        · exact contains_of_fits hs hold
        · exact of_decide_eq_true (hadmits v hnew)
    | false =>
        rw [if_neg Bool.false_ne_true, Mask.contains_sdiff, Bool.and_eq_true] at hv
        exact contains_of_fits hs hv.1
  next => cases h

theorem fits_fill (hs : s.fits c = true) (target source : Flag) :
    (s.fill target source).fits c = true :=
  fits_withFlag hs fun _ hv => contains_of_fits hs hv

theorem fits_of_decodeExternal {data : Bytes} (h : External.decode c data = .ok s) :
    s.fits c = true := by
  rw [External.decode] at h
  split at h
  next => cases h
  next =>
    split at h
    next hfits =>
      cases h
      exact hfits
    next => cases h

end CapSet

namespace Workspace

variable {c : Capacity} {w : Workspace} {name other : String}

@[simp] theorem set_putSet (w : Workspace) (name : String) (s : CapSet) (other : String) :
    (w.putSet name s).set other = if other = name then s else w.set other := by
  simp only [putSet, set, Table.find?_insert]
  split <;> rfl

@[simp] theorem tuple_putTuple (w : Workspace) (name : String) (x : Inheritance) (other : String) :
    (w.putTuple name x).tuple other = if other = name then x else w.tuple other := by
  simp only [putTuple, tuple, Table.find?_insert]
  split <;> rfl

@[simp] theorem set_touchSet (w : Workspace) (name other : String) :
    (w.touchSet name).set other = w.set other := by
  rw [touchSet, set_putSet]
  split
  next h => rw [h]
  next => rfl

@[simp] theorem tuple_touchSet (w : Workspace) (name other : String) :
    (w.touchSet name).tuple other = w.tuple other := rfl

@[simp] theorem tuple_touchTuple (w : Workspace) (name other : String) :
    (w.touchTuple name).tuple other = w.tuple other := by
  rw [touchTuple, tuple_putTuple]
  split
  next h => rw [h]
  next => rfl

@[simp] theorem set_touchTuple (w : Workspace) (name other : String) :
    (w.touchTuple name).set other = w.set other := rfl

/-- All sets fit, and all tuples are valid. -/
structure IsSound (c : Capacity) (w : Workspace) : Prop where
  fits : ∀ name, (w.set name).fits c = true
  isValid : ∀ name, (w.tuple name).IsValid c

theorem IsSound.of_eq {w' : Workspace} (h : w.IsSound c) (hset : ∀ n, w'.set n = w.set n)
    (htuple : ∀ n, w'.tuple n = w.tuple n) : w'.IsSound c :=
  ⟨fun n => hset n ▸ h.fits n, fun n => htuple n ▸ h.isValid n⟩

theorem IsSound.touchSet (h : w.IsSound c) (name : String) : (w.touchSet name).IsSound c :=
  h.of_eq (set_touchSet w name) (tuple_touchSet w name)

theorem IsSound.touchTuple (h : w.IsSound c) (name : String) : (w.touchTuple name).IsSound c :=
  h.of_eq (set_touchTuple w name) (tuple_touchTuple w name)

theorem IsSound.storeSet (h : w.IsSound c) (name : String) {result : Except Fault CapSet}
    (hresult : ∀ s, result = .ok s → s.fits c = true) :
    (w.storeSet name result).2.IsSound c := by
  cases result with
  | error fault => exact h
  | ok s =>
      refine ⟨fun n => ?_, h.isValid⟩
      show ((w.putSet name s).set n).fits c = true
      rw [set_putSet]
      split
      next => exact hresult s rfl
      next => exact h.fits n

theorem IsSound.storeTuple (h : w.IsSound c) (name : String) {result : Except Fault Inheritance}
    (hresult : ∀ x, result = .ok x → x.IsValid c) :
    (w.storeTuple name result).2.IsSound c := by
  cases result with
  | error fault => exact h
  | ok x =>
      refine ⟨h.fits, fun n => ?_⟩
      show ((w.putTuple name x).tuple n).IsValid c
      rw [tuple_putTuple]
      split
      next => exact hresult x rfl
      next => exact h.isValid n

theorem IsSound.edit (h : w.IsSound c) (e : Edit) : (w.edit c e).2.IsSound c := by
  cases e with
  | newSet name => exact h.storeSet name (by simp)
  | parseSet name text => exact h.storeSet name fun s => CapSet.fits_of_ofText
  | decodeExternal name data => exact h.storeSet name fun s => CapSet.fits_of_decodeExternal
  | decodeAttribute name data =>
      exact h.storeSet name fun s hs => (FileAttribute.isCarried_of_decode hs).2
  | copySet name source =>
      refine (h.touchSet source).storeSet name ?_
      rintro s ⟨⟩
      exact h.fits source
  | assignSet name flag on values =>
      exact (h.touchSet name).storeSet name fun s => CapSet.fits_set (h.fits name)
  | fillSet name target source =>
      refine h.storeSet name ?_
      rintro s ⟨⟩
      exact CapSet.fits_fill (h.fits name) target source
  | clearFlag name flag =>
      refine h.storeSet name ?_
      rintro s ⟨⟩
      exact CapSet.fits_clearFlag (h.fits name) flag
  | clearSet name =>
      refine h.storeSet name ?_
      rintro s ⟨⟩
      exact CapSet.fits_empty c
  | setOwner name owner =>
      refine h.storeSet name ?_
      rintro s ⟨⟩
      exact h.fits name
  | newTuple name =>
      refine h.storeTuple name ?_
      rintro x ⟨⟩
      exact Inheritance.isValid_empty c
  | parseTuple name text => exact h.storeTuple name fun x => Inheritance.isValid_of_ofText
  | copyTuple name source =>
      refine (h.touchTuple source).storeTuple name ?_
      rintro x ⟨⟩
      exact h.isValid source
  | assignTuple name part on values =>
      exact (h.touchTuple name).storeTuple name fun x => (h.isValid name).set
  | fillTuple name part source flag =>
      refine (h.touchSet source).storeTuple name ?_
      rintro x ⟨⟩
      exact (h.isValid name).fill part fun v hv => CapSet.contains_of_fits (h.fits source) hv

/-- Soundness survives any sequence of edits, whether they succeed or not. -/
theorem IsSound.editAll (h : w.IsSound c) (edits : List Edit) : (w.editAll c edits).IsSound c := by
  induction edits generalizing w with
  | nil => exact h
  | cons e edits ih => exact ih (h.edit e)

end Workspace

end Capabilities
