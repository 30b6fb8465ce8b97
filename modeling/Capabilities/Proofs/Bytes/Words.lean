import Capabilities.Mask
import Capabilities.Proofs.Bytes.Bits

/-!
# Byte strings made of words

Words of 32 bits are written as four bytes each and found again, and a byte
string that is read as words has four bytes for each of them, at the offset that
its place gives.
-/

namespace Capabilities.Bytes

/-- No bit of the number lies beyond a word. -/
def IsWord (w : Nat) : Prop := ∀ v, w.testBit v = true → v < 32

theorem isWord_toNat {b₀ b₁ b₂ b₃ : UInt8} : IsWord (toNat [b₀, b₁, b₂, b₃]) := by
  intro v hv
  rw [testBit_toNat, List.getD_eq_getElem?_getD] at hv
  apply Decidable.byContradiction
  intro hle
  have hlen : [b₀, b₁, b₂, b₃].length ≤ v / 8 := by
    simp only [List.length_cons, List.length_nil]
    omega
  rw [List.getElem?_eq_none hlen] at hv
  simp at hv

theorem toNat_ofNat_word {w : Nat} (h : IsWord w) : toNat (ofNat 4 w) = w := by
  apply Nat.eq_of_testBit_eq
  intro v
  rw [testBit_toNat_ofNat]
  cases hv : w.testBit v with
  | false => simp
  | true => simpa using h v hv

theorem words?_flatMap_ofNat (ws : List Nat) (h : ∀ w ∈ ws, IsWord w) :
    words? (ws.flatMap (ofNat 4)) = some ws := by
  induction ws with
  | nil => rfl
  | cons w ws ih =>
      have hw := toNat_ofNat_word (h w List.mem_cons_self)
      have hws := ih fun u hu => h u (List.mem_cons_of_mem _ hu)
      simp only [ofNat] at hw
      simp only [List.flatMap_cons, ofNat, List.cons_append, List.nil_append, words?] at hws ⊢
      rw [hws, hw, Option.map_some]

theorem length_of_words? {data : Bytes} {ws : List Nat} (h : words? data = some ws) :
    data.length = 4 * ws.length := by
  fun_induction words? data generalizing ws with
  | case1 => simp_all
  | case2 b₀ b₁ b₂ b₃ rest ih =>
      obtain ⟨tail, htail, rfl⟩ := Option.map_eq_some_iff.mp h
      have hrest := ih htail
      simp only [List.length_cons]
      omega
  | case3 => simp at h

theorem isWord_of_words? {data : Bytes} {ws : List Nat} (h : words? data = some ws) {w : Nat}
    (hw : w ∈ ws) : IsWord w := by
  fun_induction words? data generalizing ws with
  | case1 => simp_all
  | case2 b₀ b₁ b₂ b₃ rest ih =>
      obtain ⟨tail, htail, rfl⟩ := Option.map_eq_some_iff.mp h
      rcases List.mem_cons.mp hw with rfl | hmem
      · exact isWord_toNat
      · exact ih htail hmem
  | case3 => simp at h

theorem isWord_numberAt (data : Bytes) (offset : Nat) : IsWord (data.numberAt offset) := by
  intro v hv
  have hlen : ((data.drop offset).take 4).length ≤ 4 := List.length_take_le _ _
  rw [numberAt, testBit_toNat, List.getD_eq_getElem?_getD] at hv
  apply Decidable.byContradiction
  intro hle
  rw [List.getElem?_eq_none (by omega)] at hv
  simp at hv

/-- A byte string of the length of some words is made of those at their offsets. -/
theorem words?_of_length {data : Bytes} {n : Nat} (h : data.length = 4 * n) :
    words? data = some ((List.range n).map fun j => data.numberAt (4 * j)) := by
  induction n generalizing data with
  | zero =>
      obtain rfl := List.eq_nil_of_length_eq_zero h
      rfl
  | succ n ih =>
      match data, h with
      | b₀ :: b₁ :: b₂ :: b₃ :: rest, h =>
          have hrest : rest.length = 4 * n := by
            simp only [List.length_cons] at h
            omega
          rw [words?, ih hrest, List.range_succ_eq_map, List.map_cons, List.map_map]
          rfl
      | [], h | [_], h | [_, _], h | [_, _, _], h =>
          simp only [List.length_cons, List.length_nil] at h
          omega

theorem eq_map_numberAt_of_words? {data : Bytes} {ws : List Nat} (h : words? data = some ws) :
    ws = (List.range ws.length).map fun j => data.numberAt (4 * j) := by
  rw [words?_of_length (length_of_words? h)] at h
  exact (Option.some.inj h).symm

end Capabilities.Bytes
