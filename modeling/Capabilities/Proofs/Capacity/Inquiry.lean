import Capabilities.Proofs.Kernel.Support
import Mathlib.Algebra.Group.Nat.Defs
import Mathlib.Data.Nat.Log

/-!
# The questions of the search for the number of values

The search is described once more as it is carried out, with each question that it
asks, and in numbers of 32 bits that start over where a result does not fit. The
answers may come in any pattern. As long as twice the bits of the words fit such a
number, every result fits: the search ends after few questions, all of them about
numbers that fit the words, at a number of values whose last one is supported and
whose successor, if the words have room for it, is not. With more words it may go on
forever.
-/

namespace Capabilities.Capacity

variable {words r : Nat} {lo hi n : BitVec 32} {asked : List Nat} {supported : Nat → Bool}

/-- The range `lo ..= hi` is narrowed down to `n` by asking about the given numbers in turn,
whether or not the results on the way fit 32 bits. -/
inductive Narrows (supported : Nat → Bool) :
    BitVec 32 → BitVec 32 → List Nat → BitVec 32 → Prop
  | single (n : BitVec 32) : Narrows supported n n [] n
  | upper {lo hi n : BitVec 32} {asked : List Nat} (hopen : ¬ lo = hi)
      (hanswer : supported (middle lo hi).toNat = true)
      (hrest : Narrows supported (middle lo hi) hi asked n) :
      Narrows supported lo hi ((middle lo hi).toNat :: asked) n
  | lower {lo hi n : BitVec 32} {asked : List Nat} (hopen : ¬ lo = hi)
      (hanswer : supported (middle lo hi).toNat = false)
      (hrest : Narrows supported lo (middle lo hi - 1#32) asked n) :
      Narrows supported lo hi ((middle lo hi).toNat :: asked) n

/-- The number of values `r` is found by asking about the given numbers in turn. -/
inductive Discovers (words : Nat) (supported : Nat → Bool) : List Nat → Nat → Prop
  | trusted (hzero : supported 0 = false) :
      Discovers words supported [0]
        (min Value.nameCount (BitVec.ofNat 32 (32 * words)).toNat)
  | searched {n : BitVec 32} {asked : List Nat} (hzero : supported 0 = true)
      (hsearch : Narrows supported 0#32 (BitVec.ofNat 32 (32 * words) - 1#32) asked n) :
      Discovers words supported (0 :: asked) (n + 1#32).toNat

theorem Narrows.deterministic (h : Narrows supported lo hi asked n) :
    ∀ {asked' n'}, Narrows supported lo hi asked' n' → asked' = asked ∧ n' = n := by
  induction h with
  | single n =>
      intro asked' n' h'
      cases h' with
      | single => exact ⟨rfl, rfl⟩
      | upper hopen => exact absurd rfl hopen
      | lower hopen => exact absurd rfl hopen
  | upper hopen hanswer hrest ih =>
      intro asked' n' h'
      cases h' with
      | single => exact absurd rfl hopen
      | upper _ _ hrest' =>
          obtain ⟨hasked, hn⟩ := ih hrest'
          exact ⟨congrArg _ hasked, hn⟩
      | lower _ hanswer' => exact absurd (hanswer.symm.trans hanswer') Bool.noConfusion
  | lower hopen hanswer hrest ih =>
      intro asked' n' h'
      cases h' with
      | single => exact absurd rfl hopen
      | upper _ hanswer' => exact absurd (hanswer.symm.trans hanswer') Bool.noConfusion
      | lower _ _ hrest' =>
          obtain ⟨hasked, hn⟩ := ih hrest'
          exact ⟨congrArg _ hasked, hn⟩

/-- There is one way for the search to go. -/
theorem Discovers.deterministic (h : Discovers words supported asked r) :
    ∀ {asked' r'}, Discovers words supported asked' r' → asked' = asked ∧ r' = r := by
  intro asked' r' h'
  cases h with
  | trusted hzero =>
      cases h' with
      | trusted => exact ⟨rfl, rfl⟩
      | searched hzero' => exact absurd (hzero.symm.trans hzero') Bool.noConfusion
  | searched hzero hsearch =>
      cases h' with
      | trusted hzero' => exact absurd (hzero.symm.trans hzero') Bool.noConfusion
      | searched _ hsearch' =>
          obtain ⟨hasked, hn⟩ := hsearch.deterministic hsearch'
          exact ⟨congrArg _ hasked, congrArg (fun n => (n + 1#32).toNat) hn⟩

/-- A search that does not break off goes as it would go anyway. -/
theorem exists_narrows_of_search? (h : search? supported lo hi = some n) :
    ∃ asked, Narrows supported lo hi asked n := by
  fun_induction search? supported lo hi with
  | case1 lo =>
      cases h
      exact ⟨[], .single _⟩
  | case4 lo hi hopen hsum mid hmid hend ih =>
      obtain ⟨asked, hrest⟩ := ih h
      exact ⟨_, .upper hopen hmid hrest⟩
  | case7 lo hi hopen hsum mid hmid hzero hstart ih =>
      obtain ⟨asked, hrest⟩ := ih h
      exact ⟨_, .lower hopen (Bool.eq_false_iff.mpr hmid) hrest⟩
  | _ => cases h

theorem exists_discovers_of_probe? (h : probe? words supported = some r) :
    ∃ asked, Discovers words supported asked r := by
  simp only [probe?] at h
  split at h
  next hzero =>
    split at h
    next => cases h
    next =>
      obtain ⟨n, hn, rfl⟩ := Option.map_eq_some_iff.mp h
      obtain ⟨asked, hsearch⟩ := exists_narrows_of_search? hn
      exact ⟨_, .searched hzero hsearch⟩
  next hzero =>
    cases h
    exact ⟨_, .trusted (Bool.eq_false_iff.mpr hzero)⟩

/-- As long as twice the end of the range fits, so do all results on the way. -/
theorem middle_of_fits (hopen : ¬ lo = hi) (hle : lo.toNat ≤ hi.toNat)
    (hfits : 2 * hi.toNat ≤ 0x100000000) :
    lo.toNat < hi.toNat ∧ (middle lo hi).toNat = (lo.toNat + hi.toNat + 1) / 2 ∧
      (middle lo hi - 1#32).toNat = (middle lo hi).toNat - 1 := by
  have hlt : lo.toNat < hi.toNat :=
    Nat.lt_of_le_of_ne hle fun h => hopen (BitVec.eq_of_toNat_eq h)
  have hmiddle := toNat_middle (not_uaddOverflow hopen hle hfits)
  have hpositive : ¬ middle lo hi = 0#32 := by
    intro hzero
    rw [hzero] at hmiddle
    have hnone : 0 = (lo.toNat + hi.toNat + 1) / 2 := hmiddle
    omega
  exact ⟨hlt, hmiddle, toNat_pred hpositive⟩

theorem Narrows.mem_asked (h : Narrows supported lo hi asked n) (hle : lo.toNat ≤ hi.toNat)
    (hfits : 2 * hi.toNat ≤ 0x100000000) : ∀ q ∈ asked, q ≤ hi.toNat := by
  induction h with
  | single n => exact nofun
  | @upper lo hi n asked hopen hanswer hrest ih =>
      obtain ⟨hlt, hmiddle, -⟩ := middle_of_fits hopen hle hfits
      have hrange : (middle lo hi).toNat ≤ hi.toNat := by omega
      intro q hq
      rcases List.mem_cons.mp hq with rfl | hq
      · exact hrange
      · exact ih hrange hfits q hq
  | @lower lo hi n asked hopen hanswer hrest ih =>
      obtain ⟨hlt, hmiddle, hpred⟩ := middle_of_fits hopen hle hfits
      intro q hq
      rcases List.mem_cons.mp hq with rfl | hq
      · omega
      · have hlower := ih (by omega) (by omega) q hq
        omega

theorem clog_two_add_one_le {m n : Nat} (hn : 2 ≤ n) (h : m ≤ (n + 1) / 2) :
    Nat.clog 2 m + 1 ≤ Nat.clog 2 n := by
  rw [Nat.clog_of_two_le (by decide) hn]
  exact Nat.succ_le_succ (Nat.clog_mono_right 2 h)

/-- At most half of the range, rounded up, is left after each question. -/
theorem Narrows.length_asked_le (h : Narrows supported lo hi asked n)
    (hle : lo.toNat ≤ hi.toNat) (hfits : 2 * hi.toNat ≤ 0x100000000) :
    asked.length ≤ Nat.clog 2 (hi.toNat - lo.toNat + 1) := by
  induction h with
  | single n => exact Nat.zero_le _
  | @upper lo hi n asked hopen hanswer hrest ih =>
      obtain ⟨hlt, hmiddle, -⟩ := middle_of_fits hopen hle hfits
      have hhalf : hi.toNat - (middle lo hi).toNat + 1 ≤ (hi.toNat - lo.toNat + 1 + 1) / 2 := by
        omega
      calc
        asked.length + 1 ≤ Nat.clog 2 (hi.toNat - (middle lo hi).toNat + 1) + 1 :=
          Nat.succ_le_succ (ih (by omega) hfits)
        _ ≤ Nat.clog 2 (hi.toNat - lo.toNat + 1) := clog_two_add_one_le (by omega) hhalf
  | @lower lo hi n asked hopen hanswer hrest ih =>
      obtain ⟨hlt, hmiddle, hpred⟩ := middle_of_fits hopen hle hfits
      have hhalf : (middle lo hi - 1#32).toNat - lo.toNat + 1 ≤
          (hi.toNat - lo.toNat + 1 + 1) / 2 := by omega
      calc
        asked.length + 1 ≤ Nat.clog 2 ((middle lo hi - 1#32).toNat - lo.toNat + 1) + 1 :=
          Nat.succ_le_succ (ih (by omega) (by omega))
        _ ≤ Nat.clog 2 (hi.toNat - lo.toNat + 1) := clog_two_add_one_le (by omega) hhalf

theorem Discovers.mem_asked (h : Discovers words supported asked r) (hwords : 0 < words)
    (hfits : words ≤ 0x4000000) : ∀ q ∈ asked, q < 32 * words := by
  have hlast := toNat_last hwords (show words < 0x8000000 by omega)
  cases h with
  | trusted hzero =>
      intro q hq
      rw [List.mem_singleton.mp hq]
      omega
  | searched hzero hsearch =>
      intro q hq
      rcases List.mem_cons.mp hq with rfl | hq
      · omega
      · have hrange := hsearch.mem_asked (Nat.zero_le _) (by omega) q hq
        omega

theorem Discovers.length_asked_le (h : Discovers words supported asked r) (hwords : 0 < words)
    (hfits : words ≤ 0x4000000) : asked.length ≤ 1 + Nat.clog 2 (32 * words) := by
  have hlast := toNat_last hwords (show words < 0x8000000 by omega)
  cases h with
  | trusted hzero => exact Nat.le_add_right 1 _
  | @searched n asked hzero hsearch =>
      have hlength := hsearch.length_asked_le (Nat.zero_le _) (by omega)
      have hrange : 32 * words - 1 - (0#32).toNat + 1 = 32 * words := by
        change 32 * words - 1 - 0 + 1 = _
        omega
      rw [hlast, hrange] at hlength
      calc
        asked.length + 1 ≤ Nat.clog 2 (32 * words) + 1 := Nat.succ_le_succ hlength
        _ = 1 + Nat.clog 2 (32 * words) := Nat.add_comm _ _

/-- The search ends at the end of the range, or before a number that is not supported. -/
theorem search?_eq_or (hn : search? supported lo hi = some n) :
    n = hi ∨ supported (n.toNat + 1) = false := by
  fun_induction search? supported lo hi with
  | case1 lo =>
      cases hn
      exact Or.inl rfl
  | case4 lo hi hopen hsum mid hmid hend ih => exact ih hn
  | case7 lo hi hopen hsum mid hmid hzero hstart ih =>
      rcases ih hn with rfl | hnext
      · -- Everything up to the middle is left over, and the middle itself is not supported.
        have hpos : mid.toNat ≠ 0 := fun h => hzero (BitVec.eq_of_toNat_eq h)
        have hsucc : (mid - 1#32).toNat + 1 = mid.toNat := by
          rw [toNat_pred hzero]
          omega
        rw [hsucc]
        exact Or.inr (Bool.eq_false_iff.mpr hmid)
      · exact Or.inr hnext
  | _ => cases hn

theorem probe?_eq_or (hwords : 0 < words) (hfits : words ≤ 0x4000000) (hzero : supported 0 = true)
    (hprobe : probe? words supported = some r) : r = 32 * words ∨ supported r = false := by
  obtain ⟨last, n, hlast, hn, -, hfound⟩ := probe?_of_supported hwords hfits hzero
  cases hprobe.symm.trans hfound
  apply (search?_eq_or hn).imp_left
  rintro rfl
  omega

theorem probe?_of_threshold {max : Nat} (hwords : 0 < words) (hfits : words ≤ 0x4000000)
    (hmax : 1 ≤ max) (h : ∀ v < 32 * words, supported v = decide (v < max))
    (hprobe : probe? words supported = some r) : r = min max (32 * words) := by
  have hzero : supported 0 = true := by
    rw [h 0 (by omega)]
    exact decide_eq_true hmax
  obtain ⟨r', hprobe', hpos, hle⟩ := exists_probe? supported hwords hfits
  cases hprobe.symm.trans hprobe'
  have hlast := supported_pred_probe? hwords hfits hzero hprobe
  rw [h _ (by omega), decide_eq_true_eq] at hlast
  rcases probe?_eq_or hwords hfits hzero hprobe with hend | hnext
  · omega
  · by_cases hfull : r = 32 * words
    · omega
    · rw [h _ (by omega), decide_eq_false_iff_not] at hnext
      omega

/-- Half of a sum that may start over is at most half of what there is. -/
theorem toNat_middle_le (lo hi : BitVec 32) : (middle lo hi).toNat ≤ 0x80000000 := by
  have hsum := (lo + hi).isLt
  have hodd : ((lo + hi) &&& 1#32).toNat ≤ 1 := Nat.and_le_right
  have hhalf : ((lo + hi) >>> 1).toNat = (lo + hi).toNat / 2 := BitVec.toNat_ushiftRight _ _
  calc
    (middle lo hi).toNat ≤ ((lo + hi) >>> 1).toNat + ((lo + hi) &&& 1#32).toNat := by
      rw [middle, BitVec.toNat_add]
      exact Nat.mod_le _ _
    _ ≤ 0x80000000 := by omega

/-- Where every number is supported, no middle reaches the end of a range that is too long. -/
theorem Narrows.end_le (h : Narrows supported lo hi asked n) (hall : ∀ v, supported v = true)
    (hopen : ¬ lo = hi) : hi.toNat ≤ 0x80000000 := by
  induction h with
  | single n => exact absurd rfl hopen
  | @upper lo hi n asked _ hanswer hrest ih =>
      by_cases hreached : middle lo hi = hi
      · exact hreached ▸ toNat_middle_le lo hi
      · exact ih hreached
  | lower _ hanswer => exact absurd ((hall _).symm.trans hanswer) Bool.noConfusion

theorem not_discovers (hmany : 2 ^ 26 < words) (hfits : words < 2 ^ 27) :
    ¬ Discovers words (fun _ => true) asked r := by
  intro h
  cases h with
  | trusted hzero => cases hzero
  | searched hzero hsearch =>
      have hlast := toNat_last (Nat.zero_lt_of_lt hmany) hfits
      have hopen : ¬ 0#32 = BitVec.ofNat 32 (32 * words) - 1#32 := by
        intro hsame
        rw [← hsame] at hlast
        have hnone : 0 = 32 * words - 1 := hlast
        omega
      have hend := hsearch.end_le (fun _ => rfl) hopen
      omega

/-- With so many words that twice their bits do not fit, the search breaks off where every number
is supported, and goes on forever if it does not break off. -/
theorem probe?_breaks_off :
    1 ≤ 2 ^ 26 + 1 ∧ probe? (2 ^ 26 + 1) (fun _ => true) = none ∧
      ∀ asked r, ¬ Discovers (2 ^ 26 + 1) (fun _ => true) asked r := by
  have hnever : ∀ asked r, ¬ Discovers (2 ^ 26 + 1) (fun _ => true) asked r :=
    fun asked r => not_discovers (by decide) (by decide)
  refine ⟨by decide, Option.eq_none_iff_forall_ne_some.mpr ?_, hnever⟩
  intro r hprobe
  obtain ⟨asked, hdiscovers⟩ := exists_discovers_of_probe? hprobe
  exact hnever asked r hdiscovers

/-- Whatever numbers are supported, as long as twice the bits of the words fit 32 bits, no sum and
no difference on the way leaves them. The search has one way to go, and it ends at the number of
values. It asks about numbers that fit the words only, once and then as often as their range can be
halved. If the first value is supported, then so is the last one, and the next one is not, unless
the words are full. -/
theorem probe?_discovers (hwords : 1 ≤ words) (hfits : words ≤ 2 ^ 26) (supported : Nat → Bool) :
    ∃ asked r, probe? words supported = some r ∧
      (∀ asked' r', Discovers words supported asked' r' ↔ asked' = asked ∧ r' = r) ∧
      (∀ q ∈ asked, q < 32 * words) ∧ asked.length ≤ 1 + Nat.clog 2 (32 * words) ∧
      (supported 0 = false → r = min 41 (32 * words)) ∧
      (supported 0 = true → 1 ≤ r ∧ r ≤ 32 * words ∧ supported (r - 1) = true ∧
        (r = 32 * words ∨ supported r = false)) ∧
      ∀ max, 1 ≤ max → (∀ v < 32 * words, supported v = decide (v < max)) →
        r = min max (32 * words) := by
  obtain ⟨r, hprobe, hpos, hle⟩ := exists_probe? supported hwords hfits
  obtain ⟨asked, hcourse⟩ := exists_discovers_of_probe? hprobe
  refine ⟨asked, r, hprobe, ?_, hcourse.mem_asked hwords hfits,
    hcourse.length_asked_le hwords hfits, ?_, ?_, ?_⟩
  · intro asked' r'
    constructor
    · exact fun h => hcourse.deterministic h
    · rintro ⟨rfl, rfl⟩
      exact hcourse
  · intro hzero
    exact Option.some.inj (hprobe.symm.trans (probe?_of_unsupported hfits hzero))
  · intro hzero
    exact ⟨hpos, hle, supported_pred_probe? hwords hfits hzero hprobe,
      probe?_eq_or hwords hfits hzero hprobe⟩
  · intro max hmax hbelow
    exact probe?_of_threshold hwords hfits hmax hbelow hprobe

/-- Answers in no order: yes to three numbers of every seven. -/
def patchy (v : Nat) : Bool := decide (v % 7 < 3)

theorem probe?_discovers_patchy :
    1 ≤ 2 ∧ 2 ≤ 2 ^ 26 ∧ patchy 0 = true ∧ patchy 63 = true ∧ probe? 2 patchy = some 17 ∧
      Discovers 2 patchy [0, 32, 16, 24, 20, 18, 17] 17 ∧
      (∀ q ∈ [0, 32, 16, 24, 20, 18, 17], q < 32 * 2) ∧ patchy 16 = true ∧ patchy 17 = false ∧
      probe? (2 ^ 26) (fun _ => true) = some (2 ^ 31) ∧
      probe? 1 (fun _ => false) = some 32 := by
  have hlast : Narrows patchy 16#32 19#32 [18, 17] 16#32 :=
    .lower (by decide) rfl
      (show Narrows patchy 16#32 17#32 [17] 16#32 from .lower (by decide) rfl (.single 16#32))
  have hupper : Narrows patchy 16#32 31#32 [24, 20, 18, 17] 16#32 :=
    .lower (by decide) rfl
      (show Narrows patchy 16#32 23#32 [20, 18, 17] 16#32 from .lower (by decide) rfl hlast)
  have hwhole : Narrows patchy 0#32 63#32 [32, 16, 24, 20, 18, 17] 16#32 :=
    .lower (by decide) rfl
      (show Narrows patchy 0#32 31#32 [16, 24, 20, 18, 17] 16#32 from
        .upper (by decide) rfl hupper)
  have hcourse : Discovers 2 patchy [0, 32, 16, 24, 20, 18, 17] 17 :=
    .searched (n := 16#32) rfl hwhole
  obtain ⟨asked, r, hprobe, hunique, hfits, -, -, hfound, -⟩ :=
    probe?_discovers (by decide : 1 ≤ 2) (by decide) patchy
  obtain ⟨rfl, rfl⟩ := (hunique _ _).mp hcourse
  obtain ⟨-, -, hraised, hnext⟩ := hfound rfl
  obtain ⟨-, r, hfull, -, -, -, -, hlong, -⟩ :=
    probe?_discovers (by decide : 1 ≤ 2 ^ 26) (le_refl (2 ^ 26)) fun _ => true
  obtain ⟨-, -, -, hend⟩ := hlong rfl
  obtain ⟨-, r', hnone, -, -, -, hnamed, -⟩ :=
    probe?_discovers (by decide : 1 ≤ 1) (by decide) fun _ => false
  rw [hend.resolve_right Bool.noConfusion] at hfull
  rw [hnamed rfl] at hnone
  exact ⟨by decide, by decide, rfl, rfl, hprobe, hcourse, hfits, hraised,
    hnext.resolve_left (by decide), hfull, hnone⟩

end Capabilities.Capacity
