import Capabilities.Proofs.CapSet.Meaning
import Mathlib.Data.List.Perm.Subperm

/-!
# The canonical text of a set

The text of a set begins with the combination that most named values have, the
smallest one of equals, and lists the values that it does not describe: each of
them once, beside all others with the same combination, in a fixed order. Values
that a text does not list are not told apart by it, if they have a name. So no
text that says the same of the named values lists fewer of them.
-/

namespace Capabilities

namespace Clause

variable {c : Capacity} {v w : Value}

/-- The values that a clause lists one by one. -/
def listing (cl : Clause) : List Value :=
  match cl.address with
  | .background | .all => []
  | .listed vs => vs

theorem effect_congr {cl : Clause}
    (h : (cl.address.mask c).contains v = (cl.address.mask c).contains w) (f : Flag) (on : Bool) :
    cl.effect c f v on = cl.effect c f w on := by
  simp only [effect, Group.effect, h]

/-- Named values that a clause does not list are both meant by it, or neither is. -/
theorem contains_mask_of_unlisted {cl : Clause} (hv : v < c.named) (hw : w < c.named)
    (hv' : v ∉ cl.listing) (hw' : w ∉ cl.listing) :
    (cl.address.mask c).contains v = (cl.address.mask c).contains w := by
  have hcount := CapSet.named_le_count c
  obtain ⟨address, groups⟩ := cl
  cases address with
  | background => simp [Address.mask, hv, hw]
  | all => simp [Address.mask, Nat.lt_of_lt_of_le hv hcount, Nat.lt_of_lt_of_le hw hcount]
  | listed vs =>
      have hout (u : Value) (hu : u ∉ vs) : (Mask.ofList vs).contains u = false := by simpa using hu
      exact (hout v hv').trans (hout w hw').symm

/-- Clauses do not tell apart the named values that none of them lists. -/
theorem contains_foldl_apply_of_unlisted {cls : List Clause} (hv : v < c.named) (hw : w < c.named)
    (hv' : v ∉ cls.flatMap listing) (hw' : w ∉ cls.flatMap listing) (f : Flag) :
    ((cls.foldl (apply c) CapSet.empty).flag f).contains v =
      ((cls.foldl (apply c) CapSet.empty).flag f).contains w := by
  have hfold (on : Bool) : cls.foldl (fun on cl => cl.effect c f v on) on =
      cls.foldl (fun on cl => cl.effect c f w on) on := by
    induction cls generalizing on with
    | nil => rfl
    | cons cl rest ih =>
        simp only [List.flatMap_cons, List.mem_append, not_or] at hv' hw'
        have hsame := contains_mask_of_unlisted hv hw hv'.1 hw'.1
        rw [List.foldl_cons, List.foldl_cons, effect_congr hsame]
        exact ih hv'.2 hw'.2 _
  rw [contains_foldl_apply, contains_foldl_apply, CapSet.flag_empty, Mask.contains_empty,
    Mask.contains_empty]
  exact hfold false

end Clause

namespace CapSet

variable {c : Capacity} {s : CapSet} {k m : Combination} {v w : Nat}

/-- How many named values have a combination. -/
def frequency (c : Capacity) (s : CapSet) (k : Combination) : Nat :=
  (List.range c.named).countP fun v => s.combination v == k

/-- No combination is more frequent among the named values, and no smaller one is as frequent. -/
structure IsPrevalent (c : Capacity) (s : CapSet) (m : Combination) : Prop where
  lt : m < 8
  most : ∀ k < 8, s.frequency c k ≤ s.frequency c m
  least : ∀ k < 8, s.frequency c k = s.frequency c m → m ≤ k

theorem IsPrevalent.unique (h : IsPrevalent c s m) (hk : IsPrevalent c s k) : m = k := by
  have hsame := Nat.le_antisymm (hk.most m h.lt) (h.most k hk.lt)
  exact Nat.le_antisymm (h.least k hk.lt hsame.symm) (hk.least m h.lt hsame)

/-- No element of a list has a greater value, and no smaller one has the same. -/
def IsBest (value : Combination → Nat) (ks : List Combination) (best : Combination) : Prop :=
  ∀ k ∈ ks, value k ≤ value best ∧ (value k = value best → best ≤ k)

/-- Going down a list, and changing over to each element that is as good as the best one so far,
leads to the smallest of the best elements. -/
theorem isBest_foldl (value : Combination → Nat) (ks : List Combination) (start : Combination)
    (hdescends : (start :: ks).Pairwise (· ≥ ·)) :
    IsBest value (start :: ks)
      (ks.foldl (fun best k => if value best ≤ value k then k else best) start) := by
  induction ks generalizing start with
  | nil => simp [IsBest]
  | cons k ks ih =>
      obtain ⟨hstart, hrest⟩ := List.pairwise_cons.mp hdescends
      have hle : k ≤ start := hstart k List.mem_cons_self
      rw [List.foldl_cons]
      split
      next hgood =>
        have hbest := ih k hrest
        obtain ⟨hmost, hleast⟩ := hbest k List.mem_cons_self
        refine List.forall_mem_cons.mpr ⟨⟨Nat.le_trans hgood hmost, fun hsame => ?_⟩, hbest⟩
        have heq := Nat.le_antisymm hmost (hsame ▸ hgood)
        exact Nat.le_trans (hleast heq) hle
      next hbad =>
        have hskip : (start :: ks).Pairwise (· ≥ ·) :=
          List.pairwise_cons.mpr ⟨fun j hj => hstart j (List.mem_cons_of_mem k hj), hrest.of_cons⟩
        have hbest := ih start hskip
        obtain ⟨hfirst, hothers⟩ := List.forall_mem_cons.mp hbest
        exact List.forall_mem_cons.mpr ⟨hfirst, List.forall_mem_cons.mpr ⟨by omega, hothers⟩⟩

theorem isPrevalent_background (c : Capacity) (s : CapSet) : IsPrevalent c s (s.background c) := by
  have hlength (k : Combination) : (s.namedWith c k).length = s.frequency c k :=
    List.countP_eq_length_filter.symm
  have hbest : IsBest (s.frequency c) (7 :: combinations) (s.background c) := by
    simp only [background, hlength]
    exact isBest_foldl (s.frequency c) combinations 7 (by decide)
  have hall : ∀ k < 8, k ∈ 7 :: combinations := fun k hk =>
    List.mem_cons_of_mem 7 (mem_combinations.mpr hk)
  exact ⟨background_lt c s, fun k hk => (hbest k (hall k hk)).1,
    fun k hk => (hbest k (hall k hk)).2⟩

/-- Named values come before the others, and then greater combinations before smaller ones. -/
def Precedes (c : Capacity) (s : CapSet) (v w : Value) : Prop :=
  (w < c.named → v < c.named) ∧ ((v < c.named ↔ w < c.named) → s.combination w < s.combination v)

theorem not_precedes_self : ¬ s.Precedes c v v :=
  fun h => absurd (h.2 Iff.rfl) (Nat.lt_irrefl _)

/-- Clauses that list what a background does not describe, in a fixed order. -/
structure IsCanonical (c : Capacity) (s : CapSet) (m : Combination) (cls : List Clause) : Prop where
  /-- Nothing is listed twice. -/
  once : (cls.flatMap Clause.listing).Nodup
  /-- Exactly the values that the background does not describe are listed. -/
  listed : ∀ v, v ∈ cls.flatMap Clause.listing ↔
    v < c.named ∧ s.combination v ≠ m ∨ c.named ≤ v ∧ v < c.count ∧ s.combination v ≠ 0
  /-- A clause that lists a value lists the values of its kind that have the same combination. -/
  shared : ∀ cl ∈ cls, ∀ v ∈ cl.listing, ∀ w, w ∈ cl.listing ↔
    w < c.count ∧ (w < c.named ↔ v < c.named) ∧ s.combination w = s.combination v
  ascending : ∀ cl ∈ cls, cl.listing.Pairwise (· < ·)
  descending : cls.Pairwise fun first second =>
    ∀ v ∈ first.listing, ∀ w ∈ second.listing, s.Precedes c v w
  /-- Values without a name get exactly their flags raised. -/
  raised : ∀ cl ∈ cls, ∀ v ∈ cl.listing, c.named ≤ v →
    cl.groups = [⟨.raise, (s.combination v).flags⟩]
  /-- A clause that lists nothing is the background. -/
  bare : ∀ cl ∈ cls, cl.listing = [] → cl = ⟨.background, [⟨.reset, m.flags⟩]⟩
  /-- Only the first clause lists nothing. -/
  bare_first : ∀ cl ∈ cls.tail, cl.listing ≠ []

/-- The values that are listed, clause by clause. -/
def blocks (c : Capacity) (s : CapSet) : List (List Value) :=
  (s.deviations c).map (s.namedWith c) ++ (s.additions c).map (s.unnamedWith c)

theorem mem_blocks {block : List Value} : block ∈ s.blocks c ↔
    (∃ k ∈ s.deviations c, block = s.namedWith c k) ∨
      ∃ k ∈ s.additions c, block = s.unnamedWith c k := by
  simp [blocks, eq_comm]

theorem ne_nil_of_mem_blocks {block : List Value} (h : block ∈ s.blocks c) : block ≠ [] := by
  rcases mem_blocks.mp h with ⟨k, hk, rfl⟩ | ⟨k, hk, rfl⟩
  · exact (mem_deviations.mp hk).2.2
  · exact (mem_additions.mp hk).2.2

theorem mem_block_iff {block : List Value} (h : block ∈ s.blocks c) (hv : v ∈ block) :
    w ∈ block ↔ w < c.count ∧ (w < c.named ↔ v < c.named) ∧ s.combination w = s.combination v := by
  have hcount := named_le_count c
  rcases mem_blocks.mp h with ⟨k, -, rfl⟩ | ⟨k, -, rfl⟩
  · obtain ⟨hnamed, rfl⟩ := mem_namedWith.mp hv
    rw [mem_namedWith]
    constructor
    · rintro ⟨hw, hsame⟩
      exact ⟨by omega, by omega, hsame⟩
    · rintro ⟨-, hkind, hsame⟩
      exact ⟨hkind.mpr hnamed, hsame⟩
  · obtain ⟨hunnamed, rfl⟩ := mem_unnamedWith.mp hv
    rw [mem_unnamedWith]
    constructor
    · rintro ⟨hw, hsame⟩
      exact ⟨hw.2, by omega, hsame⟩
    · rintro ⟨hw, hkind, hsame⟩
      exact ⟨⟨by omega, hw⟩, hsame⟩

theorem ascending_of_mem_blocks {block : List Value} (h : block ∈ s.blocks c) :
    block.Pairwise (· < ·) := by
  rcases mem_blocks.mp h with ⟨k, -, rfl⟩ | ⟨k, -, rfl⟩
  · exact List.pairwise_lt_range.filter _
  · exact (List.pairwise_lt_range' 1 Nat.one_pos).filter _

theorem pairwise_blocks (c : Capacity) (s : CapSet) :
    (s.blocks c).Pairwise fun first second => ∀ v ∈ first, ∀ w ∈ second, s.Precedes c v w := by
  have hdescends : combinations.Pairwise (· > ·) := by decide
  rw [blocks, List.pairwise_append, List.pairwise_map, List.pairwise_map]
  refine ⟨(hdescends.filter _).imp fun hlt v hv w hw => ?_,
    (hdescends.filter _).imp fun hlt v hv w hw => ?_,
    fun first hfirst second hsecond v hv w hw => ?_⟩
  · obtain ⟨hnamed, rfl⟩ := mem_namedWith.mp hv
    obtain ⟨-, rfl⟩ := mem_namedWith.mp hw
    exact ⟨fun _ => hnamed, fun _ => hlt⟩
  · obtain ⟨-, rfl⟩ := mem_unnamedWith.mp hv
    obtain ⟨hunnamed, rfl⟩ := mem_unnamedWith.mp hw
    exact ⟨fun hnamed => absurd hnamed (Nat.not_lt.mpr hunnamed.1), fun _ => hlt⟩
  · obtain ⟨k, -, rfl⟩ := List.mem_map.mp hfirst
    obtain ⟨j, -, rfl⟩ := List.mem_map.mp hsecond
    have hnamed := (mem_namedWith.mp hv).1
    have hunnamed := (mem_unnamedWith.mp hw).1.1
    exact ⟨fun _ => hnamed, fun hkind => absurd (hkind.mp hnamed) (Nat.not_lt.mpr hunnamed)⟩

/-- A value in two blocks would have to precede itself. -/
theorem nodup_flatten_blocks (c : Capacity) (s : CapSet) : (s.blocks c).flatten.Nodup := by
  refine List.pairwise_flatten.mpr ⟨fun block hblock => ?_, (pairwise_blocks c s).imp ?_⟩
  · exact (ascending_of_mem_blocks hblock).imp fun hlt => Nat.ne_of_lt hlt
  · rintro first second hprecedes v hv w hw rfl
    exact not_precedes_self (hprecedes v hv v hw)

theorem mem_flatten_blocks : v ∈ (s.blocks c).flatten ↔
    v < c.named ∧ s.combination v ≠ s.background c ∨
      c.named ≤ v ∧ v < c.count ∧ s.combination v ≠ 0 := by
  have hdeviation : (∃ k ∈ s.deviations c, v ∈ s.namedWith c k) ↔
      v < c.named ∧ s.combination v ≠ s.background c := by
    simp only [mem_deviations, mem_namedWith]
    constructor
    · rintro ⟨k, ⟨-, hne, -⟩, hv, rfl⟩
      exact ⟨hv, hne⟩
    · rintro ⟨hv, hne⟩
      have hown : v ∈ s.namedWith c (s.combination v) := mem_namedWith.mpr ⟨hv, rfl⟩
      exact ⟨_, ⟨combination_lt s v, hne, List.ne_nil_of_mem hown⟩, hv, rfl⟩
  have haddition : (∃ k ∈ s.additions c, v ∈ s.unnamedWith c k) ↔
      c.named ≤ v ∧ v < c.count ∧ s.combination v ≠ 0 := by
    simp only [mem_additions, mem_unnamedWith]
    constructor
    · rintro ⟨k, ⟨-, hne, -⟩, hv, rfl⟩
      exact ⟨hv.1, hv.2, hne⟩
    · rintro ⟨hnamed, hv, hne⟩
      have hown : v ∈ s.unnamedWith c (s.combination v) := mem_unnamedWith.mpr ⟨⟨hnamed, hv⟩, rfl⟩
      exact ⟨_, ⟨combination_lt s v, hne, List.ne_nil_of_mem hown⟩, ⟨hnamed, hv⟩, rfl⟩
  rw [blocks, List.flatten_append, List.mem_append, ← hdeviation, ← haddition]
  simp

/-- The clauses list the blocks, after a background that may be left out. -/
theorem map_listing_clauses (c : Capacity) (s : CapSet) :
    (s.clauses c).map Clause.listing = s.blocks c ∨
      (s.clauses c).map Clause.listing = [] :: s.blocks c := by
  have hnamed : (s.namedClauses c).map Clause.listing = (s.deviations c).map (s.namedWith c) ∨
      (s.namedClauses c).map Clause.listing = [] :: (s.deviations c).map (s.namedWith c) := by
    rw [namedClauses]
    split
    next k rest _ hdeviations =>
      rw [hdeviations]
      exact .inl (by simp [Clause.listing, deviation])
    next => exact .inr (by simp [Clause.listing, deviation])
  have hadded : ((s.additions c).map fun k =>
      (⟨.listed (s.unnamedWith c k), [⟨.raise, k.flags⟩]⟩ : Clause)).map Clause.listing =
      (s.additions c).map (s.unnamedWith c) := by
    simp [Clause.listing]
  rw [clauses, List.map_append, hadded, blocks]
  rcases hnamed with hnamed | hnamed <;> rw [hnamed]
  · exact .inl rfl
  · exact .inr rfl

theorem flatMap_listing_clauses (c : Capacity) (s : CapSet) :
    (s.clauses c).flatMap Clause.listing = (s.blocks c).flatten := by
  rw [List.flatMap_def]
  rcases map_listing_clauses c s with h | h <;> rw [h]
  rfl

/-- A clause is the background, or it lists named values, or it raises values without a name. -/
theorem clauses_cases {cl : Clause} (hcl : cl ∈ s.clauses c) :
    cl = ⟨.background, [⟨.reset, Combination.flags (s.background c)⟩]⟩ ∨
      (∃ k ∈ s.deviations c, cl.listing = s.namedWith c k) ∨
      ∃ k ∈ s.additions c, cl = ⟨.listed (s.unnamedWith c k), [⟨.raise, k.flags⟩]⟩ := by
  rcases List.mem_append.mp hcl with hnamed | hadded
  · rw [namedClauses] at hnamed
    split at hnamed
    next k rest _ hdeviations =>
      refine .inr (.inl ?_)
      rw [hdeviations]
      rcases List.mem_cons.mp hnamed with rfl | hrest
      · exact ⟨k, List.mem_cons_self, rfl⟩
      · obtain ⟨j, hj, rfl⟩ := List.mem_map.mp hrest
        exact ⟨j, List.mem_cons_of_mem k hj, rfl⟩
    next =>
      rcases List.mem_cons.mp hnamed with rfl | hrest
      · exact .inl rfl
      · obtain ⟨j, hj, rfl⟩ := List.mem_map.mp hrest
        exact .inr (.inl ⟨j, hj, rfl⟩)
  · obtain ⟨k, hk, rfl⟩ := List.mem_map.mp hadded
    exact .inr (.inr ⟨k, hk, rfl⟩)

theorem listing_mem_blocks {cl : Clause} (hcl : cl ∈ s.clauses c) (hv : v ∈ cl.listing) :
    cl.listing ∈ s.blocks c := by
  rcases clauses_cases hcl with rfl | ⟨k, hk, hlisting⟩ | ⟨k, hk, rfl⟩
  · cases hv
  · exact mem_blocks.mpr (.inl ⟨k, hk, hlisting⟩)
  · exact mem_blocks.mpr (.inr ⟨k, hk, rfl⟩)

theorem isCanonical_clauses (c : Capacity) (s : CapSet) :
    IsCanonical c s (s.background c) (s.clauses c) where
  once := flatMap_listing_clauses c s ▸ nodup_flatten_blocks c s
  listed v := by rw [flatMap_listing_clauses, mem_flatten_blocks]
  shared cl hcl v hv w := mem_block_iff (listing_mem_blocks hcl hv) hv
  ascending cl hcl := by
    cases hlisting : cl.listing with
    | nil => exact .nil
    | cons v rest =>
        rw [← hlisting]
        exact ascending_of_mem_blocks (listing_mem_blocks (v := v) hcl (by simp [hlisting]))
  descending := by
    have hblocks := pairwise_blocks c s
    rw [← List.pairwise_map (f := Clause.listing)
      (R := fun first second => ∀ v ∈ first, ∀ w ∈ second, s.Precedes c v w)]
    rcases map_listing_clauses c s with h | h <;> rw [h]
    · exact hblocks
    · exact List.pairwise_cons.mpr ⟨nofun, hblocks⟩
  raised cl hcl v hv hunnamed := by
    rcases clauses_cases hcl with rfl | ⟨k, hk, hlisting⟩ | ⟨k, hk, rfl⟩
    · cases hv
    · rw [hlisting] at hv
      exact absurd (mem_namedWith.mp hv).1 (Nat.not_lt.mpr hunnamed)
    · rw [(mem_unnamedWith.mp hv).2]
  bare cl hcl hnone := by
    rcases clauses_cases hcl with rfl | ⟨k, hk, hlisting⟩ | ⟨k, hk, rfl⟩
    · rfl
    · exact absurd (hlisting.symm.trans hnone) (mem_deviations.mp hk).2.2
    · exact absurd hnone (mem_additions.mp hk).2.2
  bare_first cl hcl := by
    apply ne_nil_of_mem_blocks (c := c) (s := s)
    have hmem : cl.listing ∈ ((s.clauses c).map Clause.listing).tail := by
      rw [← List.map_tail]
      exact List.mem_map_of_mem hcl
    rcases map_listing_clauses c s with h | h <;> rw [h] at hmem
    · exact List.mem_of_mem_tail hmem
    · exact hmem

/-- How often clauses list a named value. -/
def namedListings (c : Capacity) (cls : List Clause) : Nat :=
  (cls.flatMap Clause.listing).countP fun v => decide (v < c.named)

theorem countP_le_of_nodup {vs ws : List Nat} {p q : Nat → Bool} (hvs : vs.Nodup)
    (h : ∀ v ∈ vs, p v = true → v ∈ ws ∧ q v = true) : vs.countP p ≤ ws.countP q := by
  rw [List.countP_eq_length_filter, List.countP_eq_length_filter]
  refine (List.subperm_of_subset (hvs.filter p) fun v hv => ?_).length_le
  obtain ⟨hmem, hp⟩ := List.mem_filter.mp hv
  exact List.mem_filter.mpr (h v hmem hp)

/-- The named values that are listed lack the combination of the background. -/
theorem IsCanonical.namedListings_le {cls : List Clause} (h : IsCanonical c s m cls) :
    namedListings c cls + s.frequency c m ≤ c.named := by
  have hlisted : namedListings c cls ≤
      (List.range c.named).countP fun v => decide ¬(s.combination v == m) = true := by
    refine countP_le_of_nodup h.once fun v hv hnamed => ?_
    have hlt := of_decide_eq_true hnamed
    rcases (h.listed v).mp hv with hv | hv
    · simpa using hv
    · exact absurd hlt (Nat.not_lt.mpr hv.1)
  have htotal := List.length_eq_countP_add_countP (fun v => s.combination v == m)
    (l := List.range c.named)
  rw [List.length_range] at htotal
  rw [frequency]
  omega

/-- Clauses that lead each named value to its combination list those that have different ones. -/
theorem combination_eq_of_unlisted {cls : List Clause}
    (h : ∀ f v, v < c.named →
      ((cls.foldl (Clause.apply c) empty).flag f).contains v = (s.flag f).contains v)
    (hv : v < c.named) (hw : w < c.named) (hv' : v ∉ cls.flatMap Clause.listing)
    (hw' : w ∉ cls.flatMap Clause.listing) : s.combination v = s.combination w := by
  have hbit (f : Flag) : (s.flag f).contains v = (s.flag f).contains w :=
    calc
      (s.flag f).contains v = ((cls.foldl (Clause.apply c) empty).flag f).contains v :=
        (h f v hv).symm
      _ = ((cls.foldl (Clause.apply c) empty).flag f).contains w :=
        Clause.contains_foldl_apply_of_unlisted hv hw hv' hw' f
      _ = (s.flag f).contains w := h f w hw
  have heffective : s.effective.contains v = s.effective.contains w := hbit .effective
  have hpermitted : s.permitted.contains v = s.permitted.contains w := hbit .permitted
  have hinheritable : s.inheritable.contains v = s.inheritable.contains w := hbit .inheritable
  rw [combination, combination, heffective, hpermitted, hinheritable]

/-- The named values that clauses do not list have some combination in common. -/
theorem exists_unlisted_le {cls : List Clause}
    (h : ∀ f v, v < c.named →
      ((cls.foldl (Clause.apply c) empty).flag f).contains v = (s.flag f).contains v) :
    ∃ k < 8, c.named ≤ namedListings c cls + s.frequency c k := by
  have htotal := List.length_eq_countP_add_countP
    (fun v => decide (v ∈ cls.flatMap Clause.listing)) (l := List.range c.named)
  have hlisted : ((List.range c.named).countP fun v =>
      decide (v ∈ cls.flatMap Clause.listing)) ≤ namedListings c cls :=
    countP_le_of_nodup List.nodup_range fun v hv hmem =>
      ⟨of_decide_eq_true hmem, decide_eq_true (List.mem_range.mp hv)⟩
  rw [List.length_range] at htotal
  by_cases hall : ∀ v ∈ List.range c.named, v ∈ cls.flatMap Clause.listing
  · refine ⟨0, by decide, ?_⟩
    have hnone : ((List.range c.named).countP fun v =>
        decide ¬decide (v ∈ cls.flatMap Clause.listing) = true) = 0 :=
      List.countP_eq_zero.mpr fun v hv => by simpa using hall v hv
    omega
  · simp only [not_forall] at hall
    obtain ⟨w, hw, hunlisted⟩ := hall
    refine ⟨s.combination w, combination_lt s w, ?_⟩
    have hsame : ((List.range c.named).countP fun v =>
        decide ¬decide (v ∈ cls.flatMap Clause.listing) = true) ≤
        s.frequency c (s.combination w) := by
      refine List.countP_mono_left fun v hv hunlisted' => beq_iff_eq.mpr ?_
      exact combination_eq_of_unlisted h (List.mem_range.mp hv) (List.mem_range.mp hw)
        (by simpa using hunlisted') hunlisted
    omega

/-- A text with a canonical background lists as few named values as any other text, whatever
background that one may have. -/
theorem IsCanonical.namedListings_least {cls cls' : List Clause} (h : IsCanonical c s m cls)
    (hm : IsPrevalent c s m)
    (hsame : ∀ f v, v < c.named →
      ((cls'.foldl (Clause.apply c) empty).flag f).contains v = (s.flag f).contains v) :
    namedListings c cls ≤ namedListings c cls' := by
  obtain ⟨k, hk, hunlisted⟩ := exists_unlisted_le hsame
  have hchain : namedListings c cls + s.frequency c m ≤
      namedListings c cls' + s.frequency c m :=
    calc
      namedListings c cls + s.frequency c m ≤ c.named := h.namedListings_le
      _ ≤ namedListings c cls' + s.frequency c k := hunlisted
      _ ≤ namedListings c cls' + s.frequency c m := Nat.add_le_add_left (hm.most k hk) _
  exact Nat.le_of_add_le_add_right hchain

theorem denotes_toText (c : Capacity) (s : CapSet) :
    Denotes c (s.toText c).toList (s.clauses c) := by
  have hread : (Text.words (s.render c)).mapM (Clause.read? c) = some (s.clauses c) :=
    Clause.mapM_read?_words fun cl hcl => isValid_of_mem_clauses hcl
  have hwords : Text.words (s.render c) ≠ [] := by
    intro hnil
    rw [hnil] at hread
    exact clauses_ne_nil c s (Option.some.inj hread).symm
  rw [toText, String.toList_ofList]
  exact ⟨_, Text.spaced_iff.mpr rfl, hwords, mapM_read?_eq_some_iff.mp hread⟩

/-- Whatever else the set raises, its clauses lead each named value to its combination. -/
theorem contains_foldl_clauses_of_lt (hv : v < c.named) (f : Flag) :
    (((s.clauses c).foldl (Clause.apply c) empty).flag f).contains v =
      (s.flag f).contains v := by
  rw [Clause.contains_foldl_apply, clauses, List.foldl_append, flag_empty, Mask.contains_empty,
    foldl_addition, foldl_namedClauses hv, if_neg (by omega)]

/-- The text of a set denotes clauses with a background that is the smallest of the most frequent
combinations of the named values. They list each value that this background does not describe once,
beside the values of its kind with the same combination and in their order, with the named
values first and with greater combinations before smaller ones; and the values without a name have
exactly their flags raised. They lead each named value to its combination, and no other clauses that
do so list fewer named values. -/
theorem toText_canonical (c : Capacity) (s : CapSet) :
    ∃ m cls, (IsPrevalent c s m ∧ ∀ k, IsPrevalent c s k → k = m) ∧
      s.toText c = String.ofList ([' '].intercalate (cls.map Clause.render)) ∧
      (Denotes c (s.toText c).toList cls ∧
        ∀ cls', Denotes c (s.toText c).toList cls' → cls' = cls) ∧
      IsCanonical c s m cls ∧
      (∀ f v, v < c.named →
        ((cls.foldl (Clause.apply c) empty).flag f).contains v = (s.flag f).contains v) ∧
      ∀ cls' : List Clause, (∀ f v, v < c.named →
          ((cls'.foldl (Clause.apply c) empty).flag f).contains v = (s.flag f).contains v) →
        namedListings c cls ≤ namedListings c cls' := by
  have hprevalent := isPrevalent_background c s
  have hcanonical := isCanonical_clauses c s
  have hdenotes := denotes_toText c s
  exact ⟨s.background c, s.clauses c, ⟨hprevalent, fun k hk => hk.unique hprevalent⟩, rfl,
    ⟨hdenotes, fun cls' h => h.unique hdenotes⟩, hcanonical,
    fun f v hv => contains_foldl_clauses_of_lt hv f,
    fun cls' hsame => hcanonical.namedListings_least hprevalent hsame⟩

/-- Of two combinations that are equally frequent, the smaller one is the background. -/
example : toText ⟨.first, 4, by decide, by decide⟩
    ⟨Mask.ofList [2, 3], Mask.ofList [0, 1], ∅, none⟩ =
    "=e cap_chown,cap_dac_override+p-e" := by decide +kernel

end CapSet

end Capabilities
