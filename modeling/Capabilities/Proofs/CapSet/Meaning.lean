import Capabilities.Proofs.CapSet.TextRoundTrip
import Capabilities.Proofs.Clause.Grammar
import Capabilities.Proofs.Text.Separation

/-!
# The meaning of a capability text

A text is made of clauses with blanks between them. The texts that the grammar
admits are accepted, and all others are refused as bad texts. In such a text, every flag of every value has a history of its own: it begins
lowered, and each group of each clause, in order, lowers it, raises it or leaves
it. The rule for one group looks only at the letters of the group and at whether
its clause names the value. The set that is read from a text has exactly the
flags that end up raised.
-/

namespace Capabilities

namespace CapSet

/-- A text: at least one clause, with blanks in between and perhaps around. -/
def IsText (c : Capacity) (cs : List Char) : Prop :=
  ∃ ws, Text.Spaced cs ws ∧ ws ≠ [] ∧ ∀ w ∈ ws, ∃ cl, Clause.Denotes c w cl

theorem isSome_read?_iff {c : Capacity} {cs : List Char} :
    (read? c cs).isSome = true ↔ IsText c cs := by
  have hwords (ws : List (List Char)) :
      (ws.mapM (Clause.read? c)).isSome = true ↔ ∀ w ∈ ws, ∃ cl, Clause.Denotes c w cl := by
    rw [Text.isSome_mapM_iff]
    simp only [Option.isSome_iff_exists, Clause.read?_eq_some_iff]
  simp only [IsText, Text.spaced_iff, exists_eq_left']
  unfold read?
  split
  next hnil => simp [hnil]
  next hsome => simpa [hwords] using fun _ => hsome

/-- Reading accepts exactly the texts that the grammar admits, and every other text is refused
as a bad one. -/
theorem ofText_accepts_iff_isText (c : Capacity) (text : String) :
    ((∃ s, ofText c text = .ok s) ↔ IsText c text.toList) ∧
      (¬ IsText c text.toList → ofText c text = .error .badText) := by
  rw [← isSome_read?_iff, ofText]
  cases read? c text.toList <;> simp

end CapSet

namespace Clause

variable {c : Capacity} {f : Flag} {v : Value}

/-- Whether a value is named, be it on its own or together with all others. -/
def Address.names (v : Value) : Address → Bool
  | background => false
  | all => true
  | listed vs => vs.contains v

/-- Whether the letters of a clause are for a value. A clause without names is for the values
that have a name. -/
def Address.reaches (c : Capacity) (v : Value) : Address → Bool
  | background => v < min Value.nameCount c.count
  | a => a.names v

/-- What becomes of a flag of a value under a group: a reset lowers it if the value is named or
if there are no names, and then the letters raise or lower it if they are for the value. -/
def Group.rule (c : Capacity) (f : Flag) (v : Value) (on : Bool) (a : Address) (g : Group) :
    Bool :=
  let kept := if g.operation = .reset ∧ (a.names v ∨ a = .background) then false else on
  if f ∈ g.flags ∧ a.reaches c v then g.operation != .lower else kept

/-- The groups of clauses one after the other, each with the names that it is for. -/
def steps (cls : List Clause) : List (Address × Group) :=
  cls.flatMap fun cl => cl.groups.map fun g => (cl.address, g)

/-- What has become of a flag of a value after clauses, beginning with a lowered flag. -/
def outcome (c : Capacity) (f : Flag) (v : Value) (cls : List Clause) : Bool :=
  (steps cls).foldl (fun on step => step.2.rule c f v on step.1) false

theorem steps_cons (cl : Clause) (cls : List Clause) :
    steps (cl :: cls) = (cl.groups.map fun g => (cl.address, g)) ++ steps cls := rfl

theorem Address.contains_mask (hv : v < c.count) (a : Address) :
    (a.mask c).contains v = a.reaches c v := by
  cases a with
  | background => simp [mask, reaches, Capacity.named]
  | all => simp [mask, reaches, names, hv]
  | listed vs => simp [mask, reaches, names]

theorem Group.effect_eq_rule (hv : v < c.count) (a : Address) (g : Group) (on : Bool) :
    g.effect c a f v on = g.rule c f v on a := by
  simp only [effect, rule, Address.contains_mask hv]
  cases a with
  | background => simp
  | all => simp [Address.reaches, Address.names]
  | listed vs => simp [Address.reaches]

/-- Apply the group of a step to a set. -/
def applyStep (c : Capacity) (s : CapSet) (step : Address × Group) : CapSet :=
  step.2.apply c step.1 s

theorem foldl_applyStep (c : Capacity) (cls : List Clause) (s : CapSet) :
    (steps cls).foldl (applyStep c) s = cls.foldl (apply c) s := by
  rw [steps, List.foldl_flatMap]
  simp only [List.foldl_map]
  rfl

theorem contains_foldl_applyStep (hv : v < c.count) (sts : List (Address × Group))
    (s : CapSet) :
    ((sts.foldl (applyStep c) s).flag f).contains v =
      sts.foldl (fun on step => step.2.rule c f v on step.1) ((s.flag f).contains v) := by
  induction sts generalizing s with
  | nil => rfl
  | cons step rest ih =>
      rw [List.foldl_cons, List.foldl_cons, ih, applyStep, Group.contains_apply,
        Group.effect_eq_rule hv]

theorem contains_foldl_apply_eq_outcome (hv : v < c.count) (cls : List Clause) :
    ((cls.foldl (apply c) CapSet.empty).flag f).contains v = outcome c f v cls := by
  rw [← foldl_applyStep, contains_foldl_applyStep hv, CapSet.flag_empty, Mask.contains_empty]
  rfl

/-- A group raises nothing but addressed values. -/
theorem Group.fits_apply {a : Address} (ha : ∀ v, (a.mask c).contains v = true → v < c.count)
    {s : CapSet} (hs : s.fits c = true) (g : Group) : (g.apply c a s).fits c = true := by
  rw [CapSet.fits_iff] at hs ⊢
  intro f v hv
  rw [contains_apply, effect] at hv
  split at hv
  next h => exact ha v h.2
  next =>
    split at hv
    next => cases hv
    next => exact hs f v hv

theorem fits_foldl_applyStep {sts : List (Address × Group)}
    (h : ∀ step ∈ sts, ∀ v, (step.1.mask c).contains v = true → v < c.count)
    {s : CapSet} (hs : s.fits c = true) : (sts.foldl (applyStep c) s).fits c = true := by
  induction sts generalizing s with
  | nil => exact hs
  | cons step rest ih =>
      obtain ⟨hstep, hrest⟩ := List.forall_mem_cons.mp h
      exact ih hrest (Group.fits_apply hstep hs step.2)

/-- The first group of a clause without names is a reset. -/
theorem Denotes.reset_of_background {cs : List Char} {cl : Clause} (h : Denotes c cs cl)
    (hnames : cl.address = .background) :
    ∃ fs gs, cl.groups = ⟨.reset, fs⟩ :: gs := by
  obtain ⟨haddress, -, hgroups, hfirst⟩ := h
  cases hnames
  cases haddress
  obtain ⟨⟨op, fs⟩, gs, rfl, hhead⟩ := hgroups.head?
  rw [hfirst rfl] at hhead
  have hreset : op = .reset := by
    cases op with
    | reset => rfl
    | raise => cases hhead
    | lower => cases hhead
  exact ⟨fs, gs, by rw [hreset]⟩

/-- A reset without names does not look at what was before. -/
theorem Group.rule_reset_background (fs : List Flag) (on : Bool) :
    Group.rule c f v on .background ⟨.reset, fs⟩ =
      Group.rule c f v false .background ⟨.reset, fs⟩ := by
  simp [rule]

/-- Whatever stands before a clause without names has no part in the outcome. -/
theorem outcome_append_background {before after : List Clause} {cl : Clause} {cs : List Char}
    (h : Denotes c cs cl) (hnames : cl.address = .background) :
    outcome c f v (before ++ cl :: after) = outcome c f v (cl :: after) := by
  obtain ⟨fs, gs, hgroups⟩ := h.reset_of_background hnames
  have hsteps : steps (cl :: after) =
      (.background, ⟨.reset, fs⟩) :: (gs.map fun g => (.background, g)) ++ steps after := by
    rw [steps_cons, hgroups, hnames]
    rfl
  have happend : steps (before ++ cl :: after) = steps before ++ steps (cl :: after) :=
    List.flatMap_append
  rw [outcome, outcome, happend, hsteps]
  simp only [List.cons_append, List.foldl_append, List.foldl_cons, Group.rule_reset_background]

end Clause

namespace CapSet

variable {c : Capacity}

/-- A text denotes what its words denote one by one, and it has at least one word. -/
def Denotes (c : Capacity) (cs : List Char) (cls : List Clause) : Prop :=
  ∃ ws, Text.Spaced cs ws ∧ ws ≠ [] ∧ List.Forall₂ (Clause.Denotes c) ws cls

theorem mapM_read?_eq_some_iff {ws : List (List Char)} {cls : List Clause} :
    ws.mapM (Clause.read? c) = some cls ↔ List.Forall₂ (Clause.Denotes c) ws cls := by
  simp only [Text.mapM_eq_some_iff, Clause.read?_eq_some_iff]

theorem read?_eq_some_iff {cs : List Char} {s : CapSet} :
    read? c cs = some s ↔ ∃ cls, Denotes c cs cls ∧ cls.foldl (Clause.apply c) empty = s := by
  have hmatch : read? c cs =
      if Text.words cs = [] then none
      else ((Text.words cs).mapM (Clause.read? c)).map (·.foldl (Clause.apply c) empty) := by
    rw [read?]
    split
    next hnil => rw [if_pos hnil]
    next hsome => rw [if_neg hsome]
  rw [hmatch, Option.ite_none_left_eq_some, Option.map_eq_some_iff]
  simp only [Denotes, Text.spaced_iff, exists_eq_left', ← mapM_read?_eq_some_iff]
  constructor
  · rintro ⟨hne, cls, hcls, hset⟩
    exact ⟨cls, ⟨hne, hcls⟩, hset⟩
  · rintro ⟨cls, ⟨hne, hcls⟩, hset⟩
    exact ⟨hne, cls, hcls, hset⟩

theorem ofText_eq_ok_iff {text : String} {s : CapSet} :
    ofText c text = .ok s ↔ read? c text.toList = some s := by
  rw [ofText]
  cases read? c text.toList <;> simp

/-- No text denotes different clauses. -/
theorem Denotes.unique {cs : List Char} {cls cls' : List Clause} (h : Denotes c cs cls)
    (h' : Denotes c cs cls') : cls = cls' := by
  obtain ⟨ws, hws, -, hcls⟩ := h
  obtain ⟨ws', hws', -, hcls'⟩ := h'
  obtain rfl : ws = ws' := (Text.spaced_iff.mp hws).symm.trans (Text.spaced_iff.mp hws')
  rw [← mapM_read?_eq_some_iff] at hcls hcls'
  exact Option.some.inj (hcls.symm.trans hcls')

theorem Denotes.exists_denotes {cs : List Char} {cls : List Clause} (h : Denotes c cs cls)
    {cl : Clause} (hcl : cl ∈ cls) : ∃ w, Clause.Denotes c w cl := by
  obtain ⟨ws, -, -, hcls⟩ := h
  obtain ⟨w, -, hw⟩ := Text.exists_read_of_mem (mapM_read?_eq_some_iff.mpr hcls) hcl
  exact ⟨w, Clause.read?_eq_some_iff.mp hw⟩

theorem Denotes.lt_count_of_mem_steps {cs : List Char} {cls : List Clause}
    (h : Denotes c cs cls) {step : Clause.Address × Clause.Group} (hstep : step ∈ Clause.steps cls)
    {v : Value} (hv : (step.1.mask c).contains v = true) : v < c.count := by
  obtain ⟨cl, hcl, hmem⟩ := List.mem_flatMap.mp hstep
  obtain ⟨g, -, rfl⟩ := List.mem_map.mp hmem
  obtain ⟨w, hnames, -, -, -⟩ := h.exists_denotes hcl
  exact hnames.lt_count hv

/-- No group on the way through a text raises a value that is not supported. -/
theorem Denotes.fits_foldl_applyStep {cs : List Char} {cls : List Clause} (h : Denotes c cs cls)
    {first rest : List (Clause.Address × Clause.Group)}
    (hsteps : Clause.steps cls = first ++ rest) :
    (first.foldl (Clause.applyStep c) empty).fits c = true := by
  have hfirst : ∀ step ∈ first, ∀ v, (step.1.mask c).contains v = true → v < c.count := by
    intro step hstep v hv
    have hmem : step ∈ Clause.steps cls := hsteps ▸ List.mem_append_left rest hstep
    exact h.lt_count_of_mem_steps hmem hv
  exact Clause.fits_foldl_applyStep hfirst (fits_empty c)

theorem fits_of_ofText {text : String} {s : CapSet} (h : ofText c text = .ok s) :
    s.fits c = true := by
  obtain ⟨cls, hcls, rfl⟩ := read?_eq_some_iff.mp (ofText_eq_ok_iff.mp h)
  rw [← Clause.foldl_applyStep]
  exact hcls.fits_foldl_applyStep (List.append_nil _).symm

/-- A text that is accepted denotes clauses, and the set that is read from it has raised exactly
what their groups leave raised. Nothing beyond the supported values is raised on the way, and
a clause without names makes everything before it void. -/
theorem ofText_outcome {c : Capacity} {text : String} {s : CapSet} (h : ofText c text = .ok s) :
    ∃ cls, Denotes c text.toList cls ∧ (∀ cls', Denotes c text.toList cls' → cls' = cls) ∧
      (∀ f v, v < c.count → (s.flag f).contains v = Clause.outcome c f v cls) ∧
      (∀ f v, (s.flag f).contains v = true → v < c.count) ∧
      (∀ first rest, Clause.steps cls = first ++ rest →
        ∀ f v, ((first.foldl (Clause.applyStep c) empty).flag f).contains v = true →
          v < c.count) ∧
      ∀ before cl after, cls = before ++ cl :: after → cl.address = .background →
        ∀ f v, v < c.count → (s.flag f).contains v = Clause.outcome c f v (cl :: after) := by
  obtain ⟨cls, hcls, rfl⟩ := read?_eq_some_iff.mp (ofText_eq_ok_iff.mp h)
  have hbit (f : Flag) (v : Value) (hv : v < c.count) :
      ((cls.foldl (Clause.apply c) empty).flag f).contains v = Clause.outcome c f v cls :=
    Clause.contains_foldl_apply_eq_outcome hv cls
  refine ⟨cls, hcls, fun cls' h' => h'.unique hcls, hbit, fits_iff.mp (fits_of_ofText h), ?_, ?_⟩
  · intro first rest hsteps
    exact fits_iff.mp (hcls.fits_foldl_applyStep hsteps)
  · rintro before cl after rfl hnames f v hv
    obtain ⟨w, hw⟩ := hcls.exists_denotes (List.mem_append_right before List.mem_cons_self)
    rw [hbit f v hv, Clause.outcome_append_background hw hnames]

/-- A text that begins anew in the middle, names a value three times in one clause, and goes
beyond the values with a name. -/
def renewedText : String := "42+ei cap_fowner=i =p CAP_CHOWN,0,cap_chown=ei+p-e 41+e"

/-- The named values are permitted, and the value without a name before the new beginning is
lowered. -/
def renewedSet : CapSet := ⟨⟨0x20000000000⟩, ⟨0x1FFFFFFFFFF⟩, ⟨0x1⟩, none⟩

theorem ofText_outcome_renewedText :
    ofText beyondNames renewedText = .ok renewedSet ∧
    ∃ cls, Denotes beyondNames renewedText.toList cls ∧ ∀ f v, v < beyondNames.count →
      (renewedSet.flag f).contains v = Clause.outcome beyondNames f v cls := by
  have hread : ofText beyondNames renewedText = .ok renewedSet := by decide +kernel
  obtain ⟨cls, hcls, -, hbit, -⟩ := ofText_outcome hread
  exact ⟨hread, cls, hcls, hbit⟩

end CapSet

end Capabilities
