import Capabilities.CapSet.Clause

/-!
# The text of a capability set

A set is written as clauses separated by spaces. The first clause gives the
background, the most frequent combination of flags among the named values; one
clause follows for each other combination, in descending order, and then the
values without a name, which the background lowers, are raised in the same
order. If the background raises nothing, the first clause of named values
resets them instead of following an empty one. In a text that is read, any blanks
may separate the clauses.
-/

namespace Capabilities

namespace Text

/-- The ranges of code points with the property White_Space. -/
def blankRanges : List (Nat × Nat) :=
  [(0x09, 0x0D), (0x20, 0x20), (0x85, 0x85), (0xA0, 0xA0), (0x1680, 0x1680),
   (0x2000, 0x200A), (0x2028, 0x2029), (0x202F, 0x202F), (0x205F, 0x205F), (0x3000, 0x3000)]

def isBlank (c : Char) : Bool :=
  blankRanges.any fun range => range.1 ≤ c.toNat && c.toNat ≤ range.2

/-- The maximal runs of characters that are no blanks, in order. -/
def words (cs : List Char) : List (List Char) :=
  (cs.splitOnP isBlank).filter fun word => !word.isEmpty

end Text

namespace CapSet

/-- A combination of flags, as a number below eight: effective counts one, permitted two
and inheritable four. -/
abbrev Combination := Nat

def combination (s : CapSet) (v : Value) : Combination :=
  (if s.effective.contains v then 1 else 0) + (if s.permitted.contains v then 2 else 0) +
    (if s.inheritable.contains v then 4 else 0)

/-- The flags of a combination. -/
def Combination.flags (k : Combination) : List Flag :=
  Flag.all.filter fun f => k.testBit f.position

/-- All combinations, in descending order. -/
def combinations : List Combination := [7, 6, 5, 4, 3, 2, 1, 0]

/-- The named values with a combination, in ascending order. -/
def namedWith (c : Capacity) (s : CapSet) (k : Combination) : List Value :=
  (List.range c.named).filter fun v => s.combination v == k

/-- The values without a name that have a combination, in ascending order. -/
def unnamedWith (c : Capacity) (s : CapSet) (k : Combination) : List Value :=
  (List.range' c.named (c.count - c.named)).filter fun v => s.combination v == k

/-- The most frequent combination among the named values, the smallest one of equals. -/
def background (c : Capacity) (s : CapSet) : Combination :=
  combinations.foldl (fun best k =>
    if (s.namedWith c best).length ≤ (s.namedWith c k).length then k else best) 7

/-- The groups that turn one combination into another. -/
def changes (before after : Combination) : List Clause.Group :=
  let up := Combination.flags (after &&& (7 ^^^ before))
  let down := Combination.flags (before &&& (7 ^^^ after))
  (if up.isEmpty then [] else [⟨.raise, up⟩]) ++
    (if down.isEmpty then [] else [⟨.lower, down⟩])

/-- The combinations, apart from the background, that some named value has. -/
def deviations (c : Capacity) (s : CapSet) : List Combination :=
  combinations.filter fun k => k != s.background c && !(s.namedWith c k).isEmpty

/-- The combinations, apart from the empty one, that some value without a name has. -/
def additions (c : Capacity) (s : CapSet) : List Combination :=
  combinations.filter fun k => k != 0 && !(s.unnamedWith c k).isEmpty

/-- The clause that changes the named values of a combination away from the background. -/
def deviation (c : Capacity) (s : CapSet) (k : Combination) : Clause :=
  ⟨.listed (s.namedWith c k), changes (s.background c) k⟩

/-- The clauses for the named values. -/
def namedClauses (c : Capacity) (s : CapSet) : List Clause :=
  match s.background c, s.deviations c with
  | 0, k :: rest =>
      ⟨.listed (s.namedWith c k), [⟨.reset, k.flags⟩]⟩ :: rest.map (s.deviation c)
  | k, rest => ⟨.background, [⟨.reset, k.flags⟩]⟩ :: rest.map (s.deviation c)

/-- The clauses that describe a set. -/
def clauses (c : Capacity) (s : CapSet) : List Clause :=
  s.namedClauses c ++
    (s.additions c).map fun k => ⟨.listed (s.unnamedWith c k), [⟨.raise, k.flags⟩]⟩

def render (c : Capacity) (s : CapSet) : List Char :=
  [' '].intercalate ((s.clauses c).map Clause.render)

/-- Read clauses separated by blanks; there must be at least one. -/
def read? (c : Capacity) (cs : List Char) : Option CapSet :=
  match Text.words cs with
  | [] => none
  | ws => (ws.mapM (Clause.read? c)).map (·.foldl (Clause.apply c) empty)

def toText (c : Capacity) (s : CapSet) : String := String.ofList (s.render c)

def ofText (c : Capacity) (text : String) : Except Fault CapSet :=
  match read? c text.toList with
  | some s => .ok s
  | none => .error .badText

/-- The text of a set that may be missing, which is not the same as an empty one. -/
def describe (c : Capacity) : Option CapSet → String
  | some s => s.toText c
  | none => "<invalid>"

/-- The structured form of a set. -/
def structured (c : Capacity) (s : CapSet) : String :=
  "Set(\"" ++ s.toText c ++ "\")"

end CapSet

end Capabilities
