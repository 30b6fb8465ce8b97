import Capabilities.Inheritance
import Capabilities.Value

/-!
# The text of an inheritance tuple

A tuple is written as one entry for each value that it mentions, in ascending
order, with commas between them. An entry is a value with marks before it:
`!` blocks the value, `^` makes it ambient and inheritable, and `%` makes it
inheritable, which is also what an entry without marks does. The empty tuple
has the empty text.
-/

namespace Capabilities.Inheritance

def isMark (ch : Char) : Bool := ch == '!' || ch == '^' || ch == '%'

/-- A value and the marks before it. -/
structure Entry where
  marks : List Char
  value : Value
deriving DecidableEq

namespace Entry

def render (e : Entry) : List Char := e.marks ++ e.value.render

/-- Read the marks and the value of an entry. -/
def read? (c : Capacity) (cs : List Char) : Option Entry :=
  (Value.read? c (cs.dropWhile isMark)).map fun v => ⟨cs.takeWhile isMark, v⟩

def blocks (e : Entry) : Bool := e.marks.contains '!'

def makesAmbient (e : Entry) : Bool := e.marks.contains '^'

def makesInheritable (e : Entry) : Bool :=
  e.marks.isEmpty || e.marks.contains '^' || e.marks.contains '%'

/-- Add what an entry grants to a tuple. -/
def apply (x : Inheritance) (e : Entry) : Inheritance :=
  let grant (yes : Bool) (m : Mask) : Mask := if yes then m ∪ Mask.single e.value else m
  { inheritable := grant e.makesInheritable x.inheritable
    ambient := grant e.makesAmbient x.ambient
    blocked := grant e.blocks x.blocked }

end Entry

/-- The entry of a value, if the tuple mentions it. -/
def entry? (x : Inheritance) (v : Value) : Option Entry :=
  let inh := x.inheritable.contains v
  let amb := x.ambient.contains v
  let out := x.blocked.contains v
  if inh || amb || out then
    some ⟨(if out then ['!'] else []) ++
      (if amb then ['^'] else if out && inh then ['%'] else []), v⟩
  else none

def entries (c : Capacity) (x : Inheritance) : List Entry := c.values.filterMap x.entry?

def render (c : Capacity) (x : Inheritance) : List Char :=
  [','].intercalate ((x.entries c).map Entry.render)

/-- Read entries separated by commas. -/
def read? (c : Capacity) (cs : List Char) : Option Inheritance :=
  if cs = [] then some empty
  else ((cs.splitOn ',').mapM (Entry.read? c)).map (·.foldl Entry.apply empty)

def toText (c : Capacity) (x : Inheritance) : String := String.ofList (x.render c)

def ofText (c : Capacity) (text : String) : Except Fault Inheritance :=
  match read? c text.toList with
  | some x => .ok x
  | none => .error .badText

/-- The structured form of a tuple. -/
def structured (c : Capacity) (x : Inheritance) : String :=
  "Iab(\"" ++ x.toText c ++ "\")"

end Capabilities.Inheritance
