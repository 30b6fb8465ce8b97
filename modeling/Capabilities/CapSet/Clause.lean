import Capabilities.CapSet
import Capabilities.Value

/-!
# Clauses

A clause of a capability text addresses some values and then applies groups of
flag letters to them: `=` lowers the addressed values and raises the letters,
`+` raises and `-` lowers. A clause without names is the background: its `=`
lowers everything, and its letters apply to the values that have a name.
-/

namespace Capabilities

namespace Clause

/-- What a group does to the addressed values. -/
inductive Operation
  | reset
  | raise
  | lower
deriving DecidableEq

namespace Operation

def symbol : Operation → Char
  | reset => '='
  | raise => '+'
  | lower => '-'

def ofSymbol? (c : Char) : Option Operation :=
  [reset, raise, lower].find? fun op => op.symbol == c

@[simp] theorem ofSymbol?_symbol (op : Operation) : ofSymbol? op.symbol = some op := by
  cases op <;> decide

end Operation

/-- An operation and the letters that follow it. -/
structure Group where
  operation : Operation
  flags : List Flag
deriving DecidableEq

/-- Which values a clause addresses. -/
inductive Address
  | background
  | all
  | listed (values : List Value)
deriving DecidableEq

/-- The written values, with a comma between them. -/
def renderValues (vs : List Value) : List Char :=
  [','].intercalate (vs.map Value.render)

namespace Address

def render : Address → List Char
  | background => []
  | all => ['a', 'l', 'l']
  | listed vs => renderValues vs

/-- Read the part of a clause before its first operation. -/
def read? (c : Capacity) (cs : List Char) : Option Address :=
  if cs = [] then some background
  else if cs = ['a', 'l', 'l'] then some all
  else ((cs.splitOn ',').mapM (Value.read? c)).map listed

/-- The addressed values. -/
def mask (c : Capacity) : Address → Mask
  | background => Mask.below c.named
  | all => Mask.below c.count
  | listed vs => Mask.ofList vs

end Address

namespace Group

def render (g : Group) : List Char := g.operation.symbol :: g.flags.map Flag.letter

/-- Split the operations of a clause into the letters before the first symbol and the
groups that follow. -/
def scan? : List Char → Option (List Flag × List Group)
  | [] => some ([], [])
  | ch :: rest =>
      (scan? rest).bind fun found =>
        match Operation.ofSymbol? ch with
        | some op => some ([], ⟨op, found.1⟩ :: found.2)
        | none => (Flag.ofLetter? ch).map fun f => (f :: found.1, found.2)

/-- Only a reset may come without letters. -/
def isComplete (g : Group) : Bool :=
  g.operation == .reset || !g.flags.isEmpty

/-- Read the groups of a clause: at least one, all complete, and no letter before the
first. -/
def readAll? (cs : List Char) : Option (List Group) :=
  match scan? cs with
  | some ([], g :: gs) => if (g :: gs).all isComplete then some (g :: gs) else none
  | _ => none

/-- Apply a group to the addressed values of a set. -/
def apply (c : Capacity) (a : Address) (s : CapSet) (g : Group) : CapSet :=
  let start :=
    match g.operation, a with
    | .reset, .background => s.clear
    | .reset, _ => Flag.all.foldl (fun s f => s.put f false (a.mask c)) s
    | _, _ => s
  g.flags.foldl (fun s f => s.put f (g.operation != .lower) (a.mask c)) start

end Group

end Clause

/-- Some values and the groups applied to them. -/
structure Clause where
  address : Clause.Address
  groups : List Clause.Group
deriving DecidableEq

namespace Clause

def render (cl : Clause) : List Char :=
  cl.address.render ++ cl.groups.flatMap Group.render

def isSymbol (ch : Char) : Bool := (Operation.ofSymbol? ch).isSome

/-- A background clause begins with a reset. -/
def isAnchored (cl : Clause) : Bool :=
  cl.address != .background || (cl.groups.head?.map (·.operation)) == some .reset

/-- Read one clause. -/
def read? (c : Capacity) (cs : List Char) : Option Clause :=
  let before := cs.takeWhile fun ch => !isSymbol ch
  let after := cs.dropWhile fun ch => !isSymbol ch
  (Group.readAll? after).bind fun groups =>
    (Address.read? c before).bind fun address =>
      let cl : Clause := ⟨address, groups⟩
      if cl.isAnchored then some cl else none

/-- Apply the groups of a clause, in order. -/
def apply (c : Capacity) (s : CapSet) (cl : Clause) : CapSet :=
  cl.groups.foldl (Group.apply c cl.address) s

end Clause

end Capabilities
