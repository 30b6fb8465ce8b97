/-!
# Flags

The three capability vectors of a process: what it may use now, what it may
raise, and what it hands on to programs it starts. Like other enumerations, flags
travel in documents as tags: either the bare name of the case, or an object whose
only entry has that name and no content.
-/

namespace Capabilities

/-- The shapes of a document that matter to a reader of tags. -/
inductive TagForm
  | name (text : String)
  /-- An object: its keys, each with whether its content is null. -/
  | object (entries : List (String × Bool))
  | other

namespace TagForm

/-- The name that a document carries, if it has one of the two accepted shapes. -/
def name? : TagForm → Option String
  | name text => some text
  | object [(key, true)] => some key
  | _ => none

/-- The case among `all` that the document names. -/
def read? {α : Type} (all : List α) (tag : α → String) (form : TagForm) : Option α :=
  form.name?.bind fun text => all.find? fun a => tag a == text

end TagForm

/-- One of the three vectors of a capability set. -/
inductive Flag
  | effective
  | permitted
  | inheritable
deriving DecidableEq

namespace Flag

def all : List Flag := [effective, permitted, inheritable]

theorem mem_all (f : Flag) : f ∈ all := by
  cases f <;> decide

theorem exists_iff {P : Flag → Prop} :
    (∃ f, P f) ↔ P effective ∨ P permitted ∨ P inheritable := by
  constructor
  · rintro ⟨f, h⟩
    cases f with
    | effective => exact .inl h
    | permitted => exact .inr (.inl h)
    | inheritable => exact .inr (.inr h)
  · rintro (h | h | h)
    · exact ⟨effective, h⟩
    · exact ⟨permitted, h⟩
    · exact ⟨inheritable, h⟩

/-- The position of the flag in masks of flags. -/
def position : Flag → Nat
  | effective => 0
  | permitted => 1
  | inheritable => 2

theorem position_injective {f g : Flag} (h : f.position = g.position) : f = g := by
  revert h
  cases f <;> cases g <;> decide

/-- The letter of the flag in texts. -/
def letter : Flag → Char
  | effective => 'e'
  | permitted => 'p'
  | inheritable => 'i'

def ofLetter? (c : Char) : Option Flag :=
  all.find? fun f => f.letter == c

@[simp] theorem ofLetter?_letter (f : Flag) : ofLetter? f.letter = some f := by
  cases f <;> decide

/-- The name of the flag as a tag. -/
def tag : Flag → String
  | effective => "Effective"
  | permitted => "Permitted"
  | inheritable => "Inheritable"

/-- The names of the bits in masks of flags. -/
def bitNames : List String := ["EFFECTIVE", "PERMITTED", "INHERITABLE"]

end Flag

end Capabilities
