/-!
# Tables

A table assigns contents to keys and keeps the keys in the order of their first
assignment.
-/

namespace Capabilities

structure Table (κ α : Type) where
  entries : List (κ × α)

namespace Table

variable {κ α : Type} [DecidableEq κ]

def empty : Table κ α := ⟨[]⟩

def find? (t : Table κ α) (k : κ) : Option α := t.entries.lookup k

/-- Replace the content of a key in a list of entries, or add an entry at the end. -/
def assign (k : κ) (a : α) : List (κ × α) → List (κ × α)
  | [] => [(k, a)]
  | (k', a') :: rest => if k = k' then (k, a) :: rest else (k', a') :: assign k a rest

def insert (t : Table κ α) (k : κ) (a : α) : Table κ α := ⟨assign k a t.entries⟩

theorem lookup_cons_ite (k k' : κ) (a : α) (rest : List (κ × α)) :
    ((k, a) :: rest).lookup k' = if k' = k then some a else rest.lookup k' := by
  by_cases h : k' = k
  · simp [h]
  · rw [List.lookup_cons, beq_eq_false_iff_ne.mpr h, if_neg h]

theorem lookup_assign (k k' : κ) (a : α) (entries : List (κ × α)) :
    (assign k a entries).lookup k' = if k' = k then some a else entries.lookup k' := by
  induction entries with
  | nil => exact lookup_cons_ite k k' a []
  | cons entry rest ih =>
      obtain ⟨key, content⟩ := entry
      by_cases hk : k = key
      · subst hk
        rw [assign, if_pos rfl, lookup_cons_ite, lookup_cons_ite]
        split <;> rfl
      · rw [assign, if_neg hk, lookup_cons_ite, lookup_cons_ite, ih]
        by_cases h' : k' = key
        · rw [if_pos h', if_pos h', if_neg fun h => hk (h.symm.trans h')]
        · rw [if_neg h', if_neg h']

@[simp] theorem find?_insert (t : Table κ α) (k k' : κ) (a : α) :
    (t.insert k a).find? k' = if k' = k then some a else t.find? k' :=
  lookup_assign k k' a t.entries

end Table

end Capabilities
