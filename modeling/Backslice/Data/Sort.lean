/-! # Sorting

A stable insertion sort: elements that neither precedes the other keep their order. -/

namespace Backslice

set_option autoImplicit false

variable {α : Type} {le : α → α → Bool}

/-- Puts `a` in front of the first element that it may precede. -/
def insertBy (le : α → α → Bool) (a : α) : List α → List α
  | [] => [a]
  | b :: rest => if le a b then a :: b :: rest else b :: insertBy le a rest

def sortBy (le : α → α → Bool) (l : List α) : List α := l.foldr (insertBy le) []

theorem insertBy_perm (a : α) (l : List α) : (insertBy le a l).Perm (a :: l) := by
  induction l with
  | nil => exact List.Perm.refl _
  | cons b rest ih =>
    rw [insertBy]
    split
    · exact List.Perm.refl _
    · exact (ih.cons b).trans (List.Perm.swap a b rest)

theorem sortBy_perm (l : List α) : (sortBy le l).Perm l := by
  induction l with
  | nil => exact List.Perm.refl _
  | cons a rest ih => exact (insertBy_perm a _).trans (ih.cons a)

theorem mem_sortBy {a : α} {l : List α} : a ∈ sortBy le l ↔ a ∈ l := (sortBy_perm l).mem_iff

end Backslice
