import Backslice.Data.Table

/-! # Edges of a flow graph -/

namespace Backslice

set_option autoImplicit false

/-- One end of an edge, and for the two ways out of a conditional branch the outcome that takes it. -/
structure Edge where
  target : Int
  cond : Option Bool := none
deriving DecidableEq, Repr

/-- The edges at each block, in one direction. -/
abbrev Edges := Table Int (List Edge)

namespace Edges

def leaving (es : Edges) (source : Int) : List Edge := (es.find? source).getD []

/-- Adds an edge at `source` unless it is there. -/
def add (es : Edges) (source : Int) (e : Edge) : Edges :=
  if e ∈ es.leaving source then es else es.insert source (es.leaving source ++ [e])

/-- Removes all edges from `source` to `target`; `source` stays listed. -/
def remove (es : Edges) (source target : Int) : Edges :=
  es.map fun k l => if k = source then l.filter (·.target ≠ target) else l

/-- Removes `source` with all its edges. -/
def removeSource (es : Edges) (source : Int) : Edges := es.erase source

def targets (es : Edges) (source : Int) : List Int := (es.leaving source).map (·.target)

def count (es : Edges) : Nat := es.values.flatten.length

/-! ## Edges after a change -/

theorem mem_leaving_add {es : Edges} {source source' : Int} {e e' : Edge} :
    e' ∈ (add es source e).leaving source' ↔ e' ∈ es.leaving source' ∨ (source' = source ∧ e' = e) := by
  unfold add
  split
  · rename_i h
    refine ⟨Or.inl, fun h' => h'.elim id fun ⟨hs, he⟩ => ?_⟩
    rw [hs, he]
    exact h
  · by_cases hs : source = source'
    · subst hs
      simp [leaving]
    · have hs' : ¬ source' = source := fun h => hs h.symm
      simp [leaving, hs, hs']

theorem leaving_remove (es : Edges) (source target source' : Int) :
    (remove es source target).leaving source' =
      if source' = source then (es.leaving source').filter (·.target ≠ target) else es.leaving source' := by
  rw [leaving, remove, Table.find?_map, leaving, Table.find?]
  cases h : es.entries.find? fun e => e.1 == source' with
  | none => simp
  | some e =>
    have he : e.1 = source' := by simpa using List.find?_some h
    subst he
    simp

theorem leaving_removeSource (es : Edges) (source source' : Int) :
    (removeSource es source).leaving source' = if source = source' then [] else es.leaving source' := by
  rw [leaving, removeSource, Table.find?_erase]
  by_cases h : source = source' <;> simp [h, leaving]

end Edges
end Backslice
