import Backslice.Proofs.Graph.Paths
import Mathlib.Data.Set.Finite.List
import Mathlib.Order.WellFoundedSet

/-! # Graphs without cycles

Where no block leads back to itself, what holds of a block whenever it holds of all blocks before it holds of every
block. -/

namespace Backslice

set_option autoImplicit false

namespace Graph

variable {g : Graph} {u v x : Int}

/-- A way with at least one edge leads from `u` to `v`. -/
def Before (g : Graph) : Int → Int → Prop := Relation.TransGen fun u v => v ∈ g.successors u

/-- No block leads back to itself. -/
def Acyclic (g : Graph) : Prop := ∀ u, ¬ g.Before u u

theorem before_of_edge {e : Edge} (he : e ∈ g.edges.leaving u) : g.Before u e.target :=
  .single (mem_successors.mpr ⟨e, he, rfl⟩)

theorem Connected.before_of_predecessor (h : g.Connected) {e : Edge} (he : e ∈ g.predecessors v) :
    g.Before e.target v :=
  .single (h.mem_successors_of_mem_predecessors he)

theorem before_of_path {source : Int} {p : List Int} (hp : g.edges.Path source p v) (hx : x ∈ p) : g.Before x v := by
  induction hp with
  | start => cases hx
  | @edge p u e _ he ih =>
    rcases List.mem_append.mp hx with hx | hx
    · exact (ih hx).trans (before_of_edge he)
    · exact List.mem_singleton.mp hx ▸ before_of_edge he

theorem Connected.hasBlock_of_before (hg : g.Connected) (h : g.Before u v) : g.hasBlock u = true := by
  obtain ⟨w, hw, -⟩ := Relation.TransGen.head'_iff.mp h
  obtain ⟨e, he, -⟩ := mem_successors.mp hw
  exact (hg.ends u e he).1

/-- Induction on the order of the blocks. -/
theorem Acyclic.induction (h : g.Acyclic) (hg : g.Connected) {P : Int → Prop}
    (hstep : ∀ v, g.hasBlock v = true → (∀ u, g.Before u v → P u) → P v) (hv : g.hasBlock v = true) : P v := by
  have hfinite : {u | g.hasBlock u = true}.Finite := by
    simp only [hasBlock_iff_mem_keys]
    exact List.finite_toSet g.blocks.keys
  have : IsStrictOrder Int g.Before := { irrefl := h, trans := fun _ _ _ => .trans }
  have hwf : {u | g.hasBlock u = true}.WellFoundedOn g.Before := hfinite.wellFoundedOn
  exact hwf.induction hv fun v hv ih => hstep v hv fun u hu => ih u (hg.hasBlock_of_before hu) hu

theorem acyclic_of_increasing (h : ∀ u e, e ∈ g.edges.leaving u → u < e.target) : g.Acyclic := by
  have hlt : ∀ {u v}, g.Before u v → u < v := by
    intro u v huv
    induction huv with
    | single hv =>
      obtain ⟨e, he, rfl⟩ := mem_successors.mp hv
      exact h _ e he
    | tail _ hv ih =>
      obtain ⟨e, he, rfl⟩ := mem_successors.mp hv
      exact ih.trans (h _ e he)
  exact fun u huu => lt_irrefl u (hlt huu)

/-! ## A graph with two ways -/

/-- Writes two memory slots, on one way in the one order and on the other way in the other, and joins. -/
def twoWaysBlocks : List (Int × Block) :=
  [(0, { body := .data [{ label := .code 0, op := .localGet, arg := .int 0 }] }),
    (1, { body := .control { label := .code 1, op := .brIf } }),
    (2, { body := .data [{ label := .code 2, op := .localGet, arg := .int 0 },
      { label := .code 3, op := .localGet, arg := .int 0 }, { label := .code 4, op := .store, arg := .int 0 },
      { label := .code 5, op := .localGet, arg := .int 0 }, { label := .code 6, op := .localGet, arg := .int 0 },
      { label := .code 7, op := .store, arg := .int 4 }] }),
    (3, { body := .data [{ label := .code 8, op := .localGet, arg := .int 0 },
      { label := .code 9, op := .localGet, arg := .int 1 }, { label := .code 10, op := .store, arg := .int 4 },
      { label := .code 11, op := .localGet, arg := .int 0 }, { label := .code 12, op := .localGet, arg := .int 1 },
      { label := .code 13, op := .store, arg := .int 0 }] }),
    (4, { body := .merge })]

def twoWaysArrows : List Arrow :=
  [{ source := 0, target := 1 }, { source := 1, target := 2, cond := some true },
    { source := 1, target := 3, cond := some false }, { source := 2, target := 4 }, { source := 3, target := 4 }]

def twoWays (swapped : Bool) : Graph :=
  .ofArrows { args := [.i32, .i32] } twoWaysBlocks (if swapped then twoWaysArrows.reverse else twoWaysArrows) 0 4
    "twoWays" 0

theorem twoWays_wellFormed (swapped : Bool) : (twoWays swapped).WellFormed where
  built := ⟨_, _, _, _, _, _, _, rfl⟩
  ends := forall_leaving_of_entries (by cases swapped <;> decide)
  entry_block := by cases swapped <;> decide
  exit_block := by cases swapped <;> decide
  entry_free := by cases swapped <;> decide
  reachable := reachable_of_smaller (by cases swapped <;> decide)

theorem twoWays_acyclic (swapped : Bool) : (twoWays swapped).Acyclic :=
  acyclic_of_increasing (forall_leaving_of_entries (by cases swapped <;> decide))

end Graph
end Backslice
