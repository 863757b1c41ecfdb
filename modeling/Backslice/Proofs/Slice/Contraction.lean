import Backslice.Proofs.Slice.Wiring

/-! # Contracted paths

Taking blocks out of a graph one by one contracts the paths through them. In whatever order they are taken out, an edge
between two blocks that are left stands for an edge of the original, or for a path through removed blocks that sets
out under the same condition. -/

namespace Backslice

set_option autoImplicit false

/-! ## Ways through removed blocks -/

namespace Edges

variable {es : Edges} {inner inner' : Int → Prop} {u v d : Int} {c c' : Option Bool}

/-- `es.Through inner u c v`: a way from `u` to `v` with all blocks between them in `inner`, whose first edge has the
condition `c`. -/
inductive Through (es : Edges) (inner : Int → Prop) (u : Int) (c : Option Bool) : Int → Prop
  | edge {v : Int} (he : ⟨v, c⟩ ∈ es.leaving u) : Through es inner u c v
  | step {d : Int} {e : Edge} (h : Through es inner u c d) (hd : inner d) (he : e ∈ es.leaving d) :
      Through es inner u c e.target

theorem Through.mono (h : es.Through inner u c v) (hsub : ∀ x, inner x → inner' x) : es.Through inner' u c v := by
  induction h with
  | edge he => exact .edge he
  | step _ hd he ih => exact .step ih (hsub _ hd) he

theorem Through.trans (h : es.Through inner u c d) (hd : inner d) (h' : es.Through inner d c' v) :
    es.Through inner u c v := by
  induction h' with
  | edge he => exact .step h hd he
  | step _ hd' he ih => exact .step ih hd' he

/-- One more block to go through: a way leaves it out, or is cut in two where it passes it first and last. -/
theorem through_cons_iff {index : Int} {removed : List Int} : es.Through (· ∈ index :: removed) u c v ↔
    es.Through (· ∈ removed) u c v ∨
      (es.Through (· ∈ removed) u c index ∧ ∃ c', es.Through (· ∈ removed) index c' v) := by
  constructor
  · -- each time the way comes to the new block, what follows starts over from there
    intro h
    induction h with
    | edge he => exact Or.inl (.edge he)
    | @step d e _ hd he ih =>
      rcases List.mem_cons.mp hd with rfl | hd
      · exact Or.inr ⟨ih.elim id And.left, e.cond, .edge he⟩
      · rcases ih with hbefore | ⟨hbefore, c', hafter⟩
        · exact Or.inl (.step hbefore hd he)
        · exact Or.inr ⟨hbefore, c', .step hafter hd he⟩
  · have hsub : ∀ x, x ∈ removed → x ∈ index :: removed := fun x hx => List.mem_cons_of_mem index hx
    rintro (h | ⟨hbefore, c', hafter⟩)
    · exact h.mono hsub
    · exact (hbefore.mono hsub).trans List.mem_cons_self (hafter.mono hsub)

theorem through_iff_path : es.Through inner u c v ↔
    ∃ d p, ⟨d, c⟩ ∈ es.leaving u ∧ es.Path d p v ∧ ∀ x ∈ p, inner x := by
  constructor
  · intro h
    induction h with
    | @edge v he => exact ⟨v, [], he, .start, fun x hx => by cases hx⟩
    | @step d e _ hd he ih =>
      obtain ⟨d', p, hd', hp, hinner⟩ := ih
      refine ⟨d', p ++ [d], hd', .edge hp he, fun x hx => ?_⟩
      rcases List.mem_append.mp hx with hx | hx
      · exact hinner x hx
      · exact List.mem_singleton.mp hx ▸ hd
  · rintro ⟨d, p, hd, hp, hinner⟩
    induction hp with
    | start => exact .edge hd
    | edge _ he ih =>
      exact .step (ih fun x hx => hinner x (List.mem_append_left _ hx))
        (hinner _ (List.mem_append_right _ (List.mem_singleton_self _))) he

end Edges

/-! ## Edges that are left -/

namespace Wiring

variable {w : Wiring} {es : Edges} {removed : List Int} {index : Int} {alive : Int → Prop}

/-- Between the blocks that are left lead the edges of `es` and the contracted paths through what was removed, except
from a block back to itself. -/
def Contracts (w : Wiring) (es : Edges) (removed : List Int) : Prop :=
  ∀ u v c, u ∉ removed → v ∉ removed → (⟨v, c⟩ ∈ w.edges.leaving u ↔
    ⟨v, c⟩ ∈ es.leaving u ∨ (u ≠ v ∧ es.Through (· ∈ removed) u c v))

theorem contracts_self (w : Wiring) : w.Contracts w.edges [] := by
  intro u v c _ _
  refine ⟨Or.inl, fun h => h.elim id fun ⟨_, hthrough⟩ => ?_⟩
  cases hthrough with
  | edge he => exact he
  | step _ hd => cases hd

theorem Contracts.through (h : w.Contracts es removed) {u v : Int} {c : Option Bool} (hu : u ∉ removed)
    (hv : v ∉ removed) (hne : u ≠ v) : ⟨v, c⟩ ∈ w.edges.leaving u ↔ es.Through (· ∈ removed) u c v := by
  rw [h u v c hu hv]
  exact ⟨fun hcase => hcase.elim .edge And.right, fun hthrough => Or.inr ⟨hne, hthrough⟩⟩

theorem Contracts.splice (h : w.Contracts es removed) (hw : w.Linked alive)
    (hsingle : (w.backEdges.leaving index).length ≤ 1) (hindex : index ∉ removed) :
    (w.splice index).Contracts es (index :: removed) := by
  intro u v c hu hv
  obtain ⟨hui, hu⟩ := not_or.mp (mt List.mem_cons.mpr hu)
  obtain ⟨hvi, hv⟩ := not_or.mp (mt List.mem_cons.mpr hv)
  have hin := h.through (c := c) hu hindex hui
  have hout : v ∈ w.edges.targets index ↔ ∃ c', es.Through (· ∈ removed) index c' v := by
    constructor
    · intro hv'
      obtain ⟨c', he⟩ := Edges.exists_edge hv'
      exact ⟨c', (h.through hindex hv (Ne.symm hvi)).mp he⟩
    · rintro ⟨c', hthrough⟩
      exact List.mem_map_of_mem ((h.through hindex hv (Ne.symm hvi)).mpr hthrough)
  -- Both sides now say: as before, or in to the block and out of it.
  rw [hw.mem_edges_splice hsingle, and_iff_right ⟨hui, hvi⟩, Edges.through_cons_iff, ← hin, ← hout, h u v c hu hv,
    or_assoc]
  refine or_congr_right ?_
  constructor
  · rintro (⟨hne, hold⟩ | ⟨hled, hleads, hne⟩)
    · exact ⟨hne, Or.inl hold⟩
    · exact ⟨Ne.symm hne, Or.inr ⟨hled, hleads⟩⟩
  · rintro ⟨hne, hold | ⟨hled, hleads⟩⟩
    · exact Or.inl ⟨hne, hold⟩
    · exact Or.inr ⟨hled, hleads, Ne.symm hne⟩

end Wiring
end Backslice
