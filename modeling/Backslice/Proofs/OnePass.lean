import Backslice.Proofs.Graph.Acyclic
import Backslice.Proofs.Graph.Postorder
import Backslice.Proofs.History

/-! # One pass over a graph without cycles

Where no block leads back to itself, all edges lead forward in the visiting order. A block is then visited after all its
predecessors, while its successors still wait for their first visit, so that waking them changes nothing and no block is
visited twice. -/

namespace Backslice

set_option autoImplicit false

/-- Waking blocks that wait already leaves the waiting blocks as they are. -/
theorem Run.wake_eq_rest {order pre rest successors : List Int} (hnodup : order.Nodup) (horder : order = pre ++ rest)
    (hwait : ∀ v ∈ order, v ∈ successors → v ∈ rest) : Run.wake order rest successors = rest := by
  have hapart : ∀ v ∈ pre, v ∉ rest := by
    intro v hpre hrest
    exact (List.nodup_append.mp (horder ▸ hnodup)).2.2 v hpre v hrest rfl
  have hpre : pre.filter (fun b => rest.contains b || successors.contains b) = [] := by
    refine List.filter_eq_nil_iff.mpr fun v hv => ?_
    have hnot := hapart v hv
    have hsucc : v ∉ successors := fun hcon => hnot (hwait v (by simp [horder, hv]) hcon)
    simp [hnot, hsucc]
  have hrest : rest.filter (fun b => rest.contains b || successors.contains b) = rest :=
    List.filter_eq_self.mpr fun v hv => by simp [hv]
  rw [Run.wake, horder, List.filter_append, hpre, hrest, List.nil_append]

namespace Graph

variable {g : Graph} {c : Config} {k limit : Nat} {r : Run} {u v : Int}

/-! ## The order of a graph without cycles -/

theorem length_order (h : g.hasBlock g.entry = true) : g.order.length = g.blocks.size := by
  have hkeys : g.blocks.keys.Nodup := List.pairwise_map.mpr g.blocks.pairwise_fst_ne
  have hperm : g.order.Perm g.blocks.keys := by
    refine (List.perm_ext_iff_of_nodup (nodup_order h) hkeys).mpr fun u => ?_
    rw [mem_order_iff h, hasBlock_iff_mem_keys]
  rw [hperm.length_eq, Table.keys, List.length_map, Table.size]

theorem Connected.leads_entry (hg : g.Connected) (hu : g.hasBlock u = true) : g.Leads g.entry u := by
  rw [← mem_fromEntry_iff hg.entry_block, ← hg.order_eq]
  exact hg.mem_order.mpr hu

theorem before_of_leads (hv : v ∈ g.successors u) (hback : g.Leads v u) : g.Before u u := by
  have hsub : (fun a b => b ∈ g.blockSuccessors a) ≤ fun a b => b ∈ g.successors a :=
    fun a b hb => (mem_blockSuccessors.mp hb).1
  exact Relation.TransGen.head' hv (Relation.ReflTransGen.mono hsub v u hback)

theorem Acyclic.idxOf_lt (hacyclic : g.Acyclic) (hg : g.Connected) (hv : v ∈ g.successors u) :
    g.order.idxOf u < g.order.idxOf v := by
  obtain ⟨e, he, rfl⟩ := mem_successors.mp hv
  have hu : g.hasBlock u = true := (hg.ends u e he).1
  rcases idxOf_lt_or_leads hg.entry_block hu (hg.mem_blockSuccessors.mpr hv) with hlt | hback | ⟨-, hnot⟩
  · exact hlt
  · exact absurd (before_of_leads hv hback) (hacyclic u)
  · exact absurd (hg.leads_entry hu) hnot

/-- The successors of a block stand behind it. -/
theorem Acyclic.mem_rest (hacyclic : g.Acyclic) (hg : g.Connected) {pre rest : List Int}
    (horder : g.order = pre ++ u :: rest) (hv : v ∈ g.successors u) (hmem : v ∈ g.order) : v ∈ rest := by
  have hlt := hacyclic.idxOf_lt hg hv
  have hsplit : v ∈ pre ∨ v = u ∨ v ∈ rest := by simpa [horder] using hmem
  rcases hsplit with hpre | rfl | hrest
  · obtain ⟨a, b, rfl⟩ := List.append_of_mem hpre
    have hfirst : g.order = a ++ v :: (b ++ u :: rest) := by simp [horder]
    have hback : g.order.idxOf v < g.order.idxOf u := idxOf_lt_idxOf_of_split hg.order_nodup hfirst (by simp)
    omega
  · omega
  · exact hrest

/-! ## The pass -/

/-- The first `k` blocks of the visiting order have been visited, and the others wait for their first visit. -/
structure Swept (g : Graph) (k : Nat) (r : Run) : Prop where
  pending : r.pending = g.order.drop k
  visits : r.visits = min g.order.length k
  unvisited : ∀ u ∈ g.order.drop k, r.outcomes.find? u = none

theorem swept_start (g : Graph) : g.Swept 0 { pending := g.order } :=
  ⟨rfl, by simp, fun _ _ => rfl⟩

theorem Swept.stop (h : g.Swept k r) (hp : r.pending = []) : g.Swept (k + 1) r := by
  have hlength : g.order.length ≤ k := List.drop_eq_nil_iff.mp (h.pending ▸ hp)
  have hdrop : g.order.drop (k + 1) = [] := List.drop_eq_nil_iff.mpr (by omega)
  refine ⟨by rw [hp, hdrop], ?_, by simp [hdrop]⟩
  rw [h.visits]
  omega

theorem Swept.visit (hacyclic : g.Acyclic) (hg : g.Connected) (h : g.Swept k r) {rest : List Int}
    (hp : r.pending = u :: rest) (x : Visit) : g.Swept (k + 1) (r.record g g.order u rest x) := by
  have hdrop : g.order.drop k = u :: rest := h.pending ▸ hp
  have hlength : k < g.order.length := by
    by_contra hcon
    rw [List.drop_eq_nil_iff.mpr (by omega)] at hdrop
    cases hdrop
  have hrest : g.order.drop (k + 1) = rest := by
    rw [← List.tail_drop, hdrop, List.tail_cons]
  have horder : g.order = g.order.take k ++ u :: rest := by rw [← hdrop, List.take_append_drop]
  have hnodup : (u :: rest).Nodup := hdrop ▸ hg.order_nodup.sublist (List.drop_sublist k _)
  -- the block is visited for the first time, so what leaves it counts as changed
  have hchanges : r.changes u x.outcome = true := by
    simp [Run.changes, h.unvisited u (by simp [hdrop])]
  have hvisited : g.order = (g.order.take k ++ [u]) ++ rest := by simpa using horder
  have hwake : Run.wake g.order rest (g.successors u) = rest :=
    Run.wake_eq_rest hg.order_nodup hvisited fun v hmem hv => hacyclic.mem_rest hg horder hv hmem
  constructor
  case pending => simp only [Run.record, hchanges, if_true, hwake, hrest]
  case visits =>
    simp only [Run.record, h.visits]
    omega
  case unvisited =>
    rw [hrest]
    intro v hv
    have hne : u ≠ v := fun heq => (List.nodup_cons.mp hnodup).1 (heq ▸ hv)
    simpa [Run.record, hne] using h.unvisited v (by simp [hdrop, hv])

theorem swept_of_solve (hacyclic : g.Acyclic) (hg : g.Connected) (hr : g.solve c k = .ok r) : g.Swept k r :=
  solve_induction (P := g.Swept) (swept_start g) (fun _ _ _ hp h => h.stop hp)
    (fun _ _ _ _ _ x hp _ h => h.visit hacyclic hg hp x) hr

/-- Without cycles a limit is large enough if it is not less than the number of blocks. -/
theorem Acyclic.converged_iff (hacyclic : g.Acyclic) (hg : g.Connected) (hr : g.solve c limit = .ok r) :
    r.converged = true ↔ g.blocks.size ≤ limit := by
  rw [Run.converged, List.isEmpty_iff, (swept_of_solve hacyclic hg hr).pending, List.drop_eq_nil_iff,
    length_order hg.entry_block]

theorem Swept.head_pending (h : g.Swept k r) : r.pending.head? = g.order[k]? := by
  rw [h.pending, List.head?_drop]

/-- The visits follow the order: after `k` of them, if there is one more, it is to the block at position `k`. -/
theorem visitAt_iff_getElem? (hacyclic : g.Acyclic) (hg : g.Connected) (hr : g.solve c limit = .ok r) (hk : k < limit) :
    (∃ x b found, g.VisitAt c k x u b found) ↔ g.order[k]? = some u := by
  constructor
  · rintro ⟨x, b, found, hvisit⟩
    obtain ⟨rest, hp⟩ := hvisit.pending
    rw [← (swept_of_solve hacyclic hg hvisit.solve).head_pending, hp, List.head?_cons]
  · intro hu
    obtain ⟨y, hy⟩ := solve_ok_of_le (Nat.succ_le_of_lt hk) hr
    obtain ⟨x, hx, ⟨hp, -⟩ | ⟨index, rest, b, found, hp, hvisit, -⟩⟩ := solve_succ hy
    · rw [← (swept_of_solve hacyclic hg hx).head_pending, hp] at hu
      cases hu
    · rw [← (swept_of_solve hacyclic hg hx).head_pending, hp, List.head?_cons, Option.some.injEq] at hu
      exact hu ▸ ⟨x, b, found, hvisit⟩

theorem exists_predecessor_position (hacyclic : g.Acyclic) (hg : g.Connected) (hu : g.order[k]? = some u) {e : Edge}
    (he : e ∈ g.predecessors u) : ∃ j < k, g.order[j]? = some e.target := by
  have hlt := hacyclic.idxOf_lt hg (hg.mem_successors_of_mem_predecessors he)
  obtain ⟨hk, hget⟩ := List.getElem?_eq_some_iff.mp hu
  have hposition : g.order.idxOf u = k := hget ▸ hg.order_nodup.idxOf_getElem k hk
  have hmem : e.target ∈ g.order := List.idxOf_lt_length_iff.mp (by omega)
  exact ⟨g.order.idxOf e.target, by omega, List.getElem?_idxOf hmem⟩

/-- Without cycles an analysis that meets no error visits the blocks in their order and each of them once, as far as its
limit goes, and converges if the limit is not less than the number of blocks. The predecessors of a block come before it
in that order. -/
theorem acyclic_one_pass (hg : g.WellFormed) (hacyclic : g.Acyclic) (hr : g.solve c limit = .ok r) :
    r.visits = min g.blocks.size limit ∧
      (g.order.Nodup ∧ ∀ u, u ∈ g.order ↔ g.hasBlock u = true) ∧
      (∀ k u, k < limit → ((∃ x b found, g.VisitAt c k x u b found) ↔ g.order[k]? = some u)) ∧
      (∀ (k : Nat) u, g.order[k]? = some u → ∀ e ∈ g.predecessors u, ∃ j < k, g.order[j]? = some e.target) ∧
      (r.converged = true ↔ g.blocks.size ≤ limit) := by
  have hconn := hg.connected
  refine ⟨?_, ⟨hconn.order_nodup, fun _ => hconn.mem_order⟩, ?_, ?_, hacyclic.converged_iff hconn hr⟩
  · rw [(swept_of_solve hacyclic hconn hr).visits, length_order hconn.entry_block]
  · exact fun k u hk => visitAt_iff_getElem? hacyclic hconn hr hk
  · exact fun k u hu e he => exists_predecessor_position hacyclic hconn hu he

/-- With a limit of three the last two of five blocks are left out. -/
theorem acyclic_one_pass_twoWays : ∃ r, (twoWays false).solve {} 3 = .ok r ∧ r.visits = 3 ∧ r.converged = false ∧
    (∃ x b found, (twoWays false).VisitAt {} 2 x 3 b found) := by
  have hrun : (do
      let r ← (twoWays false).solve {} 3
      return ()) = Except.ok () := by decide +kernel
  obtain ⟨r, hr, -⟩ := bind_eq_ok.mp hrun
  obtain ⟨hvisits, -, hfollows, -, hconv⟩ := acyclic_one_pass (twoWays_wellFormed false) (twoWays_acyclic false) hr
  have hsize : (twoWays false).blocks.size = 5 := by decide
  refine ⟨r, hr, by rw [hvisits, hsize]; rfl, ?_, (hfollows 2 3 (by omega)).mpr (by decide +kernel)⟩
  rw [← Bool.not_eq_true, hconv, hsize]
  omega

end Graph
end Backslice
