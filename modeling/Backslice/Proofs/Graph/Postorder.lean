import Backslice.Proofs.Graph.Traversal
import Mathlib.Logic.Relation

/-! # The visiting order is a reverse postorder

A walk leaves a node after all that it has entered from there. So an edge leads from a node to one that was left before, or
to one that the walk was still on its way from, and then it leads back. The visiting order of a graph is made of two such
walks, one from the entry and one over the blocks that it has not met. -/

namespace Backslice

set_option autoImplicit false

namespace Walk

variable {succ : Int → List Int} {w w' inner : Walk} {roots new new' : List Int} {n : Int}

/-- A way along successors leads from `u` to `v`. It may be empty. -/
def Leads (succ : Int → List Int) : Int → Int → Prop := Relation.ReflTransGen fun u v => v ∈ succ u

/-- Each edge from a node of `new` leads to a node behind it, to a node that `w` has seen, or back. -/
def Ordered (succ : Int → List Int) (w : Walk) (new : List Int) : Prop :=
  ∀ pre u post, new = pre ++ u :: post → ∀ v ∈ succ u, v ∈ post ∨ v ∈ w.seen ∨ Leads succ v u

theorem Ordered.append (h : Extends succ roots w w' new) (hnew : Ordered succ w new) (hnew' : Ordered succ w' new') :
    Ordered succ w (new' ++ new) := by
  intro pre u post heq v hv
  rcases List.append_eq_append_iff.mp heq with ⟨a, -, hsplit⟩ | ⟨d, hsplit, hpost⟩
  · exact hnew a u post hsplit v hv
  cases d with
  | nil => exact hnew [] u post (by simpa using hpost.symm) v hv
  | cons y d =>
    obtain ⟨rfl, rfl⟩ := List.cons.inj hpost
    rcases hnew' pre u d hsplit v hv with hd | hseen | hback
    · exact Or.inl (List.mem_append_left _ hd)
    · exact ((h.seen v).mp hseen).imp (List.mem_append_right _) Or.inl
    · exact Or.inr (Or.inr hback)

/-- All nodes that are left on the way through the successors of `n` can be reached from `n`. -/
theorem Ordered.leave (h : Extends succ (succ n) { w with seen := n :: w.seen } inner new)
    (hsucc : ∀ v ∈ succ n, v ∈ inner.seen) (hnew : Ordered succ { w with seen := n :: w.seen } new) :
    Ordered succ w (n :: new) := by
  have hdown : ∀ u ∈ new, Leads succ n u :=
    h.forall_new (fun v hv => .single hv) fun u hu v hv => hu.tail hv
  intro pre u post heq v hv
  cases pre with
  | nil =>
    obtain ⟨rfl, rfl⟩ := List.cons.inj heq
    rcases (h.seen v).mp (hsucc v hv) with hv | hv
    · exact Or.inl hv
    · rcases List.mem_cons.mp hv with rfl | hv
      · exact Or.inr (Or.inr .refl)
      · exact Or.inr (Or.inl hv)
  | cons y pre =>
    obtain ⟨-, rfl⟩ := List.cons.inj heq
    rcases hnew pre u post rfl v hv with hpost | hseen | hback
    · exact Or.inl hpost
    · rcases List.mem_cons.mp hseen with rfl | hseen
      · exact Or.inr (Or.inr (hdown u (by simp)))
      · exact Or.inr (Or.inl hseen)
    · exact Or.inr (Or.inr hback)

theorem foldl_ordered {all : List Int} {depth : Nat}
    (ih : ∀ w n, n ∈ all → unseen all w ≤ depth →
      ∃ new, Extends succ [n] w (visit succ depth w n) new ∧ Ordered succ w new)
    (ns : List Int) (hns : ∀ n ∈ ns, n ∈ all) (w : Walk) (hw : unseen all w ≤ depth) :
    ∃ new, Extends succ ns w (ns.foldl (visit succ depth) w) new ∧ Ordered succ w new := by
  induction ns generalizing w with
  | nil => exact ⟨[], .refl [] w, fun pre u post h => by simp at h⟩
  | cons n ns ihns =>
    obtain ⟨hn, hrest⟩ := List.forall_mem_cons.mp hns
    obtain ⟨new, hnew, hordered⟩ := ih w n hn hw
    have hmono : unseen all (visit succ depth w n) ≤ depth :=
      Nat.le_trans (unseen_mono (seen_subset_visit succ depth w n)) hw
    obtain ⟨new', hnew', hordered'⟩ := ihns hrest (visit succ depth w n) hmono
    exact ⟨new' ++ new, hnew.trans hnew', hordered.append hnew hordered'⟩

/-- With as much depth as there are unseen nodes, edges that lead against the order of leaving lead back. -/
theorem visit_ordered {all : List Int} (hall : ∀ n ∈ all, ∀ m ∈ succ n, m ∈ all) (depth : Nat) (w : Walk) (n : Int)
    (hn : n ∈ all) (hw : unseen all w ≤ depth) :
    ∃ new, Extends succ [n] w (visit succ depth w n) new ∧ Ordered succ w new := by
  induction depth generalizing w n with
  | zero => exact ⟨[], .refl [n] w, fun pre u post h => by simp at h⟩
  | succ depth ih =>
    rw [visit]
    split
    · exact ⟨[], .refl [n] w, fun pre u post h => by simp at h⟩
    · rename_i hseen
      have hlt := unseen_lt hn hseen
      have hinner : unseen all { w with seen := n :: w.seen } ≤ depth := by omega
      obtain ⟨new, hnew, hordered⟩ := foldl_ordered ih (succ n) (hall n hn) _ hinner
      have hsucc := (foldl_closed (visit_closed hall depth) (succ n) (hall n hn) _ hinner).2.1
      exact ⟨n :: new, hnew.leave hseen, hordered.leave hnew hsucc⟩

end Walk

/-! ## The two walks over a graph -/

/-- In a list without repetitions an element comes before those that stand behind it. -/
theorem idxOf_lt_idxOf_of_split {l pre post : List Int} {u v : Int} (hnodup : l.Nodup) (hl : l = pre ++ u :: post)
    (hv : v ∈ post) : l.idxOf u < l.idxOf v := by
  subst hl
  obtain ⟨-, htail, hapart⟩ := List.nodup_append.mp hnodup
  have hu : u ∉ pre := fun h => hapart u h u (by simp) rfl
  have hvpre : v ∉ pre := fun h => hapart v h v (by simp [hv]) rfl
  have hne : u ≠ v := fun h => (List.nodup_cons.mp htail).1 (h ▸ hv)
  rw [List.idxOf_append_of_notMem hu, List.idxOf_append_of_notMem hvpre, List.idxOf_cons_self, List.idxOf_cons_ne _ hne]
  omega

namespace Graph

variable {g : Graph} {u v : Int}

/-- A way through blocks leads from `u` to `v`. -/
def Leads (g : Graph) : Int → Int → Prop := Walk.Leads g.blockSuccessors

/-- The walk over all blocks, in ascending order, that goes on where the walk from the entry has ended. -/
def fromRest (g : Graph) : Walk :=
  g.indices.foldl (Walk.visit g.blockSuccessors g.blocks.size) { g.fromEntry with finished := [] }

theorem order_eq_append (h : g.hasBlock g.entry = true) :
    g.order = g.fromEntry.finished ++ g.fromRest.finished := by
  simp only [order, fromRest, fromEntry, h, if_true]

theorem fromEntry_extends (h : g.hasBlock g.entry = true) :
    Walk.Extends g.blockSuccessors [g.entry] {} g.fromEntry g.fromEntry.finished ∧
      Walk.Ordered g.blockSuccessors {} g.fromEntry.finished := by
  obtain ⟨new, hnew, hordered⟩ := Walk.visit_ordered blockSuccessors_subset_keys g.blocks.size {} g.entry
    (hasBlock_iff_mem_keys.mp h) (unseen_le_size _)
  have hfinished : g.fromEntry.finished = new := hnew.finished.trans (List.append_nil new)
  exact hfinished ▸ ⟨hnew, hordered⟩

theorem fromRest_extends (g : Graph) :
    Walk.Extends g.blockSuccessors g.indices { g.fromEntry with finished := [] } g.fromRest g.fromRest.finished ∧
      Walk.Ordered g.blockSuccessors { g.fromEntry with finished := [] } g.fromRest.finished := by
  obtain ⟨new, hnew, hordered⟩ := Walk.foldl_ordered (Walk.visit_ordered blockSuccessors_subset_keys g.blocks.size)
    g.indices mem_keys_of_mem_indices { g.fromEntry with finished := [] } (unseen_le_size _)
  have hfinished : g.fromRest.finished = new := hnew.finished.trans (List.append_nil new)
  exact hfinished ▸ ⟨hnew, hordered⟩

/-- The first walk leaves the blocks that the entry reaches. -/
theorem mem_fromEntry_iff (h : g.hasBlock g.entry = true) : u ∈ g.fromEntry.finished ↔ g.Leads g.entry u := by
  have hextends := (fromEntry_extends h).1
  constructor
  · refine hextends.forall_new (P := g.Leads g.entry) (fun n hn => ?_) (fun n hn m hm => hn.tail hm) u
    exact List.mem_singleton.mp hn ▸ .refl
  · intro hu
    obtain ⟨hentry, hclosed⟩ := Walk.visit_closed blockSuccessors_subset_keys g.blocks.size {} g.entry
      (hasBlock_iff_mem_keys.mp h) (unseen_le_size _)
    have hseen : u ∈ g.fromEntry.seen := by
      induction hu with
      | refl => exact hentry
      | tail _ hv ih => exact (hclosed _ ih).resolve_left List.not_mem_nil _ hv
    simpa using (hextends.seen u).mp hseen

theorem mem_fromEntry_seen_iff (h : g.hasBlock g.entry = true) : u ∈ g.fromEntry.seen ↔ g.Leads g.entry u := by
  rw [(fromEntry_extends h).1.seen u, mem_fromEntry_iff h]
  simp

/-! ## The whole order -/

section
variable (h : g.hasBlock g.entry = true)
include h

theorem hasBlock_of_leads (hu : g.Leads g.entry u) : g.hasBlock u = true := by
  rcases Relation.ReflTransGen.cases_tail hu with rfl | ⟨n, -, hn⟩
  · exact h
  · exact (mem_blockSuccessors.mp hn).2

theorem mem_order_iff : u ∈ g.order ↔ g.hasBlock u = true := by
  refine ⟨fun hu => ?_, mem_order_of_hasBlock⟩
  rw [order_eq_append h, List.mem_append, mem_fromEntry_iff h] at hu
  rcases hu with hu | hu
  · exact hasBlock_of_leads h hu
  · refine (fromRest_extends g).1.forall_new (P := fun u => g.hasBlock u = true) (fun n hn => ?_) ?_ u hu
    · exact hasBlock_iff_mem_keys.mpr (mem_keys_of_mem_indices n hn)
    · exact fun n _ m hm => (mem_blockSuccessors.mp hm).2

theorem nodup_order : g.order.Nodup := by
  rw [order_eq_append h]
  refine List.nodup_append.mpr ⟨(fromEntry_extends h).1.nodup, (fromRest_extends g).1.nodup, ?_⟩
  rintro u hfirst _ hrest rfl
  exact (fromRest_extends g).1.fresh u hrest ((mem_fromEntry_seen_iff h).mpr ((mem_fromEntry_iff h).mp hfirst))

theorem head_order : g.order.head? = some g.entry := by
  have hentry : g.entry ∈ g.fromEntry.finished := (mem_fromEntry_iff h).mpr .refl
  rw [order_eq_append h]
  cases hfinished : g.fromEntry.finished with
  | nil => simp [hfinished] at hentry
  | cons n post =>
    rcases (fromEntry_extends h).1.parent [] n post hfinished with hn | ⟨p, hp, -⟩
    · simpa using hn
    · cases hp

/-- Blocks that the entry reaches come before the others. -/
theorem idxOf_lt_of_leads (hu : g.Leads g.entry u) (hv : ¬ g.Leads g.entry v) : g.order.idxOf u < g.order.idxOf v := by
  have hfirst : u ∈ g.fromEntry.finished := (mem_fromEntry_iff h).mpr hu
  have hnot : v ∉ g.fromEntry.finished := fun hcon => hv ((mem_fromEntry_iff h).mp hcon)
  rw [order_eq_append h, List.idxOf_append_of_mem hfirst, List.idxOf_append_of_notMem hnot]
  have := List.idxOf_lt_length_of_mem hfirst
  omega

/-- An edge leads forward in the order, or back, or from a block that the entry does not reach to one that it reaches. -/
theorem idxOf_lt_or_leads (hu : g.hasBlock u = true) (hv : v ∈ g.blockSuccessors u) :
    g.order.idxOf u < g.order.idxOf v ∨ g.Leads v u ∨ (g.Leads g.entry v ∧ ¬ g.Leads g.entry u) := by
  have hnodup := nodup_order h
  by_cases hreached : g.Leads g.entry u
  · obtain ⟨pre, post, hsplit⟩ := List.append_of_mem ((mem_fromEntry_iff h).mpr hreached)
    have horder : g.order = pre ++ u :: (post ++ g.fromRest.finished) := by rw [order_eq_append h, hsplit]; simp
    rcases (fromEntry_extends h).2 pre u post hsplit v hv with hpost | hseen | hback
    · exact Or.inl (idxOf_lt_idxOf_of_split hnodup horder (by simp [hpost]))
    · cases hseen
    · exact Or.inr (Or.inl hback)
  · have hrest : u ∈ g.fromRest.finished := by
      have hmem := (mem_order_iff h).mpr hu
      rw [order_eq_append h, List.mem_append, mem_fromEntry_iff h] at hmem
      exact hmem.resolve_left hreached
    obtain ⟨pre, post, hsplit⟩ := List.append_of_mem hrest
    have horder : g.order = (g.fromEntry.finished ++ pre) ++ u :: post := by rw [order_eq_append h, hsplit]; simp
    rcases (fromRest_extends g).2 pre u post hsplit v hv with hpost | hseen | hback
    · exact Or.inl (idxOf_lt_idxOf_of_split hnodup horder hpost)
    · exact Or.inr (Or.inr ⟨(mem_fromEntry_seen_iff h).mp hseen, hreached⟩)
    · exact Or.inr (Or.inl hback)

theorem exists_parent_idxOf_lt (hv : g.Leads g.entry v) (hne : v ≠ g.entry) :
    ∃ u, g.hasBlock u = true ∧ v ∈ g.blockSuccessors u ∧ g.order.idxOf u < g.order.idxOf v := by
  obtain ⟨pre, post, hsplit⟩ := List.append_of_mem ((mem_fromEntry_iff h).mpr hv)
  rcases (fromEntry_extends h).1.parent pre v post hsplit with hroot | ⟨u, hu, hedge⟩
  · exact absurd (List.mem_singleton.mp hroot) hne
  · have hreached : g.Leads g.entry u := (mem_fromEntry_iff h).mp (by simp [hsplit, hu])
    obtain ⟨a, b, rfl⟩ := List.append_of_mem hu
    have horder : g.order = a ++ u :: (b ++ v :: post ++ g.fromRest.finished) := by
      rw [order_eq_append h, hsplit]; simp
    exact ⟨u, hasBlock_of_leads h hreached, hedge, idxOf_lt_idxOf_of_split (nodup_order h) horder (by simp)⟩

end

/-- What it means that blocks are listed in the order in which a walk from the entry leaves them, read backwards, with the
blocks that it does not meet at the end. -/
structure ReversePostorder (g : Graph) (order : List Int) : Prop where
  nodup : order.Nodup
  mem_iff : ∀ u, u ∈ order ↔ g.hasBlock u = true
  head : order.head? = some g.entry
  reached_first : ∀ u v, g.Leads g.entry u → g.hasBlock v = true → ¬ g.Leads g.entry v → order.idxOf u < order.idxOf v
  edge : ∀ u v, g.hasBlock u = true → g.hasBlock v = true → v ∈ g.successors u →
    order.idxOf u < order.idxOf v ∨ g.Leads v u ∨ (g.Leads g.entry v ∧ ¬ g.Leads g.entry u)
  parent : ∀ v, g.Leads g.entry v → v ≠ g.entry →
    ∃ e ∈ g.predecessors v, g.hasBlock e.target = true ∧ order.idxOf e.target < order.idxOf v
  /-- If no block that the entry reaches leads back to itself, all edges between these blocks lead forward. -/
  topological : (∀ u, g.Leads g.entry u → ¬ Relation.TransGen (fun a b => b ∈ g.blockSuccessors a) u u) →
    ∀ u v, g.Leads g.entry u → g.hasBlock v = true → v ∈ g.successors u → order.idxOf u < order.idxOf v

/-- The visiting order of a graph that is built from arrows is a reverse postorder. Arrows may lead to where no block is, and
there may be blocks that the entry does not reach. -/
theorem order_reversePostorder (hg : g.Built) (hentry : g.hasBlock g.entry = true) : g.ReversePostorder g.order where
  nodup := nodup_order hentry
  mem_iff _ := mem_order_iff hentry
  head := head_order hentry
  reached_first _ _ hu _ hv := idxOf_lt_of_leads hentry hu hv
  edge _ _ hu hv hedge := idxOf_lt_or_leads hentry hu (mem_blockSuccessors.mpr ⟨hedge, hv⟩)
  parent v hv hne := by
    obtain ⟨u, hu, hedge, hlt⟩ := exists_parent_idxOf_lt hentry hv hne
    obtain ⟨e, he, rfl⟩ := mem_successors.mp (mem_blockSuccessors.mp hedge).1
    exact ⟨⟨u, e.cond⟩, (hg.inverse u e.target e.cond).mp he, hu, hlt⟩
  topological hacyclic u v hu hv hedge := by
    have hsucc := mem_blockSuccessors.mpr ⟨hedge, hv⟩
    rcases idxOf_lt_or_leads hentry (hasBlock_of_leads hentry hu) hsucc with hlt | hback | ⟨-, hnot⟩
    · exact hlt
    · exact absurd (Relation.TransGen.head' hsucc hback) (hacyclic u hu)
    · exact absurd hu hnot

/-- A loop of the blocks 1 and 2, a loop of the blocks 4 and 5 that the entry does not reach, and an arrow to no block. -/
def scattered : Graph :=
  .ofArrows {} ([0, 1, 2, 3, 4, 5].map fun n => (n, { body := .data [] }))
    [{ source := 0, target := 1 }, { source := 1, target := 2 }, { source := 2, target := 1 },
      { source := 1, target := 9 }, { source := 0, target := 3 }, { source := 3, target := 2 },
      { source := 4, target := 5 }, { source := 5, target := 4 }, { source := 5, target := 3 }] 0 3 "scattered" 0

theorem order_reversePostorder_scattered : scattered.Built ∧ scattered.hasBlock scattered.entry = true ∧
    9 ∈ scattered.successors 1 ∧ scattered.hasBlock 9 = false ∧ scattered.ReversePostorder [0, 3, 1, 2, 4, 5] := by
  have hbuilt : scattered.Built := ⟨_, _, _, _, _, _, _, rfl⟩
  have horder : scattered.order = [0, 3, 1, 2, 4, 5] := by decide +kernel
  exact ⟨hbuilt, by decide, by decide, by decide, horder ▸ order_reversePostorder hbuilt (by decide)⟩

end Graph
end Backslice
