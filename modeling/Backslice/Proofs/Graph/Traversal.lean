import Backslice.Graph.Traversal
import Backslice.Proofs.Graph.Paths

/-! # The depth-first order

A walk leaves every node once, and after all that it has entered from there, so that in the order of leaving,
read backwards, each node stands behind one that leads to it. If the depth is not exhausted the walk enters all
that can be reached. -/

namespace Backslice

set_option autoImplicit false

namespace Walk

/-- `w'` continues `w` from the nodes `roots`, and `new` lists what it has left on the way, the latest first. -/
structure Extends (succ : Int → List Int) (roots : List Int) (w w' : Walk) (new : List Int) : Prop where
  finished : w'.finished = new ++ w.finished
  seen : ∀ x, x ∈ w'.seen ↔ x ∈ new ∨ x ∈ w.seen
  fresh : ∀ x ∈ new, x ∉ w.seen
  nodup : new.Nodup
  parent : ∀ pre x post, new = pre ++ x :: post → x ∈ roots ∨ ∃ p ∈ pre, x ∈ succ p

variable {succ : Int → List Int}

theorem Extends.refl (roots : List Int) (w : Walk) : Extends succ roots w w [] where
  finished := rfl
  seen _ := by simp
  fresh _ h := by cases h
  nodup := .nil
  parent _ _ _ h := by simp at h

theorem Extends.trans {roots roots' : List Int} {w w' w'' : Walk} {new new' : List Int}
    (h : Extends succ roots w w' new) (h' : Extends succ roots' w' w'' new') :
    Extends succ (roots ++ roots') w w'' (new' ++ new) where
  finished := by rw [h'.finished, h.finished, List.append_assoc]
  seen x := by rw [h'.seen, h.seen, List.mem_append, or_assoc]
  fresh x hx := by
    rcases List.mem_append.mp hx with hx | hx
    · exact fun hw => h'.fresh x hx ((h.seen x).mpr (Or.inr hw))
    · exact h.fresh x hx
  nodup := by
    refine List.nodup_append.mpr ⟨h'.nodup, h.nodup, fun a ha b hb hab => ?_⟩
    exact h'.fresh a ha ((h.seen a).mpr (Or.inl (hab ▸ hb)))
  parent pre x post heq := by
    rcases List.append_eq_append_iff.mp heq with ⟨a, rfl, hnew⟩ | ⟨c, hnew', hpost⟩
    · rcases h.parent a x post hnew with hx | ⟨p, hp, hx⟩
      · exact Or.inl (List.mem_append_left _ hx)
      · exact Or.inr ⟨p, List.mem_append_right _ hp, hx⟩
    · cases c with
      | nil =>
        rcases h.parent [] x post (by simpa using hpost.symm) with hx | ⟨p, hp, _⟩
        · exact Or.inl (List.mem_append_left _ hx)
        · cases hp
      | cons y c =>
        obtain ⟨rfl, rfl⟩ := List.cons.inj hpost
        rcases h'.parent pre x c hnew' with hx | hp
        · exact Or.inl (List.mem_append_right _ hx)
        · exact Or.inr hp

/-- Entering a node that has not been seen, walking on from its successors, and leaving it. -/
theorem Extends.leave {w inner : Walk} {n : Int} {new : List Int} (hn : n ∉ w.seen)
    (h : Extends succ (succ n) { w with seen := n :: w.seen } inner new) :
    Extends succ [n] w { inner with finished := n :: inner.finished } (n :: new) where
  finished := by rw [h.finished]; rfl
  seen x := by
    rw [h.seen, List.mem_cons, List.mem_cons]
    exact or_left_comm.trans or_assoc.symm
  fresh x hx := by
    rcases List.mem_cons.mp hx with rfl | hx
    · exact hn
    · exact fun hw => h.fresh x hx (List.mem_cons_of_mem n hw)
  nodup := List.nodup_cons.mpr ⟨fun hx => h.fresh n hx (List.mem_cons_self ..), h.nodup⟩
  parent pre x post heq := by
    cases pre with
    | nil => exact Or.inl (by simp [(List.cons.inj heq).1])
    | cons y pre =>
      obtain ⟨rfl, hnew⟩ := List.cons.inj heq
      rcases h.parent pre x post hnew with hx | ⟨p, hp, hx⟩
      · exact Or.inr ⟨n, List.mem_cons_self .., hx⟩
      · exact Or.inr ⟨p, List.mem_cons_of_mem n hp, hx⟩

theorem foldl_extends {f : Walk → Int → Walk} (hf : ∀ w n, ∃ new, Extends succ [n] w (f w n) new)
    (ns : List Int) (w : Walk) : ∃ new, Extends succ ns w (ns.foldl f w) new := by
  induction ns generalizing w with
  | nil => exact ⟨[], Extends.refl [] w⟩
  | cons n ns ih =>
    obtain ⟨new, hnew⟩ := hf w n
    obtain ⟨new', hnew'⟩ := ih (f w n)
    exact ⟨new' ++ new, hnew.trans hnew'⟩

theorem visit_extends (succ : Int → List Int) (depth : Nat) (w : Walk) (n : Int) :
    ∃ new, Extends succ [n] w (visit succ depth w n) new := by
  induction depth generalizing w n with
  | zero => exact ⟨[], Extends.refl [n] w⟩
  | succ depth ih =>
    rw [visit]
    split
    · exact ⟨[], Extends.refl [n] w⟩
    · rename_i hn
      obtain ⟨new, hnew⟩ := foldl_extends ih (succ n) { w with seen := n :: w.seen }
      exact ⟨n :: new, hnew.leave hn⟩

/-- What holds of the roots and passes to successors holds of all nodes that a walk leaves. -/
theorem Extends.forall_new {roots : List Int} {w w' : Walk} {new : List Int} (h : Extends succ roots w w' new)
    {P : Int → Prop} (hroots : ∀ n ∈ roots, P n) (hsucc : ∀ n, P n → ∀ m ∈ succ n, P m) : ∀ x ∈ new, P x := by
  -- a parent stands further to the front, so the induction is on the length of what comes before a node
  suffices hgen : ∀ k pre x post, pre.length = k → new = pre ++ x :: post → P x by
    intro x hx
    obtain ⟨pre, post, hnew⟩ := List.append_of_mem hx
    exact hgen pre.length pre x post rfl hnew
  intro k
  induction k using Nat.strongRecOn with
  | ind k ih =>
    intro pre x post hk hnew
    rcases h.parent pre x post hnew with hx | ⟨p, hp, hx⟩
    · exact hroots x hx
    · obtain ⟨a, b, rfl⟩ := List.append_of_mem hp
      refine hsucc p (ih a.length ?_ a p (b ++ x :: post) rfl ?_) x hx
      · rw [← hk, List.length_append, List.length_cons]
        omega
      · rw [hnew, List.append_assoc]
        rfl

/-! ## Completeness -/

/-- How many nodes of `all` have not been seen. -/
def unseen (all : List Int) (w : Walk) : Nat := all.countP fun x => decide (x ∉ w.seen)

theorem unseen_mono {all : List Int} {w w' : Walk} (h : ∀ x ∈ w.seen, x ∈ w'.seen) :
    unseen all w' ≤ unseen all w := by
  refine List.countP_mono_left fun x _ hx => ?_
  simp only [decide_eq_true_eq] at hx ⊢
  exact fun hw => hx (h x hw)

theorem unseen_lt {all : List Int} {w : Walk} {n : Int} (hall : n ∈ all) (hn : n ∉ w.seen) :
    unseen all { w with seen := n :: w.seen } < unseen all w := by
  obtain ⟨a, b, rfl⟩ := List.append_of_mem hall
  have hmono : ∀ l, unseen l { w with seen := n :: w.seen } ≤ unseen l w :=
    fun l => unseen_mono fun x hx => List.mem_cons_of_mem n hx
  have ha := hmono a
  have hb := hmono b
  unfold unseen at ha hb ⊢
  rw [List.countP_append, List.countP_append, List.countP_cons, List.countP_cons, if_neg (by simp),
    if_pos (by simpa using hn)]
  omega

/-- All that `w'` has seen since `w` has its successors seen. -/
def Closed (succ : Int → List Int) (w w' : Walk) : Prop :=
  ∀ x ∈ w'.seen, x ∈ w.seen ∨ ∀ m ∈ succ x, m ∈ w'.seen

theorem Closed.trans {w w' w'' : Walk} (h : Closed succ w w') (hmono : ∀ x ∈ w'.seen, x ∈ w''.seen)
    (h' : Closed succ w' w'') : Closed succ w w'' := by
  intro x hx
  rcases h' x hx with hx | hx
  · exact (h x hx).imp_right fun hm m hm' => hmono m (hm m hm')
  · exact Or.inr hx

theorem seen_subset_visit (succ : Int → List Int) (depth : Nat) (w : Walk) (n : Int) :
    ∀ x ∈ w.seen, x ∈ (visit succ depth w n).seen := by
  obtain ⟨new, hnew⟩ := visit_extends succ depth w n
  exact fun x hx => (hnew.seen x).mpr (Or.inr hx)

theorem foldl_closed {all : List Int} {depth : Nat}
    (ih : ∀ w n, n ∈ all → unseen all w ≤ depth →
      n ∈ (visit succ depth w n).seen ∧ Closed succ w (visit succ depth w n))
    (ns : List Int) (hns : ∀ n ∈ ns, n ∈ all) (w : Walk) (hw : unseen all w ≤ depth) :
    (∀ x ∈ w.seen, x ∈ (ns.foldl (visit succ depth) w).seen) ∧
      (∀ n ∈ ns, n ∈ (ns.foldl (visit succ depth) w).seen) ∧ Closed succ w (ns.foldl (visit succ depth) w) := by
  induction ns generalizing w with
  | nil => exact ⟨fun x hx => hx, fun n hn => absurd hn List.not_mem_nil, fun x hx => Or.inl hx⟩
  | cons n ns ihns =>
    obtain ⟨hseen, hclosed⟩ := ih w n (hns n (List.mem_cons_self ..)) hw
    have hsub := seen_subset_visit succ depth w n
    obtain ⟨hmono, hrest, hclosed'⟩ := ihns (fun m hm => hns m (List.mem_cons_of_mem n hm))
      (visit succ depth w n) (Nat.le_trans (unseen_mono hsub) hw)
    refine ⟨fun x hx => hmono x (hsub x hx), fun m hm => ?_, hclosed.trans hmono hclosed'⟩
    rcases List.mem_cons.mp hm with rfl | hm
    · exact hmono m hseen
    · exact hrest m hm

/-- With as much depth as there are unseen nodes, a walk enters its root and all successors of what it enters. -/
theorem visit_closed {all : List Int} (hall : ∀ n ∈ all, ∀ m ∈ succ n, m ∈ all) (depth : Nat) (w : Walk) (n : Int)
    (hn : n ∈ all) (hw : unseen all w ≤ depth) :
    n ∈ (visit succ depth w n).seen ∧ Closed succ w (visit succ depth w n) := by
  induction depth generalizing w n with
  | zero =>
    have hseen : n ∈ w.seen := by
      have hzero := List.countP_eq_zero.mp (Nat.le_zero.mp hw) n hn
      simpa using hzero
    exact ⟨hseen, fun x hx => Or.inl hx⟩
  | succ depth ih =>
    rw [visit]
    split
    · rename_i hseen
      exact ⟨hseen, fun x hx => Or.inl hx⟩
    · rename_i hseen
      have hlt := unseen_lt hn hseen
      obtain ⟨hmono, hsucc, hclosed⟩ := foldl_closed ih (succ n) (hall n hn)
        { w with seen := n :: w.seen } (by omega)
      refine ⟨hmono n (List.mem_cons_self ..), fun x hx => ?_⟩
      rcases hclosed x hx with hx | hx
      · rcases List.mem_cons.mp hx with rfl | hx
        · exact Or.inr hsucc
        · exact Or.inl hx
      · exact Or.inr hx

end Walk

/-! ## The visiting order of a graph -/

theorem Walk.visit_of_seen {succ : Int → List Int} (depth : Nat) {w : Walk} {n : Int} (h : n ∈ w.seen) :
    Walk.visit succ depth w n = w := by
  cases depth with
  | zero => rfl
  | succ depth => rw [Walk.visit, if_pos h]

theorem foldl_eq_self {α β : Type} {f : α → β → α} {a : α} {l : List β} (h : ∀ b ∈ l, f a b = a) :
    l.foldl f a = a := by
  induction l with
  | nil => rfl
  | cons b rest ih =>
    rw [List.foldl_cons, h b (List.mem_cons_self ..)]
    exact ih fun b' hb' => h b' (List.mem_cons_of_mem b hb')

/-- A walk that has seen the source, and the successors of all that it has seen, has seen what paths lead to. -/
theorem Walk.Closed.mem_of_path {succ : Int → List Int} {w : Walk} {es : Edges} {source u : Int} {p : List Int}
    (hclosed : Walk.Closed succ {} w) (hsource : source ∈ w.seen)
    (hsucc : ∀ u e, e ∈ es.leaving u → e.target ∈ succ u) (hp : es.Path source p u) : u ∈ w.seen := by
  induction hp with
  | start => exact hsource
  | @edge p u e hp he ih =>
    rcases hclosed u ih with hcon | hall
    · cases hcon
    · exact hall e.target (hsucc u e he)

namespace Graph

variable {g : Graph}

theorem mem_blockSuccessors {u v : Int} : v ∈ g.blockSuccessors u ↔ v ∈ g.successors u ∧ g.hasBlock v = true :=
  List.mem_filter

theorem Connected.mem_blockSuccessors (h : g.Connected) {u v : Int} :
    v ∈ g.blockSuccessors u ↔ v ∈ g.successors u := by
  rw [Graph.mem_blockSuccessors, and_iff_left_iff_imp]
  intro hv
  obtain ⟨e, he, rfl⟩ := mem_successors.mp hv
  exact (h.ends u e he).2

theorem blockSuccessors_subset_keys : ∀ n ∈ g.blocks.keys, ∀ m ∈ g.blockSuccessors n, m ∈ g.blocks.keys :=
  fun _ _ _ hm => hasBlock_iff_mem_keys.mp (mem_blockSuccessors.mp hm).2

theorem unseen_le_size (w : Walk) : Walk.unseen g.blocks.keys w ≤ g.blocks.size := by
  refine Nat.le_trans List.countP_le_length ?_
  simp [Table.keys, Table.size]

theorem mem_keys_of_mem_indices : ∀ n ∈ g.indices, n ∈ g.blocks.keys := fun _ hn => mem_sortBy.mp hn

/-- In any graph, the visiting order lists all blocks. -/
theorem mem_order_of_hasBlock {u : Int} (hu : g.hasBlock u = true) : u ∈ g.order := by
  have hindex : u ∈ g.indices := mem_sortBy.mpr (hasBlock_iff_mem_keys.mp hu)
  -- what the walk from the entry has seen it has left, and what the second walk sees besides it leaves as well
  obtain ⟨new, hreached⟩ : ∃ new, Walk.Extends g.blockSuccessors [g.entry] {}
      (if g.hasBlock g.entry then Walk.visit g.blockSuccessors g.blocks.size {} g.entry else {}) new := by
    split
    · exact Walk.visit_extends ..
    · exact ⟨[], .refl ..⟩
  unfold order
  dsimp only
  generalize (if g.hasBlock g.entry then Walk.visit g.blockSuccessors g.blocks.size {} g.entry else {}) = reached
    at hreached ⊢
  obtain ⟨new', hrest⟩ := Walk.foldl_extends (Walk.visit_extends g.blockSuccessors g.blocks.size) g.indices
    { reached with finished := [] }
  have hseen := (Walk.foldl_closed (Walk.visit_closed blockSuccessors_subset_keys g.blocks.size) g.indices
    mem_keys_of_mem_indices { reached with finished := [] } (unseen_le_size _)).2.1 u hindex
  rw [hrest.finished, hreached.finished]
  rcases (hrest.seen u).mp hseen with hu | hu
  · simp [hu]
  · rcases (hreached.seen u).mp hu with hu | hu
    · simp [hu]
    · cases hu

/-- The walk from the entry. -/
def fromEntry (g : Graph) : Walk := Walk.visit g.blockSuccessors g.blocks.size {} g.entry

theorem Connected.mem_fromEntry (h : g.Connected) {u : Int} (hu : g.hasBlock u = true) : u ∈ g.fromEntry.seen := by
  obtain ⟨hentry, hclosed⟩ := Walk.visit_closed blockSuccessors_subset_keys g.blocks.size {} g.entry
    (hasBlock_iff_mem_keys.mp h.entry_block) (unseen_le_size _)
  obtain ⟨p, hp⟩ := h.reachable u hu
  exact hclosed.mem_of_path hentry (fun u e he => h.mem_blockSuccessors.mpr (mem_successors.mpr ⟨e, he, rfl⟩)) hp

/-- Where the entry reaches all blocks, the visiting order is what the walk from the entry has left. -/
theorem Connected.order_eq (h : g.Connected) : g.order = g.fromEntry.finished := by
  have hseen : ∀ n ∈ g.indices, n ∈ g.fromEntry.seen :=
    fun n hn => h.mem_fromEntry (hasBlock_iff_mem_keys.mpr (mem_sortBy.mp hn))
  have hrest : g.indices.foldl (Walk.visit g.blockSuccessors g.blocks.size) { g.fromEntry with finished := [] } =
      { g.fromEntry with finished := [] } := foldl_eq_self fun n hn => Walk.visit_of_seen _ (hseen n hn)
  have hreached : (if g.hasBlock g.entry then Walk.visit g.blockSuccessors g.blocks.size {} g.entry else {}) =
      g.fromEntry := if_pos h.entry_block
  unfold order
  dsimp only at hrest ⊢
  rw [hreached, hrest, List.append_nil]

theorem Connected.order_extends (h : g.Connected) :
    Walk.Extends g.blockSuccessors [g.entry] {} g.fromEntry g.order := by
  obtain ⟨new, hnew⟩ := Walk.visit_extends g.blockSuccessors g.blocks.size {} g.entry
  have horder : g.order = new := by
    rw [h.order_eq]
    exact hnew.finished.trans (List.append_nil new)
  rw [horder]
  exact hnew

theorem Connected.order_nodup (h : g.Connected) : g.order.Nodup := h.order_extends.nodup

theorem Connected.mem_order (h : g.Connected) {u : Int} : u ∈ g.order ↔ g.hasBlock u = true := by
  constructor
  · refine h.order_extends.forall_new (P := fun u => g.hasBlock u = true) (fun n hn => ?_) ?_ u
    · rw [List.mem_singleton.mp hn]
      exact h.entry_block
    · exact fun n _ m hm => (Graph.mem_blockSuccessors.mp hm).2
  · intro hu
    rcases (h.order_extends.seen u).mp (h.mem_fromEntry hu) with hu | hu
    · exact hu
    · cases hu

/-- In the visiting order each block but the entry stands behind one that leads to it. -/
theorem Connected.order_parent (h : g.Connected) {pre post : List Int} {u : Int}
    (ho : g.order = pre ++ u :: post) : u = g.entry ∨ ∃ p ∈ pre, u ∈ g.successors p := by
  rcases h.order_extends.parent pre u post ho with hu | ⟨p, hp, hu⟩
  · exact Or.inl (List.mem_singleton.mp hu)
  · exact Or.inr ⟨p, hp, h.mem_blockSuccessors.mp hu⟩

end Graph
end Backslice
