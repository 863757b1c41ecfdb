import Backslice.Proofs.Graph.Traversal
import Backslice.Slice.Build

/-! # Edges around removed blocks

A block that is entered from one side can be taken out of a graph: what led to it then leads to its successors, and all
edges stay listed at both of their ends. What can be reached stays reachable, and a relation that holds along all edges
still does if it holds across the block. At last the exit is cut off from what cannot be reached. -/

namespace Backslice

set_option autoImplicit false

/-! ## Single changes -/

theorem eq_of_length_le_one {α : Type} {l : List α} (h : l.length ≤ 1) {a b : α} (ha : a ∈ l) (hb : b ∈ l) : a = b := by
  obtain ⟨i, hi, rfl⟩ := List.mem_iff_getElem.mp ha
  obtain ⟨j, hj, rfl⟩ := List.mem_iff_getElem.mp hb
  obtain rfl : i = j := by omega
  rfl

theorem nodup_of_length_le_one {α : Type} {l : List α} (h : l.length ≤ 1) : l.Nodup := by
  rw [List.nodup_iff_injective_getElem]
  exact fun i j _ => Fin.ext (by omega)

theorem length_le_one {α : Type} {l : List α} (h : l.Nodup) (heq : ∀ a ∈ l, ∀ b ∈ l, a = b) : l.length ≤ 1 := by
  by_contra hlong
  have hne : l[0] ≠ l[1] := fun h01 => by simpa using (List.Nodup.getElem_inj_iff h).mp h01
  exact hne (heq _ (List.getElem_mem _) _ (List.getElem_mem _))

namespace Edges

variable {es : Edges} {u : Int}

theorem contains_of_mem_leaving {e : Edge} (h : e ∈ es.leaving u) : es.contains u = true := by
  unfold leaving at h
  cases hu : es.find? u with
  | none => simp [hu] at h
  | some l => exact Table.contains_iff_find?.mpr ⟨l, hu⟩

theorem contains_of_contains_add {source : Int} {e : Edge} (h : (add es source e).contains u = true) :
    es.contains u = true ∨ u = source := by
  unfold add at h
  split at h
  · exact Or.inl h
  · rw [Table.contains_insert, Bool.or_eq_true, beq_iff_eq] at h
    exact h.symm.imp_right Eq.symm

@[simp] theorem contains_remove (es : Edges) (source target u : Int) :
    (remove es source target).contains u = es.contains u := by
  rw [remove, Table.contains_eq_isSome_find?, Table.find?_map_of_lawful, Option.isSome_map,
    Table.contains_eq_isSome_find?]

theorem contains_removeSource (es : Edges) (source u : Int) :
    (removeSource es source).contains u = (source != u && es.contains u) := by
  rw [removeSource, Table.contains_eq_isSome_find?, Table.find?_erase, Table.contains_eq_isSome_find?]
  by_cases hu : source = u <;> simp [hu]

theorem nodup_leaving_add (h : (es.leaving u).Nodup) (source : Int) (e : Edge) :
    ((add es source e).leaving u).Nodup := by
  unfold add
  split
  · exact h
  · rename_i hnew
    by_cases hs : source = u
    · subst hs
      simpa [leaving] using List.nodup_append.mpr ⟨h, List.nodup_singleton e, by
        rintro a ha b hb rfl
        exact hnew (List.mem_singleton.mp hb ▸ ha)⟩
    · simpa [leaving, hs] using h

/-- No edge of a graph that is built from arrows is listed twice. -/
theorem nodup_predecessors {g : Graph} (h : g.Built) (u : Int) : (g.predecessors u).Nodup := by
  obtain ⟨signature, blocks, arrows, entry, exit, name, index, rfl⟩ := h
  exact List.foldlRecOn (motive := fun es : Edges => (es.leaving u).Nodup) arrows _ List.nodup_nil
    fun es hes a _ => nodup_leaving_add hes ..

theorem exists_edge {v : Int} (hv : v ∈ es.targets u) : ∃ c, ⟨v, c⟩ ∈ es.leaving u := by
  obtain ⟨e, he, rfl⟩ := List.mem_map.mp hv
  exact ⟨e.cond, he⟩

theorem nodup_leaving_remove (h : (es.leaving u).Nodup) (source target : Int) :
    ((remove es source target).leaving u).Nodup := by
  rw [leaving_remove]
  split
  · exact h.filter _
  · exact h

theorem mem_leaving_foldl_remove {es : Edges} {target v : Int} {e : Edge} (sources : List Int) :
    e ∈ (sources.foldl (fun es s => remove es s target) es).leaving v ↔
      e ∈ es.leaving v ∧ ¬ (v ∈ sources ∧ e.target = target) := by
  induction sources generalizing es with
  | nil => simp
  | cons s rest ih =>
    rw [List.foldl_cons, ih, leaving_remove]
    by_cases hs : v = s
    · simp +contextual [hs, and_assoc]
    · simp [hs]

theorem mem_leaving_foldl_remove_target {es : Edges} {source v : Int} {e : Edge} (targets : List Int) :
    e ∈ (targets.foldl (fun es t => remove es source t) es).leaving v ↔
      e ∈ es.leaving v ∧ ¬ (v = source ∧ e.target ∈ targets) := by
  induction targets generalizing es with
  | nil => simp
  | cons t rest ih =>
    rw [List.foldl_cons, ih, leaving_remove]
    by_cases hs : v = source
    · simp [hs, and_assoc]
    · simp [hs]

theorem contains_foldl_remove {es : Edges} {α : Type} (source target : α → Int) (l : List α) (u : Int) :
    (l.foldl (fun es a => remove es (source a) (target a)) es).contains u = es.contains u := by
  induction l generalizing es with
  | nil => rfl
  | cons a rest ih => rw [List.foldl_cons, ih, contains_remove]

theorem nodup_leaving_foldl_remove {es : Edges} (sources : List Int) (target : Int) (h : (es.leaving u).Nodup) :
    ((sources.foldl (fun es s => remove es s target) es).leaving u).Nodup := by
  induction sources generalizing es with
  | nil => exact h
  | cons s rest ih =>
    rw [List.foldl_cons]
    exact ih (nodup_leaving_remove h s target)

theorem mem_reachable {source : Int} {q : List Int} (h : es.Path source q u) : u ∈ es.reachable source := by
  have hall : ∀ n ∈ source :: es.values.flatten.map (·.target), ∀ m ∈ es.targets n,
      m ∈ source :: es.values.flatten.map (·.target) := by
    intro n _ m hm
    obtain ⟨e, he, rfl⟩ := List.mem_map.mp hm
    refine List.mem_cons_of_mem _ (List.mem_map_of_mem (List.mem_flatten.mpr ?_))
    unfold leaving at he
    cases hl : es.find? n with
    | none => simp [hl] at he
    | some l =>
      rw [hl] at he
      exact ⟨l, List.mem_map.mpr ⟨(n, l), Table.find?_eq_some_iff_mem.mp hl, rfl⟩, he⟩
  have hbound : Walk.unseen (source :: es.values.flatten.map (·.target)) {} ≤ es.count + 1 := by
    refine Nat.le_trans List.countP_le_length (Nat.le_of_eq ?_)
    rw [List.length_cons, List.length_map, count]
  obtain ⟨hsource, hclosed⟩ := Walk.visit_closed hall (es.count + 1) {} source (List.mem_cons_self ..) hbound
  exact hclosed.mem_of_path hsource (fun u e he => List.mem_map_of_mem he) h

theorem path_of_mem_reachable {source : Int} (h : u ∈ es.reachable source) : ∃ q, es.Path source q u := by
  obtain ⟨new, hnew⟩ := Walk.visit_extends es.targets (es.count + 1) {} source
  have hu : u ∈ new := ((hnew.seen u).mp h).resolve_right List.not_mem_nil
  refine hnew.forall_new (P := fun u => ∃ q, es.Path source q u) (fun n hn => ?_) (fun n hn m hm => ?_) u hu
  · rw [List.mem_singleton.mp hn]
    exact ⟨[], .start⟩
  · obtain ⟨q, hq⟩ := hn
    obtain ⟨e, he, rfl⟩ := List.mem_map.mp hm
    exact ⟨_, .edge hq he⟩

theorem mem_reachable_iff {source : Int} : u ∈ es.reachable source ↔ ∃ q, es.Path source q u :=
  ⟨path_of_mem_reachable, fun ⟨_, hq⟩ => mem_reachable hq⟩

end Edges

namespace Wiring

variable {w : Wiring} {p : Int} {c : Option Bool} {u v : Int} {e : Edge}

theorem foldl_connect (succs : List Int) :
    succs.foldl (fun (w : Wiring) s => if s = p then w else w.connect p s c) w =
      { edges := (succs.filter (· ≠ p)).foldl (fun es s => Edges.add es p ⟨s, c⟩) w.edges
        backEdges := (succs.filter (· ≠ p)).foldl (fun es s => Edges.add es s ⟨p, c⟩) w.backEdges } := by
  induction succs generalizing w with
  | nil => rfl
  | cons s rest ih =>
    rw [List.foldl_cons, ih]
    by_cases hs : s = p
    · rw [if_pos hs, List.filter_cons_of_neg (by simpa using hs)]
    · rw [if_neg hs, List.filter_cons_of_pos (by simpa using hs)]
      rfl

theorem mem_edges_foldl_connect (succs : List Int) :
    e ∈ (succs.foldl (fun (w : Wiring) s => if s = p then w else w.connect p s c) w).edges.leaving u ↔
      e ∈ w.edges.leaving u ∨ (u = p ∧ e.cond = c ∧ e.target ∈ succs ∧ e.target ≠ p) := by
  rw [foldl_connect, Graph.mem_leaving_foldl_add]
  refine or_congr_right ⟨?_, ?_⟩
  · rintro ⟨s, hs, rfl, rfl⟩
    obtain ⟨hmem, hne⟩ := List.mem_filter.mp hs
    exact ⟨rfl, rfl, hmem, of_decide_eq_true hne⟩
  · rintro ⟨rfl, rfl, hmem, hne⟩
    exact ⟨e.target, List.mem_filter.mpr ⟨hmem, decide_eq_true hne⟩, rfl, rfl⟩

theorem mem_backEdges_foldl_connect (succs : List Int) :
    e ∈ (succs.foldl (fun (w : Wiring) s => if s = p then w else w.connect p s c) w).backEdges.leaving v ↔
      e ∈ w.backEdges.leaving v ∨ (e = ⟨p, c⟩ ∧ v ∈ succs ∧ v ≠ p) := by
  rw [foldl_connect, Graph.mem_leaving_foldl_add]
  refine or_congr_right ⟨?_, ?_⟩
  · rintro ⟨s, hs, rfl, rfl⟩
    obtain ⟨hmem, hne⟩ := List.mem_filter.mp hs
    exact ⟨rfl, hmem, of_decide_eq_true hne⟩
  · rintro ⟨rfl, hmem, hne⟩
    exact ⟨v, List.mem_filter.mpr ⟨hmem, decide_eq_true hne⟩, rfl, rfl⟩

theorem nodup_backEdges_foldl_connect (succs : List Int) (h : (w.backEdges.leaving v).Nodup) :
    ((succs.foldl (fun (w : Wiring) s => if s = p then w else w.connect p s c) w).backEdges.leaving v).Nodup := by
  induction succs generalizing w with
  | nil => exact h
  | cons s rest ih =>
    rw [List.foldl_cons]
    apply ih
    split
    · exact h
    · exact Edges.nodup_leaving_add h _ _

/-- The block is listed in one direction or the other, with edges or without. -/
def Lists (w : Wiring) (u : Int) : Prop := w.edges.contains u = true ∨ w.backEdges.contains u = true

theorem Lists.of_connect {s : Int} (h : (w.connect p s c).Lists u) : w.Lists u ∨ u = p ∨ u = s := by
  rcases h with h | h
  · exact (Edges.contains_of_contains_add h).imp Or.inl Or.inl
  · exact (Edges.contains_of_contains_add h).imp Or.inr Or.inr

theorem Lists.of_foldl_connect {succs : List Int}
    (h : (succs.foldl (fun (w : Wiring) s => if s = p then w else w.connect p s c) w).Lists u) :
    w.Lists u ∨ u = p ∨ u ∈ succs := by
  induction succs generalizing w with
  | nil => exact Or.inl h
  | cons s rest ih =>
    rw [List.foldl_cons] at h
    rcases ih h with hw | rfl | hrest
    · split at hw
      · exact Or.inl hw
      · rcases hw.of_connect with hw | rfl | rfl
        · exact Or.inl hw
        · exact Or.inr (Or.inl rfl)
        · exact Or.inr (Or.inr List.mem_cons_self)
    · exact Or.inr (Or.inl rfl)
    · exact Or.inr (Or.inr (List.mem_cons_of_mem s hrest))

/-! ## Taking a block out -/

variable {index : Int}

/-- The edge from `p` to `index` led on to the successors. -/
def bypass (w : Wiring) (p : Int) (c : Option Bool) (index : Int) : Wiring :=
  (w.edges.targets index).foldl (fun w s => if s = p then w else w.connect p s c)
    { w with edges := Edges.remove w.edges p index }

theorem splice_of_single (hpred : w.backEdges.leaving index = [⟨p, c⟩]) : w.splice index =
    { edges := Edges.removeSource (w.bypass p c index).edges index
      backEdges := Edges.removeSource ((w.edges.targets index).foldl (fun es s => Edges.remove es s index)
        (w.bypass p c index).backEdges) index } := by
  unfold splice
  rw [hpred]
  rfl

theorem splice_of_nil (hpred : w.backEdges.leaving index = []) : w.splice index =
    { edges := Edges.removeSource w.edges index
      backEdges := Edges.removeSource ((w.edges.targets index).foldl (fun es s => Edges.remove es s index)
        w.backEdges) index } := by
  unfold splice
  rw [hpred]
  rfl

theorem mem_edges_splice_of_single (hpred : w.backEdges.leaving index = [⟨p, c⟩]) :
    e ∈ (w.splice index).edges.leaving u ↔
      u ≠ index ∧ ((e ∈ w.edges.leaving u ∧ ¬ (u = p ∧ e.target = index)) ∨
        (u = p ∧ e.cond = c ∧ e.target ∈ w.edges.targets index ∧ e.target ≠ p)) := by
  rw [splice_of_single hpred, Edges.leaving_removeSource]
  by_cases hu : index = u
  · simp [hu]
  · rw [if_neg hu, bypass, mem_edges_foldl_connect, Edges.leaving_remove]
    have hu' : u ≠ index := fun h => hu h.symm
    by_cases hp : u = p
    · simp [hp, hp ▸ hu']
    · simp [hp, hu']

theorem mem_backEdges_splice_of_single (hpred : w.backEdges.leaving index = [⟨p, c⟩]) :
    e ∈ (w.splice index).backEdges.leaving v ↔ v ≠ index ∧
      (e ∈ w.backEdges.leaving v ∨ (e = ⟨p, c⟩ ∧ v ∈ w.edges.targets index ∧ v ≠ p)) ∧
      ¬ (v ∈ w.edges.targets index ∧ e.target = index) := by
  rw [splice_of_single hpred, Edges.leaving_removeSource]
  by_cases hv : index = v
  · simp [hv]
  · rw [if_neg hv, Edges.mem_leaving_foldl_remove, bypass, mem_backEdges_foldl_connect]
    have hv' : v ≠ index := fun h => hv h.symm
    simp [hv']

/-- Edges between the blocks that are left, listed at both of their ends. -/
structure Linked (w : Wiring) (alive : Int → Prop) : Prop where
  inverse : ∀ u v c, ⟨v, c⟩ ∈ w.edges.leaving u ↔ ⟨u, c⟩ ∈ w.backEdges.leaving v
  ends : ∀ u e, e ∈ w.edges.leaving u → alive u ∧ alive e.target

theorem Linked.mono {alive alive' : Int → Prop} (h : w.Linked alive) (hsub : ∀ u, alive u → alive' u) :
    w.Linked alive' where
  inverse := h.inverse
  ends u e he := ⟨hsub u (h.ends u e he).1, hsub e.target (h.ends u e he).2⟩

section
variable {alive : Int → Prop} (h : w.Linked alive) (hsingle : (w.backEdges.leaving index).length ≤ 1)
include h hsingle

/-- What led to the block leads to its successors, and no other edges change. -/
theorem Linked.mem_edges_splice : ⟨v, c⟩ ∈ (w.splice index).edges.leaving u ↔ (u ≠ index ∧ v ≠ index) ∧
    (⟨v, c⟩ ∈ w.edges.leaving u ∨ (⟨index, c⟩ ∈ w.edges.leaving u ∧ v ∈ w.edges.targets index ∧ v ≠ u)) := by
  -- If the block leads to itself, nothing else leads to it, and the self-loop goes with it.
  have hin := fun u c => h.inverse u index c
  rcases hpred : w.backEdges.leaving index with _ | ⟨⟨p, c'⟩, _ | ⟨x, rest⟩⟩
  · simp only [hpred, List.not_mem_nil, iff_false] at hin
    rw [splice_of_nil hpred, Edges.leaving_removeSource]
    by_cases hu : index = u
    · simp [hu]
    · simp only [if_neg hu, hin, false_and, or_false]
      refine ⟨fun he => ⟨⟨fun heq => hu heq.symm, ?_⟩, he⟩, fun he => he.2⟩
      rintro rfl
      exact hin u c he
  · simp only [hpred, List.mem_singleton, Edge.mk.injEq] at hin
    simp only [mem_edges_splice_of_single hpred, hin]
    constructor
    · rintro ⟨hu, ⟨he, hnot⟩ | ⟨rfl, rfl, hv, hne⟩⟩
      · refine ⟨⟨hu, ?_⟩, Or.inl he⟩
        rintro rfl
        exact hnot ⟨((hin u c).mp he).1, rfl⟩
      · refine ⟨⟨hu, ?_⟩, Or.inr ⟨⟨rfl, rfl⟩, hv, hne⟩⟩
        rintro rfl
        obtain ⟨c', hloop⟩ := Edges.exists_edge hv
        exact hu ((hin v c').mp hloop).1.symm
    · rintro ⟨⟨hu, hv⟩, he | ⟨⟨rfl, rfl⟩, ht, hne⟩⟩
      · exact ⟨hu, Or.inl ⟨he, fun hcon => hv hcon.2⟩⟩
      · exact ⟨hu, Or.inr ⟨rfl, rfl, ht, hne⟩⟩
  · simp [hpred] at hsingle

theorem Linked.mem_backEdges_splice : ⟨u, c⟩ ∈ (w.splice index).backEdges.leaving v ↔ (u ≠ index ∧ v ≠ index) ∧
    (⟨v, c⟩ ∈ w.edges.leaving u ∨ (⟨index, c⟩ ∈ w.edges.leaving u ∧ v ∈ w.edges.targets index ∧ v ≠ u)) := by
  have hin := fun u c => h.inverse u index c
  have hout : ⟨v, c⟩ ∈ w.edges.leaving u → v ∈ w.edges.targets u := fun he => List.mem_map_of_mem he
  rcases hpred : w.backEdges.leaving index with _ | ⟨⟨p, c'⟩, _ | ⟨x, rest⟩⟩
  · simp only [hpred, List.not_mem_nil, iff_false] at hin
    rw [splice_of_nil hpred, Edges.leaving_removeSource]
    by_cases hv : index = v
    · simp [hv]
    · simp only [if_neg hv, Edges.mem_leaving_foldl_remove, hin, false_and, or_false, ← h.inverse u v c]
      constructor
      · rintro ⟨he, hnot⟩
        refine ⟨⟨?_, fun heq => hv heq.symm⟩, he⟩
        rintro rfl
        exact hnot ⟨hout he, rfl⟩
      · rintro ⟨⟨hu, -⟩, he⟩
        exact ⟨he, fun hcon => hu hcon.2⟩
  · simp only [hpred, List.mem_singleton, Edge.mk.injEq] at hin
    simp only [mem_backEdges_splice_of_single hpred, hin, ← h.inverse u v c, Edge.mk.injEq]
    constructor
    · rintro ⟨hv, he | ⟨⟨rfl, rfl⟩, ht, hne⟩, hnot⟩
      · refine ⟨⟨?_, hv⟩, Or.inl he⟩
        rintro rfl
        exact hnot ⟨hout he, rfl⟩
      · exact ⟨⟨fun heq => hnot ⟨ht, heq⟩, hv⟩, Or.inr ⟨⟨rfl, rfl⟩, ht, hne⟩⟩
    · rintro ⟨⟨hu, hv⟩, he | ⟨⟨rfl, rfl⟩, ht, hne⟩⟩
      · exact ⟨hv, Or.inl he, fun hcon => hu hcon.2⟩
      · exact ⟨hv, Or.inr ⟨⟨rfl, rfl⟩, ht, hne⟩, fun hcon => hu hcon.2⟩
  · simp [hpred] at hsingle

theorem Linked.splice : (w.splice index).Linked fun u => alive u ∧ u ≠ index where
  inverse _ _ _ := (h.mem_edges_splice hsingle).trans (h.mem_backEdges_splice hsingle).symm
  ends u e he := by
    obtain ⟨⟨hu, hv⟩, hold | ⟨hin, hout, -⟩⟩ := (h.mem_edges_splice hsingle).mp he
    · exact ⟨⟨(h.ends u e hold).1, hu⟩, (h.ends u e hold).2, hv⟩
    · obtain ⟨c', hedge⟩ := Edges.exists_edge hout
      exact ⟨⟨(h.ends u _ hin).1, hu⟩, (h.ends index _ hedge).2, hv⟩

/-- The block is no longer listed, and no other block comes to be. -/
theorem Linked.lists_splice (hu : (w.splice index).Lists u) : u ≠ index ∧ w.Lists u := by
  have hremoved : ∀ {w' : Wiring}, Lists ⟨Edges.removeSource w'.edges index, Edges.removeSource
      ((w.edges.targets index).foldl (fun es s => Edges.remove es s index) w'.backEdges) index⟩ u →
      u ≠ index ∧ w'.Lists u := by
    intro w' hw'
    simp only [Lists, Edges.contains_removeSource, Edges.contains_foldl_remove (fun s => s), Bool.and_eq_true,
      bne_iff_ne, ← and_or_left] at hw'
    exact ⟨hw'.1.symm, hw'.2⟩
  rcases hpred : w.backEdges.leaving index with _ | ⟨⟨p, c⟩, _ | ⟨x, rest⟩⟩
  · rw [splice_of_nil hpred] at hu
    exact hremoved hu
  · rw [splice_of_single hpred] at hu
    obtain ⟨hne, hbypass⟩ := hremoved hu
    refine ⟨hne, ?_⟩
    rcases hbypass.of_foldl_connect with hold | rfl | hout
    · exact hold.imp_left fun hold => by rwa [Edges.contains_remove] at hold
    · have hin : ⟨index, c⟩ ∈ w.edges.leaving u := (h.inverse ..).mpr (hpred ▸ List.mem_singleton_self _)
      exact Or.inl (Edges.contains_of_mem_leaving hin)
    · obtain ⟨c', hedge⟩ := Edges.exists_edge hout
      exact Or.inr (Edges.contains_of_mem_leaving ((h.inverse ..).mp hedge))
  · simp [hpred] at hsingle

/-- What could be reached still can; in place of the block itself, a block that led to it. -/
theorem Linked.path_splice {source : Int} (hne : index ≠ source) {q : List Int} (hq : w.edges.Path source q u) :
    (u ≠ index → ∃ q', (w.splice index).edges.Path source q' u) ∧
      (u = index → ∃ p c q', p ≠ index ∧ ⟨index, c⟩ ∈ w.edges.leaving p ∧
        (w.splice index).edges.Path source q' p) := by
  -- While the path stays on the block, the new one waits at the block that led to it.
  induction hq with
  | start => exact ⟨fun _ => ⟨[], .start⟩, fun heq => absurd heq.symm hne⟩
  | @edge _ u e _ he ih =>
    by_cases hu : u = index
    · obtain ⟨p, c, q', hp, hpi, hq'⟩ := ih.2 hu
      refine ⟨fun hv => ?_, fun _ => ⟨p, c, q', hp, hpi, hq'⟩⟩
      by_cases hvp : e.target = p
      · exact ⟨q', hvp ▸ hq'⟩
      · have hedge : ⟨e.target, c⟩ ∈ (w.splice index).edges.leaving p :=
          (h.mem_edges_splice hsingle).mpr ⟨⟨hp, hv⟩, Or.inr ⟨hpi, List.mem_map.mpr ⟨e, hu ▸ he, rfl⟩, hvp⟩⟩
        exact ⟨_, .edge (e := ⟨e.target, c⟩) hq' hedge⟩
    · obtain ⟨q', hq'⟩ := ih.1 hu
      refine ⟨fun hv => ?_, fun hv => ⟨u, e.cond, q', hu, hv ▸ he, hq'⟩⟩
      exact ⟨_, .edge hq' ((h.mem_edges_splice hsingle).mpr ⟨⟨hu, hv⟩, Or.inl he⟩)⟩

theorem Linked.unentered_splice (hv : w.backEdges.leaving v = []) : (w.splice index).backEdges.leaving v = [] := by
  have hnone : ∀ u c, ⟨v, c⟩ ∉ w.edges.leaving u := fun u c he => by
    have hback := (h.inverse u v c).mp he
    rw [hv] at hback
    cases hback
  refine List.eq_nil_iff_forall_not_mem.mpr fun e he => ?_
  obtain ⟨-, hold | ⟨-, hout, -⟩⟩ := (h.mem_backEdges_splice hsingle).mp he
  · exact hnone _ _ hold
  · obtain ⟨c', hedge⟩ := Edges.exists_edge hout
    exact hnone _ _ hedge

/-- A block that was entered by the removed block alone is now entered by what led to that block. -/
theorem Linked.unique_splice (hv : ∀ e ∈ w.backEdges.leaving v, ∀ e' ∈ w.backEdges.leaving v, e = e') :
    ∀ e ∈ (w.splice index).backEdges.leaving v, ∀ e' ∈ (w.splice index).backEdges.leaving v, e = e' := by
  -- A block with an edge from elsewhere was no successor of the removed one, so it gets no new edge.
  have hnew : ∀ {u c}, u ≠ index → ⟨v, c⟩ ∈ w.edges.leaving u → v ∉ w.edges.targets index := by
    intro u c hu he hout
    obtain ⟨c', hedge⟩ := Edges.exists_edge hout
    have heq := hv _ ((h.inverse u v c).mp he) _ ((h.inverse index v c').mp hedge)
    exact hu (congrArg Edge.target heq)
  intro e he e' he'
  obtain ⟨⟨hu, -⟩, hcase⟩ := (h.mem_backEdges_splice hsingle).mp he
  obtain ⟨⟨hu', -⟩, hcase'⟩ := (h.mem_backEdges_splice hsingle).mp he'
  rcases hcase with hold | ⟨hin, hout, -⟩
  · rcases hcase' with hold' | ⟨-, hout, -⟩
    · exact hv e ((h.inverse ..).mp hold) e' ((h.inverse ..).mp hold')
    · exact absurd hout (hnew hu hold)
  · rcases hcase' with hold' | ⟨hin', -, -⟩
    · exact absurd hout (hnew hu' hold')
    · exact eq_of_length_le_one hsingle ((h.inverse ..).mp hin) ((h.inverse ..).mp hin')

omit h in
theorem nodup_backEdges_splice (hv : (w.backEdges.leaving v).Nodup) : ((w.splice index).backEdges.leaving v).Nodup := by
  rcases hpred : w.backEdges.leaving index with _ | ⟨⟨p, c⟩, _ | ⟨x, rest⟩⟩
  · rw [splice_of_nil hpred, Edges.leaving_removeSource]
    split
    · exact .nil
    · exact Edges.nodup_leaving_foldl_remove _ index hv
  · rw [splice_of_single hpred, Edges.leaving_removeSource]
    split
    · exact .nil
    · exact Edges.nodup_leaving_foldl_remove _ index (nodup_backEdges_foldl_connect _ hv)
  · simp [hpred] at hsingle

end

/-- Edges between the blocks that are left, with a relation `R` that holds along them. The entry reaches all that is
left, and blocks that are `narrow` are entered by one edge at most. -/
structure Sane (w : Wiring) (entry : Int) (alive narrow : Int → Prop) (R : Int → Int → Prop) : Prop where
  inverse : ∀ u v c, ⟨v, c⟩ ∈ w.edges.leaving u ↔ ⟨u, c⟩ ∈ w.backEdges.leaving v
  ends : ∀ u e, e ∈ w.edges.leaving u → alive u ∧ alive e.target
  along : ∀ u e, e ∈ w.edges.leaving u → R u e.target
  entry_free : w.backEdges.leaving entry = []
  reachable : ∀ u, alive u → ∃ p, w.edges.Path entry p u
  nodup : ∀ u, (w.backEdges.leaving u).Nodup
  single : ∀ u, narrow u → ∀ e ∈ w.backEdges.leaving u, ∀ e' ∈ w.backEdges.leaving u, e = e'

variable {entry : Int} {alive narrow : Int → Prop} {R : Int → Int → Prop}

theorem Sane.linked (h : w.Sane entry alive narrow R) : w.Linked alive := ⟨h.inverse, h.ends⟩

theorem Sane.splice (h : w.Sane entry alive narrow R) (hne : index ≠ entry)
    (hsingle : (w.backEdges.leaving index).length ≤ 1) (hR : ∀ u v, R u index → R index v → R u v) :
    (w.splice index).Sane entry (fun u => alive u ∧ u ≠ index) narrow R where
  inverse := (h.linked.splice hsingle).inverse
  ends := (h.linked.splice hsingle).ends
  along u e he := by
    obtain ⟨-, hold | ⟨hin, hout, -⟩⟩ := (h.linked.mem_edges_splice hsingle).mp he
    · exact h.along u e hold
    · obtain ⟨c', hedge⟩ := Edges.exists_edge hout
      exact hR u e.target (h.along u _ hin) (h.along index ⟨e.target, c'⟩ hedge)
  entry_free := h.linked.unentered_splice hsingle h.entry_free
  reachable u hu := by
    obtain ⟨q, hq⟩ := h.reachable u hu.1
    exact (h.linked.path_splice hsingle hne hq).1 hu.2
  nodup u := nodup_backEdges_splice hsingle (h.nodup u)
  single u hu := h.linked.unique_splice hsingle (h.single u hu)

/-! ## Edges into the exit -/

/-- The blocks whose edges into the exit are cut. -/
def stranded (w : Wiring) (entry exit : Int) (removed : List Int) : List Int :=
  ((w.backEdges.leaving exit).map (·.target)).filter fun u =>
    removed.contains u || !(w.edges.reachable entry).contains u

variable {exit : Int} {removed : List Int}

theorem prune_eq_foldl (w : Wiring) (entry exit : Int) (removed : List Int) : w.prune entry exit removed =
    { edges := (w.stranded entry exit removed).foldl (fun es u => Edges.remove es u exit) w.edges
      backEdges := (w.stranded entry exit removed).foldl (fun es u => Edges.remove es exit u) w.backEdges } := by
  unfold prune stranded
  dsimp only
  generalize w.edges.reachable entry = reached
  generalize w.backEdges.leaving exit = incoming
  induction incoming generalizing w with
  | nil => rfl
  | cons e rest ih =>
    rw [List.foldl_cons, ih, List.map_cons, List.filter_cons]
    split <;> rfl

theorem lists_prune (w : Wiring) (entry exit : Int) (removed : List Int) :
    (w.prune entry exit removed).Lists u ↔ w.Lists u := by
  rw [prune_eq_foldl, Lists, Edges.contains_foldl_remove (fun u => u) (fun _ => exit),
    Edges.contains_foldl_remove (fun _ => exit) (fun u => u), Lists]

section
variable (h : w.Linked alive) (hremoved : ∀ u, alive u → u ∉ removed)
include h hremoved

theorem Linked.mem_stranded (he : ⟨exit, c⟩ ∈ w.edges.leaving u) :
    u ∈ w.stranded entry exit removed ↔ ¬ ∃ q, w.edges.Path entry q u := by
  have hback := (h.inverse u exit c).mp he
  have hu := hremoved u (h.ends u _ he).1
  rw [stranded, List.mem_filter, ← Edges.mem_reachable_iff]
  simp [hu, List.mem_map_of_mem (f := Edge.target) hback]

/-- An edge into the exit stays if the entry reaches its source, and all other edges stay. -/
theorem Linked.mem_edges_prune : ⟨v, c⟩ ∈ (w.prune entry exit removed).edges.leaving u ↔
    ⟨v, c⟩ ∈ w.edges.leaving u ∧ (v = exit → ∃ q, w.edges.Path entry q u) := by
  rw [prune_eq_foldl, Edges.mem_leaving_foldl_remove]
  refine and_congr_right fun he => ?_
  constructor
  · rintro hnot rfl
    exact not_not.mp fun hcon => hnot ⟨(h.mem_stranded hremoved he).mpr hcon, rfl⟩
  · rintro hreach ⟨hu, rfl⟩
    exact (h.mem_stranded hremoved he).mp hu (hreach rfl)

theorem Linked.mem_backEdges_prune : ⟨u, c⟩ ∈ (w.prune entry exit removed).backEdges.leaving v ↔
    ⟨v, c⟩ ∈ w.edges.leaving u ∧ (v = exit → ∃ q, w.edges.Path entry q u) := by
  rw [prune_eq_foldl, Edges.mem_leaving_foldl_remove_target, ← h.inverse u v c]
  refine and_congr_right fun he => ?_
  constructor
  · rintro hnot rfl
    exact not_not.mp fun hcon => hnot ⟨rfl, (h.mem_stranded hremoved he).mpr hcon⟩
  · rintro hreach ⟨rfl, hu⟩
    exact (h.mem_stranded hremoved he).mp hu (hreach rfl)

theorem Linked.prune : (w.prune entry exit removed).Linked alive where
  inverse _ _ _ := (h.mem_edges_prune hremoved).trans (h.mem_backEdges_prune hremoved).symm
  ends u e he := h.ends u e ((h.mem_edges_prune hremoved).mp he).1

/-- The entry reaches what it reached before, on the same paths. -/
theorem Linked.path_prune {q : List Int} (hq : w.edges.Path entry q u) :
    (w.prune entry exit removed).edges.Path entry q u := by
  induction hq with
  | start => exact .start
  | edge hq he ih => exact .edge ih ((h.mem_edges_prune hremoved).mpr ⟨he, fun _ => ⟨_, hq⟩⟩)

/-- Where all that is left can be reached, no edge into the exit is removed. -/
theorem Linked.prune_eq (hreach : ∀ u, alive u → ∃ q, w.edges.Path entry q u) (exit : Int) :
    w.prune entry exit removed = w := by
  have hnil : w.stranded entry exit removed = [] := by
    refine List.eq_nil_iff_forall_not_mem.mpr fun u hu => ?_
    obtain ⟨e, hback, rfl⟩ := List.mem_map.mp (List.mem_filter.mp hu).1
    have he := (h.inverse e.target exit e.cond).mpr hback
    exact (h.mem_stranded hremoved he).mp hu (hreach e.target (h.ends e.target _ he).1)
  rw [prune_eq_foldl, hnil]
  rfl

end

end Wiring
end Backslice
