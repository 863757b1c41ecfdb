import Backslice.Proofs.Dependence.PostDominator

/-! # The search for post-dominators comes to an end

The loops of the search stop by themselves: the walk has entered all nodes, the two nodes meet, a pass changes nothing. The
bounds in its definition only make it total. Here the same loops give no answer if a bound cuts them off, or if a node
lacks a number or a pointer that they ask for. With any bound that is large enough they do give one, and it is the table
that has been defined. Each node that reaches the exit has its immediate post-dominator there. -/

namespace Backslice

set_option autoImplicit false

/-! ## The walk -/

/-- A fold in which no step fails is a plain fold. -/
theorem foldlM_eq_some {α β : Type} {f : β → α → β} {f' : β → α → Option β} (I : List α → β → Prop) (l : List α) {b : β}
    (start : I [] b)
    (step : ∀ done a rest b, l = done ++ a :: rest → I done b → f' b a = some (f b a) ∧ I (done ++ [a]) (f b a)) :
    l.foldlM f' b = some (l.foldl f b) := by
  suffices h : ∀ done rest b, l = done ++ rest → I done b → rest.foldlM f' b = some (rest.foldl f b) from
    h [] l b rfl start
  intro done rest
  induction rest generalizing done with
  | nil => exact fun _ _ _ => rfl
  | cons a rest ih =>
    intro b hl hb
    obtain ⟨heq, hnext⟩ := step done a rest b hl hb
    rw [List.foldlM_cons, heq, List.foldl_cons]
    exact ih (done ++ [a]) (f b a) (by simp [hl]) hnext

namespace Walk

/-- The walk from `n`, unless it goes deeper than the bound. -/
def visit? (succ : Int → List Int) : Nat → Walk → Int → Option Walk
  | 0, w, n => if n ∈ w.seen then some w else none
  | depth + 1, w, n =>
    if n ∈ w.seen then some w
    else do
      let inner ← (succ n).foldlM (visit? succ depth) { w with seen := n :: w.seen }
      return { inner with finished := n :: inner.finished }

theorem visit?_eq {succ : Int → List Int} {all : List Int} (hall : ∀ n ∈ all, ∀ m ∈ succ n, m ∈ all)
    {depth depth' : Nat} {w : Walk} {n : Int} (hn : n ∈ all) (h : unseen all w ≤ depth) (h' : unseen all w ≤ depth') :
    visit? succ depth w n = some (visit succ depth' w n) := by
  induction depth generalizing depth' w n with
  | zero =>
    have hseen : n ∈ w.seen := by simpa using List.countP_eq_zero.mp (Nat.le_zero.mp h) n hn
    rw [visit?, if_pos hseen, visit_of_seen depth' hseen]
  | succ depth ih =>
    rw [visit?]
    by_cases hseen : n ∈ w.seen
    · rw [if_pos hseen, visit_of_seen depth' hseen]
    · have hlt := unseen_lt hn hseen
      obtain ⟨d, rfl⟩ : ∃ d, depth' = d + 1 := ⟨depth' - 1, by omega⟩
      have hinner : (succ n).foldlM (visit? succ depth) { w with seen := n :: w.seen } =
          some ((succ n).foldl (visit succ d) { w with seen := n :: w.seen }) := by
        refine foldlM_eq_some (fun _ x => unseen all x ≤ depth ∧ unseen all x ≤ d) (succ n) (by omega)
          fun done m rest x hsplit hx => ⟨?_, ?_⟩
        · exact ih (hall n hn m (by simp [hsplit])) hx.1 hx.2
        · have hmono : unseen all (visit succ d x m) ≤ unseen all x := unseen_mono (seen_subset_visit succ d x m)
          omega
      rw [if_neg hseen, hinner, visit, if_neg hseen]
      rfl

end Walk

namespace PostDominator

variable {succs preds : Adjacency} {exit n : Int} {t : Table Int Int} {nodes : List Int}

/-! ## The nearest common ancestor -/

/-- Of two nodes the one with the greater number steps up until they meet. -/
def climb? (nodes : List Int) (tree : Table Int Int) : Nat → Int → Int → Option Int
  | 0, a, b => if a = b then some a else none
  | steps + 1, a, b =>
    if a = b then some a
    else if a ∈ nodes ∧ b ∈ nodes then
      if nodes.idxOf b < nodes.idxOf a then do climb? nodes tree steps (← tree.find? a) b
      else do climb? nodes tree steps a (← tree.find? b)
    else none

theorem intersect_self (number : Int → Nat) (up : Int → Int) (steps : Nat) (a : Int) :
    intersect number up steps a a = a := by
  cases steps <;> simp [intersect]

theorem Rooted.climb?_eq (h : Rooted exit (nodes.idxOf ·) t) (hnodes : ∀ n, t.contains n = true → n ∈ nodes)
    {bound steps : Nat} {a b : Int} (ha : t.contains a = true) (hb : t.contains b = true)
    (hbound : nodes.idxOf a + nodes.idxOf b ≤ bound) (hsteps : nodes.idxOf a + nodes.idxOf b ≤ steps) :
    climb? nodes t bound a b = some (intersect (nodes.idxOf ·) (fun m => (t.find? m).getD m) steps a b) := by
  induction bound generalizing steps a b with
  | zero =>
    obtain rfl : a = b := h.inj a b ha hb (by omega)
    rw [climb?, if_pos rfl, intersect_self]
  | succ bound ih =>
    by_cases hab : a = b
    · subst hab
      rw [climb?, if_pos rfl, intersect_self]
    have hrank : nodes.idxOf a ≠ nodes.idxOf b := fun heq => hab (h.inj a b ha hb heq)
    obtain ⟨steps, rfl⟩ : ∃ k, steps = k + 1 := ⟨steps - 1, by omega⟩
    rw [climb?, if_neg hab, if_pos ⟨hnodes a ha, hnodes b hb⟩, intersect, if_neg hab]
    by_cases hlt : nodes.idxOf b < nodes.idxOf a
    · obtain ⟨m, hm, hmt, hdown⟩ := h.exists_parent ha hlt
      rw [if_pos hlt, if_pos hlt, hm]
      exact ih hmt hb (by omega) (by omega)
    · obtain ⟨m, hm, hmt, hdown⟩ := h.exists_parent (x := a) hb (by omega)
      rw [if_neg hlt, if_neg hlt, hm]
      exact ih ha hmt (by omega) (by omega)

/-- The nearest common ancestor of the successors of `n` that are in the tree, if there are any. -/
def candidate? (bound : Nat) (succs : Adjacency) (nodes : List Int) (tree : Table Int Int) (n : Int) :
    Option (Option Int) :=
  match (succs.next n).filter tree.contains with
  | [] => some none
  | first :: others => some <$> others.foldlM (climb? nodes tree bound) first

theorem Rooted.candidate?_eq (h : Rooted exit (nodes.idxOf ·) t) (hnodes : ∀ n, t.contains n = true → n ∈ nodes)
    {bound : Nat} (hbound : 2 * nodes.length ≤ bound) (n : Int) :
    candidate? bound succs nodes t n = some (candidate succs nodes t n) := by
  unfold candidate? candidate
  cases hl : (succs.next n).filter t.contains with
  | nil => rfl
  | cons first others =>
    have hin : ∀ p ∈ first :: others, t.contains p = true := fun p hp => (List.mem_filter.mp (hl ▸ hp)).2
    have hfold : others.foldlM (climb? nodes t bound) first = some (others.foldl
        (intersect (nodes.idxOf ·) (fun m => (t.find? m).getD m) (nodes.length * nodes.length)) first) := by
      refine foldlM_eq_some (fun _ c => t.contains c = true) others (hin first List.mem_cons_self)
        fun done b rest a hsplit ha => ?_
      have hb : t.contains b = true := hin b (by simp [hsplit])
      have hsteps := rank_add_le hnodes ha hb
      have hmeets := h.intersect_meets _ ha hb hsteps
      have hra := List.idxOf_lt_length_of_mem (hnodes a ha)
      have hrb := List.idxOf_lt_length_of_mem (hnodes b hb)
      exact ⟨h.climb?_eq hnodes ha hb (by omega) hsteps, h.contains_above ha (hmeets.above a (by simp))⟩
    simp only [hfold, Option.map_eq_map, Option.map_some]

/-! ## Passes -/

/-- One node of a pass. -/
def update? (bound : Nat) (succs : Adjacency) (nodes : List Int) (exit : Int) (acc : Table Int Int × Bool) (n : Int) :
    Option (Table Int Int × Bool) :=
  if n = exit then some acc
  else (candidate? bound succs nodes acc.1 n).map fun
    | none => acc
    | some d => if acc.1.find? n = some d then acc else (acc.1.insert n d, true)

/-- Passes until nothing changes, unless there are more than the limit. -/
def iterate? (bound : Nat) (succs : Adjacency) (nodes : List Int) (exit : Int) :
    Nat → Table Int Int → Option (Table Int Int)
  | 0, _ => none
  | limit + 1, tree => do
    let (tree, changed) ← nodes.foldlM (update? bound succs nodes exit) (tree, false)
    if changed then iterate? bound succs nodes exit limit tree else return tree

/-- The whole search with one bound for all of its loops. -/
def search? (bound : Nat) (succs preds : Adjacency) (exit : Int) : Option (Table Int Int) := do
  let walk ← Walk.visit? preds.next bound {} exit
  iterate? bound succs walk.finished exit bound ((∅ : Table Int Int).insert exit exit)

theorem Rooted.update?_eq {acc : Table Int Int × Bool} (h : Rooted exit (nodes.idxOf ·) acc.1)
    (hnodes : ∀ n, acc.1.contains n = true → n ∈ nodes) {bound : Nat} (hbound : 2 * nodes.length ≤ bound) (n : Int) :
    update? bound succs nodes exit acc n = some (update succs nodes exit acc n) := by
  unfold update? update
  rw [h.candidate?_eq hnodes hbound]
  split
  · rfl
  · cases candidate succs nodes acc.1 n <;> rfl

section Passes

variable (hr : Ranks succs.next exit (nodes.idxOf ·)) (hnodes : ∀ n, n ∈ nodes ↔ Reaches succs.next exit n)
include hr hnodes

theorem Pass.foldlM_update? (hnodup : nodes.Nodup) (h : Pass succs.next exit (nodes.idxOf ·) 0 t) {bound : Nat}
    (hbound : 2 * nodes.length ≤ bound) : nodes.foldlM (update? bound succs nodes exit) (t, false) =
      some (nodes.foldl (update succs nodes exit) (t, false)) := by
  refine foldlM_eq_some (Progress succs nodes exit t) nodes (.start h) fun done n rest acc hsplit hacc => ?_
  refine ⟨hacc.pass.rooted.update?_eq (fun m hm => (hnodes m).mpr (hacc.pass.reaches m hm)) hbound n, ?_⟩
  exact hacc.update hr hnodes hnodup hsplit

theorem Pass.iterate?_eq (hnodup : nodes.Nodup) {bound limit limit' : Nat} (h : Pass succs.next exit (nodes.idxOf ·) 0 t)
    (hbound : 2 * nodes.length ≤ bound) (hlimit : weight nodes t nodes < limit)
    (hlimit' : weight nodes t nodes < limit') :
    iterate? bound succs nodes exit limit t = some (iterate succs nodes exit limit' t) := by
  induction limit generalizing limit' t with
  | zero => omega
  | succ limit ih =>
    obtain ⟨k, rfl⟩ : ∃ k, limit' = k + 1 := ⟨limit' - 1, by omega⟩
    have hend := h.progress hr hnodes hnodup
    rw [iterate?, iterate, h.foldlM_update? hr hnodes hnodup hbound]
    generalize nodes.foldl (update succs nodes exit) (t, false) = acc at hend ⊢
    obtain ⟨t', flag⟩ := acc
    cases flag with
    | false => rfl
    | true =>
      have hlt := hend.lighter rfl
      dsimp only at hlt
      exact ih (hend.pass.restart fun n hn => List.idxOf_lt_length_of_mem ((hnodes n).mpr hn)) (by omega) (by omega)

end Passes

/-- With a bound that exceeds the number of edges and the weights of all trees, no loop of the search is cut off. -/
theorem search?_eq (hinv : ∀ n m, m ∈ succs.next n ↔ n ∈ preds.next m) {bound : Nat}
    (hwalk : preds.values.flatten.length + 1 ≤ bound)
    (hpasses : (order preds exit).length * (order preds exit).length + 2 * (order preds exit).length < bound) :
    search? bound succs preds exit = some (postDominators succs preds exit) := by
  have hr : Ranks succs.next exit ((order preds exit).idxOf ·) := ranks_order hinv
  have hall : ∀ n ∈ exit :: preds.values.flatten, ∀ m ∈ preds.next n, m ∈ exit :: preds.values.flatten :=
    fun n _ m hm => List.mem_cons_of_mem exit (Adjacency.mem_flatten_of_mem_next hm)
  have hvisit : Walk.visit? preds.next bound {} exit =
      some (Walk.visit preds.next (preds.values.flatten.length + 1) {} exit) := by
    refine Walk.visit?_eq hall List.mem_cons_self ?_ ?_
    · simpa [Walk.unseen] using hwalk
    · simp [Walk.unseen]
  have hweight := weight_le (order preds exit) ((∅ : Table Int Int).insert exit exit) (order preds exit)
  have hpow := sq_le_pow_succ (order preds exit).length
  rw [search?, hvisit]
  exact (pass_start hr).iterate?_eq hr (fun n => mem_order hinv) (order_extends preds exit).nodup (by omega) (by omega)
    (by omega)

/-! ## Immediate post-dominators -/

theorem IsTree.immediate {next : Int → List Int} {rank : Int → Nat} (h : IsTree next exit rank t) {d : Int}
    (hd : t.find? n = some d) (hn : n ≠ exit) : ImmediatelyPostDominates next exit d n := by
  have hnt : t.contains n = true := Table.contains_iff_find?.mpr ⟨d, hd⟩
  obtain ⟨hdt, hlt⟩ := h.rooted.parent n d hd hn
  refine ⟨⟨fun heq => ?_, (h.above_iff n d hnt).mp (.single hd)⟩, fun x hx => ?_⟩
  · rw [heq] at hlt
    exact Nat.lt_irrefl _ hlt
  · have hnx := (h.above_iff n x hnt).mpr hx.2
    exact (h.above_iff d x hdt).mp (((above_iff_of_parent hd).mp hnx).resolve_left hx.1)

/-- Edges that are given in both directions, one list after the other. -/
theorem inverse_of_entries (h : ∀ e ∈ succs.entries, ∀ m ∈ e.2, e.1 ∈ preds.next m)
    (h' : ∀ e ∈ preds.entries, ∀ n ∈ e.2, e.1 ∈ succs.next n) (n m : Int) : m ∈ succs.next n ↔ n ∈ preds.next m := by
  constructor
  · intro hm
    obtain ⟨l, hl, hml⟩ := Adjacency.exists_entry_of_mem_next hm
    exact h (n, l) hl m hml
  · intro hn
    obtain ⟨l, hl, hnl⟩ := Adjacency.exists_entry_of_mem_next hn
    exact h' (m, l) hl n hnl

end PostDominator

open PostDominator

/-- For edges that are given in both directions the search comes to an end, with the table of the nodes that reach the
exit: the exit stands for itself there, and every other node has its immediate post-dominator. -/
theorem postDominators_immediate {succs preds : Adjacency} (hinv : ∀ n m, m ∈ succs.next n ↔ n ∈ preds.next m)
    (exit : Int) :
    (∃ enough, ∀ bound, enough ≤ bound → search? bound succs preds exit = some (postDominators succs preds exit)) ∧
    (∀ n, n ∈ (postDominators succs preds exit).keys ↔ Reaches succs.next exit n) ∧
    (postDominators succs preds exit).find? exit = some exit ∧
    ∀ n d, (postDominators succs preds exit).find? n = some d → n ≠ exit →
      ImmediatelyPostDominates succs.next exit d n := by
  have htree := isTree_postDominators hinv exit
  refine ⟨⟨preds.values.flatten.length + 1 + (order preds exit).length * (order preds exit).length +
    2 * (order preds exit).length, fun bound hbound => search?_eq hinv (by omega) (by omega)⟩, fun n => ?_,
    htree.rooted.top, fun n d hd hn => htree.immediate hd hn⟩
  rw [← List.contains_iff_mem, Table.contains_keys]
  exact htree.contains_iff n

/-- A cycle with two ways in, a loop at 4 with two equal edges to the exit, an edge that leaves the exit, and a node from
which it cannot be reached. -/
def tangle : Adjacency := .ofList [(0, [1]), (1, [2, 3, 5]), (2, [3, 4]), (3, [2, 4]), (4, [4, 0, 0]), (5, [5])]

def tangleBack : Adjacency := .ofList [(0, [4, 4]), (1, [0]), (2, [1, 3]), (3, [1, 2]), (4, [2, 3, 4]), (5, [1, 5])]

theorem postDominators_immediate_tangle : (∀ n m, m ∈ tangle.next n ↔ n ∈ tangleBack.next m) ∧
    (postDominators tangle tangleBack 0).entries = [(0, 0), (4, 0), (2, 4), (3, 4), (1, 4)] ∧
    ¬ Reaches tangle.next 0 5 ∧ ImmediatelyPostDominates tangle.next 0 4 1 := by
  have hinv : ∀ n m, m ∈ tangle.next n ↔ n ∈ tangleBack.next m := inverse_of_entries (by decide) (by decide)
  obtain ⟨-, hkeys, -, himmediate⟩ := postDominators_immediate hinv 0
  have hentries : (postDominators tangle tangleBack 0).entries = [(0, 0), (4, 0), (2, 4), (3, 4), (1, 4)] := by
    decide +kernel
  refine ⟨hinv, hentries, fun hcon => ?_, himmediate 1 4 ?_ (by decide)⟩
  · have hmem := (hkeys 5).mpr hcon
    rw [Table.keys, hentries] at hmem
    exact absurd hmem (by decide)
  · rw [Table.find?, hentries]
    rfl

end Backslice
