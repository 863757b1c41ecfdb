import Backslice.Proofs.Data.Success
import Backslice.Proofs.Dependence.Pass
import Backslice.Proofs.Graph.Traversal

/-! # The tree of post-dominators

Each change in a pass moves a pointer up, so that the passes come to an end long before their limit. A tree that a pass
leaves as it is has the post-dominators of each node as its ancestors. -/

namespace Backslice

set_option autoImplicit false

theorem Adjacency.exists_entry_of_mem_next {a : Adjacency} {n m : Int} (h : m ∈ a.next n) :
    ∃ l, (n, l) ∈ a.entries ∧ m ∈ l := by
  unfold Adjacency.next at h
  cases hn : a.find? n with
  | none => simp [hn] at h
  | some l =>
    rw [hn] at h
    exact ⟨l, Table.find?_eq_some_iff_mem.mp hn, h⟩

theorem Adjacency.mem_flatten_of_mem_next {a : Adjacency} {n m : Int} (h : m ∈ a.next n) : m ∈ a.values.flatten := by
  obtain ⟨l, hl, hm⟩ := exists_entry_of_mem_next h
  exact List.mem_flatten.mpr ⟨l, List.mem_map.mpr ⟨(n, l), hl, rfl⟩, hm⟩

namespace PostDominator

variable {succs preds : Adjacency} {exit n : Int} {t t₀ : Table Int Int} {nodes : List Int}

/-! ## The order of the nodes -/

theorem order_extends (preds : Adjacency) (exit : Int) : Walk.Extends preds.next [exit] {}
    (Walk.visit preds.next (preds.values.flatten.length + 1) {} exit) (order preds exit) := by
  obtain ⟨new, hnew⟩ := Walk.visit_extends preds.next (preds.values.flatten.length + 1) {} exit
  have horder : order preds exit = new := hnew.finished.trans (List.append_nil new)
  rw [horder]
  exact hnew

section Order

variable (hinv : ∀ n m, m ∈ succs.next n ↔ n ∈ preds.next m)
include hinv

theorem mem_order : n ∈ order preds exit ↔ Reaches succs.next exit n := by
  have hextends := order_extends preds exit
  constructor
  · refine hextends.forall_new (P := fun n => Reaches succs.next exit n) ?_ ?_ n
    · intro m hm
      rw [List.mem_singleton.mp hm]
      exact ⟨[exit], .here⟩
    · exact fun n hn m hm => hn.step ((hinv m n).mpr hm)
  · rintro ⟨p, hp⟩
    have hall : ∀ n ∈ exit :: preds.values.flatten, ∀ m ∈ preds.next n, m ∈ exit :: preds.values.flatten :=
      fun n _ m hm => List.mem_cons_of_mem exit (Adjacency.mem_flatten_of_mem_next hm)
    obtain ⟨hexit, hclosed⟩ := Walk.visit_closed hall (preds.values.flatten.length + 1) {} exit List.mem_cons_self
      (by simp [Walk.unseen])
    have hseen : n ∈ (Walk.visit preds.next (preds.values.flatten.length + 1) {} exit).seen := by
      induction hp with
      | here => exact hexit
      | @step n m p hm _ ih =>
        rcases hclosed m ih with hcon | hsucc
        · cases hcon
        · exact hsucc n ((hinv n m).mp hm)
    rcases (hextends.seen n).mp hseen with hn | hn
    · exact hn
    · cases hn

theorem ranks_order : Ranks succs.next exit ((order preds exit).idxOf ·) := by
  have hextends := order_extends preds exit
  refine ⟨?_, fun m n hm _ heq => (List.idxOf_inj ((mem_order hinv).mpr hm)).mp heq, fun n hn hne => ?_⟩
  · have hexit : exit ∈ order preds exit := (mem_order hinv).mpr ⟨[exit], .here⟩
    cases ho : order preds exit with
    | nil => simp [ho] at hexit
    | cons n post =>
      rcases hextends.parent [] n post ho with hn | ⟨p, hp, -⟩
      · rw [List.mem_singleton.mp hn]
        exact List.idxOf_cons_self
      · cases hp
  · obtain ⟨pre, post, ho⟩ := List.append_of_mem ((mem_order hinv).mpr hn)
    rcases hextends.parent pre n post ho with hn | ⟨m, hm, hn⟩
    · exact absurd (List.mem_singleton.mp hn) hne
    · have hmo : m ∈ order preds exit := by simp [ho, hm]
      have hnodup := hextends.nodup
      rw [ho] at hnodup
      have hnpre : n ∉ pre := fun hcon => (List.nodup_append.mp hnodup).2.2 n hcon n (by simp) rfl
      refine ⟨m, (hinv n m).mpr hn, (mem_order hinv).mp hmo, ?_⟩
      rw [ho, List.idxOf_append_of_mem hm, List.idxOf_append_of_notMem hnpre, List.idxOf_cons_self]
      have := List.idxOf_lt_length_of_mem hm
      omega

end Order

/-! ## Passes come to an end -/

/-- The rank of the parent of a node, or a bound on ranks for a node that is not in the tree yet. -/
def height (nodes : List Int) (t : Table Int Int) (n : Int) : Nat :=
  ((t.find? n).map (nodes.idxOf ·)).getD nodes.length

/-- The sum of the heights of the listed nodes. -/
def weight (nodes : List Int) (t : Table Int Int) : List Int → Nat
  | [] => 0
  | n :: rest => height nodes t n + weight nodes t rest

theorem height_le (nodes : List Int) (t : Table Int Int) (n : Int) : height nodes t n ≤ nodes.length := by
  unfold height
  cases t.find? n with
  | none => exact Nat.le_refl _
  | some m => exact List.idxOf_le_length

theorem weight_le (nodes : List Int) (t : Table Int Int) (l : List Int) :
    weight nodes t l ≤ l.length * nodes.length := by
  induction l with
  | nil => simp [weight]
  | cons n rest ih =>
    have hn := height_le nodes t n
    rw [weight, List.length_cons, Nat.succ_mul]
    omega

theorem weight_le_weight {t' : Table Int Int} (l : List Int) (h : ∀ n, height nodes t' n ≤ height nodes t n) :
    weight nodes t' l ≤ weight nodes t l := by
  induction l with
  | nil => exact Nat.le_refl _
  | cons n rest ih =>
    have hn := h n
    simp only [weight]
    omega

theorem weight_lt_weight {t' : Table Int Int} {l : List Int} (h : ∀ n, height nodes t' n ≤ height nodes t n)
    (hn : n ∈ l) (hlt : height nodes t' n < height nodes t n) : weight nodes t' l < weight nodes t l := by
  induction l with
  | nil => cases hn
  | cons m rest ih =>
    have hm := h m
    simp only [weight]
    by_cases hmn : n = m
    · have hrest := weight_le_weight rest h
      subst hmn
      omega
    · have hrest := ih (by simpa [hmn] using hn)
      omega

/-- The pointer of a node is the nearest common ancestor of its successors. -/
def Stable (succs : Adjacency) (t : Table Int Int) (n : Int) : Prop :=
  ∃ c, t.find? n = some c ∧ Meets t ((succs.next n).filter t.contains) c

/-- What is known when a pass that began with the tree `t₀` has dealt with the nodes `done`. -/
structure Progress (succs : Adjacency) (nodes : List Int) (exit : Int) (t₀ : Table Int Int) (done : List Int)
    (acc : Table Int Int × Bool) : Prop where
  pass : Pass succs.next exit (nodes.idxOf ·) done.length acc.1
  stable : acc.2 = false → acc.1 = t₀ ∧ ∀ n ∈ done, n ≠ exit → Stable succs t₀ n
  lighter : acc.2 = true → weight nodes acc.1 nodes < weight nodes t₀ nodes

variable {done : List Int} {acc : Table Int Int × Bool}

theorem Progress.start (h : Pass succs.next exit (nodes.idxOf ·) 0 t) : Progress succs nodes exit t [] (t, false) where
  pass := h
  stable _ := ⟨rfl, fun n hn => by cases hn⟩
  lighter hflag := by cases hflag

theorem Progress.unchanged (h : Progress succs nodes exit t₀ done acc)
    (hpass : Pass succs.next exit (nodes.idxOf ·) (done ++ [n]).length acc.1)
    (hn : n ≠ exit → Stable succs acc.1 n) : Progress succs nodes exit t₀ (done ++ [n]) acc where
  pass := hpass
  stable hflag := by
    obtain ⟨heq, hdone⟩ := h.stable hflag
    refine ⟨heq, fun m hm hme => ?_⟩
    rcases List.mem_append.mp hm with hm | hm
    · exact hdone m hm hme
    · rw [List.mem_singleton.mp hm] at hme ⊢
      exact heq ▸ hn hme
  lighter := h.lighter

theorem Progress.changed (h : Progress succs nodes exit t₀ done acc)
    (hpass : Pass succs.next exit (nodes.idxOf ·) (done ++ [n]).length t)
    (hlt : weight nodes t nodes < weight nodes acc.1 nodes) :
    Progress succs nodes exit t₀ (done ++ [n]) (t, true) where
  pass := hpass
  stable hflag := by cases hflag
  lighter _ := by
    cases hflag : acc.2 with
    | false => exact (h.stable hflag).1 ▸ hlt
    | true => exact Nat.lt_trans hlt (h.lighter hflag)

section Passes

variable (hr : Ranks succs.next exit (nodes.idxOf ·)) (hnodes : ∀ n, n ∈ nodes ↔ Reaches succs.next exit n)
include hr hnodes

/-- Setting the pointer of a node makes the tree lighter. -/
theorem weight_insert_lt {c : Int} (h : Pass succs.next exit (nodes.idxOf ·) (nodes.idxOf n) t)
    (hs : Step succs.next exit t (t.insert n c) n c) (hne : t.find? n ≠ some c) :
    weight nodes (t.insert n c) nodes < weight nodes t nodes := by
  have hlt : height nodes (t.insert n c) n < height nodes t n := by
    have hc := Pass.contains_meet hr h hs
    rw [height, hs.find?_self, Option.map_some, Option.getD_some, height]
    cases hn : t.find? n with
    | none => exact List.idxOf_lt_length_of_mem ((hnodes c).mpr (h.reaches c hc))
    | some m =>
      have habove := Pass.above_meet h hs hn
      have hle := h.rooted.rank_le habove
      have hcm : ¬ nodes.idxOf m ≤ nodes.idxOf c := fun hcon =>
        hne (hn.trans (congrArg some (h.rooted.eq_of_rank_le habove hcon).symm))
      simp only [Option.map_some, Option.getD_some]
      omega
  refine weight_lt_weight (fun y => ?_) ((hnodes n).mpr hs.reaches) hlt
  by_cases hy : y = n
  · subst hy
    omega
  · exact Nat.le_of_eq (by rw [height, hs.find?_of_ne y hy, height])

theorem Progress.update {rest : List Int} (hnodup : nodes.Nodup) (hsplit : nodes = done ++ n :: rest)
    (h : Progress succs nodes exit t₀ done acc) :
    Progress succs nodes exit t₀ (done ++ [n]) (update succs nodes exit acc n) := by
  have hrank : nodes.idxOf n = done.length := by
    rw [hsplit] at hnodup
    have hn : n ∉ done := fun hcon => (List.nodup_append.mp hnodup).2.2 n hcon n (by simp) rfl
    rw [hsplit, List.idxOf_append_of_notMem hn, List.idxOf_cons_self]
    omega
  have hlength : (done ++ [n]).length = nodes.idxOf n + 1 := by simp [hrank]
  have hreach : Reaches succs.next exit n := (hnodes n).mp (by simp [hsplit])
  have hpass := h.pass
  rw [← hrank] at hpass
  unfold PostDominator.update
  by_cases hne : n = exit
  · rw [if_pos hne]
    have hzero : nodes.idxOf n = 0 := by rw [hne]; exact hr.low
    rw [hzero] at hpass hlength
    exact h.unchanged (hlength ▸ hpass.skip_exit hr) fun hcon => absurd hne hcon
  rw [if_neg hne]
  obtain ⟨q, hq, hqreach, hqlt⟩ := hr.lead n hreach hne
  obtain ⟨c, hc, hmeets⟩ := hpass.rooted.candidate_meets (fun m hm => (hnodes m).mpr (hpass.reaches m hm)) hq
    (hpass.done q hqreach hqlt)
  rw [hc]
  dsimp only
  by_cases hold : acc.1.find? n = some c
  · rw [if_pos hold]
    have hs : Step succs.next exit acc.1 acc.1 n c := by
      refine ⟨hreach, hne, hmeets, fun y => ?_⟩
      by_cases hy : n = y
      · rw [if_pos hy, ← hy, hold]
      · rw [if_neg hy]
    exact h.unchanged (hlength ▸ hpass.step hr hs) fun _ => ⟨c, hold, hmeets⟩
  · rw [if_neg hold]
    have hs : Step succs.next exit acc.1 (acc.1.insert n c) n c := ⟨hreach, hne, hmeets, fun y => by simp⟩
    exact h.changed (hlength ▸ hpass.step hr hs) (weight_insert_lt hr hnodes hpass hs hold)

/-- A whole pass. -/
theorem Pass.progress (hnodup : nodes.Nodup) (h : Pass succs.next exit (nodes.idxOf ·) 0 t) :
    Progress succs nodes exit t nodes (nodes.foldl (PostDominator.update succs nodes exit) (t, false)) :=
  foldl_carries (Progress succs nodes exit t) nodes (.start h)
    fun _ _ _ _ hsplit hacc => hacc.update hr hnodes hnodup hsplit

/-- If the limit exceeds the weight of the tree, the passes end with a tree that the last pass has left as it was. -/
theorem iterate_stable (hnodup : nodes.Nodup) (limit : Nat) (h : Pass succs.next exit (nodes.idxOf ·) 0 t)
    (hlimit : weight nodes t nodes < limit) :
    Pass succs.next exit (nodes.idxOf ·) nodes.length (iterate succs nodes exit limit t) ∧
      ∀ n ∈ nodes, n ≠ exit → Stable succs (iterate succs nodes exit limit t) n := by
  induction limit generalizing t with
  | zero => omega
  | succ limit ih =>
    have hend := h.progress hr hnodes hnodup
    rw [iterate]
    generalize nodes.foldl (PostDominator.update succs nodes exit) (t, false) = acc at hend ⊢
    obtain ⟨t', flag⟩ := acc
    cases flag with
    | false =>
      obtain ⟨rfl, hstable⟩ := hend.stable rfl
      exact ⟨hend.pass, hstable⟩
    | true =>
      have hlt := hend.lighter rfl
      dsimp only at hlt
      refine ih (hend.pass.restart fun n hn => List.idxOf_lt_length_of_mem ((hnodes n).mpr hn)) ?_
      omega

end Passes

/-! ## The result -/

/-- The nodes that reach the exit, each with its post-dominators as ancestors. -/
structure IsTree (next : Int → List Int) (exit : Int) (rank : Int → Nat) (t : Table Int Int) : Prop where
  rooted : Rooted exit rank t
  contains_iff : ∀ n, t.contains n = true ↔ Reaches next exit n
  above_iff : ∀ n x, t.contains n = true → (Above t n x ↔ PostDominates next exit x n)
  rank_lt : ∀ n, t.contains n = true → rank n < t.size

/-- In a stable tree, ancestors are post-dominators. -/
theorem postDominates_of_stable (h : Rooted exit (nodes.idxOf ·) t)
    (hcontains : ∀ n, Reaches succs.next exit n → t.contains n = true)
    (hstable : ∀ n, Reaches succs.next exit n → n ≠ exit → Stable succs t n) {x : Int} (hx : Above t n x) :
    PostDominates succs.next exit x n := by
  intro p hp
  induction hp with
  | here =>
    rw [h.eq_exit_of_above hx]
    exact List.mem_cons_self
  | @step n m p hm hp ih =>
    by_cases hxn : x = n
    · rw [hxn]
      exact List.mem_cons_self
    · have hne : n ≠ exit := by
        rintro rfl
        exact hxn (h.eq_exit_of_above hx)
      obtain ⟨c, hc, hmeets⟩ := hstable n ⟨n :: p, .step hm hp⟩ hne
      have hcx := ((above_iff_of_parent hc).mp hx).resolve_left hxn
      have hmc := hmeets.above m (List.mem_filter.mpr ⟨hm, hcontains m ⟨p, hp⟩⟩)
      exact List.mem_cons_of_mem n (ih (hmc.trans hcx))

theorem pass_start (hr : Ranks succs.next exit (nodes.idxOf ·)) :
    Pass succs.next exit (nodes.idxOf ·) 0 ((∅ : Table Int Int).insert exit exit) := by
  have hfind : ∀ n m, ((∅ : Table Int Int).insert exit exit).find? n = some m → n = exit := by
    intro n m hm
    by_cases hn : exit = n
    · exact hn.symm
    · simp [hn] at hm
  have hcontains : ∀ n, ((∅ : Table Int Int).insert exit exit).contains n = true → n = exit := by
    intro n hn
    obtain ⟨m, hm⟩ := Table.contains_iff_find?.mp hn
    exact hfind n m hm
  have hrooted : Rooted exit (nodes.idxOf ·) ((∅ : Table Int Int).insert exit exit) :=
    ⟨by simp, hr.low, fun m n hm hn _ => (hcontains m hm).trans (hcontains n hn).symm,
      fun n m hm hne => absurd (hfind n m hm) hne⟩
  have hreaches : ∀ n, ((∅ : Table Int Int).insert exit exit).contains n = true → Reaches succs.next exit n := by
    intro n hn
    rw [hcontains n hn]
    exact ⟨[exit], .here⟩
  exact ⟨hrooted, hreaches, fun _ _ hlt => absurd hlt (Nat.not_lt_zero _),
    fun n m hm hne => absurd (hfind n m hm) hne, fun n m hm hne => absurd (hfind n m hm) hne,
    fun n m hm hne => absurd (hfind n m hm) hne⟩

/-- The limit on the number of passes exceeds the weight of every tree. -/
theorem sq_le_pow_succ (k : Nat) : k * k ≤ Nat.pow (k + 1) k := by
  cases k with
  | zero => omega
  | succ k => cases k with
    | zero => decide
    | succ k =>
      calc (k + 2) * (k + 2) ≤ (k + 3) * (k + 3) := Nat.mul_le_mul (by omega) (by omega)
        _ = Nat.pow (k + 3) 2 := (Nat.pow_two (k + 3)).symm
        _ ≤ Nat.pow (k + 3) (k + 2) := Nat.pow_le_pow_right (by omega) (by omega)

/-- For edges that are given in both directions, the computed table is the tree of post-dominators. -/
theorem isTree_postDominators (hinv : ∀ n m, m ∈ succs.next n ↔ n ∈ preds.next m) (exit : Int) :
    IsTree succs.next exit ((order preds exit).idxOf ·) (postDominators succs preds exit) := by
  have hr : Ranks succs.next exit ((order preds exit).idxOf ·) := ranks_order hinv
  have hnodes : ∀ n, n ∈ order preds exit ↔ Reaches succs.next exit n := fun n => mem_order hinv
  obtain ⟨hpass, hstable⟩ := iterate_stable hr hnodes (order_extends preds exit).nodup
    (Nat.pow ((order preds exit).length + 1) (order preds exit).length + 1) (pass_start hr)
    (Nat.lt_succ_of_le (Nat.le_trans (weight_le _ _ _) (sq_le_pow_succ _)))
  change Pass _ _ _ _ (postDominators succs preds exit) at hpass
  change ∀ n ∈ order preds exit, n ≠ exit → Stable succs (postDominators succs preds exit) n at hstable
  have hcontains : ∀ n, Reaches succs.next exit n → (postDominators succs preds exit).contains n = true :=
    fun n hn => hpass.done n hn (List.idxOf_lt_length_of_mem ((hnodes n).mpr hn))
  refine ⟨hpass.rooted, fun n => ⟨hpass.reaches n, hcontains n⟩, fun n x hn => ⟨fun hx => ?_, fun hx => ?_⟩,
    fun n hn => ?_⟩
  · exact postDominates_of_stable hpass.rooted hcontains (fun m hm => hstable m ((hnodes m).mpr hm)) hx
  · exact hpass.above_of_postDominates hn hx
  · have hsub : order preds exit ⊆ (postDominators succs preds exit).keys := by
      intro m hm
      rw [← List.contains_iff_mem, Table.contains_keys]
      exact hcontains m ((hnodes m).mp hm)
    have hle := ((order_extends preds exit).nodup.subperm hsub).length_le
    have hlt := List.idxOf_lt_length_of_mem ((hnodes n).mpr (hpass.reaches n hn))
    rw [Table.keys, List.length_map] at hle
    exact Nat.lt_of_lt_of_le hlt hle

end PostDominator
end Backslice
