import Backslice.Dependence.Control
import Backslice.Proofs.Dependence.PostDominator

/-! # Exact control dependence

The way up the tree of post-dominators from a target of a branch, as far as the immediate post-dominator of the branch,
meets just the nodes that post-dominate the target but do not strictly post-dominate the branch. The dependences of a
graph therefore list the branches that govern each block, and nothing else. -/

namespace Backslice

set_option autoImplicit false

open PostDominator

variable {a b n x stop exit : Int} {rank : Int → Nat} {t : Table Int Int} {succs : Adjacency}

/-! ## The way up from a target -/

/-- The pointer of a node leads to its strict post-dominators. -/
theorem PostDominator.IsTree.above_parent_iff {next : Int → List Int} (h : IsTree next exit rank t)
    (ha : t.find? a = some stop) (hne : a ≠ exit) : Above t stop x ↔ StrictlyPostDominates next exit x a := by
  have hlt := (h.rooted.parent a stop ha hne).2
  rw [StrictlyPostDominates, ← h.above_iff a x (Table.contains_iff_find?.mpr ⟨stop, ha⟩), above_iff_of_parent ha]
  constructor
  · intro hx
    have hle := h.rooted.rank_le hx
    refine ⟨?_, .inr hx⟩
    rintro rfl
    omega
  · exact fun hx => hx.2.resolve_left hx.1

namespace BlockDeps

/-- A climb meets the ancestors that come before `stop`. -/
theorem mem_climb (h : Rooted exit rank t) (steps : Nat) (met : List Int)
    (hsteps : t.contains n = true → rank n < steps) (hmet : ∀ y ∈ met, rank n < rank y) :
    x ∈ climb t stop steps n met ↔ t.contains n = true ∧ Above t n x ∧ ¬ (Above t n stop ∧ Above t stop x) := by
  induction steps generalizing n met with
  | zero =>
    simp only [climb, List.not_mem_nil, false_iff, not_and]
    intro hn
    have := hsteps hn
    omega
  | succ steps ih =>
    by_cases hstop : n = stop
    · subst hstop
      simp only [climb, decide_true, Bool.true_or, if_true, List.not_mem_nil, false_iff]
      exact fun hcon => hcon.2.2 ⟨.refl, hcon.2.1⟩
    have hfresh : met.contains n = false := by
      rw [← Bool.not_eq_true, List.contains_iff_mem]
      intro hn
      have := hmet n hn
      omega
    rw [climb, hfresh, decide_eq_false hstop, Bool.or_false, if_neg Bool.false_ne_true]
    cases hm : t.find? n with
    | none =>
      simp [Table.find?_eq_none_iff.mp hm]
    | some m =>
      have hn : t.contains n = true := Table.contains_iff_find?.mpr ⟨m, hm⟩
      have hself : ¬ (Above t n stop ∧ Above t stop n) := fun hcon =>
        hstop (h.eq_of_rank_le hcon.1 (h.rank_le hcon.2)).symm
      have hup : Above t n stop ↔ Above t m stop := by
        rw [above_iff_of_parent hm]
        exact or_iff_right (Ne.symm hstop)
      dsimp only
      rcases h.parent_cases hm with hlt | ⟨hexit, rfl⟩
      · have hne : m ≠ n := by
          rintro rfl
          omega
        have hrest := ih (n := m) (n :: met) (fun _ => by have := hsteps hn; omega) fun y hy => by
          rcases List.mem_cons.mp hy with rfl | hy
          · exact hlt
          · have := hmet y hy
            omega
        have hmt : t.contains m = true := h.contains_parent hm
        rw [if_neg hne, List.mem_cons, hrest, above_iff_of_parent hm, hup]
        by_cases hx : x = n
        · subst hx
          simp only [true_or, true_iff, hn, true_and]
          rwa [← hup]
        · simp only [hx, false_or, hn, hmt, true_and]
      · rw [if_pos rfl, List.mem_singleton]
        constructor
        · rintro rfl
          exact ⟨hn, .refl, hself⟩
        · rintro ⟨-, hx, -⟩
          subst hexit
          exact h.eq_exit_of_above hx

/-- The nodes that are listed for a branch are those that it governs. -/
theorem mem_governed (h : IsTree succs.next exit rank t) (hne : a ≠ exit) :
    n ∈ governed succs t a ↔ Governs succs.next exit a n := by
  unfold governed
  cases ha : t.find? a with
  | none =>
    refine iff_of_false List.not_mem_nil fun hcon => ?_
    have hcontains := (h.contains_iff a).mpr hcon.1
    rw [Table.find?_eq_none_iff.mp ha] at hcontains
    cases hcontains
  | some stop =>
    have hclimb : ∀ b ∈ succs.next a, (n ∈ climb t stop (t.size + 1) b [] ↔ Reaches succs.next exit b ∧
        PostDominates succs.next exit n b ∧ ¬ StrictlyPostDominates succs.next exit n a) := by
      intro b hb
      have hstop : StrictlyPostDominates succs.next exit stop a := (h.above_parent_iff ha hne).mp .refl
      rw [mem_climb h.rooted (t.size + 1) [] (fun hbt => Nat.lt_succ_of_lt (h.rank_lt b hbt)) (by simp),
        h.contains_iff, h.above_parent_iff ha hne]
      refine and_congr_right fun hreach => ?_
      have hbt := (h.contains_iff b).mpr hreach
      rw [h.above_iff b n hbt, h.above_iff b stop hbt]
      simp only [hstop.2.succ hstop.1 hb, true_and]
    simp only [List.mem_flatMap]
    constructor
    · rintro ⟨b, hb, hn⟩
      obtain ⟨hreach, hpost, hnot⟩ := (hclimb b hb).mp hn
      exact governs_of_edge hb hreach hpost hnot
    · rintro ⟨-, -, b, hb, hn⟩
      exact ⟨b, hb, (hclimb b hb).mpr hn⟩

/-! ## The table of dependences -/

theorem mem_addDep {deps : BlockDeps} {m c : Int} : c ∈ (addDep deps n a).of m ↔ c ∈ deps.of m ∨ (m = n ∧ c = a) := by
  unfold BlockDeps.of addDep Table.alter
  rw [Table.find?_insert]
  by_cases hnm : n = m
  · subst hnm
    simp only [beq_self_eq_true, if_true, Option.getD_some, true_and]
    by_cases ha : ((deps.find? n).getD []).contains a = true
    · rw [if_pos ha, or_iff_left_of_imp]
      rintro rfl
      exact List.contains_iff_mem.mp ha
    · rw [if_neg ha, List.mem_append, List.mem_singleton]
  · simp [hnm, Ne.symm hnm]

theorem mem_foldl_addDep (l : List Int) (deps : BlockDeps) {m c : Int} :
    c ∈ BlockDeps.of (l.foldl (fun deps n => addDep deps n a) deps) m ↔ c ∈ deps.of m ∨ (m ∈ l ∧ c = a) := by
  induction l generalizing deps with
  | nil => simp
  | cons n rest ih =>
    rw [List.foldl_cons, ih, mem_addDep, List.mem_cons]
    tauto

theorem mem_ofTree {branches : List Int} {c : Int} :
    c ∈ (ofTree succs t branches).of n ↔ c ∈ branches ∧ n ∈ governed succs t c := by
  have hfold : ∀ (deps : BlockDeps), c ∈ BlockDeps.of (branches.foldl (fun deps a =>
      (governed succs t a).foldl (fun deps n => addDep deps n a) deps) deps) n ↔
      c ∈ deps.of n ∨ (c ∈ branches ∧ n ∈ governed succs t c) := by
    induction branches with
    | nil => simp
    | cons a rest ih =>
      intro deps
      rw [List.foldl_cons, ih, mem_foldl_addDep, List.mem_cons]
      by_cases hca : c = a
      · subst hca
        simp only [and_true, true_or, true_and]
        tauto
      · simp [hca]
  exact (hfold ∅).trans (or_iff_right List.not_mem_nil)

end BlockDeps

/-! ## The dependences of a graph -/

namespace Graph

theorem mem_predicates {g : Graph} : a ∈ g.blocks.keys.filter g.isPredicate ↔ g.isPredicate a = true := by
  rw [List.mem_filter, and_iff_right_of_imp]
  intro ha
  rw [isPredicate, Option.any_eq_true] at ha
  obtain ⟨b, hb, -⟩ := ha
  exact hasBlock_iff_mem_keys.mp (hasBlock_iff.mpr ⟨b, hb⟩)

section

variable {g : Graph} (hinv : ∀ u v c, ⟨v, c⟩ ∈ g.edges.leaving u ↔ ⟨u, c⟩ ∈ g.predecessors v)
  (hends : ∀ u e, e ∈ g.edges.leaving u → g.hasBlock u = true ∧ g.hasBlock e.target = true)

include hends

theorem next_forward : g.forward.next = g.successors := by
  funext u
  rw [Adjacency.next, forward, Table.find?_map_of_lawful]
  cases hu : g.blocks.find? u with
  | none =>
    have hnone : g.edges.leaving u = [] := List.eq_nil_iff_forall_not_mem.mpr fun e he => by
      obtain ⟨b, hb⟩ := hasBlock_iff.mp (hends u e he).1
      rw [hu] at hb
      cases hb
    simp [successors, Edges.targets, hnone]
  | some b =>
    refine List.filter_eq_self.mpr fun v hv => ?_
    obtain ⟨e, he, rfl⟩ := mem_successors.mp hv
    exact (hends u e he).2

include hinv

theorem mem_next_forward (u v : Int) : v ∈ g.forward.next u ↔ u ∈ g.backward.next v := by
  have hback : u ∈ g.backward.next v ↔
      g.hasBlock v = true ∧ g.hasBlock u = true ∧ ∃ e ∈ g.predecessors v, e.target = u := by
    rw [Adjacency.next, backward, Table.find?_map_of_lawful, hasBlock_iff]
    cases g.blocks.find? v <;> simp [and_comm]
  rw [next_forward hends, hback, mem_successors]
  constructor
  · rintro ⟨e, he, rfl⟩
    exact ⟨(hends u e he).2, (hends u e he).1, ⟨u, e.cond⟩, (hinv u e.target e.cond).mp he, rfl⟩
  · rintro ⟨-, -, e, he, rfl⟩
    exact ⟨⟨v, e.cond⟩, (hinv e.target v e.cond).mpr he, rfl⟩

theorem mem_blockDeps (hne : a ≠ g.exit) :
    a ∈ g.blockDeps.of n ↔ g.isPredicate a = true ∧ Governs g.successors g.exit a n := by
  have htree := isTree_postDominators (mem_next_forward hinv hends) g.exit
  rw [blockDeps, BlockDeps.mem_ofTree, BlockDeps.mem_governed htree hne, next_forward hends, mem_predicates]

end

/-- The dependences of a block are the branches on which it depends by the definition of control dependence: both reach
the exit, the block post-dominates some target of the branch that reaches the exit, and it does not strictly
post-dominate the branch. -/
theorem blockDeps_exact (g : Graph) (hbuilt : g.Built)
    (hends : ∀ u e, e ∈ g.edges.leaving u → g.hasBlock u = true ∧ g.hasBlock e.target = true) :
    (∀ n a, g.isPredicate a = true → a ≠ g.exit → (a ∈ g.blockDeps.of n ↔
      Reaches g.successors g.exit a ∧ Reaches g.successors g.exit n ∧ ∃ b ∈ g.successors a,
        Reaches g.successors g.exit b ∧ PostDominates g.successors g.exit n b ∧
          ¬ StrictlyPostDominates g.successors g.exit n a)) ∧
      ∀ n a, a ∈ g.blockDeps.of n → g.isPredicate a = true := by
  refine ⟨fun n a ha hne => ?_, fun n a hmem => ?_⟩
  · rw [mem_blockDeps hbuilt.inverse hends hne]
    exact and_iff_right ha
  · exact mem_predicates.mp (BlockDeps.mem_ofTree.mp hmem).1

/-- The branch at the end of the loop governs the body, itself included, and not what comes after the loop. -/
theorem blockDeps_exact_countdown : countdown.Built ∧ countdown.isPredicate 3 = true ∧ (3 : Int) ≠ countdown.exit ∧
    Reaches countdown.successors countdown.exit 3 ∧
    (∃ b ∈ countdown.successors 3, PostDominates countdown.successors countdown.exit 3 b ∧
      ¬ StrictlyPostDominates countdown.successors countdown.exit 3 3) ∧
    ¬ ∃ b ∈ countdown.successors 3, Reaches countdown.successors countdown.exit b ∧
      PostDominates countdown.successors countdown.exit 4 b ∧
        ¬ StrictlyPostDominates countdown.successors countdown.exit 4 3 := by
  have h := (blockDeps_exact countdown countdown_wellFormed.built countdown_wellFormed.ends).1
  obtain ⟨hreach, -, b, hb, -, hpost, hnot⟩ := (h 3 3 (by decide) (by decide)).mp (by decide +kernel)
  refine ⟨countdown_wellFormed.built, by decide, by decide, hreach, ⟨b, hb, hpost, hnot⟩, fun hcon => ?_⟩
  have hfour : Reaches countdown.successors countdown.exit 4 := ⟨_, .step (by decide) .here⟩
  have hmem := (h 4 3 (by decide) (by decide)).mpr ⟨hreach, hfour, hcon⟩
  revert hmem
  decide +kernel

end Graph
end Backslice
