import Backslice.Dependence.PostDominator
import Backslice.Proofs.Data.Table
import Mathlib.Logic.Relation

/-! # Trees by parent pointers

A table that gives every node but the root a parent of lower rank is a tree. The nodes on the way up from a node are
ordered by rank, and the search for the nearest common ancestor of some nodes finds it. When one pointer changes, the
ways up that do not use it stay as they are. -/

namespace Backslice.PostDominator

set_option autoImplicit false

/-- `Above t n x`: the way up from `n`, which begins at `n` itself, leads to `x`. -/
def Above (t : Table Int Int) : Int → Int → Prop := Relation.ReflTransGen fun n m => t.find? n = some m

/-- The exit points to itself, and every other node to one of lower rank. -/
structure Rooted (exit : Int) (rank : Int → Nat) (t : Table Int Int) : Prop where
  top : t.find? exit = some exit
  low : rank exit = 0
  inj : ∀ m n, t.contains m = true → t.contains n = true → rank m = rank n → m = n
  parent : ∀ n m, t.find? n = some m → n ≠ exit → t.contains m = true ∧ rank m < rank n

variable {exit n m x y : Int} {rank : Int → Nat} {t t' : Table Int Int}

theorem above_iff_of_parent (hm : t.find? n = some m) : Above t n x ↔ x = n ∨ Above t m x := by
  constructor
  · intro h
    rcases Relation.ReflTransGen.cases_head h with rfl | ⟨k, hk, hkx⟩
    · exact .inl rfl
    · rw [hm, Option.some.injEq] at hk
      exact .inr (hk ▸ hkx)
  · rintro (rfl | h)
    · exact .refl
    · exact .head hm h

/-! ## Ancestors and ranks -/

namespace Rooted

theorem contains_exit (h : Rooted exit rank t) : t.contains exit = true := Table.contains_iff_find?.mpr ⟨exit, h.top⟩

/-- A step up leads to a lower rank, or stays at the exit. -/
theorem parent_cases (h : Rooted exit rank t) (hm : t.find? n = some m) : rank m < rank n ∨ (n = exit ∧ m = n) := by
  by_cases hn : n = exit
  · subst hn
    rw [h.top, Option.some.injEq] at hm
    exact .inr ⟨rfl, hm.symm⟩
  · exact .inl (h.parent n m hm hn).2

theorem contains_parent (h : Rooted exit rank t) (hm : t.find? n = some m) : t.contains m = true := by
  by_cases hn : n = exit
  · rw [hn, h.top, Option.some.injEq] at hm
    exact hm ▸ h.contains_exit
  · exact (h.parent n m hm hn).1

/-- A node that has not the lowest rank has a parent. -/
theorem exists_parent (h : Rooted exit rank t) (hn : t.contains n = true) (hlt : rank x < rank n) :
    ∃ m, t.find? n = some m ∧ t.contains m = true ∧ rank m < rank n := by
  obtain ⟨m, hm⟩ := Table.contains_iff_find?.mp hn
  refine ⟨m, hm, h.parent n m hm ?_⟩
  rintro rfl
  rw [h.low] at hlt
  omega

theorem contains_above (h : Rooted exit rank t) (hn : t.contains n = true) (hx : Above t n x) :
    t.contains x = true := by
  induction hx with
  | refl => exact hn
  | tail _ hstep _ => exact h.contains_parent hstep

theorem rank_le (h : Rooted exit rank t) (hx : Above t n x) : rank x ≤ rank n := by
  induction hx with
  | refl => exact Nat.le_refl _
  | tail _ hstep ih =>
    rcases h.parent_cases hstep with hlt | ⟨_, rfl⟩
    · omega
    · exact ih

theorem eq_of_rank_le (h : Rooted exit rank t) (hx : Above t n x) (hle : rank n ≤ rank x) : x = n := by
  induction hx with
  | refl => rfl
  | @tail y z hy hstep ih =>
    have hyn := h.rank_le hy
    rcases h.parent_cases hstep with hlt | ⟨_, rfl⟩
    · omega
    · exact ih hle

theorem eq_exit_of_above (h : Rooted exit rank t) (hx : Above t exit x) : x = exit :=
  h.eq_of_rank_le hx (by rw [h.low]; omega)

/-- Of two nodes on the way up from a node, the one of lower rank is on the way up from the other. -/
theorem above_of_rank_le (h : Rooted exit rank t) (hx : Above t n x) (hy : Above t n y) (hle : rank y ≤ rank x) :
    Above t x y := by
  have hunique : Relator.RightUnique fun n m => t.find? n = some m :=
    fun a b c hb hc => Option.some.inj (hb.symm.trans hc)
  rcases Relation.ReflTransGen.total_of_right_unique hunique hx hy with hxy | hyx
  · exact hxy
  · rw [h.eq_of_rank_le hyx hle]
    exact .refl

end Rooted

/-! ## Nearest common ancestors -/

/-- `c` is the nearest common ancestor of the nodes in `l`. -/
structure Meets (t : Table Int Int) (l : List Int) (c : Int) : Prop where
  above : ∀ p ∈ l, Above t p c
  nearest : ∀ x, (∀ p ∈ l, Above t p x) → Above t c x

variable {a b c : Int} {l : List Int}

theorem meets_same (t : Table Int Int) (hl : ∀ p ∈ l, p = a) (ha : a ∈ l) : Meets t l a where
  above p hp := hl p hp ▸ .refl
  nearest _ hx := hx a ha

theorem Meets.swap (h : Meets t [a, b] c) : Meets t [b, a] c where
  above p hp := h.above p (by simpa [or_comm] using hp)
  nearest x hx := h.nearest x fun p hp => hx p (by simpa [or_comm] using hp)

/-- A node may step up if it has a higher rank than another of the nodes. -/
theorem Meets.step (h : Rooted exit rank t) (hm : t.find? a = some m) (hlt : rank b < rank a)
    (hmeets : Meets t [m, b] c) : Meets t [a, b] c where
  above p hp := by
    rcases List.mem_cons.mp hp with rfl | hp
    · exact .head hm (hmeets.above m List.mem_cons_self)
    · exact hmeets.above p (List.mem_cons_of_mem m hp)
  nearest x hx := by
    have hbx : Above t b x := hx b (by simp)
    have hxa : x ≠ a := by
      rintro rfl
      have := h.rank_le hbx
      omega
    have hmx := ((above_iff_of_parent hm).mp (hx a (by simp))).resolve_left hxa
    exact hmeets.nearest x fun p hp => by
      simp only [List.mem_cons, List.not_mem_nil, or_false] at hp
      rcases hp with rfl | rfl
      · exact hmx
      · exact hbx

theorem Rooted.intersect_meets (h : Rooted exit rank t) (steps : Nat) (ha : t.contains a = true)
    (hb : t.contains b = true) (hsteps : rank a + rank b ≤ steps) :
    Meets t [a, b] (intersect rank (fun m => (t.find? m).getD m) steps a b) := by
  induction steps generalizing a b with
  | zero =>
    have hab : b = a := h.inj b a hb ha (by omega)
    rw [intersect]
    exact meets_same t (by simp [hab]) (by simp)
  | succ steps ih =>
    rw [intersect]
    by_cases hab : a = b
    · rw [if_pos hab]
      exact meets_same t (by simp [hab]) (by simp)
    rw [if_neg hab]
    by_cases hlt : rank b < rank a
    · rw [if_pos hlt]
      obtain ⟨m, hm, hmt, hrank⟩ := h.exists_parent ha hlt
      rw [hm, Option.getD_some]
      exact (ih hmt hb (by omega)).step h hm hlt
    · rw [if_neg hlt]
      have hlt' : rank a < rank b := by
        have hne : rank a ≠ rank b := fun heq => hab (h.inj a b ha hb heq)
        omega
      obtain ⟨m, hm, hmt, hrank⟩ := h.exists_parent hb hlt'
      rw [hm, Option.getD_some]
      exact ((ih ha hmt (by omega)).swap.step h hm hlt').swap

theorem Rooted.foldl_intersect_meets (h : Rooted exit rank t) {steps : Nat}
    (hsteps : ∀ a b, t.contains a = true → t.contains b = true → rank a + rank b ≤ steps) (l : List Int)
    (hl : ∀ p ∈ l, t.contains p = true) (ha : t.contains a = true) :
    Meets t (a :: l) (l.foldl (intersect rank (fun m => (t.find? m).getD m) steps) a) := by
  induction l generalizing a with
  | nil => exact meets_same t (by simp) (by simp)
  | cons b l ih =>
    have hb := hl b List.mem_cons_self
    have hmeets := h.intersect_meets steps ha hb (hsteps a b ha hb)
    have hrest := ih (fun p hp => hl p (List.mem_cons_of_mem b hp))
      (h.contains_above ha (hmeets.above a (by simp)))
    have hsub : [a, b] ⊆ a :: b :: l := by simp
    refine ⟨fun p hp => ?_, fun x hx => hrest.nearest x fun p hp => ?_⟩
    · by_cases hpl : p ∈ l
      · exact hrest.above p (List.mem_cons_of_mem _ hpl)
      · exact (hmeets.above p (by simpa [hpl] using hp)).trans (hrest.above _ List.mem_cons_self)
    · rcases List.mem_cons.mp hp with rfl | hp
      · exact hmeets.nearest x fun p hp => hx p (hsub hp)
      · exact hx p (by simp [hp])

/-- The bound on the steps to a common ancestor is large enough. -/
theorem rank_add_le {nodes : List Int} (hnodes : ∀ n, t.contains n = true → n ∈ nodes) (ha : t.contains a = true)
    (hb : t.contains b = true) :
    nodes.idxOf a + nodes.idxOf b ≤ nodes.length * nodes.length := by
  have hra := List.idxOf_lt_length_of_mem (hnodes a ha)
  have hrb := List.idxOf_lt_length_of_mem (hnodes b hb)
  cases hlen : nodes.length with
  | zero => omega
  | succ k =>
    have hmul : (k + 1) * (k + 1) = k * k + (k + k) + 1 := by
      rw [Nat.mul_succ, Nat.succ_mul]
      omega
    omega

/-- A node with a successor in the tree has a candidate: the nearest common ancestor of its successors there. -/
theorem Rooted.candidate_meets {nodes : List Int} (h : Rooted exit (nodes.idxOf ·) t) {succs : Adjacency}
    (hnodes : ∀ n, t.contains n = true → n ∈ nodes) (hm : m ∈ succs.next n) (hmt : t.contains m = true) :
    ∃ c, candidate succs nodes t n = some c ∧ Meets t ((succs.next n).filter t.contains) c := by
  unfold candidate
  cases hl : (succs.next n).filter t.contains with
  | nil =>
    have hmem : m ∈ (succs.next n).filter t.contains := List.mem_filter.mpr ⟨hm, hmt⟩
    rw [hl] at hmem
    cases hmem
  | cons first others =>
    have hin : ∀ p ∈ first :: others, t.contains p = true := fun p hp => (List.mem_filter.mp (hl ▸ hp)).2
    exact ⟨_, rfl, h.foldl_intersect_meets (fun _ _ => rank_add_le hnodes) others (fun p hp => hin p (List.mem_cons_of_mem first hp))
      (hin first List.mem_cons_self)⟩

/-! ## A change of one pointer -/

/-- Ancestors of rank no lower than the node whose pointer changes are reached without that pointer. -/
theorem Rooted.above_of_rank_ge (h : Rooted exit rank t) (hsame : ∀ y, y ≠ n → t'.find? y = t.find? y)
    (hx : Above t m x) (hle : rank n ≤ rank x) : Above t' m x := by
  induction hx with
  | refl => exact .refl
  | @tail y z hy hstep ih =>
    rcases h.parent_cases hstep with hlt | ⟨_, rfl⟩
    · have hyn : y ≠ n := by
        rintro rfl
        omega
      exact (ih (by omega)).tail ((hsame y hyn).trans hstep)
    · exact ih hle

/-- A way up that does not pass the node whose pointer changes stays. -/
theorem above_of_not_above (hsame : ∀ y, y ≠ n → t'.find? y = t.find? y) (hx : Above t m x) (hn : ¬ Above t m n) :
    Above t' m x := by
  induction hx with
  | refl => exact .refl
  | @tail y z hy hstep ih =>
    have hyn : y ≠ n := by
      rintro rfl
      exact hn hy
    exact ih.tail ((hsame y hyn).trans hstep)

/-- A way up that begins below the node whose pointer changes stays. -/
theorem Rooted.above_of_rank_lt (h : Rooted exit rank t) (hsame : ∀ y, y ≠ n → t'.find? y = t.find? y)
    (hx : Above t m x) (hlt : rank m < rank n) : Above t' m x := by
  refine above_of_not_above hsame hx fun hcon => ?_
  have := h.rank_le hcon
  omega

end Backslice.PostDominator
