import Backslice.Proofs.Dependence.PostDominance
import Backslice.Proofs.Dependence.Tree

/-! # A pass over the nodes

A pass deals with the nodes in the order of their ranks. Throughout, the pointer of a node leads to something that all
strict post-dominators of the node post-dominate, and never above the nearest common ancestor of the successors. The
second fact needs a third one, that the way up from some successor of lower rank leads to the pointer. In the middle of
a pass that one fails for nodes that are still to come, if their pointers lead to nodes that have been dealt with. -/

namespace Backslice.PostDominator

set_option autoImplicit false

variable {next : Int → List Int} {exit n m x c : Int} {rank : Int → Nat} {t t' : Table Int Int} {i : Nat}

/-- Ranks of the nodes that reach the exit, such that each of them leads to one of lower rank. -/
structure Ranks (next : Int → List Int) (exit : Int) (rank : Int → Nat) : Prop where
  low : rank exit = 0
  inj : ∀ m n, Reaches next exit m → Reaches next exit n → rank m = rank n → m = n
  lead : ∀ n, Reaches next exit n → n ≠ exit → ∃ m ∈ next n, Reaches next exit m ∧ rank m < rank n

/-! ## The state of a pass -/

/-- The tree when the nodes of rank below `i` have been dealt with. -/
structure Pass (next : Int → List Int) (exit : Int) (rank : Int → Nat) (i : Nat) (t : Table Int Int) : Prop where
  rooted : Rooted exit rank t
  reaches : ∀ n, t.contains n = true → Reaches next exit n
  done : ∀ n, Reaches next exit n → rank n < i → t.contains n = true
  sound : ∀ n m, t.find? n = some m → n ≠ exit → ∀ x, StrictlyPostDominates next exit x n →
    PostDominates next exit x m
  below : ∀ n m, t.find? n = some m → n ≠ exit → ∀ x, (∀ q ∈ next n, t.contains q = true → Above t q x) → Above t m x
  lead : ∀ n m, t.find? n = some m → n ≠ exit → rank n < i ∨ i ≤ rank m →
    ∃ q ∈ next n, t.contains q = true ∧ rank q < rank n ∧ Above t q m

/-- `t'` is `t` with the pointer of `n` set to the nearest common ancestor `c` of its successors. -/
structure Step (next : Int → List Int) (exit : Int) (t t' : Table Int Int) (n c : Int) : Prop where
  reaches : Reaches next exit n
  ne_exit : n ≠ exit
  meets : Meets t ((next n).filter t.contains) c
  find? : ∀ y, t'.find? y = if n = y then some c else t.find? y

theorem Step.find?_self (hs : Step next exit t t' n c) : t'.find? n = some c := by simp [hs.find?]

theorem Step.find?_of_ne (hs : Step next exit t t' n c) : ∀ y, y ≠ n → t'.find? y = t.find? y := by
  intro y hy
  simp [hs.find?, Ne.symm hy]

theorem Step.contains_iff (hs : Step next exit t t' n c) (y : Int) :
    t'.contains y = true ↔ y = n ∨ t.contains y = true := by
  rw [Table.contains_iff_find?, hs.find?, Table.contains_iff_find?]
  by_cases hy : n = y
  · simp [hy]
  · simp [hy, Ne.symm hy]

namespace Pass

/-- In the tree, post-dominators are ancestors. -/
theorem above_of_postDominates (h : Pass next exit rank i t) (hn : t.contains n = true)
    (hx : PostDominates next exit x n) : Above t n x := by
  induction hk : rank n using Nat.strongRecOn generalizing n with
  | ind k ih =>
    by_cases hxn : x = n
    · rw [hxn]
      exact .refl
    · have hne : n ≠ exit := by
        rintro rfl
        exact hxn hx.eq_exit
      obtain ⟨m, hm⟩ := Table.contains_iff_find?.mp hn
      obtain ⟨hmt, hlt⟩ := h.rooted.parent n m hm hne
      exact .head hm (ih (rank m) (by omega) hmt (h.sound n m hm hne x ⟨hxn, hx⟩) rfl)

/-- What post-dominates a node and is no nearer than an ancestor of it post-dominates the ancestor. -/
theorem postDominates_of_above (h : Pass next exit rank i t) (hx : PostDominates next exit x n) (hm : Above t n m)
    (hle : rank x ≤ rank m) : PostDominates next exit x m := by
  induction hm with
  | refl => exact hx
  | @tail y z hy hstep ih =>
    rcases h.rooted.parent_cases hstep with hlt | ⟨_, rfl⟩
    · have hne : y ≠ exit := by
        rintro rfl
        rw [h.rooted.low] at hlt
        omega
      have hxy : x ≠ y := by
        rintro rfl
        omega
      exact h.sound y z hstep hne x ⟨hxy, ih (by omega)⟩
    · exact ih hle

/-! ## One node -/

variable (hr : Ranks next exit rank) (h : Pass next exit rank (rank n) t) (hs : Step next exit t t' n c)

section

include h hs

theorem step_reaches (y : Int) (hy : t'.contains y = true) : Reaches next exit y := by
  rcases (hs.contains_iff y).mp hy with rfl | hy
  · exact hs.reaches
  · exact h.reaches y hy

/-- The new pointer leads no lower than the old one. -/
theorem above_meet (hm : t.find? n = some m) : Above t m c := by
  exact h.below n m hm hs.ne_exit c fun q hq hqt => hs.meets.above q (List.mem_filter.mpr ⟨hq, hqt⟩)

/-- No ancestors are gained. -/
theorem above_of_step {y : Int} (hy : t.contains y = true) (hx : Above t' y x) : Above t y x := by
  induction hx with
  | refl => exact .refl
  | @tail u v _ hstep ih =>
    by_cases hun : u = n
    · subst hun
      obtain ⟨m, hm⟩ := Table.contains_iff_find?.mp (h.rooted.contains_above hy ih)
      rw [hs.find?_self, Option.some.injEq] at hstep
      subst hstep
      exact ih.trans (.head hm (above_meet h hs hm))
    · rw [hs.find?_of_ne u hun] at hstep
      exact ih.tail hstep

end

include hr h hs

/-- The successor of lower rank is in the tree, and below the new pointer. -/
theorem exists_lead : ∃ q ∈ next n, t.contains q = true ∧ rank q < rank n ∧ Above t q c := by
  obtain ⟨q, hq, hreach, hlt⟩ := hr.lead n hs.reaches hs.ne_exit
  have hqt := h.done q hreach hlt
  exact ⟨q, hq, hqt, hlt, hs.meets.above q (List.mem_filter.mpr ⟨hq, hqt⟩)⟩

theorem contains_meet : t.contains c = true := by
  obtain ⟨q, -, hqt, -, hqc⟩ := exists_lead hr h hs
  exact h.rooted.contains_above hqt hqc

theorem rank_meet_lt : rank c < rank n := by
  obtain ⟨q, -, -, hlt, hqc⟩ := exists_lead hr h hs
  have := h.rooted.rank_le hqc
  omega

theorem step_rooted : Rooted exit rank t' where
  top := by rw [hs.find?_of_ne exit (Ne.symm hs.ne_exit), h.rooted.top]
  low := hr.low
  inj y z hy hz := hr.inj y z (step_reaches h hs y hy) (step_reaches h hs z hz)
  parent y z hz hne := by
    by_cases hyn : y = n
    · subst hyn
      rw [hs.find?_self, Option.some.injEq] at hz
      subst hz
      exact ⟨(hs.contains_iff c).mpr (.inr (contains_meet hr h hs)), rank_meet_lt hr h hs⟩
    · rw [hs.find?_of_ne y hyn] at hz
      obtain ⟨hzt, hlt⟩ := h.rooted.parent y z hz hne
      exact ⟨(hs.contains_iff z).mpr (.inr hzt), hlt⟩

theorem step_sound (y z : Int) (hz : t'.find? y = some z) (hne : y ≠ exit) (x : Int)
    (hx : StrictlyPostDominates next exit x y) : PostDominates next exit x z := by
  by_cases hyn : y = n
  · subst hyn
    rw [hs.find?_self, Option.some.injEq] at hz
    subst hz
    -- `x` post-dominates the successors, so that it is an ancestor of them, and of the nearest common one
    have hcx : Above t c x := by
      refine hs.meets.nearest x fun q hq => ?_
      obtain ⟨hq, hqt⟩ := List.mem_filter.mp hq
      exact h.above_of_postDominates hqt (hx.2.succ hx.1 hq)
    obtain ⟨q, hq, -, -, hqc⟩ := exists_lead hr h hs
    exact h.postDominates_of_above (hx.2.succ hx.1 hq) hqc (h.rooted.rank_le hcx)
  · rw [hs.find?_of_ne y hyn] at hz
    exact h.sound y z hz hne x hx

theorem step_below (y z : Int) (hz : t'.find? y = some z) (hne : y ≠ exit) (x : Int)
    (hx : ∀ q ∈ next y, t'.contains q = true → Above t' q x) : Above t' z x := by
  have hold : ∀ q ∈ next y, t.contains q = true → Above t q x := fun q hq hqt =>
    above_of_step h hs hqt (hx q hq ((hs.contains_iff q).mpr (.inr hqt)))
  by_cases hyn : y = n
  · subst hyn
    rw [hs.find?_self, Option.some.injEq] at hz
    subst hz
    have hcx : Above t c x := hs.meets.nearest x fun q hq => by
      obtain ⟨hq, hqt⟩ := List.mem_filter.mp hq
      exact hold q hq hqt
    exact h.rooted.above_of_rank_lt hs.find?_of_ne hcx (rank_meet_lt hr h hs)
  · rw [hs.find?_of_ne y hyn] at hz
    have hzx : Above t z x := h.below y z hz hne x hold
    by_cases hzn : Above t z n
    · by_cases hle : rank n ≤ rank x
      · exact h.rooted.above_of_rank_ge hs.find?_of_ne hzx hle
      · -- `y` comes later in the pass, and the way up from its leading successor passes `n` as well
        obtain ⟨q, hq, hqt, -, hqz⟩ := h.lead y z hz hne (.inr (h.rooted.rank_le hzn))
        have hqn : Above t' q n := h.rooted.above_of_rank_ge hs.find?_of_ne (hqz.trans hzn) (Nat.le_refl _)
        have hqx : Above t' q x := hx q hq ((hs.contains_iff q).mpr (.inr hqt))
        have hnx : Above t' n x := (step_rooted hr h hs).above_of_rank_le hqn hqx (by omega)
        exact (h.rooted.above_of_rank_ge hs.find?_of_ne hzn (Nat.le_refl _)).trans hnx
    · exact above_of_not_above hs.find?_of_ne hzx hzn

theorem step_lead (y z : Int) (hz : t'.find? y = some z) (hne : y ≠ exit)
    (hi : rank y < rank n + 1 ∨ rank n + 1 ≤ rank z) :
    ∃ q ∈ next y, t'.contains q = true ∧ rank q < rank y ∧ Above t' q z := by
  by_cases hyn : y = n
  · subst hyn
    rw [hs.find?_self, Option.some.injEq] at hz
    subst hz
    obtain ⟨q, hq, hqt, hlt, hqc⟩ := exists_lead hr h hs
    exact ⟨q, hq, (hs.contains_iff q).mpr (.inr hqt), hlt, h.rooted.above_of_rank_lt hs.find?_of_ne hqc hlt⟩
  · have hyt : t'.contains y = true := Table.contains_iff_find?.mpr ⟨z, hz⟩
    rw [hs.find?_of_ne y hyn] at hz
    have hrank : rank y ≠ rank n := fun heq => hyn (hr.inj y n (step_reaches h hs y hyt) hs.reaches heq)
    obtain ⟨q, hq, hqt, hlt, hqz⟩ := h.lead y z hz hne (by omega)
    refine ⟨q, hq, (hs.contains_iff q).mpr (.inr hqt), hlt, ?_⟩
    by_cases hle : rank n ≤ rank z
    · exact h.rooted.above_of_rank_ge hs.find?_of_ne hqz hle
    · exact h.rooted.above_of_rank_lt hs.find?_of_ne hqz (by omega)

/-- Dealing with one node. -/
theorem step : Pass next exit rank (rank n + 1) t' where
  rooted := step_rooted hr h hs
  reaches := step_reaches h hs
  done y hy hlt := by
    by_cases hyn : y = n
    · exact (hs.contains_iff y).mpr (.inl hyn)
    · have hrank : rank y ≠ rank n := fun heq => hyn (hr.inj y n hy hs.reaches heq)
      exact (hs.contains_iff y).mpr (.inr (h.done y hy (by omega)))
  sound := step_sound hr h hs
  below := step_below hr h hs
  lead := step_lead hr h hs

omit hr h hs

/-- The exit keeps its pointer. -/
theorem skip_exit (hr : Ranks next exit rank) (h : Pass next exit rank 0 t) : Pass next exit rank 1 t where
  rooted := h.rooted
  reaches := h.reaches
  done n hn hlt := by
    have hne : n = exit := hr.inj n exit hn ⟨[exit], .here⟩ (by rw [hr.low]; omega)
    rw [hne]
    exact h.rooted.contains_exit
  sound := h.sound
  below := h.below
  lead n m hm hne _ := h.lead n m hm hne (.inr (Nat.zero_le _))

/-- When all nodes have been dealt with, the next pass may begin. -/
theorem restart (h : Pass next exit rank i t) (hi : ∀ n, Reaches next exit n → rank n < i) :
    Pass next exit rank 0 t where
  rooted := h.rooted
  reaches := h.reaches
  done _ _ hlt := absurd hlt (Nat.not_lt_zero _)
  sound := h.sound
  below := h.below
  lead n m hm hne _ := h.lead n m hm hne (.inl (hi n (h.reaches n (Table.contains_iff_find?.mpr ⟨m, hm⟩))))

end Pass

end Backslice.PostDominator
