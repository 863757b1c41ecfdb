import Mathlib.Data.List.Basic
import Mathlib.Logic.Relation

/-! # Post-dominance and control dependence

A route lists the nodes on the way to a goal. A node post-dominates another if it is on all routes from there to the
exit. A branch governs a node if one way out of it leads to the node for certain and the branch itself does not. A
branch from which a route leads to a node without passing a strict post-dominator of the branch governs the node at
least through other branches. -/

namespace Backslice

set_option autoImplicit false

/-- `Route next goal n p`: the nodes `p` lead from `n` to `goal` and hold both; `next` lists the successors. -/
inductive Route (next : Int → List Int) (goal : Int) : Int → List Int → Prop
  | here : Route next goal goal [goal]
  | step {n m : Int} {p : List Int} (hm : m ∈ next n) (h : Route next goal m p) : Route next goal n (n :: p)

def Reaches (next : Int → List Int) (goal n : Int) : Prop := ∃ p, Route next goal n p

/-- `n` is on all routes from `m` to the exit. -/
def PostDominates (next : Int → List Int) (exit n m : Int) : Prop := ∀ p, Route next exit m p → n ∈ p

def StrictlyPostDominates (next : Int → List Int) (exit n m : Int) : Prop := n ≠ m ∧ PostDominates next exit n m

/-- `d` is the first strict post-dominator on the way from `n` to the exit: all others post-dominate `d` too. -/
structure ImmediatelyPostDominates (next : Int → List Int) (exit d n : Int) : Prop where
  strict : StrictlyPostDominates next exit d n
  first : ∀ x, StrictlyPostDominates next exit x n → PostDominates next exit x d

/-- Some way out of `a` leads to `n` for certain, but `a` itself does not. -/
def Governs (next : Int → List Int) (exit a n : Int) : Prop :=
  Reaches next exit a ∧ Reaches next exit n ∧
    ∃ b ∈ next a, Reaches next exit b ∧ PostDominates next exit n b ∧ ¬ StrictlyPostDominates next exit n a

variable {next : Int → List Int} {goal exit n m x a b : Int} {p q : List Int}

/-! ## Routes -/

namespace Route

theorem source_mem (h : Route next goal n p) : n ∈ p := by
  cases h <;> simp

theorem goal_mem (h : Route next goal n p) : goal ∈ p := by
  induction h with
  | here => simp
  | step _ _ ih => exact List.mem_cons_of_mem _ ih

theorem length_pos (h : Route next goal n p) : 0 < p.length := by
  cases h <;> simp

/-- The rest of a route from a node on it. -/
theorem rest (h : Route next goal n p) (hx : x ∈ p) : ∃ q, Route next goal x q ∧ q.length ≤ p.length := by
  induction h with
  | here =>
    have hxg : x = goal := by simpa using hx
    subst hxg
    exact ⟨[x], here, Nat.le_refl _⟩
  | @step n m p hm h ih =>
    by_cases hxn : x = n
    · subst hxn
      exact ⟨x :: p, step hm h, Nat.le_refl _⟩
    · obtain ⟨q, hq, hle⟩ := ih (by simpa [hxn] using hx)
      exact ⟨q, hq, by simp; omega⟩

/-- The part of a route up to the first node with the property `P`, if there is any. -/
theorem first (h : Route next goal n p) {P : Int → Prop} (hP : ¬ ∀ x ∈ p, ¬ P x) :
    ∃ y q, P y ∧ Route next y n q ∧ q ⊆ p ∧ ∀ z ∈ q, P z → z = y := by
  induction h with
  | here => exact ⟨goal, [goal], by simpa using hP, here, List.Subset.refl _, fun z hz _ => by simpa using hz⟩
  | @step n m p hm h ih =>
    by_cases hn : P n
    · exact ⟨n, [n], hn, here, by simp, fun z hz _ => by simpa using hz⟩
    · obtain ⟨y, q, hy, hq, hsub, hfirst⟩ := ih (by simpa [hn] using hP)
      refine ⟨y, n :: q, hy, step hm hq, List.cons_subset_cons n hsub, fun z hz hPz => ?_⟩
      by_cases hzn : z = n
      · exact absurd (hzn ▸ hPz) hn
      · exact hfirst z (by simpa [hzn] using hz) hPz

/-- The part of a route in front of the first arrival at its goal. -/
theorem before_goal (h : Route next goal n p) (hn : n ≠ goal) :
    ∃ u q, goal ∈ next u ∧ Route next u n q ∧ q ⊆ p ∧ goal ∉ q := by
  induction h with
  | here => exact absurd rfl hn
  | @step n m p hm h ih =>
    by_cases hmg : m = goal
    · subst hmg
      exact ⟨n, [n], hm, here, by simp, by simpa using hn.symm⟩
    · obtain ⟨u, q, hu, hq, hsub, hgoal⟩ := ih hmg
      exact ⟨u, n :: q, hu, step hm hq, List.cons_subset_cons n hsub, by simp [hn.symm, hgoal]⟩

end Route

theorem Reaches.step (hm : m ∈ next n) (h : Reaches next goal m) : Reaches next goal n := by
  obtain ⟨p, hp⟩ := h
  exact ⟨n :: p, .step hm hp⟩

/-! ## Post-dominance -/

namespace PostDominates

theorem refl (next : Int → List Int) (exit n : Int) : PostDominates next exit n n := fun _ hp => hp.source_mem

theorem eq_exit (h : PostDominates next exit n exit) : n = exit := by
  simpa using h [exit] .here

/-- A post-dominator of a node other than the node itself post-dominates its successors. -/
theorem succ (h : PostDominates next exit x n) (hxn : x ≠ n) (hm : m ∈ next n) : PostDominates next exit x m := by
  intro p hp
  simpa [hxn] using h (n :: p) (.step hm hp)

theorem along (h : PostDominates next exit x n) (hp : Route next m n p) (hx : x ∉ p) :
    PostDominates next exit x m := by
  induction hp with
  | here => exact h
  | @step n k p hk hp ih =>
    have hxn : x ≠ n ∧ x ∉ p := by simpa using hx
    exact ih (h.succ hxn.1 hk) hxn.2

theorem antisymm (hx : PostDominates next exit x n) (hn : PostDominates next exit n x) (h : Reaches next exit n) :
    x = n := by
  obtain ⟨p, hp⟩ := h
  -- a route from `n` to the exit passes `x`, and from there `n` again, so that there is a shorter one
  induction hlen : p.length using Nat.strongRecOn generalizing p with
  | ind k ih =>
    cases hp with
    | here => exact hx.eq_exit
    | @step _ m p hm hp =>
      by_cases hxn : x = n
      · exact hxn
      · obtain ⟨q, hq, hqp⟩ := hp.rest (by simpa [hxn] using hx _ (.step hm hp))
        obtain ⟨r, hr, hrq⟩ := hq.rest (hn q hq)
        exact ih r.length (by simp at hlen; omega) r hr rfl

end PostDominates

/-- Of the nodes that strictly post-dominate `a`, routes out of `a` all meet the same one first. -/
theorem first_strictly_eq {y z b c : Int} (hb : b ∈ next a) (hc : c ∈ next a) (hp : Route next y b p)
    (hq : Route next z c q) (hy : StrictlyPostDominates next exit y a) (hz : StrictlyPostDominates next exit z a)
    (hpy : ∀ x ∈ p, StrictlyPostDominates next exit x a → x = y)
    (hqz : ∀ x ∈ q, StrictlyPostDominates next exit x a → x = z) (hreach : Reaches next exit y) : y = z := by
  by_cases hzp : z ∈ p
  · exact (hpy z hzp hz).symm
  · by_cases hyq : y ∈ q
    · exact hqz y hyq hy
    · have hzy : PostDominates next exit z y := (hz.2.succ hz.1 hb).along hp hzp
      have hyz : PostDominates next exit y z := (hy.2.succ hy.1 hc).along hq hyq
      exact (hzy.antisymm hyz hreach).symm

/-! ## Branches that govern a node through others -/

theorem governs_of_edge (hb : b ∈ next a) (hreach : Reaches next exit b) (hpost : PostDominates next exit n b)
    (hnot : ¬ StrictlyPostDominates next exit n a) : Governs next exit a n := by
  obtain ⟨p, hp⟩ := hreach
  obtain ⟨q, hq, -⟩ := hp.rest (hpost p hp)
  exact ⟨⟨a :: p, .step hb hp⟩, ⟨q, hq⟩, b, hb, ⟨p, hp⟩, hpost, hnot⟩

/-- On a route to `n` there is an edge from which on `n` post-dominates. -/
theorem Route.turn (h : Route next n b p) (hb : ¬ PostDominates next exit n b) :
    ∃ u v q, v ∈ next u ∧ ¬ PostDominates next exit n u ∧ PostDominates next exit n v ∧ Route next u b q ∧
      q.length < p.length ∧ q ⊆ p := by
  induction h with
  | here => exact absurd (PostDominates.refl next exit n) hb
  | @step b m p hm h ih =>
    by_cases hmn : PostDominates next exit n m
    · have hpos := h.length_pos
      exact ⟨b, m, [b], hm, hb, hmn, .here, by simp; omega, by simp⟩
    · obtain ⟨u, v, q, hv, hu, hnv, hq, hlt, hsub⟩ := ih hmn
      exact ⟨u, v, b :: q, hv, hu, hnv, .step hm hq, by simp; omega, List.cons_subset_cons b hsub⟩

section Branches

variable {IsBranch : Int → Prop} (hreach : ∀ u v, v ∈ next u → Reaches next exit v) (hexit : next exit = [])
  (hbranch : ∀ u v w, v ∈ next u → w ∈ next u → v ≠ w → IsBranch u)

include hexit hbranch in
/-- What leads to `n` for certain along one edge, but not along all, is a branch. -/
theorem isBranch_of_not_postDominates {u v : Int} (hv : v ∈ next u) (hnv : PostDominates next exit n v)
    (hnu : ¬ PostDominates next exit n u) : IsBranch u := by
  obtain ⟨p, hp⟩ := not_forall.mp hnu
  obtain ⟨hp, hnp⟩ := Classical.not_imp.mp hp
  cases hp with
  | here =>
    rw [hexit] at hv
    cases hv
  | @step _ w p hw hp =>
    refine hbranch u v w hv hw fun heq => hnp ?_
    subst heq
    exact List.mem_cons_of_mem u (hnv p hp)

include hreach hexit hbranch

/-- If a route leads from a branch to `n` without passing a strict post-dominator of the branch, then the branch
governs `n`, or governs a branch that does, and so on. -/
theorem governed_of_route (ha : IsBranch a) (hb : b ∈ next a) (hp : Route next n b p)
    (hfree : ∀ x ∈ p, ¬ StrictlyPostDominates next exit x a) :
    Relation.TransGen (fun m c => Governs next exit c m ∧ IsBranch c) n a := by
  induction hlen : p.length using Nat.strongRecOn generalizing n p with
  | ind k ih =>
    by_cases hnb : PostDominates next exit n b
    · exact .single ⟨governs_of_edge hb (hreach a b hb) hnb (hfree n hp.goal_mem), ha⟩
    · -- the branch that decides about `n` stands nearer to `a`
      obtain ⟨u, v, q, hv, hnu, hnv, hq, hlt, hsub⟩ := hp.turn hnb
      have hgoverns := governs_of_edge hv (hreach u v hv) hnv fun hcon => hnu hcon.2
      have hu := isBranch_of_not_postDominates hexit hbranch hv hnv hnu
      exact .head ⟨hgoverns, hu⟩ (ih q.length (by omega) hq (fun x hx => hfree x (hsub hx)) rfl)

/-- If two routes lead from a branch to `n` and share no other nodes, then the branch governs `n`, or a predecessor
of `n`, at least through other branches, or it is a predecessor of `n` itself. -/
theorem governed_of_routes {c : Int} (ha : IsBranch a) (hb : b ∈ next a) (hp : Route next n b p) (hc : c ∈ next a)
    (hq : Route next n c q) (hshare : ∀ x ∈ p, x ∈ q → x = a ∨ x = n) :
    Relation.TransGen (fun m c => Governs next exit c m ∧ IsBranch c) n a ∨ ∃ u, n ∈ next u ∧
      Relation.ReflTransGen (fun m c => Governs next exit c m ∧ IsBranch c) u a := by
  by_cases hfree : ∀ x ∈ p, ¬ StrictlyPostDominates next exit x a
  · exact .inl (governed_of_route hreach hexit hbranch ha hb hp hfree)
  by_cases hfree' : ∀ x ∈ q, ¬ StrictlyPostDominates next exit x a
  · exact .inl (governed_of_route hreach hexit hbranch ha hc hq hfree')
  -- both routes meet a strict post-dominator of `a`, the first time the same, so that it is `n`
  obtain ⟨y, p', hy, hp', hsub, hfirst⟩ := hp.first hfree
  obtain ⟨z, q', hz, hq', hsub', hfirst'⟩ := hq.first hfree'
  have hyreach : Reaches next exit y := by
    obtain ⟨r, hr⟩ := hreach a b hb
    obtain ⟨r', hr', -⟩ := hr.rest (hy.2.succ hy.1 hb r hr)
    exact ⟨r', hr'⟩
  have hyz : y = z := first_strictly_eq hb hc hp' hq' hy hz hfirst hfirst' hyreach
  have hyn : y = n := by
    have hyq : y ∈ q := hyz ▸ hsub' hq'.goal_mem
    exact (hshare y (hsub hp'.goal_mem) hyq).resolve_left hy.1
  subst hyn
  by_cases hby : b = y
  · exact .inr ⟨a, hby ▸ hb, .refl⟩
  · obtain ⟨u, r, hu, hr, hrsub, hyr⟩ := hp'.before_goal hby
    refine .inr ⟨u, hu, (governed_of_route hreach hexit hbranch ha hb hr fun x hx hcon => hyr ?_).to_reflTransGen⟩
    rwa [← hfirst x (hrsub hx) hcon]

end Branches

end Backslice
