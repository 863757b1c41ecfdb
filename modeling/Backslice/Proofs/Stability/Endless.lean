import Backslice.Proofs.Provenance
import Backslice.Proofs.Stability.Flags

/-! # Runs without end

An analysis that neither fails nor converges visits blocks for ever. What a block has left changes only when the block
is visited, and is then computed from what its predecessors have left. The same holds at any time of the blocks in front
of the visited one: as they are not pending, what they have left is what would be computed now. -/

namespace Backslice

set_option autoImplicit false

open Filter

namespace Graph

variable {g : Graph} {c : Config} {n m : Int}

/-! ## The visiting order -/

/-- The position of a block in the visiting order. -/
def rank (g : Graph) (n : Int) : Nat := g.order.idxOf n

theorem Connected.rank_eq (hg : g.Connected) {pre post : List Int} (horder : g.order = pre ++ n :: post) :
    g.rank n = pre.length := by
  have hnodup := hg.order_nodup
  rw [horder, List.nodup_append] at hnodup
  have hn : n ∉ pre := fun hcon => hnodup.2.2 n hcon n (List.mem_cons_self ..) rfl
  rw [rank, horder, List.idxOf_append_of_notMem hn, List.idxOf_cons_self, Nat.add_zero]

theorem Connected.mem_iff_rank_lt (hg : g.Connected) {pre post : List Int} (horder : g.order = pre ++ n :: post) :
    m ∈ pre ↔ g.rank m < g.rank n := by
  rw [hg.rank_eq horder, rank, horder]
  constructor
  · intro hm
    rw [List.idxOf_append_of_mem hm]
    exact List.idxOf_lt_length_iff.mpr hm
  · intro hlt
    by_contra hm
    rw [List.idxOf_append_of_notMem hm] at hlt
    omega

/-- Each block but the entry has a predecessor in front of it in the visiting order. -/
theorem Connected.exists_parent (hg : g.Connected) (hn : n ∈ g.order) (hne : n ≠ g.entry) :
    ∃ e ∈ g.predecessors n, g.rank e.target < g.rank n := by
  obtain ⟨pre, post, horder⟩ := List.append_of_mem hn
  rcases hg.order_parent horder with hentry | ⟨u, hu, hsucc⟩
  · exact absurd hentry hne
  · obtain ⟨cond, hpred⟩ := hg.exists_predecessor hsucc
    exact ⟨⟨u, cond⟩, hpred, (hg.mem_iff_rank_lt horder).mp hu⟩

/-! ## Runs without end -/

/-- A run that always has a block left to visit: after `k` visits it is at `run k`. -/
structure Endless (g : Graph) (c : Config) where
  connected : g.Connected
  run : Nat → Run
  visited : Nat → Int
  rest : Nat → List Int
  block : Nat → Block
  found : Nat → Visit
  pending : ∀ k, (run k).pending = visited k :: rest k
  visitAt : ∀ k, g.VisitAt c k (run k) (visited k) (block k) (found k)
  next : ∀ k, run (k + 1) = (run k).record g g.order (visited k) (rest k) (found k)

theorem exists_endless (hg : g.Connected) (hok : ∀ k, ∃ r, g.solve c k = .ok r)
    (hnever : ∀ k r, g.solve c k = .ok r → r.converged = false) : Nonempty (g.Endless c) := by
  choose run hrun using hok
  have hvisit : ∀ k, ∃ index rest b v, (run k).pending = index :: rest ∧ g.VisitAt c k (run k) index b v ∧
      run (k + 1) = (run k).record g g.order index rest v := by
    intro k
    obtain ⟨r, hr, ⟨hp, -⟩ | hvisit⟩ := solve_succ (hrun (k + 1))
    · have hnot := hnever k r hr
      rw [Run.converged, hp] at hnot
      cases hnot
    · rwa [Except.ok.inj ((hrun k).symm.trans hr)]
  choose visited rest block found hpending hvisitAt hnext using hvisit
  exact ⟨⟨hg, run, visited, rest, block, found, hpending, hvisitAt, hnext⟩⟩

namespace Endless

variable (E : g.Endless c) {k k' : Nat} {b : Block} {flows : List Flow} {s t : State} {p : Place}

theorem underway (k : Nat) : (E.run k).Underway g := (E.visitAt k).underway E.connected

theorem visited_mem (k : Nat) : E.visited k ∈ g.order :=
  (E.underway k).pending.subset (E.pending k ▸ List.mem_cons_self ..)

/-- The state that a block has left after `k` visits. -/
def left (k : Nat) (n : Int) : Option State := ((E.run k).outcomes.find? n).bind fun o => o.main.state?

/-- The name that a block has left at a place after `k` visits. -/
def name (k : Nat) (n : Int) (p : Place) : Option Var := (E.left k n).bind fun t => (t.nameAt p).map Var.key

/-- The block is one of those visited first. -/
def Seen (k : Nat) (n : Int) : Prop := ∃ t, E.left k n = some t

theorem left_eq_some : E.left k n = some t ↔
    ∃ o, (E.run k).outcomes.find? n = some o ∧ ∀ cond, o.along cond = .known t := by
  unfold left
  rw [Option.bind_eq_some_iff]
  refine exists_congr fun o => and_congr_right fun ho => ?_
  obtain ⟨t', ht'⟩ := (E.underway k).along n o ho
  have hmain : o.main = .known t' := by
    rw [← ht' none]
    cases o <;> rfl
  rw [hmain, Flow.state?, Option.some.injEq]
  constructor
  · rintro rfl
    exact ht'
  · intro ht
    exact Flow.known.inj ((ht' none).symm.trans (ht none))

theorem name_of_left (h : E.left k n = some t) (p : Place) : E.name k n p = (t.nameAt p).map Var.key := by
  rw [name, h, Option.bind_some]

theorem left_other (h : n ≠ E.visited k) : E.left (k + 1) n = E.left k n := by
  unfold left
  rw [E.next k]
  simp [Run.record, h.symm]

theorem name_other (h : n ≠ E.visited k) (p : Place) : E.name (k + 1) n p = E.name k n p := by
  rw [name, name, E.left_other h]

theorem left_zero (n : Int) : E.left 0 n = none := by
  have hrun : E.run 0 = { pending := g.order } := Except.ok.inj ((E.visitAt 0).solve.symm.trans (solve_zero g c))
  rw [left, hrun]
  rfl

theorem seen_of_name {w : Var} (h : E.name k n p = some w) : E.Seen k n := by
  obtain ⟨t, ht, -⟩ := Option.bind_eq_some_iff.mp h
  exact ⟨t, ht⟩

/-! ## Computed states -/

/-- What the block `n` has left after `k'` visits was computed on a visit of it, from states equal to those that its
predecessors have left after `k` visits. -/
structure Computed (k' k : Nat) (n : Int) (b : Block) (flows : List Flow) (s t : State) : Prop where
  block : g.blocks.find? n = some b
  left : E.left k' n = some t
  merge : g.merge n b flows = .ok (.known s)
  starts : g.Starts n b (flows.filterMap Flow.state?) s
  runs : ∃ notes, Steps g.signature c b.instrs s notes t
  enters : ∃ j, g.EntersAt c j n (.known s)
  houses : ∀ x ∈ flows.filterMap Flow.state?, g.Houses x
  alike : List.Forall₂ Flow.Alike flows (g.incoming (E.run k).outcomes n)
  before : ∀ m, g.rank m < g.rank n → E.Seen k m

theorem exists_computed {j : Nat} {r : Run} {v : Visit} (hv : g.VisitAt c j r n b v)
    (hout : (E.run k').outcomes.find? n = some v.outcome)
    (halike : List.Forall₂ Flow.Alike (g.incoming r.outcomes n) (g.incoming (E.run k).outcomes n))
    (hbefore : ∀ m, g.rank m < g.rank n → E.Seen k m) :
    ∃ s t, E.Computed k' k n b (g.incoming r.outcomes n) s t := by
  obtain ⟨s, t, hmerge, hstarts, hfound⟩ := hv.runs E.connected
  obtain ⟨rest, hp⟩ := hv.pending
  exact ⟨s, t, hv.block, E.left_eq_some.mpr ⟨v.outcome, hout, hfound.along⟩, hmerge, hstarts, ⟨_, hfound.runs⟩,
    ⟨j, r, rest, b, hv.solve, hp, hv.block, hmerge⟩, (hv.houses E.connected).1, halike, hbefore⟩

theorem not_pending_of_rank_lt (h : g.rank m < g.rank (E.visited k)) : m ∈ g.order ∧ m ∉ (E.run k).pending := by
  obtain ⟨pre, post, horder⟩ := List.append_of_mem (E.visited_mem k)
  have hm : m ∈ pre := (E.connected.mem_iff_rank_lt horder).mpr h
  exact ⟨horder ▸ List.mem_append_left _ hm, (E.underway k).not_pending_before E.connected (E.pending k) horder hm⟩

theorem seen_of_rank_lt (h : g.rank m < g.rank (E.visited k)) : E.Seen k m := by
  obtain ⟨hm, hnot⟩ := E.not_pending_of_rank_lt h
  obtain ⟨o, ho⟩ := (E.underway k).visited m hm hnot
  obtain ⟨t, ht⟩ := (E.underway k).along m o ho
  exact ⟨t, E.left_eq_some.mpr ⟨o, ho, ht⟩⟩

theorem computed_visited (k : Nat) :
    ∃ s t, E.Computed (k + 1) k (E.visited k) (E.block k) (g.incoming (E.run k).outcomes (E.visited k)) s t := by
  refine E.exists_computed (E.visitAt k) ?_ (List.forall₂_same.mpr fun f _ => Flow.Alike.refl f)
    fun m hm => E.seen_of_rank_lt hm
  rw [E.next k]
  simp [Run.record]

theorem computed_before (h : g.rank m < g.rank (E.visited k)) : ∃ b flows s t, E.Computed k k m b flows s t := by
  obtain ⟨hm, hnot⟩ := E.not_pending_of_rank_lt h
  obtain ⟨j, -, r, b, v, hv, hout, halike⟩ := exists_visit_current E.connected (E.visitAt k).solve hm hnot
  obtain ⟨s, t, hcomputed⟩ := E.exists_computed hv hout halike fun u hu => E.seen_of_rank_lt (hu.trans h)
  exact ⟨b, _, s, t, hcomputed⟩

variable {E}

namespace Computed

variable {x : State}

theorem input_of_left (h : E.Computed k' k n b flows s t) {e : Edge} (he : e ∈ g.predecessors n) {u : State}
    (hu : E.left k e.target = some u) : ∃ x ∈ flows.filterMap Flow.state?, (x == u) = true := by
  have halike := h.alike
  unfold incoming at halike
  rw [List.forall₂_map_right_iff] at halike
  obtain ⟨f, hf, hfe⟩ := exists_of_forall₂ halike.flip he
  obtain ⟨o, ho, halong⟩ := E.left_eq_some.mp hu
  have hfu : f.Alike (.known u) := by
    rw [ho] at hfe
    exact halong e.cond ▸ hfe
  obtain ⟨x, rfl, hxu⟩ := hfu.known
  exact ⟨x, List.mem_filterMap.mpr ⟨_, hf, rfl⟩, hxu⟩

theorem left_of_input (h : E.Computed k' k n b flows s t) (hx : x ∈ flows.filterMap Flow.state?) :
    ∃ e ∈ g.predecessors n, ∃ u, E.left k e.target = some u ∧ (x == u) = true := by
  obtain ⟨f, hf, hfx⟩ := List.mem_filterMap.mp hx
  rw [Flow.state?_eq_some] at hfx
  subst hfx
  have halike := h.alike
  unfold incoming at halike
  rw [List.forall₂_map_right_iff] at halike
  obtain ⟨e, he, hxe⟩ := exists_of_forall₂ halike hf
  cases ho : (E.run k).outcomes.find? e.target with
  | none =>
    rw [ho] at hxe
    cases hxe
  | some o =>
    obtain ⟨u, hu⟩ := (E.underway k).along e.target o ho
    rw [ho] at hxe
    dsimp only at hxe
    rw [hu] at hxe
    exact ⟨e, he, u, E.left_eq_some.mpr ⟨o, ho, hu⟩, hxe⟩

/-- What the incoming states have at a place is what the predecessors seen so far have left there. -/
theorem forall_inputs (h : E.Computed k' k n b flows s t) (p : Place) {Q : Option Var → Prop} :
    (∀ x ∈ flows.filterMap Flow.state?, Q ((x.nameAt p).map Var.key)) ↔
      ∀ e ∈ g.predecessors n, E.Seen k e.target → Q (E.name k e.target p) := by
  constructor
  · rintro hall e he ⟨u, hu⟩
    obtain ⟨x, hx, hxu⟩ := h.input_of_left he hu
    rw [E.name_of_left hu, ← State.beq_iff_nameAt.mp hxu]
    exact hall x hx
  · intro hall x hx
    obtain ⟨e, he, u, hu, hxu⟩ := h.left_of_input hx
    rw [State.beq_iff_nameAt.mp hxu, ← E.name_of_left hu]
    exact hall e he ⟨u, hu⟩

theorem mem_order (h : E.Computed k' k n b flows s t) : n ∈ g.order :=
  E.connected.mem_order.mpr (hasBlock_iff.mpr ⟨b, h.block⟩)

theorem whole (h : E.Computed k' k n b flows s t) : ∀ x ∈ flows.filterMap Flow.state?, x.Whole :=
  fun x hx => (h.houses x hx).whole

theorem houses_start (h : E.Computed k' k n b flows s t) : g.Houses s :=
  Houses.start h.block h.houses h.merge h.starts

theorem houses_left (h : E.Computed k' k n b flows s t) : g.Houses t := by
  obtain ⟨notes, hsteps⟩ := h.runs
  exact (h.houses_start.run (fun i hi => mem_instrs h.block hi) hsteps).1

theorem eq_of_isMerge (h : E.Computed k' k n b flows s t) (hm : b.isMerge = true) : s = t := by
  obtain ⟨notes, hsteps⟩ := h.runs
  rw [Block.instrs_of_isMerge hm] at hsteps
  cases hsteps
  rfl

/-- At the entry nothing comes in. -/
theorem flows_entry (h : E.Computed k' k n b flows s t) (hn : n = g.entry) :
    flows = [] ∧ s = g.signature.entryState := by
  have halike := h.alike
  rw [incoming, hn, E.connected.entry_free, List.map_nil, List.forall₂_nil_right_iff] at halike
  subst halike
  refine ⟨rfl, ?_⟩
  have hmerge := h.merge
  rw [merge_nil, Except.ok.injEq, Flow.known.injEq] at hmerge
  exact hmerge.symm

/-- So the entry leaves the same on all visits. -/
theorem eq_of_entry {j' j : Nat} {b' : Block} {flows' : List Flow} {s' t' : State} (h : E.Computed k' k n b flows s t)
    (h' : E.Computed j' j n b' flows' s' t') (hn : n = g.entry) : t = t' := by
  obtain ⟨notes, hsteps⟩ := h.runs
  obtain ⟨notes', hsteps'⟩ := h'.runs
  obtain rfl : b = b' := Option.some.inj (h.block.symm.trans h'.block)
  rw [(h.flows_entry hn).2] at hsteps
  rw [(h'.flows_entry hn).2] at hsteps'
  exact (hsteps.unique hsteps').2

/-- A block but the entry has an incoming state from a predecessor in front of it in the visiting order. -/
theorem exists_parent (h : E.Computed k' k n b flows s t) (hn : n ≠ g.entry) :
    ∃ e ∈ g.predecessors n, g.rank e.target < g.rank n ∧ E.Seen k e.target := by
  obtain ⟨e, he, hrank⟩ := E.connected.exists_parent h.mem_order hn
  exact ⟨e, he, hrank, h.before e.target hrank⟩

theorem inputs_ne_nil (h : E.Computed k' k n b flows s t) (hn : n ≠ g.entry) : flows.filterMap Flow.state? ≠ [] := by
  obtain ⟨e, he, -, u, hu⟩ := h.exists_parent hn
  obtain ⟨x, hx, -⟩ := h.input_of_left he hu
  exact List.ne_nil_of_mem hx

/-- A block that is no join point starts from what its predecessor has left. -/
theorem inputs_single (h : E.Computed k' k n b flows s t) (hn : n ≠ g.entry) (hm : b.isMerge = false) :
    flows.filterMap Flow.state? = [s] := by
  rcases eq_of_merge_ok hm h.merge with ⟨hnil, -⟩ | hone
  · exact absurd (by rw [hnil]; rfl) (h.inputs_ne_nil hn)
  · rw [hone]
    rfl

/-- All states from which a block was ever run have the same shape. -/
theorem shape_eq {j j' : Nat} {b' : Block} {flows' : List Flow} {s' t' : State} (h : E.Computed k' k n b flows s t)
    (h' : E.Computed j' j n b' flows' s' t') : s'.partLength = s.partLength := by
  obtain ⟨i, henters⟩ := h.enters
  obtain ⟨i', henters'⟩ := h'.enters
  refine State.partLength_ext (henters'.height_unique E.connected henters) ?_ ?_
  · exact h'.houses_start.locals.trans h.houses_start.locals.symm
  · exact h'.houses_start.globals.trans h.houses_start.globals.symm

/-- Each further visit of a block computes what it leaves anew. -/
theorem again (h : E.Computed k' k n b flows s t) {j : Nat} (hvisited : E.visited j = n) :
    ∃ flows' s' t', E.Computed (j + 1) j n b flows' s' t' := by
  obtain ⟨s', t', h'⟩ := E.computed_visited j
  rw [hvisited] at h'
  obtain rfl : b = E.block j := Option.some.inj (h.block.symm.trans h'.block)
  exact ⟨_, s', t', h'⟩

end Computed

/-! ## The visits of a block -/

variable (E)

theorem Seen.succ {E : g.Endless c} (h : E.Seen k n) : E.Seen (k + 1) n := by
  by_cases hn : n = E.visited k
  · obtain ⟨s, t, hcomputed⟩ := E.computed_visited k
    exact ⟨t, hn ▸ hcomputed.left⟩
  · obtain ⟨t, ht⟩ := h
    exact ⟨t, (E.left_other hn).trans ht⟩

theorem Seen.mono {E : g.Endless c} (h : E.Seen k n) (hk : k ≤ k') : E.Seen k' n := by
  induction k', hk using Nat.le_induction with
  | base => exact h
  | succ _ _ ih => exact ih.succ

/-- What a block has left was computed on its last visit. -/
theorem exists_last (h : E.Seen k n) : ∃ j < k, E.visited j = n ∧ (∀ i < k, E.visited i = n → i ≤ j) ∧
    ∃ b flows s t, E.Computed k j n b flows s t := by
  induction k with
  | zero =>
    obtain ⟨t, ht⟩ := h
    cases (E.left_zero n).symm.trans ht
  | succ k ih =>
    by_cases hn : n = E.visited k
    · obtain ⟨s, t, hcomputed⟩ := E.computed_visited k
      subst hn
      exact ⟨k, by omega, rfl, fun i hi _ => by omega, _, _, s, t, hcomputed⟩
    · obtain ⟨t, ht⟩ := h
      rw [E.left_other hn] at ht
      obtain ⟨j, hj, hvisited, hlast, b, flows, s, t, hcomputed⟩ := ih ⟨t, ht⟩
      refine ⟨j, by omega, hvisited, fun i hi hvi => ?_, b, flows, s, t, ?_⟩
      · by_cases hik : i = k
        · exact absurd (hik ▸ hvi.symm) hn
        · exact hlast i (by omega) hvi
      · exact { hcomputed with left := (E.left_other hn).trans hcomputed.left }

theorem not_seen_of_not_mem (h : n ∉ g.order) (k : Nat) : ¬ E.Seen k n := by
  intro hseen
  obtain ⟨i, -, hvisited, -, -⟩ := E.exists_last hseen
  exact h (hvisited ▸ E.visited_mem i)

/-- What holds of the state that a visit leaves, if it holds of those that were left before, holds of all of them. -/
theorem left_induction {Q : Int → State → Prop}
    (hstep : ∀ k b flows s t, E.Computed (k + 1) k (E.visited k) b flows s t →
      (∀ m u, E.left k m = some u → Q m u) → Q (E.visited k) t) (k : Nat) :
    ∀ n t, E.left k n = some t → Q n t := by
  induction k with
  | zero =>
    intro n t ht
    cases (E.left_zero n).symm.trans ht
  | succ k ih =>
    intro n t ht
    by_cases hn : n = E.visited k
    · obtain ⟨s, t', hcomputed⟩ := E.computed_visited k
      subst hn
      cases hcomputed.left.symm.trans ht
      exact hstep k _ _ s t hcomputed ih
    · exact ih n t ((E.left_other hn).symm.trans ht)

/-- Eventually the blocks seen are those that are seen at any time. -/
theorem eventually_seen : ∀ᶠ k in atTop, ∀ n, E.Seen k n ↔ ∃ j, E.Seen j n := by
  have hblock : ∀ n ∈ g.order, ∀ᶠ k in atTop, E.Seen k n ↔ ∃ j, E.Seen j n := by
    intro n _
    by_cases hever : ∃ j, E.Seen j n
    · obtain ⟨j, hj⟩ := hever
      filter_upwards [eventually_ge_atTop j] with k hk
      exact iff_of_true (hj.mono hk) ⟨j, hj⟩
    · exact Eventually.of_forall fun k => iff_of_false (fun h => hever ⟨k, h⟩) hever
  filter_upwards [(eventually_all_finite g.order.finite_toSet).mpr hblock] with k hk n
  by_cases hn : n ∈ g.order
  · exact hk n hn
  · exact iff_of_false (E.not_seen_of_not_mem hn k) fun ⟨j, hj⟩ => E.not_seen_of_not_mem hn j hj

/-! ## Flags of the blocks -/

/-- Flags settle that a visit sets if they are always `made` by the block, or if the block `passes` them on and all its
predecessors seen so far have them set. -/
theorem settles (made passes : Int → Prop) {x : Nat → Int → Prop}
    (hother : ∀ k m, m ≠ E.visited k → x (k + 1) m = x k m)
    (hrule : ∀ᶠ k in atTop, ∀ k' n b flows s t, n ∈ Restless x → E.Computed k' k n b flows s t →
      (x k' n ↔ made n ∨ passes n ∧ ∀ e ∈ g.predecessors n, E.Seen k e.target → x k e.target)) (m : Int) :
    Settles fun k => x k m := by
  have hinj : Set.InjOn g.rank {n | n ∈ g.order} := fun n hn _ _ heq => (List.idxOf_inj hn).mp heq
  have hnext : Monotone fun (y : Int → Prop) n =>
      made n ∨ passes n ∧ ∀ e ∈ g.predecessors n, (∃ j, E.Seen j e.target) → y e.target :=
    fun y y' hle n => Or.imp_right fun h => ⟨h.1, fun e he hseen => hle _ (h.2 e he hseen)⟩
  refine settles_of_sweep g.order.finite_toSet hinj E.visited_mem hnext hother ?_ ?_ m
  · filter_upwards [hrule, E.eventually_seen] with k hk hseen hrestless
    obtain ⟨s, t, hcomputed⟩ := E.computed_visited k
    simp only [← hseen]
    exact propext (hk _ _ _ _ s t hrestless hcomputed)
  · filter_upwards [hrule, E.eventually_seen] with k hk hseen n hrestless hrank
    obtain ⟨b, flows, s, t, hcomputed⟩ := E.computed_before hrank
    simp only [← hseen]
    exact propext (hk _ _ _ _ s t hrestless hcomputed)

end Endless
end Graph
end Backslice
