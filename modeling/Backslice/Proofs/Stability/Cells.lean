import Backslice.Proofs.Stability.Endless

/-! # The stack, the locals and the globals settle

In a run without end the names on the stack, in the locals and in the globals change only finitely often. -/

namespace Backslice

set_option autoImplicit false

open Filter

theorem Instr.Makes.ne_phi {i : Instr} {m j : Int} (h : i.Makes (.phi m j)) : False := by
  rcases h with heq | ⟨d, -, -, heq⟩
  · cases heq
  · rw [Var.beq_iff] at heq
    cases heq

theorem Place.IsCell.key {p : Place} (h : p.IsCell) : p.key = p := by
  cases p with
  | memory k => cases h
  | _ => rfl

namespace State

/-- The places of the stack, the locals and the globals at which a state has a name. -/
theorem finite_cells (s : State) : {p : Place | p.IsCell ∧ s.nameAt p ≠ none}.Finite := by
  have hlist : ∀ (l : List Var) (place : Nat → Place), {p | ∃ k : Nat, p = place k ∧ l[k]? ≠ none}.Finite := by
    intro l place
    refine ((List.range l.length).map place).finite_toSet.subset ?_
    rintro p ⟨k, rfl, hk⟩
    have hlt : k < l.length := by
      by_contra hcon
      exact hk (List.getElem?_eq_none (by omega))
    exact List.mem_map_of_mem (List.mem_range.mpr hlt)
  refine (((hlist s.stack .stack).union (hlist s.locals .locals)).union (hlist s.globals .globals)).subset ?_
  rintro p ⟨hp, hname⟩
  cases p with
  | stack k => exact Or.inl (Or.inl ⟨k, rfl, hname⟩)
  | locals k => exact Or.inl (Or.inr ⟨k, rfl, hname⟩)
  | globals k => exact Or.inr ⟨k, rfl, hname⟩
  | memory k => cases hp

theorem nameAt_eq_none_of_shape {s s' : State} (h : s'.partLength = s.partLength) {p : Place} (hp : p.IsCell) :
    s'.nameAt p = none ↔ s.nameAt p = none := by
  rcases (frames_of_shape h).nameAt hp with ⟨hs, hs'⟩ | ⟨v, w, hs, hs', -⟩
  · rw [hs, hs']
  · rw [hs, hs']
    exact iff_of_false (Option.some_ne_none w) (Option.some_ne_none v)

end State

namespace Graph.Endless

variable {g : Graph} {c : Config} {E : g.Endless c} {k k' : Nat} {n m : Int} {b : Block} {flows : List Flow}
  {s t : State} {p q : Place} {w : Var}

/-! ## Where new names stand -/

/-- A new name behind a block was made there, or stands in all states that come in. -/
theorem Computed.phi_cases (h : E.Computed k' k n b flows s t) {j : Int} (hv : t.Mentions (.phi m j)) :
    n ≠ g.entry ∧ (b.isMerge = true ∧ m = n ∨ ∀ x ∈ flows.filterMap Flow.state?, x.Mentions (.phi m j)) := by
  obtain ⟨notes, hsteps⟩ := h.runs
  have hs : s.Mentions (.phi m j) := by
    rcases hsteps.mentions hv with hs | ⟨i, -, hmakes⟩
    · exact hs
    · exact hmakes.ne_phi.elim
  have hentry : n ≠ g.entry := by
    rintro hn
    rw [(h.flows_entry hn).2] at hs
    rcases covers_entryState (g := g) _ hs with ⟨i, ⟨-, hcon⟩ | ⟨-, hcon⟩⟩ | ⟨site, hsite, -⟩
    · cases hcon
    · cases hcon
    · cases hsite
  refine ⟨hentry, ?_⟩
  generalize hinputs : flows.filterMap Flow.state? = inputs
  have hstarts := h.starts
  rw [hinputs] at hstarts
  cases hstarts with
  | entry hn => exact absurd hn hentry
  | join _ hjoined _ =>
    rcases hjoined.mentions hs with ⟨v, ⟨hm, hborn⟩, hkey⟩ | hall
    · rcases hborn with ⟨i, rfl⟩ | ⟨-, rfl⟩
      · cases hkey
        exact Or.inl ⟨hm, rfl⟩
      · cases hkey
    · exact Or.inr hall

/-- A name that a join point makes stands only in what later blocks of the visiting order leave. -/
theorem rank_le_of_mentions (h : E.left k n = some t) {j : Int} (hv : t.Mentions (.phi m j)) :
    g.rank m ≤ g.rank n := by
  refine E.left_induction (Q := fun n t => t.Mentions (.phi m j) → g.rank m ≤ g.rank n) ?_ k n t h hv
  intro k b flows s t hcomputed ih hv
  obtain ⟨hentry, ⟨-, rfl⟩ | hall⟩ := hcomputed.phi_cases hv
  · exact le_rfl
  · obtain ⟨e, he, hrank, u, hu⟩ := hcomputed.exists_parent hentry
    obtain ⟨x, hx, hxu⟩ := hcomputed.input_of_left he hu
    exact (ih e.target u hu ((hall x hx).of_beq hxu)).trans hrank.le

theorem mentions_of_name (h : E.name k n p = some w) : ∃ t, E.left k n = some t ∧ t.Mentions w := by
  obtain ⟨t, ht, hw⟩ := Option.bind_eq_some_iff.mp h
  obtain ⟨v, hv, rfl⟩ := Option.map_eq_some_iff.mp hw
  exact ⟨t, ht, State.mentions_iff.mpr (Or.inl ⟨p, v, hv, v.key_key.symm⟩)⟩

theorem rank_le_of_name {j : Int} (h : E.name k n p = some (.phi m j)) : g.rank m ≤ g.rank n := by
  obtain ⟨t, ht, hv⟩ := mentions_of_name h
  exact rank_le_of_mentions ht hv

/-- A block that leaves a new name of its own is a join point, and not the entry. -/
theorem computed_of_name_phi {j : Int} (h : E.name k n p = some (.phi n j)) :
    n ≠ g.entry ∧ ∃ i b flows s, b.isMerge = true ∧ E.Computed k i n b flows s s := by
  obtain ⟨t, ht, hv⟩ := mentions_of_name h
  obtain ⟨i, _, _, _, b, flows, s, t', hcomputed⟩ := E.exists_last ⟨t, ht⟩
  obtain rfl : t' = t := Option.some.inj (hcomputed.left.symm.trans ht)
  obtain ⟨⟨b', hb', hm⟩, -⟩ := hcomputed.houses_left.mentions hv
  obtain rfl : b = b' := Option.some.inj (hcomputed.block.symm.trans hb')
  obtain rfl := hcomputed.eq_of_isMerge hm
  exact ⟨(hcomputed.phi_cases hv).1, i, b, flows, s, hm, hcomputed⟩

/-- What a join point leaves has each of its names at one place. -/
theorem key_eq_of_name_eq {j : Int} (hp : E.name k n p = some (.phi n j)) (hq : E.name k n q = some (.phi n j)) :
    p.key = q.key := by
  obtain ⟨hentry, i, b, flows, s, hm, hcomputed⟩ := computed_of_name_phi hp
  have hname : ∀ {p}, E.name k n p = some (.phi n j) → s.nameAt p = some (.phi n j) := by
    intro p hp
    rw [E.name_of_left hcomputed.left] at hp
    obtain ⟨v, hv, hkey⟩ := Option.map_eq_some_iff.mp hp
    rw [hv]
    cases v <;> simp_all [Var.key]
  obtain ⟨s', hs', hjoined⟩ := merge_joined hm (hcomputed.inputs_ne_nil hentry) hcomputed.merge
  cases hs'
  rcases hjoined.distinct p q _ (hname hp) (hname hq) (Or.inl ⟨j, rfl⟩) with hkey | hall
  · exact hkey
  · -- The name would have come in from a block that stands in front of the join point.
    obtain ⟨e, he, hrank, u, hu⟩ := hcomputed.exists_parent hentry
    obtain ⟨x, hx, hxu⟩ := hcomputed.input_of_left he hu
    exact absurd (rank_le_of_mentions hu ((hall x hx).of_beq hxu)) (by omega)

/-! ## Where names come from -/

/-- What a block leaves at a place: `made` there, or brought from the place `source` in front of it, where all
predecessors seen so far must agree on it. A join point may make a new name instead. -/
structure Origins (E : g.Endless c) (n : Int) (made : Place → Option Var) (source : Place → Option Place) : Prop where
  made_ne_phi : ∀ p m j, p.IsCell → made p ≠ some (.phi m j)
  source_cell : ∀ p q, p.IsCell → source p = some q → q.IsCell
  name_iff : ∀ k' k b flows s t p w, E.Computed k' k n b flows s t → p.IsCell →
    (b.isMerge = true → ¬ State.phiOf n w) → (E.name k' n p = some w ↔ made p = some w ∨
      ∃ q, source p = some q ∧ ∀ e ∈ g.predecessors n, E.Seen k e.target → E.name k e.target q = some w)

theorem Computed.origins_entry (h : E.Computed k' k n b flows s t) (hn : n = g.entry) :
    E.Origins n (fun p => (t.nameAt p).map Var.key) fun _ => none := by
  refine ⟨fun p m j _ hmade => ?_, fun p q _ hq => (by cases hq), fun j' j b' flows' s' t' p w h' _ _ => ?_⟩
  · obtain ⟨v, hv, hkey⟩ := Option.map_eq_some_iff.mp hmade
    have hmentions : t.Mentions (.phi m j) := State.mentions_iff.mpr (Or.inl ⟨p, v, hv, hkey⟩)
    exact (h.phi_cases hmentions).1 hn
  · rw [E.name_of_left h'.left, ← h.eq_of_entry h' hn]
    exact ⟨Or.inl, fun hor => hor.resolve_right fun ⟨q, hq, _⟩ => by cases hq⟩

theorem Computed.agree_iff (h : E.Computed k' k n b flows s t) {v : Var} :
    State.Agree (flows.filterMap Flow.state?) p v ↔
      ∀ e ∈ g.predecessors n, E.Seen k e.target → E.name k e.target p = some v.key := by
  rw [← h.forall_inputs p (Q := (· = some v.key))]
  simp only [State.Agree, Option.map_eq_some_iff]

theorem Computed.name_merge (h : E.Computed k' k n b flows s t) (hn : n ≠ g.entry) (hm : b.isMerge = true) (p : Place) :
    E.name k' n p = if g.exit = n ∧ p = .stack 0
      then ((compared n (flows.filterMap Flow.state?)).nameAt p).map fun _ => .returned
      else ((compared n (flows.filterMap Flow.state?)).nameAt p).map Var.key := by
  rw [E.name_of_left h.left, ← h.eq_of_isMerge hm, nameAt_merge hm (h.inputs_ne_nil hn) h.whole h.merge]
  split
  · rw [Option.map_map]
    rfl
  · rfl

/-- Behind a join point stands what all predecessors seen so far agree on, unless it is a new name. -/
theorem Computed.name_merge_iff (h : E.Computed k' k n b flows s t) (hn : n ≠ g.entry) (hm : b.isMerge = true)
    (hmark : ¬ (g.exit = n ∧ p = .stack 0)) (hw : ¬ State.phiOf n w) :
    E.name k' n p = some w ↔ ∀ e ∈ g.predecessors n, E.Seen k e.target → E.name k e.target p = some w := by
  rw [h.name_merge hn hm, if_neg hmark]
  constructor
  · intro hname
    obtain ⟨v, hv, rfl⟩ := Option.map_eq_some_iff.mp hname
    rcases State.agree_or_differ (bound_of_nameAt_compared (h.inputs_ne_nil hn) hv) with ⟨x, hx⟩ | hdiffer
    · obtain ⟨y, hy, hyx⟩ := nameAt_compared_agree n (h.inputs_ne_nil hn) h.whole hx
      obtain rfl := Option.some.inj (hy.symm.trans hv)
      rw [hyx]
      exact h.agree_iff.mp hx
    · obtain ⟨i, -, hi⟩ := nameAt_compared_differ n (h.inputs_ne_nil hn) h.whole hdiffer
      obtain rfl := Option.some.inj (hv.symm.trans hi)
      exact absurd ⟨_, rfl⟩ hw
  · intro hall
    obtain ⟨e, he, -, hseen⟩ := h.exists_parent hn
    obtain ⟨u, -, hu⟩ := Option.bind_eq_some_iff.mp (hall e he hseen)
    obtain ⟨v, -, rfl⟩ := Option.map_eq_some_iff.mp hu
    obtain ⟨y, hy, hyv⟩ := nameAt_compared_agree n (h.inputs_ne_nil hn) h.whole (h.agree_iff.mpr hall)
    rw [hy, Option.map_some, hyv]

theorem Computed.origins_merge (h : E.Computed k' k n b flows s t) (hn : n ≠ g.entry) (hm : b.isMerge = true) :
    E.Origins n (fun p => if g.exit = n ∧ p = .stack 0 then (s.nameAt p).map fun _ => .returned else none)
      fun p => if g.exit = n ∧ p = .stack 0 then none else some p := by
  refine ⟨fun p m j _ hmade => ?_, fun p q hp hq => ?_, fun j' j b' flows' s' t' p w h' hp hw => ?_⟩
  · split at hmade
    · obtain ⟨-, -, hcon⟩ := Option.map_eq_some_iff.mp hmade
      cases hcon
    · cases hmade
  · split at hq
    · cases hq
    · cases hq
      exact hp
  · obtain rfl : b = b' := Option.some.inj (h.block.symm.trans h'.block)
    by_cases hmark : g.exit = n ∧ p = .stack 0
    · simp only [if_pos hmark]
      have hname : s'.nameAt p = _ := nameAt_merge hm (h'.inputs_ne_nil hn) h'.whole h'.merge p
      rw [if_pos hmark] at hname
      have hbound := State.nameAt_eq_none_of_shape (h.shape_eq h') hp
      rw [h'.name_merge hn hm, if_pos hmark, ← hname]
      cases hs : s.nameAt p <;> cases hs' : s'.nameAt p <;> simp_all
    · simp only [if_neg hmark, Option.some.injEq, reduceCtorEq, false_or, exists_eq_left']
      exact h'.name_merge_iff hn hm hmark (hw hm)

theorem Computed.origins_single (h : E.Computed k' k n b flows s t) (hn : n ≠ g.entry) (hm : b.isMerge = false) :
    ∃ made source, E.Origins n made source := by
  obtain ⟨moves, hmoves, hname⟩ := Steps.exists_moves g.signature c b.instrs s.partLength
  refine ⟨fun p => (moves p).bind fun v => if v.place? = none then some v.key else none,
    fun p => (moves p).bind Var.place?, fun p m j hp hmade => ?_, fun p q _ hq => ?_,
    fun j' j b' flows' s' t' p w h' hp _ => ?_⟩
  · obtain ⟨v, hv, hmade⟩ := Option.bind_eq_some_iff.mp hmade
    split at hmade
    · rename_i hplace
      rcases hmoves p v hp hv with ⟨q, hq⟩ | ⟨i, -, hmakes⟩
      · rw [hplace] at hq
        cases hq
      · have hphi : v = .phi m j := by cases v <;> simp_all [Var.key]
        exact (hphi ▸ hmakes).ne_phi
    · cases hmade
  · obtain ⟨v, -, hplace⟩ := Option.bind_eq_some_iff.mp hq
    exact Var.isCell_of_place? hplace
  · obtain rfl : b = b' := Option.some.inj (h.block.symm.trans h'.block)
    obtain ⟨notes, hsteps⟩ := h'.runs
    have hinput : ∀ q, (∀ e ∈ g.predecessors n, E.Seen j e.target → E.name j e.target q = some w) ↔
        (s'.nameAt q).map Var.key = some w := by
      intro q
      rw [← h'.forall_inputs q (Q := (· = some w)), h'.inputs_single hn hm, List.forall_mem_singleton]
    simp only [hinput]
    rw [E.name_of_left h'.left, hname s' notes t' p (h.shape_eq h') hsteps hp]
    cases hv : moves p with
    | none => simp
    | some v =>
      unfold State.meaning
      cases hplace : v.place? <;> simp [hplace]

theorem exists_origins (E : g.Endless c) (n : Int) : ∃ made source, E.Origins n made source := by
  by_cases hcomputed : ∃ k' k b flows s t, E.Computed k' k n b flows s t
  · obtain ⟨k', k, b, flows, s, t, h⟩ := hcomputed
    by_cases hn : n = g.entry
    · exact ⟨_, _, h.origins_entry hn⟩
    · cases hm : b.isMerge with
      | true => exact ⟨_, _, h.origins_merge hn hm⟩
      | false => exact h.origins_single hn hm
  · refine ⟨fun _ => none, fun _ => none, fun p m j _ hmade => (by cases hmade), fun p q _ hq => (by cases hq),
      fun k' k b flows s t p w h _ _ => absurd ⟨k', k, b, flows, s, t, h⟩ hcomputed⟩

/-! ## Names that no join point makes -/

/-- A name that no join point makes can only get lost. -/
theorem name_of_later (hw : ∀ m j, w ≠ .phi m j) (hp : p.IsCell) (hk : k ≤ k') (hseen : E.Seen k n)
    (h : E.name k' n p = some w) : E.name k n p = some w := by
  -- The last visits up to the two times read what the predecessors had left before.
  induction k' using Nat.strongRecOn generalizing k n p with
  | ind k' ih =>
    obtain ⟨made, source, horigins⟩ := E.exists_origins n
    obtain ⟨j, hj, hvisited, -, b, flows, s, t, hcomputed⟩ := E.exists_last hseen
    obtain ⟨j', hj', -, hlast, b', flows', s', t', hcomputed'⟩ := E.exists_last (hseen.mono hk)
    have hjj : j ≤ j' := hlast j (by omega) hvisited
    have hphi : ¬ State.phiOf n w := fun ⟨i, hi⟩ => hw n i hi
    rw [horigins.name_iff _ _ _ _ _ _ _ _ hcomputed hp fun _ => hphi]
    rw [horigins.name_iff _ _ _ _ _ _ _ _ hcomputed' hp fun _ => hphi] at h
    refine h.imp_right fun ⟨q, hq, hall⟩ => ⟨q, hq, fun e he hseenₑ => ?_⟩
    exact ih j' hj' (horigins.source_cell p q hp hq) hjj hseenₑ (hall e he (hseenₑ.mono hjj))

/-! ## Names that a join point makes

Once what the join point leaves has settled, each other block has its names, if at all, always at the same places. -/

section
variable {i : Int}

/-- Apart from the join point that makes it, a name is always passed on from the same place. -/
theorem Origins.phi_iff {made : Place → Option Var} {source : Place → Option Place} (h : E.Origins n made source)
    (hn : n ≠ m) (hcomputed : E.Computed k' k n b flows s t) (hp : p.IsCell) :
    E.name k' n p = some (.phi m i) ↔ ∃ q, source p = some q ∧
      ∀ e ∈ g.predecessors n, E.Seen k e.target → E.name k e.target q = some (.phi m i) := by
  have hphi : ¬ State.phiOf n (.phi m i) := by
    rintro ⟨j, hj⟩
    cases hj
    exact hn rfl
  rw [h.name_iff _ _ _ _ _ _ _ _ hcomputed hp fun _ => hphi]
  exact or_iff_right (h.made_ne_phi p m i hp)

/-- Two places that have a name at the same time have had it at the same times before. -/
theorem name_pair (hp : p.IsCell) (hq : q.IsCell) (hk : k ≤ k') (hseen : E.Seen k n)
    (hpname : E.name k' n p = some (.phi m i)) (hqname : E.name k' n q = some (.phi m i)) :
    E.name k n p = some (.phi m i) ↔ E.name k n q = some (.phi m i) := by
  induction k' using Nat.strongRecOn generalizing k n p q with
  | ind k' ih =>
    by_cases hn : n = m
    · subst hn
      have hkey := key_eq_of_name_eq hpname hqname
      rw [hp.key, hq.key] at hkey
      rw [hkey]
    · obtain ⟨made, source, horigins⟩ := E.exists_origins n
      obtain ⟨j, hj, hvisited, -, b, flows, s, t, hcomputed⟩ := E.exists_last hseen
      obtain ⟨j', hj', -, hlast, b', flows', s', t', hcomputed'⟩ := E.exists_last (hseen.mono hk)
      have hjj : j ≤ j' := hlast j (by omega) hvisited
      obtain ⟨p', hp', hpall⟩ := (horigins.phi_iff hn hcomputed' hp).mp hpname
      obtain ⟨q', hq', hqall⟩ := (horigins.phi_iff hn hcomputed' hq).mp hqname
      have hpair : ∀ e ∈ g.predecessors n, E.Seen j e.target →
          (E.name j e.target p' = some (.phi m i) ↔ E.name j e.target q' = some (.phi m i)) := by
        intro e he hseenₑ
        have hseen' := hseenₑ.mono hjj
        exact ih j' hj' (horigins.source_cell p p' hp hp') (horigins.source_cell q q' hq hq') hjj hseenₑ
          (hpall e he hseen') (hqall e he hseen')
      rw [horigins.phi_iff hn hcomputed hp, horigins.phi_iff hn hcomputed hq]
      simp only [hp', hq', Option.some.injEq, exists_eq_left']
      exact forall_congr' fun e => forall_congr' fun he => forall_congr' fun hseenₑ => hpair e he hseenₑ

/-- The block has the name at the place again and again. -/
def Recurs (E : g.Endless c) (w : Var) (n : Int) (p : Place) : Prop := ∃ᶠ k in atTop, E.name k n p = some w

theorem settles_of_not_visited (h : ¬ ∃ᶠ k in atTop, E.visited k = n) (p : Place) : Settles fun k => E.name k n p :=
  (not_frequently.mp h).mono fun _ hne => E.name_other (fun heq => hne heq.symm) p

/-- Where a name recurs that is passed on, it recurs in front of the block. -/
theorem Origins.recurs {made : Place → Option Var} {source : Place → Option Place} (h : E.Origins n made source)
    (hn : n ≠ m) (hvisited : ∃ᶠ k in atTop, E.visited k = n) (hp : p.IsCell) (hrecurs : E.Recurs (.phi m i) n p) :
    ∃ q, source p = some q ∧ q.IsCell ∧
      ∀ e ∈ g.predecessors n, (∃ j, E.Seen j e.target) → E.Recurs (.phi m i) e.target q := by
  -- Between two times at which the block has the name there is a visit, as late as we please.
  have hvisit : ∀ K, ∃ j ≥ K, ∃ q, source p = some q ∧
      ∀ e ∈ g.predecessors n, E.Seen j e.target → E.name j e.target q = some (.phi m i) := by
    intro K
    obtain ⟨v, hv, hvn⟩ := frequently_atTop.mp hvisited K
    obtain ⟨k, hk, hname⟩ := frequently_atTop.mp hrecurs (v + 1)
    obtain ⟨j, -, -, hlast, b, flows, s, t, hcomputed⟩ := E.exists_last (E.seen_of_name hname)
    exact ⟨j, hv.trans (hlast v (by omega) hvn), (h.phi_iff hn hcomputed hp).mp hname⟩
  obtain ⟨-, -, q, hq, -⟩ := hvisit 0
  refine ⟨q, hq, h.source_cell p q hp hq, fun e he ⟨j₀, hj₀⟩ => frequently_atTop.mpr fun K => ?_⟩
  obtain ⟨j, hj, q', hq', hall⟩ := hvisit (max K j₀)
  obtain rfl := Option.some.inj (hq.symm.trans hq')
  exact ⟨j, (le_max_left K j₀).trans hj, hall e he (hj₀.mono ((le_max_right K j₀).trans hj))⟩

/-- Two places at which a name recurs always have it at the same times. -/
theorem name_iff_of_recurs (hm : ∀ p, p.IsCell → Settles fun k => E.name k m p) (hp : p.IsCell) (hq : q.IsCell)
    (hprecurs : E.Recurs (.phi m i) n p) (hqrecurs : E.Recurs (.phi m i) n q) (hseen : E.Seen k n) :
    E.name k n p = some (.phi m i) ↔ E.name k n q = some (.phi m i) := by
  induction k using Nat.strongRecOn generalizing n p q with
  | ind k ih =>
    by_cases hcalm : n = m ∨ ¬ ∃ᶠ k in atTop, E.visited k = n
    · have hsettles : ∀ p, p.IsCell → Settles fun k => E.name k n p := by
        intro p hp
        rcases hcalm with rfl | hnot
        · exact hm p hp
        · exact settles_of_not_visited hnot p
      have hlate : ∀ {p}, p.IsCell → E.Recurs (.phi m i) n p → ∀ᶠ k in atTop, E.name k n p = some (.phi m i) :=
        fun hp hrecurs => ((hsettles _ hp).map (· = some (.phi m i))).eventually hrecurs
      obtain ⟨k', ⟨hpname, hqname⟩, hk⟩ :=
        (((hlate hp hprecurs).and (hlate hq hqrecurs)).and (eventually_ge_atTop k)).exists
      exact name_pair hp hq hk hseen hpname hqname
    · obtain ⟨hn, hvisited⟩ := not_or.mp hcalm
      obtain ⟨made, source, horigins⟩ := E.exists_origins n
      obtain ⟨p', hp', hpcell, hpall⟩ := horigins.recurs hn (not_not.mp hvisited) hp hprecurs
      obtain ⟨q', hq', hqcell, hqall⟩ := horigins.recurs hn (not_not.mp hvisited) hq hqrecurs
      obtain ⟨j, hj, -, -, b, flows, s, t, hcomputed⟩ := E.exists_last hseen
      rw [horigins.phi_iff hn hcomputed hp, horigins.phi_iff hn hcomputed hq]
      simp only [hp', hq', Option.some.injEq, exists_eq_left']
      exact forall_congr' fun e => forall_congr' fun he => forall_congr' fun hseenₑ =>
        ih j hj hpcell hqcell (hpall e he ⟨j, hseenₑ⟩) (hqall e he ⟨j, hseenₑ⟩) hseenₑ

/-- The block has the name at a place where it recurs. -/
def Carries (E : g.Endless c) (w : Var) (k : Nat) (n : Int) : Prop :=
  ∃ p, p.IsCell ∧ E.Recurs w n p ∧ E.name k n p = some w

theorem carries_iff (hm : ∀ p, p.IsCell → Settles fun k => E.name k m p) (hp : p.IsCell)
    (hrecurs : E.Recurs (.phi m i) n p) (k : Nat) :
    E.Carries (.phi m i) k n ↔ E.name k n p = some (.phi m i) := by
  constructor
  · rintro ⟨q, hq, hqrecurs, hname⟩
    exact (name_iff_of_recurs hm hq hp hqrecurs hrecurs (E.seen_of_name hname)).mp hname
  · exact fun hname => ⟨p, hp, hrecurs, hname⟩

theorem settles_carries (hm : ∀ p, p.IsCell → Settles fun k => E.name k m p) (n : Int) :
    Settles fun k => E.Carries (.phi m i) k n := by
  refine E.settles (fun _ => False) (fun _ => True) (x := E.Carries (.phi m i)) ?_ ?_ n
  · intro k n hn
    unfold Carries
    simp only [E.name_other hn]
  · refine Eventually.of_forall fun k k' n b flows s t hrestless hcomputed => ?_
    -- A block whose flag does not settle has the name at some place again and again.
    obtain ⟨p, hp, hrecurs⟩ : ∃ p, p.IsCell ∧ E.Recurs (.phi m i) n p := by
      by_contra hnone
      refine hrestless (settles_of_eventually_eq (a := False) (Eventually.of_forall fun k => ?_))
      exact propext (iff_false_intro fun ⟨p, hp, hrecurs, _⟩ => hnone ⟨p, hp, hrecurs⟩)
    have hcarries : (fun k => E.Carries (.phi m i) k n) = fun k => E.name k n p = some (.phi m i) :=
      funext fun k => propext (carries_iff hm hp hrecurs k)
    have hchanges : ¬ Settles fun k => E.name k n p := by
      intro hsettles
      refine hrestless ?_
      rw [hcarries]
      exact hsettles.map (· = some (.phi m i))
    have hn : n ≠ m := by
      rintro rfl
      exact hchanges (hm p hp)
    have hvisited : ∃ᶠ k in atTop, E.visited k = n := by
      by_contra hnot
      exact hchanges (settles_of_not_visited hnot p)
    obtain ⟨made, source, horigins⟩ := E.exists_origins n
    obtain ⟨q, hq, hqcell, hqall⟩ := horigins.recurs hn hvisited hp hrecurs
    rw [carries_iff hm hp hrecurs, horigins.phi_iff hn hcomputed hp]
    simp only [hq, Option.some.injEq, exists_eq_left', false_or, true_and]
    exact forall_congr' fun e => forall_congr' fun he => forall_congr' fun hseenₑ =>
      (carries_iff hm hqcell (hqall e he ⟨k, hseenₑ⟩) k).symm

end

/-- Whether a block has a given name at a place settles, once the join point that makes the name has settled. -/
theorem settles_name_eq (hw : ∀ m i, w = .phi m i → ∀ p, p.IsCell → Settles fun k => E.name k m p) (n : Int)
    (hp : p.IsCell) : Settles fun k => E.name k n p = some w := by
  by_cases hrecurs : E.Recurs w n p
  · by_cases hphi : ∃ m i, w = .phi m i
    · obtain ⟨m, i, rfl⟩ := hphi
      have hm := hw m i rfl
      have hcarries : (fun k => E.name k n p = some (.phi m i)) = fun k => E.Carries (.phi m i) k n :=
        funext fun k => propext (carries_iff hm hp hrecurs k).symm
      rw [hcarries]
      exact settles_carries hm n
    · obtain ⟨k₀, -, hname⟩ := frequently_atTop.mp hrecurs 0
      have hseen := E.seen_of_name hname
      refine settles_of_eventually_eq (a := True) ?_
      filter_upwards [eventually_ge_atTop k₀] with k hk
      obtain ⟨k', hk', hlater⟩ := frequently_atTop.mp hrecurs k
      exact propext (iff_true_intro
        (name_of_later (fun m i heq => hphi ⟨m, i, heq⟩) hp hk' (hseen.mono hk) hlater))
  · exact settles_of_not_frequently hrecurs

/-! ## All cells -/

/-- The predecessors seen so far all have the name at the place. -/
def Agreed (E : g.Endless c) (k : Nat) (n : Int) (p : Place) (w : Var) : Prop :=
  ∀ e ∈ g.predecessors n, E.Seen k e.target → E.name k e.target p = some w

/-- What the predecessors agree on settles once the blocks in front have settled: it can only be what one of these has. -/
theorem Computed.settles_agreed (h : E.Computed k' k n b flows s t) (hn : n ≠ g.entry) (p : Place)
    (hbefore : ∀ m, g.rank m < g.rank n → Settles fun k => E.name k m p)
    (hnames : ∀ w, (∀ m i, w = .phi m i → g.rank m < g.rank n) → ∀ m, Settles fun k => E.name k m p = some w) :
    Settles fun k => E.Agreed k n p := by
  obtain ⟨e₀, he₀, hrank, hseen₀⟩ := h.exists_parent hn
  obtain ⟨K, hK⟩ := settles_iff.mp (hbefore e₀.target hrank)
  have hparent : ∀ k' ≥ max K k, ∀ w, E.Agreed k' n p w → E.name K e₀.target p = some w := by
    intro k' hk' w hagreed
    rw [← hK k' (le_of_max_le_left hk')]
    exact hagreed e₀ he₀ (hseen₀.mono (le_of_max_le_right hk'))
  cases hw₀ : E.name K e₀.target p with
  | none =>
    filter_upwards [eventually_ge_atTop (max K k)] with k' hk'
    funext w
    refine propext (iff_of_false (fun hcon => ?_) fun hcon => ?_)
    · cases hw₀.symm.trans (hparent (k' + 1) (by omega) w hcon)
    · cases hw₀.symm.trans (hparent k' hk' w hcon)
  | some w₀ =>
    have hbits : ∀ᶠ k in atTop, ∀ e ∈ g.predecessors n,
        (E.name (k + 1) e.target p = some w₀) = (E.name k e.target p = some w₀) := by
      refine (eventually_all_finite (g.predecessors n).finite_toSet).mpr fun e _ => ?_
      exact hnames w₀ (fun m i hphi => (rank_le_of_name (hphi ▸ hw₀)).trans_lt hrank) e.target
    filter_upwards [eventually_ge_atTop (max K k), hbits, E.eventually_seen] with k' hk' hbits hseen
    funext w
    by_cases hw : w = w₀
    · subst hw
      refine propext (forall_congr' fun e => forall_congr' fun he => ?_)
      rw [hbits e he]
      refine imp_congr_left ⟨fun hs => (hseen e.target).mpr ⟨_, hs⟩, Seen.succ⟩
    · have hother : ∀ k' ≥ max K k, ¬ E.Agreed k' n p w := fun k' hk' hcon =>
        hw (Option.some.inj ((hparent k' hk' w hcon).symm.trans hw₀))
      exact propext (iff_of_false (hother (k' + 1) (by omega)) (hother k' hk'))

/-- A place settles if late visits leave the same name there. -/
theorem settles_of_visits (K : Nat) (h : ∀ k ≥ K, ∀ k' ≥ K, E.visited k = n → E.visited k' = n →
    E.name (k + 1) n p = E.name (k' + 1) n p) : Settles fun k => E.name k n p := by
  by_cases hvisited : ∃ᶠ k in atTop, E.visited k = n
  · obtain ⟨k₀, hk₀, hn₀⟩ := frequently_atTop.mp hvisited K
    refine settles_of_eventually_eq (a := E.name (k₀ + 1) n p) (eventually_atTop.mpr ⟨k₀ + 1, fun k hk => ?_⟩)
    induction k, hk using Nat.le_induction with
    | base => rfl
    | succ k hk ih =>
      by_cases hn : E.visited k = n
      · exact h k (by omega) k₀ hk₀ hn hn₀
      · exact (E.name_other (fun heq => hn heq.symm) p).trans ih
  · exact settles_of_not_visited hvisited p

/-- Behind a block that makes no new names a place settles if it has a fixed name, or one on which the predecessors
agree. -/
theorem settles_of_agreed (q : Place) (made : Option Var) (passes : Prop) (hphi : ∀ k i, E.name k n p ≠ some (.phi n i))
    (hrule : ∀ᶠ k in atTop, E.visited k = n → ∀ w, ¬ State.phiOf n w →
      (E.name (k + 1) n p = some w ↔ made = some w ∨ passes ∧ E.Agreed k n q w))
    (hagreed : Settles fun k => E.Agreed k n q) : Settles fun k => E.name k n p := by
  obtain ⟨K₁, hrule⟩ := eventually_atTop.mp hrule
  obtain ⟨K₂, hagreed⟩ := settles_iff.mp hagreed
  refine settles_of_visits (max K₁ K₂) fun k hk k' hk' hvisited hvisited' => Option.ext fun w => ?_
  by_cases hw : State.phiOf n w
  · obtain ⟨i, rfl⟩ := hw
    exact iff_of_false (hphi _ i) (hphi _ i)
  · rw [hrule k (le_of_max_le_left hk) hvisited w hw, hrule k' (le_of_max_le_left hk') hvisited' w hw,
      hagreed k (le_of_max_le_right hk), hagreed k' (le_of_max_le_right hk')]

theorem name_ne_phi (hb : g.blocks.find? n = some b) (h : n = g.entry ∨ b.isMerge = false) (k : Nat) (i : Int) :
    E.name k n p ≠ some (.phi n i) := by
  intro hname
  obtain ⟨hn, _, b', flows, s, hm, hcomputed⟩ := computed_of_name_phi hname
  rcases h with hentry | hnot
  · exact hn hentry
  · rw [Option.some.inj (hb.symm.trans hcomputed.block), hm] at hnot
    cases hnot

theorem settles_agreed_entry (E : g.Endless c) (p : Place) : Settles fun k => E.Agreed k g.entry p := by
  refine Eventually.of_forall fun k => funext fun w => ?_
  simp [Agreed, E.connected.entry_free]

/-- The cells of a block that makes no new names settle if what it reads has settled. -/
theorem settles_of_source (hphi : ∀ k i, E.name k n p ≠ some (.phi n i)) (hp : p.IsCell)
    (hagreed : ∀ q, q.IsCell → Settles fun k => E.Agreed k n q) : Settles fun k => E.name k n p := by
  obtain ⟨made, source, horigins⟩ := E.exists_origins n
  have hname : ∀ k, E.visited k = n → ∀ w, ¬ State.phiOf n w → (E.name (k + 1) n p = some w ↔
      made p = some w ∨ ∃ q, source p = some q ∧ E.Agreed k n q w) := by
    rintro k rfl w hw
    obtain ⟨s, t, hcomputed⟩ := E.computed_visited k
    exact horigins.name_iff _ _ _ _ _ _ _ _ hcomputed hp fun _ => hw
  cases hq : source p with
  | none =>
    refine settles_of_agreed p (made p) False hphi (Eventually.of_forall fun k hvisited w hw => ?_) (hagreed p hp)
    simpa [hq] using hname k hvisited w hw
  | some q =>
    refine settles_of_agreed q (made p) True hphi (Eventually.of_forall fun k hvisited w hw => ?_)
      (hagreed q (horigins.source_cell p q hp hq))
    simpa [hq] using hname k hvisited w hw

theorem Computed.bound_iff (h : E.Computed k' k n b flows s t) (hn : n ≠ g.entry) (hp : p.IsCell) :
    (∀ x ∈ flows.filterMap Flow.state?, ∃ w, x.nameAt p = some w) ↔ s.nameAt p ≠ none := by
  have hshape : ∀ x ∈ flows.filterMap Flow.state?, (∃ w, x.nameAt p = some w) ↔ s.nameAt p ≠ none := by
    intro x hx
    rw [← Option.ne_none_iff_exists', ne_eq, State.nameAt_eq_none_of_shape (h.starts.shape hx) hp]
  constructor
  · intro hall
    obtain ⟨x, hx⟩ := List.exists_mem_of_ne_nil _ (h.inputs_ne_nil hn)
    exact (hshape x hx).mp (hall x hx)
  · exact fun hbound x hx => (hshape x hx).mpr hbound

/-- The cells of a join point depend on what its predecessors agree on. -/
theorem Computed.name_eq_of_agreed {j j' : Nat} {flows' : List Flow} {s' t' : State}
    (h : E.Computed k' k n b flows s t) (h' : E.Computed j' j n b flows' s' t') (hn : n ≠ g.entry)
    (hm : b.isMerge = true) (hagreed : ∀ q, q.IsCell → s.nameAt q ≠ none → E.Agreed k n q = E.Agreed j n q)
    (hp : p.IsCell) : E.name k' n p = E.name j' n p := by
  have hbound : ∀ q, q.IsCell → ((∀ x ∈ flows.filterMap Flow.state?, ∃ w, x.nameAt q = some w) ↔
      ∀ x ∈ flows'.filterMap Flow.state?, ∃ w, x.nameAt q = some w) := by
    intro q hq
    rw [h.bound_iff hn hq, h'.bound_iff hn hq, ne_eq, ne_eq, State.nameAt_eq_none_of_shape (h.shape_eq h') hq]
  have hagree : ∀ q v, q.IsCell → (State.Agree (flows.filterMap Flow.state?) q v ↔
      State.Agree (flows'.filterMap Flow.state?) q v) := by
    intro q v hq
    by_cases hname : s.nameAt q = none
    · have hunbound := mt (h.bound_iff hn hq).mp (not_not.mpr hname)
      have hunbound' := mt (hbound q hq).mpr hunbound
      exact iff_of_false (fun hcon => hunbound fun x hx => (hcon x hx).imp fun _ hw => hw.1)
        fun hcon => hunbound' fun x hx => (hcon x hx).imp fun _ hw => hw.1
    · rw [h.agree_iff, h'.agree_iff]
      exact iff_of_eq (congrFun (hagreed q hq hname) v.key)
  have hcompared := compared_congr n (h.inputs_ne_nil hn) (h'.inputs_ne_nil hn) h.whole h'.whole hbound hagree hp
  rw [h.name_merge hn hm, h'.name_merge hn hm]
  split
  · cases hx : (compared n (flows.filterMap Flow.state?)).nameAt p <;>
      cases hx' : (compared n (flows'.filterMap Flow.state?)).nameAt p <;> simp_all
  · exact hcompared

/-- The cells of a join point settle if what its predecessors agree on settles. -/
theorem Computed.settles_merge (h : E.Computed k' k n b flows s t) (hn : n ≠ g.entry) (hm : b.isMerge = true)
    (hagreed : ∀ q, q.IsCell → Settles fun k => E.Agreed k n q) (hp : p.IsCell) : Settles fun k => E.name k n p := by
  have hall : Settles fun k (q : {q : Place // q.IsCell ∧ s.nameAt q ≠ none}) => E.Agreed k n q := by
    have hsteps : ∀ᶠ k in atTop, ∀ q ∈ {q : Place | q.IsCell ∧ s.nameAt q ≠ none},
        E.Agreed (k + 1) n q = E.Agreed k n q :=
      (eventually_all_finite s.finite_cells).mpr fun q hq => hagreed q hq.1
    filter_upwards [hsteps] with k hk
    exact funext fun q => hk q q.2
  obtain ⟨K, hK⟩ := settles_iff.mp hall
  have hconst : ∀ k₁ ≥ K, ∀ k₂ ≥ K, ∀ q, q.IsCell → s.nameAt q ≠ none → E.Agreed k₁ n q = E.Agreed k₂ n q := by
    intro k₁ hk₁ k₂ hk₂ q hq hname
    exact congrFun ((hK k₁ hk₁).trans (hK k₂ hk₂).symm) ⟨q, hq, hname⟩
  refine settles_of_visits K fun k₁ hk₁ k₂ hk₂ hvisited₁ hvisited₂ => ?_
  obtain ⟨flows₁, s₁, t₁, h₁⟩ := h.again hvisited₁
  obtain ⟨flows₂, s₂, t₂, h₂⟩ := h.again hvisited₂
  refine h₁.name_eq_of_agreed h₂ hn hm (fun q hq hname => hconst k₁ hk₁ k₂ hk₂ q hq ?_) hp
  exact fun hnone => hname ((State.nameAt_eq_none_of_shape (h.shape_eq h₁) hq).mpr hnone)

/-- Places settle at one block after the other in the visiting order, if they settle at each block once what its
predecessors agree on does, and whether a block has a given name settles once the join point that makes it has. -/
theorem settles_of_before (E : g.Endless c) {P : Place → Prop}
    (hsource : ∀ n p, P p → (∀ k i, E.name k n p ≠ some (.phi n i)) →
      (∀ q, P q → Settles fun k => E.Agreed k n q) → Settles fun k => E.name k n p)
    (hmerge : ∀ k' k n b flows s t, E.Computed k' k n b flows s t → n ≠ g.entry → b.isMerge = true →
      (∀ q, P q → Settles fun k => E.Agreed k n q) → ∀ p, P p → Settles fun k => E.name k n p)
    (hname : ∀ w, (∀ m i, w = .phi m i → ∀ p, P p → Settles fun k => E.name k m p) →
      ∀ n p, P p → Settles fun k => E.name k n p = some w) (n : Int) (hp : P p) : Settles fun k => E.name k n p := by
  induction hrank : g.rank n using Nat.strongRecOn generalizing n p with
  | ind r ih =>
    subst hrank
    by_cases hvisited : ∃ᶠ k in atTop, E.visited k = n
    · obtain ⟨k, -, rfl⟩ := frequently_atTop.mp hvisited 0
      obtain ⟨s, t, hcomputed⟩ := E.computed_visited k
      by_cases hn : E.visited k = g.entry
      · refine hsource _ p hp (name_ne_phi hcomputed.block (Or.inl hn)) fun q _ => ?_
        rw [hn]
        exact settles_agreed_entry E q
      · have hagreed : ∀ q, P q → Settles fun j => E.Agreed j (E.visited k) q := by
          intro q hq
          refine hcomputed.settles_agreed hn q (fun m hm => ih _ hm m hq rfl) fun w hw m => ?_
          exact hname w (fun m' i hphi p hp => ih _ (hw m' i hphi) m' hp rfl) m q hq
        cases hm : (E.block k).isMerge with
        | true => exact hmerge _ _ _ _ _ _ _ hcomputed hn hm hagreed p hp
        | false => exact hsource _ p hp (name_ne_phi hcomputed.block (Or.inr hm)) hagreed
    · exact settles_of_not_visited hvisited p

/-- The names on the stack, in the locals and in the globals behind a block settle. -/
theorem settles_cell (E : g.Endless c) (n : Int) (hp : p.IsCell) : Settles fun k => E.name k n p := by
  refine E.settles_of_before (P := Place.IsCell) ?_ ?_ ?_ n hp
  · exact fun n p hp hphi hagreed => settles_of_source hphi hp hagreed
  · exact fun k' k n b flows s t h hn hm hagreed p hp => h.settles_merge hn hm hagreed hp
  · exact fun w hw n p hp => settles_name_eq hw n hp

end Graph.Endless
end Backslice
