import Backslice.Proofs.Slice.Lockstep

/-! # Operands in a slice

An instruction uses the names at places that it and the height of the stack determine. In front of a kept instruction
the slice has their twins there, and a kept join point uses the twins of what it uses in the graph. -/

namespace Backslice

set_option autoImplicit false

/-! ## The operands of instructions -/

/-- The upper `n` places of a stack of the given height. -/
def topPlaces (height n : Nat) : List Place := (List.range (min n height)).map .stack

theorem State.map_nameAt_top (s : State) (n : Nat) :
    (topPlaces s.stack.length n).map s.nameAt = (s.stack.take n).map some := by
  refine List.ext_getElem (by simp [topPlaces]) fun k hk hk' => ?_
  simp only [List.length_map, List.length_take, lt_inf_iff] at hk'
  simp [topPlaces, State.nameAt, hk'.2]

/-- The places whose names an instruction uses. -/
def Instr.operands (height : Nat) : Instr → List Place
  | .data i => match i.op with
    | .localGet => [.locals i.index]
    | .globalGet => [.globals i.index]
    | op => topPlaces height op.operandCount
  | .control i => match i.op with
    | .cond | .brIf | .brTable => topPlaces height 1
    | .call => topPlaces height (Position.cut height i.arity.inputs)
    | .callIndirect => topPlaces height (Position.cut height (i.arity.inputs + 1))
    | _ => []

theorem Instr.isCell_operands {i : Instr} {height : Nat} {p : Place} (hp : p ∈ i.operands height) : p.IsCell := by
  have htop : ∀ {n}, p ∈ topPlaces height n → p.IsCell := by
    intro n hp
    obtain ⟨k, -, rfl⟩ := List.mem_map.mp hp
    trivial
  cases i with
  | data d =>
    simp only [operands] at hp
    split at hp
    · obtain rfl := List.mem_singleton.mp hp
      trivial
    · obtain rfl := List.mem_singleton.mp hp
      trivial
    · exact htop hp
  | control k =>
    simp only [operands] at hp
    split at hp <;> first | exact htop hp | cases hp

namespace DataInstr

variable {i : DataInstr} {s : State}

theorem uses_eq (h : i.InRange s.locals.length s.globals.length) :
    ∃ vs, i.uses s = .ok vs ∧ ((Instr.data i).operands s.stack.length).map s.nameAt = vs.map some := by
  -- The place at a natural number is the one that the number counts to.
  have hplace : ∀ {places : List Var} {n : Int} {v : Var}, (∃ m : Nat, i.arg = .int m ∧ m < places.length) →
      i.arg = .int n → Position.get? places n = some v → places[i.index]? = some v := by
    rintro places n v ⟨m, harg, -⟩ hn hget
    obtain rfl : (m : Int) = n := Immediate.int.inj (harg.symm.trans hn)
    rwa [index_of_arg harg, ← Position.get?_ofNat]
  unfold uses Instr.operands
  cases hop : i.op
  case localGet =>
    obtain ⟨n, v, hn, hget, hread⟩ := (h.finds.1 hop).read
    exact ⟨[v], hread, by simpa [hop, State.nameAt] using hplace (h.1 (Or.inl hop)) hn hget⟩
  case globalGet =>
    obtain ⟨n, v, hn, hget, hread⟩ := (h.finds.2 hop).read
    exact ⟨[v], hread, by simpa [hop, State.nameAt] using hplace (h.2 (Or.inl hop)) hn hget⟩
  all_goals exact ⟨_, rfl, by simpa only [hop] using s.map_nameAt_top _⟩

end DataInstr

theorem ControlInstr.uses_eq (i : ControlInstr) (s : State) :
    ((Instr.control i).operands s.stack.length).map s.nameAt = (i.uses s).map some := by
  unfold uses Instr.operands
  cases hop : i.op <;> simp only [hop, Position.takeTo, State.map_nameAt_top, List.map_nil]

/-- An annotated instruction uses the names at its operands. -/
theorem Instr.uses_annotate {sig : Signature} {i : Instr} {table : Table Label Note} {s t : State}
    (hnote : table.find? i.label = some ⟨.known s, .known t⟩) (hfits : i.Fits sig)
    (hlocals : s.locals.length = sig.localCount) (hglobals : s.globals.length = sig.globals.length) :
    ∃ vs, (i.annotate table).uses = .ok vs ∧ (i.operands s.stack.length).map s.nameAt = vs.map some := by
  rw [uses, requireNote_annotate hnote, ok_bind]
  cases i with
  | data d =>
    have hrange : d.InRange s.locals.length s.globals.length := hlocals ▸ hglobals ▸ hfits
    exact DataInstr.uses_eq hrange
  | control k => exact ⟨_, rfl, k.uses_eq s⟩

theorem Instr.operands_clear (i : Instr) (height : Nat) : i.clear.operands height = i.operands height := by
  cases i <;> rfl

theorem forall₂_of_map_eq {α β γ : Type} {R : β → γ → Prop} {f : α → Option β} {f' : α → Option γ} {ps : List α}
    {xs : List β} {ys : List γ} (hx : ps.map f = xs.map some) (hy : ps.map f' = ys.map some)
    (h : ∀ p ∈ ps, ∀ x y, f p = some x → f' p = some y → R x y) : List.Forall₂ R xs ys := by
  induction ps generalizing xs ys with
  | nil =>
    cases List.map_eq_nil_iff.mp hx.symm
    cases List.map_eq_nil_iff.mp hy.symm
    exact .nil
  | cons p ps ih =>
    obtain ⟨x, xs, rfl, hfx, hx⟩ := List.map_eq_cons_iff.mp hx.symm
    obtain ⟨y, ys, rfl, hfy, hy⟩ := List.map_eq_cons_iff.mp hy.symm
    obtain ⟨hfirst, hrest⟩ := List.forall_mem_cons.mp h
    exact .cons (hfirst x y hfx.symm hfy.symm) (ih hx.symm hy.symm hrest)

namespace Graph

variable {g slice : Graph} {r r' : Run} {keep : List Label} {v : Int} {b : Block} {inputs : List State}
  {s s' t t' : State} {notes notes' : List (Label × Note)} {code : List Instr} {i : Instr} {p q : Place}
  {x y z z' : Var}

/-! ## Kept instructions -/

theorem ReturnsLast.not_before (h : g.ReturnsLast) (v : Int) : ¬ g.Before g.exit v := by
  intro hbefore
  obtain ⟨w, hw, -⟩ := Relation.TransGen.head'_iff.mp hbefore
  obtain ⟨e, he, -⟩ := mem_successors.mp hw
  rw [h.2] at he
  cases he

/-- A control instruction is alone in its block, so a block with a kept instruction does not give back a result that is
not kept. -/
theorem not_buries_of_kept (hb : g.blocks.find? v = some b) (hi : i ∈ b.instrs) (hkeep : i.label ∈ keep) :
    ¬ g.Buries r keep v := by
  rintro ⟨b', j, -, -, hb', hj, hyields, hnot, -⟩
  cases hb.symm.trans hb'
  cases hbody : b.body with
  | data instrs =>
    simp only [Block.instrs, hbody] at hj
    obtain ⟨d, -, rfl⟩ := List.mem_map.mp hj
    cases hyields
  | control k =>
    simp only [Block.instrs, hbody, List.mem_singleton] at hi hj
    exact hnot (hj ▸ hi ▸ hkeep)
  | merge =>
    simp only [Block.instrs, hbody] at hi
    cases hi

/-- The twin of a name that is not made at the exit. -/
def Carried (g : Graph) (r : Run) (keep : List Label) (r' : Run) (x y : Var) : Prop :=
  g.Twin r keep r' x y ∧ x.isPlain = true ∧ ¬ g.BornAt g.exit x

namespace Sliced

theorem not_bornAt_exit_of_instr (h : g.Sliced r keep slice r') (hlast : g.ReturnsLast)
    (hb : g.blocks.find? v = some b) (hi : i ∈ b.instrs)
    (hnote : r.instrs.find? i.label = some ⟨.known s, .known t⟩) (hx : s.nameAt p = some x)
    (htwin : g.Twin r keep r' x y) : ¬ g.BornAt g.exit x := by
  intro hborn
  obtain ⟨-, -, -, -, ⟨⟨bₑ, hbₑ, hm⟩, -⟩, -⟩ := htwin.of_bornAt hborn
  obtain ⟨pre, post, hsplit⟩ := List.append_of_mem hi
  obtain ⟨inputs, s₀, t₀, notes, hset⟩ := h.exact.solved.settled v b hb
  have hruns := hset.runs
  rw [hsplit] at hruns
  obtain ⟨n, u, w, hpre, -, hmem⟩ := hruns.middle
  cases hnote.symm.trans (hset.instrs _ hmem)
  have hsub : pre ⊆ b.instrs := hsplit ▸ List.subset_append_left ..
  rcases h.exact.solved.before_of_mentions hb hset hpre hsub (State.mentions_of_nameAt hx) hborn with hexit | hbefore
  · subst hexit
    cases hb.symm.trans hbₑ
    rw [Block.instrs_of_isMerge hm] at hi
    cases hi
  · exact hlast.not_before v hbefore

/-- A kept instruction uses in the slice the twins of what it uses in the graph. -/
theorem labelUses_kept (h : g.Sliced r keep slice r') (hsup : g.Supports r keep) (hlast : g.ReturnsLast)
    (ho : g.OrdinaryLabels) (hb : g.blocks.find? v = some b) (hi : i ∈ b.instrs) (hkeep : i.label ∈ keep)
    (hlevel : ∀ e ∈ g.predecessors v, ¬ g.Buries r keep e.target) : ∃ vs vs',
      (g.withRun r).labelUses i.label = .ok vs ∧ (slice.withRun r').labelUses i.label = .ok vs' ∧
      List.Forall₂ (g.Carried r keep r') vs vs' := by
  obtain ⟨inputs, s, t, notes, hset⟩ := h.exact.solved.settled v b hb
  obtain ⟨code, s', t', notes', hfollows, hlanded⟩ := h.landed hb hset
  have hs := h.enter hsup hb hset hlanded (h.inStep hsup hlast (hasBlock_iff.mpr ⟨b, hb⟩) hlevel)
  obtain ⟨u, w, u', w', hnote, hnote', htracks⟩ :=
    (h.leave hsup hb hset hlanded hfollows (not_buries_of_kept hb hi hkeep) hs).2 i hi hkeep
  have hmem : i ∈ g.instrs := mem_instrs hb hi
  have hmem' : i.clear ∈ slice.instrs := hlanded.instrs _ (hfollows.filled.clear_mem hi hkeep)
  -- Both use the names at the same places.
  obtain ⟨vs, hvs, huses, hneeds⟩ := hsup.instr i hmem hkeep
  obtain ⟨hlocals, hglobals⟩ := h.exact.solved.lengths (h.exact.solved.reached_before hmem hnote)
  obtain ⟨vs₁, huses₁, hnames⟩ := Instr.uses_annotate hnote (h.exact.fits i hmem) hlocals hglobals
  obtain rfl := Except.ok.inj (huses.symm.trans huses₁)
  have hfind : r'.instrs.find? i.clear.label = some ⟨.known u', .known w'⟩ := by rwa [Instr.label_clear]
  obtain ⟨hlocals', hglobals'⟩ := h.exact'.solved.lengths (h.exact'.solved.reached_before hmem' hfind)
  obtain ⟨vs', huses', hnames'⟩ := Instr.uses_annotate hfind (h.exact'.fits _ hmem') hlocals' hglobals'
  rw [Instr.operands_clear, State.length_stack_of_shape htracks.shape] at hnames'
  have hvs' := labelUses_instr (h.exact'.solved.labels.withRun r') ((h.ordinaryLabels ho).withRun r')
    (mem_instrs_withRun.mpr ⟨_, hmem', rfl⟩)
  rw [Instr.label_annotate, Instr.label_clear, huses'] at hvs'
  refine ⟨vs, vs', hvs, hvs', forall₂_of_map_eq hnames hnames' fun p hp x y hx hy => ?_⟩
  have hplain := (h.exact.clean_before hmem hnote).plain p x hx
  have hused : x ∈ vs := by
    have hsome : some x ∈ vs.map some := hnames ▸ hx ▸ List.mem_map_of_mem hp
    exact (List.mem_map_of_injective (Option.some_injective _)).mp hsome
  have htwin := htracks.twins p x y (Instr.isCell_operands hp) hx hy
    (hneeds x hused (Var.not_isConstant_of_isPlain hplain))
  exact ⟨htwin, hplain, h.not_bornAt_exit_of_instr hlast hb hi hnote hx htwin⟩

/-! ## Kept join points -/

theorem not_bornAt_exit_of_feeds (h : g.Sliced r keep slice r') (hlast : g.ReturnsLast) (hs : g.Feeds r v s)
    (hx : s.nameAt p = some x) : ¬ g.BornAt g.exit x := by
  intro hborn
  obtain ⟨e, he, hs⟩ := hs
  obtain ⟨bₑ, hbₑ⟩ := h.exact.block_of_predecessor he
  obtain ⟨inputs, s₀, t₀, notes, hset⟩ := h.exact.solved.settled e.target bₑ hbₑ
  obtain rfl := hset.exits.unique hs
  have hbefore := h.exact.solved.connected.before_of_predecessor he
  rcases h.exact.solved.before_of_mentions hbₑ hset hset.runs (List.Subset.refl _) (State.mentions_of_nameAt hx)
    hborn with hexit | hfar
  · exact hlast.not_before v (hexit ▸ hbefore)
  · exact hlast.not_before _ hfar

/-- What a kept join point makes at a place it makes at the corresponding place of the slice. -/
theorem exists_fronts (h : g.Sliced r keep slice r') (hsup : g.Supports r keep) (hb : g.blocks.find? v = some b)
    (hset : g.Settled .bare r v b inputs s t notes) (hlanded : Landed g slice r' v b code s' t' notes')
    (hv : v ≠ g.entry) (hbefore : InStepBefore g slice r keep r' v) (hm : b.isMerge = true)
    (hkeep : .merge v ∈ keep) (hz : s.nameAt p = some z) (hborn : g.BornAt v z) : ∃ q z',
      g.Aligned r keep r' p q ∧ g.Fronts slice r keep r' v p q ∧ s'.nameAt q = some z' := by
  have hcell : p.IsCell → ∃ q z', g.Aligned r keep r' p q ∧ g.Fronts slice r keep r' v p q ∧
      s'.nameAt q = some z' := by
    intro hp
    have htracks := h.enter hsup hb hset hlanded hbefore
    obtain ⟨z', hz'⟩ := State.exists_nameAt_of_shape htracks.shape hp hz
    exact ⟨p, z', .cell hp, h.fronts_cell hb hset hlanded hv hbefore hp hz hz', hz'⟩
  cases p with
  | stack k => exact hcell trivial
  | locals k => exact hcell trivial
  | globals k => exact hcell trivial
  | memory k =>
    have hexits : r.Exits v s := hset.exit_eq_start hm ▸ hset.exits
    obtain ⟨a', z', ha, hz', hfronts⟩ := h.fronts_forth hb hset hlanded hv hbefore hz fun u x hu hx => by
      have hne : x ≠ z := by
        rintro rfl
        exact h.exact.feeds_fresh hu hborn (State.mentions_of_nameAt hx)
      exact hsup.wanted_merge h.exact hb hm hkeep hexits hu hx hz hne
    exact ⟨_, z', .slot ha k.2, hfronts, hz'⟩

/-- What stands behind a join point in the slice goes back to what stands behind it in the graph. -/
theorem exists_fronts_back (h : g.Sliced r keep slice r') (hsup : g.Supports r keep)
    (hb : g.blocks.find? v = some b) (hset : g.Settled .bare r v b inputs s t notes)
    (hlanded : Landed g slice r' v b code s' t' notes') (hv : v ≠ g.entry)
    (hbefore : InStepBefore g slice r keep r' v) (hz' : s'.nameAt q = some z') : ∃ p z,
      g.Aligned r keep r' p q ∧ g.Fronts slice r keep r' v p q ∧ s.nameAt p = some z := by
  have hcell : q.IsCell → ∃ p z, g.Aligned r keep r' p q ∧ g.Fronts slice r keep r' v p q ∧
      s.nameAt p = some z := by
    intro hq
    have htracks := h.enter hsup hb hset hlanded hbefore
    obtain ⟨z, hz⟩ := State.exists_nameAt_of_shape htracks.shape.symm hq hz'
    exact ⟨q, z, .cell hq, h.fronts_cell hb hset hlanded hv hbefore hq hz hz', hz⟩
  cases q with
  | stack k => exact hcell trivial
  | locals k => exact hcell trivial
  | globals k => exact hcell trivial
  | memory k =>
    obtain ⟨a, z, ha, hz, hfronts⟩ := h.fronts_back hb hset hlanded hv hbefore hz'
    exact ⟨_, z, .slot ha k.2, hfronts, hz⟩

theorem renamed_forth (h : g.Sliced r keep slice r') (hsup : g.Supports r keep) (hb : g.blocks.find? v = some b)
    (hset : g.Settled .bare r v b inputs s t notes) (hlanded : Landed g slice r' v b code s' t' notes')
    (hv : v ≠ g.entry) (hbefore : InStepBefore g slice r keep r' v) (hm : b.isMerge = true)
    (hkeep : .merge v ∈ keep) {u : State} (hu : g.Feeds r v u) (hx : u.nameAt p = some x) (hz : s.nameAt p = some z)
    (hne : x ≠ z) : ∃ u' q y z', (∃ e ∈ g.predecessors v, g.Lands slice r' e.target u') ∧ u'.nameAt q = some y ∧
      s'.nameAt q = some z' ∧ y ≠ z' ∧ g.Twin r keep r' x y := by
  have hborn : g.BornAt v z := by
    rcases (h.exact.joins hb hset hv).kept p z hz with ⟨-, hborn⟩ | hall
    · exact hborn
    · exact absurd (Option.some.inj (hx.symm.trans (hall u hu))) hne
  obtain ⟨q, z', hpq, hfronts, hz'⟩ := h.exists_fronts hsup hb hset hlanded hv hbefore hm hkeep hz hborn
  have hborn' := h.rejoin_born hsup hb hset hlanded hv hpq hfronts hm hborn hkeep hz hz'
  obtain ⟨x₁, y, u', hu', hx₁, hy, htwin, -⟩ := hfronts.of_feeds hu
  obtain rfl := Option.some.inj (hx.symm.trans hx₁)
  have hne' : y ≠ z' := by
    rintro rfl
    exact (hlanded.joins hv).fresh u' y hu' ⟨hm, hborn'⟩ (State.mentions_of_nameAt hy)
  have hexits : r.Exits v s := hset.exit_eq_start hm ▸ hset.exits
  exact ⟨u', q, y, z', hu', hy, hz', hne', htwin (hsup.wanted_merge h.exact hb hm hkeep hexits hu hx hz hne)⟩

theorem renamed_back (h : g.Sliced r keep slice r') (hsup : g.Supports r keep) (hb : g.blocks.find? v = some b)
    (hset : g.Settled .bare r v b inputs s t notes) (hlanded : Landed g slice r' v b code s' t' notes')
    (hv : v ≠ g.entry) (hbefore : InStepBefore g slice r keep r' v) (hm : b.isMerge = true)
    (hkeep : .merge v ∈ keep) {u' : State} (hu' : ∃ e ∈ g.predecessors v, g.Lands slice r' e.target u')
    (hy : u'.nameAt q = some y) (hz' : s'.nameAt q = some z') (hne : y ≠ z') : ∃ u p x z, g.Feeds r v u ∧
      u.nameAt p = some x ∧ s.nameAt p = some z ∧ x ≠ z ∧ g.Twin r keep r' x y := by
  obtain ⟨p, z, hpq, hfronts, hz⟩ := h.exists_fronts_back hsup hb hset hlanded hv hbefore hz'
  have hborn : g.BornAt v z := by
    by_contra hborn
    obtain ⟨y₁, hy₁, -, -, hall⟩ := h.rejoin_kept hb hset hlanded hv hpq hfronts (fun hcon => hborn hcon.2) hz
    obtain rfl := Option.some.inj ((hall u' hu').symm.trans hy)
    exact hne (Option.some.inj (hy₁.symm.trans hz'))
  obtain ⟨x, y₁, u, hu, hx, hy₁, htwin, -⟩ := hfronts.of_lands h hu'
  obtain rfl := Option.some.inj (hy.symm.trans hy₁)
  have hne' : x ≠ z := by
    rintro rfl
    exact h.exact.feeds_fresh hu hborn (State.mentions_of_nameAt hx)
  have hexits : r.Exits v s := hset.exit_eq_start hm ▸ hset.exits
  exact ⟨u, p, x, z, hu, hx, hz, hne', htwin (hsup.wanted_merge h.exact hb hm hkeep hexits hu hx hz hne')⟩

/-- A kept join point uses in the slice the twins of what it uses in the graph. -/
theorem labelUses_join (h : g.Sliced r keep slice r') (hsup : g.Supports r keep) (hlast : g.ReturnsLast)
    (hb : g.blocks.find? v = some b) (hm : b.isMerge = true) (hkeep : .merge v ∈ keep)
    (hlevel : ∀ e ∈ g.predecessors v, ¬ g.Buries r keep e.target) : ∃ vs vs',
      (g.withRun r).labelUses (.merge v) = .ok vs ∧ (slice.withRun r').labelUses (.merge v) = .ok vs' ∧
      (∀ x ∈ vs, ∃ y ∈ vs', g.Carried r keep r' x y) ∧ ∀ y ∈ vs', ∃ x ∈ vs, g.Carried r keep r' x y := by
  obtain ⟨inputs, s, t, notes, hset⟩ := h.exact.solved.settled v b hb
  obtain ⟨code, s', t', notes', -, hlanded⟩ := h.landed hb hset
  obtain rfl := hset.exit_eq_start hm
  obtain ⟨rfl, hexits'⟩ := hlanded.exits hm
  have hv' := h.hasBlock_of_isMerge hb hm
  obtain ⟨b', hb'⟩ := hasBlock_iff.mp hv'
  obtain ⟨vs, hvs, hmem⟩ := h.exact.labelUses_merge hb hm hset.exits
  obtain ⟨vs', hvs', hmem'⟩ := h.exact'.labelUses_merge hb' ((h.isMerge_eq hb hb').trans hm) hexits'
  simp only [h.feeds_iff_lands hv'] at hmem'
  have hbefore := h.inStep hsup hlast (hasBlock_iff.mpr ⟨b, hb⟩) hlevel
  have hentry : ∀ {e}, e ∈ g.predecessors v → v ≠ g.entry := by
    rintro e he rfl
    obtain ⟨w, hw, -⟩ := hset.input_of_pred he
    rw [(h.exact.solved.entry_start hset).1] at hw
    cases hw
  have hcarried : ∀ {u p x y}, g.Feeds r v u → u.nameAt p = some x → g.Twin r keep r' x y →
      g.Carried r keep r' x y := fun hu hx htwin =>
    ⟨htwin, (h.exact.feeds_clean hu).plain _ _ hx, h.not_bornAt_exit_of_feeds hlast hu hx⟩
  refine ⟨vs, vs', hvs, hvs', fun x hx => ?_, fun y hy => ?_⟩
  · obtain ⟨u, p, z, hu, hxp, hzp, hne⟩ := (hmem x).mp hx
    obtain ⟨e, he, -⟩ := id hu
    obtain ⟨u', q, y, z', hu', hy, hz', hne', htwin⟩ :=
      h.renamed_forth hsup hb hset hlanded (hentry he) hbefore hm hkeep hu hxp hzp hne
    exact ⟨y, (hmem' y).mpr ⟨u', q, z', hu', hy, hz', hne'⟩, hcarried hu hxp htwin⟩
  · obtain ⟨u', q, z', hu', hyq, hzq, hne⟩ := (hmem' y).mp hy
    obtain ⟨e, he, -⟩ := id hu'
    obtain ⟨u, p, x, z, hu, hx, hz, hne', htwin⟩ :=
      h.renamed_back hsup hb hset hlanded (hentry he) hbefore hm hkeep hu' hyq hzq hne
    exact ⟨x, (hmem x).mpr ⟨u, p, z, hu, hx, hz, hne'⟩, hcarried hu hx htwin⟩

end Sliced
end Graph
end Backslice
