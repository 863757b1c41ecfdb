import Backslice.Proofs.Parametric
import Backslice.Proofs.Provenance
import Backslice.Proofs.Slice.Renaming

/-! # The order of the edges

The order in which the edges of a graph are listed decides in which order its blocks are visited, in which order the
states come in at a join point, and in which order a state lists its memory slots. In a graph without cycles only one
thing depends on it: the numbers of the new names that a join point puts into memory. -/

namespace Backslice

set_option autoImplicit false

/-! ## Graphs with fitting shapes -/

namespace Graph

variable {g : Graph} {c : Config} {start finish : Int → Part → Nat} {index : Int} {b : Block} {flows : List Flow}

/-- Shapes for the states at the start and at the end of each block, such that every block runs. -/
structure Fitting (g : Graph) (c : Config) (start finish : Int → Part → Nat) : Prop where
  entry : g.signature.entryState.partLength = start g.entry
  along : ∀ u e, e ∈ g.edges.leaving u → finish u = start e.target
  runs : ∀ index b, g.blocks.find? index = some b → ∀ s : State, s.partLength = start index →
    ∃ notes t, Steps g.signature c b.instrs s notes t ∧ t.partLength = finish index
  single : ∀ index b, g.blocks.find? index = some b → b.isMerge = false → (g.predecessors index).length ≤ 1

theorem Fitting.visit_ok (h : g.Fitting c start finish) (hb : g.blocks.find? index = some b)
    (hin : (flows = [] ∧ index = g.entry) ∨ flows.filterMap Flow.state? ≠ [])
    (hlength : b.isMerge = false → flows.length ≤ 1)
    (hshape : ∀ x ∈ flows.filterMap Flow.state?, x.partLength = start index) : ∃ v t,
      g.visit c index b flows = .ok v ∧ (∀ cond, v.outcome.along cond = .known t) ∧ t.partLength = finish index := by
  have hstart : ∃ s, g.merge index b flows = .ok (.known s) ∧ s.partLength = start index := by
    rcases hin with ⟨rfl, rfl⟩ | hne
    · exact ⟨_, merge_nil .., h.entry⟩
    · obtain ⟨s, hmerge, hs⟩ := starts_of_shape hne hlength hshape
      obtain ⟨x, hx⟩ := List.exists_mem_of_ne_nil _ hne
      exact ⟨s, hmerge, (hs.shape hx).symm.trans (hshape x hx)⟩
  obtain ⟨s, hmerge, hs⟩ := hstart
  obtain ⟨notes, t, hsteps, ht⟩ := h.runs index b hb s hs
  obtain ⟨v, hv⟩ := visit_succeeds hmerge hsteps
  obtain ⟨t', hfound⟩ := visit_found hmerge (hin.imp_left fun hnil => hnil.1) hv
  obtain ⟨-, rfl⟩ := hsteps.unique hfound.runs
  exact ⟨v, t, hv, hfound.along, ht⟩

end Graph

/-- What has left a block has the shape for its end. -/
structure Run.EndsWith (g : Graph) (finish : Int → Part → Nat) (r : Run) : Prop where
  underway : r.Underway g
  ends : ∀ u o cond t, r.outcomes.find? u = some o → o.along cond = .known t → t.partLength = finish u

namespace Graph

variable {g : Graph} {c : Config} {start finish : Int → Part → Nat} {index : Int} {b : Block}

theorem Fitting.step (h : g.Fitting c start finish) (hg : g.Connected) {r : Run} (hr : r.EndsWith g finish)
    {rest : List Int} (hp : r.pending = index :: rest) :
    ∃ r', r.step g c g.order index rest = .ok r' ∧ r'.EndsWith g finish := by
  obtain ⟨b, hb⟩ := hasBlock_iff.mp (hg.mem_order.mp (hr.underway.pending.subset (hp ▸ List.mem_cons_self ..)))
  have hlength : b.isMerge = false → (g.incoming r.outcomes index).length ≤ 1 := by
    intro hm
    rw [Graph.incoming, List.length_map]
    exact h.single index b hb hm
  have hshape : ∀ x ∈ (g.incoming r.outcomes index).filterMap Flow.state?, x.partLength = start index := by
    intro x hx
    obtain ⟨e, o, he, ho, hex⟩ := mem_incoming hx
    exact (hr.ends e.target o e.cond x ho hex).trans (h.along e.target _ ((hg.inverse _ _ _).mpr he))
  obtain ⟨v, t, hv, halong, ht⟩ := h.visit_ok hb (hr.underway.known_incoming hg hp) hlength hshape
  refine ⟨_, Run.step_eq_ok.mpr ⟨b, v, hb, hv, rfl⟩, hr.underway.record hg hp hv, fun u o cond t' ho ht' => ?_⟩
  by_cases hu : index = u
  · obtain rfl : v.outcome = o := by simpa [Run.record, hu] using ho
    rw [halong] at ht'
    rw [← Flow.known.inj ht', ht, hu]
  · exact hr.ends u o cond t' (by simpa [Run.record, hu] using ho) ht'

/-- With fitting shapes no visit fails. -/
theorem Fitting.solve_ok (h : g.Fitting c start finish) (hg : g.Connected) (limit : Nat) :
    ∃ r, g.solve c limit = .ok r := by
  have hzero : Run.EndsWith g finish { pending := g.order } := ⟨Run.underway_start g, fun _ _ _ _ ho => by cases ho⟩
  obtain ⟨r, hr, -⟩ := Run.advance_succeeds (Run.EndsWith g finish) (fun _ _ _ hr hp => h.step hg hr hp) limit hzero
  exact ⟨r, hr⟩

/-! ## Graphs that list the same edges -/

/-- Two graphs that differ at most in their names and in the order in which they list their edges. -/
structure Reordered (g g' : Graph) : Prop where
  built : g'.Built
  signature : g'.signature = g.signature
  blocks : g'.blocks = g.blocks
  entry : g'.entry = g.entry
  exit : g'.exit = g.exit
  leaving : ∀ u e, e ∈ g'.edges.leaving u ↔ e ∈ g.edges.leaving u

variable {g' : Graph} {r r' : Run}

theorem reordered_of_perm (sig : Signature) (blocks : List (Int × Block)) {arrows arrows' : List Arrow}
    (h : arrows.Perm arrows') (entry exit : Int) (name name' : String) (number number' : Int) :
    (ofArrows sig blocks arrows entry exit name number).Reordered
      (ofArrows sig blocks arrows' entry exit name' number') where
  built := ⟨_, _, _, _, _, _, _, rfl⟩
  signature := rfl
  blocks := rfl
  entry := rfl
  exit := rfl
  leaving u e := by
    simp only [ofArrows, mem_leaving_foldl_add, h.mem_iff]

namespace Reordered

theorem predecessors (h : g.Reordered g') (hg : g.Connected) (u : Int) (e : Edge) :
    e ∈ g'.predecessors u ↔ e ∈ g.predecessors u :=
  calc e ∈ g'.predecessors u ↔ ⟨u, e.cond⟩ ∈ g'.edges.leaving e.target := (h.built.inverse ..).symm
    _ ↔ ⟨u, e.cond⟩ ∈ g.edges.leaving e.target := h.leaving ..
    _ ↔ e ∈ g.predecessors u := hg.inverse ..

theorem hasBlock (h : g.Reordered g') (u : Int) : g'.hasBlock u = g.hasBlock u := by
  rw [Graph.hasBlock, h.blocks, Graph.hasBlock]

theorem path (h : g.Reordered g') {p : List Int} {u : Int} (hp : g.Path p u) : g'.Path p u := by
  unfold Path at hp ⊢
  rw [h.entry]
  induction hp with
  | start => exact .start
  | edge _ he ih => exact .edge ih ((h.leaving _ _).mpr he)

theorem wellFormed (h : g.Reordered g') (hg : g.WellFormed) : g'.WellFormed where
  built := h.built
  ends u e he := by
    rw [h.hasBlock, h.hasBlock]
    exact hg.ends u e ((h.leaving u e).mp he)
  entry_block := by
    rw [h.hasBlock, h.entry]
    exact hg.entry_block
  exit_block := by
    rw [h.hasBlock, h.exit]
    exact hg.exit_block
  entry_free := by
    refine List.eq_nil_iff_forall_not_mem.mpr fun e he => ?_
    rw [h.predecessors hg.connected, h.entry, hg.entry_free] at he
    cases he
  reachable u hu := by
    rw [h.hasBlock] at hu
    obtain ⟨p, hp⟩ := hg.reachable u hu
    exact ⟨p, h.path hp⟩

theorem distinctLabels (h : g.Reordered g') (hl : g.DistinctLabels) : g'.DistinctLabels := by
  unfold DistinctLabels instrs at hl ⊢
  rw [h.blocks]
  exact hl

theorem symm (h : g.Reordered g') (hg : g.Built) : g'.Reordered g :=
  ⟨hg, h.signature.symm, h.blocks.symm, h.entry.symm, h.exit.symm, fun u e => (h.leaving u e).symm⟩

end Reordered

/-- A solution has shapes that fit the graph, in whatever order it lists its edges. -/
theorem Solved.exists_fitting (h : g.Solved c r) (hre : g.Reordered g') :
    ∃ start finish, g'.Fitting c start finish := by
  have hshapes : ∀ index, ∃ shapes : (Part → Nat) × (Part → Nat), ∀ b, g.blocks.find? index = some b →
      ∃ inputs s t notes, g.Settled c r index b inputs s t notes ∧ s.partLength = shapes.1 ∧
        t.partLength = shapes.2 := by
    intro index
    cases hb : g.blocks.find? index with
    | none => exact ⟨⟨fun _ => 0, fun _ => 0⟩, fun b hb' => by cases hb'⟩
    | some b =>
      obtain ⟨inputs, s, t, notes, hset⟩ := h.settled index b hb
      refine ⟨⟨s.partLength, t.partLength⟩, fun b' hb' => ?_⟩
      cases hb'
      exact ⟨inputs, s, t, notes, hset, rfl, rfl⟩
  choose shapes hshapes using hshapes
  refine ⟨fun u => (shapes u).1, fun u => (shapes u).2, ?_, ?_, ?_, ?_⟩
  · obtain ⟨b, hb⟩ := hasBlock_iff.mp h.connected.entry_block
    obtain ⟨inputs, s, t, notes, hset, hs, -⟩ := hshapes g.entry b hb
    rw [hre.signature, hre.entry, ← hs, (h.entry_start hset).2]
  · intro u e he
    rw [hre.leaving] at he
    obtain ⟨bₑ, hbₑ⟩ := hasBlock_iff.mp (h.connected.ends u e he).2
    obtain ⟨inputs, s, t, notes, hset, hs, -⟩ := hshapes e.target bₑ hbₑ
    obtain ⟨bᵤ, _, _, tᵤ, _, hbᵤ, hsetᵤ, x, hx, hxt⟩ := h.input_along he hset
    obtain ⟨_, _, t', _, hset', -, ht'⟩ := hshapes u bᵤ hbᵤ
    obtain rfl := hset'.exits.unique hsetᵤ.exits
    calc (shapes u).2 = t'.partLength := ht'.symm
      _ = x.partLength := (State.partLength_of_beq hxt).symm
      _ = s.partLength := hset.starts.shape hx
      _ = (shapes e.target).1 := hs
  · intro index b hb s' hs'
    rw [hre.blocks] at hb
    obtain ⟨inputs, s, t, notes, hset, hs, ht⟩ := hshapes index b hb
    obtain ⟨notes', t', hsteps, ht'⟩ := hset.runs.exists_of_shape (hs'.trans hs.symm)
    exact ⟨notes', t', hre.signature ▸ hsteps, ht'.trans ht⟩
  · intro index b hb hm
    rw [hre.blocks] at hb
    refine length_le_one (Edges.nodup_predecessors hre.built index) fun e he e' he' => ?_
    rw [hre.predecessors h.connected] at he he'
    exact h.single_pred hb hm e he e' he'

end Graph

/-! ## States under a renaming -/

namespace Renaming

variable (ρ : Renaming)

theorem key_apply (v : Var) : (ρ.apply v).key = ρ.apply v.key := by
  induction v with
  | cell address offset ih => simp [apply, Var.key, ih]
  | _ => rfl

theorem apply_injective : Function.Injective ρ.apply := by
  intro v w h
  induction v generalizing w with
  | phi block n =>
    cases w <;> simp only [apply, reduceCtorEq, Var.phi.injEq] at h
    obtain ⟨rfl, hn⟩ := h
    rw [ρ.injective block hn]
  | cell address offset ih =>
    cases w <;> simp only [apply, reduceCtorEq, Var.cell.injEq] at h
    rw [ih h.1, h.2]
  | _ => cases w <;> simp_all [apply]

theorem key_apply_inj {v w : Var} : (ρ.apply v).key = (ρ.apply w).key ↔ v.key = w.key := by
  rw [key_apply, key_apply]
  exact ρ.apply_injective.eq_iff

end Renaming

namespace State

variable {ρ : Renaming} {s s' t t' : State} {inputs inputs' : List State} {p : Place} {v : Var}

/-- The states have the same names at all places up to the renaming, and on the stack, in the locals and in the globals
also without it. -/
structure Renamed (ρ : Renaming) (s s' : State) : Prop where
  names : ∀ p, (s.nameAt p).map (fun v => (ρ.apply v).key) = (s'.nameAt p).map Var.key
  cells : ∀ p, p.IsCell → (s.nameAt p).map Var.key = (s'.nameAt p).map Var.key

/-- Every state of the one list has a renamed one in the other. -/
structure RenamedAll (ρ : Renaming) (inputs inputs' : List State) : Prop where
  forth : ∀ u ∈ inputs, ∃ u' ∈ inputs', u.Renamed ρ u'
  back : ∀ u' ∈ inputs', ∃ u ∈ inputs, u.Renamed ρ u'

theorem Renamed.of_beq (h : t.Renamed ρ t') (hs : (s == t) = true) (hs' : (s' == t') = true) : s.Renamed ρ s' := by
  have hkeys := beq_iff_nameAt.mp hs
  have hkeys' := beq_iff_nameAt.mp hs'
  refine ⟨fun p => ?_, fun p hp => (hkeys p).trans ((h.cells p hp).trans (hkeys' p).symm)⟩
  have hnames : (s.nameAt p).map (fun v => (ρ.apply v).key) = (t.nameAt p).map fun v => (ρ.apply v).key := by
    simp only [ρ.key_apply]
    have hmap := congrArg (Option.map ρ.apply) (hkeys p)
    rwa [Option.map_map, Option.map_map] at hmap
  rw [hnames, h.names p, hkeys' p]

theorem Renamed.some_of_left (h : s.Renamed ρ s') (hv : s.nameAt p = some v) :
    ∃ w, s'.nameAt p = some w ∧ w.key = (ρ.apply v).key := by
  have hname := h.names p
  rw [hv] at hname
  exact Option.map_eq_some_iff.mp hname.symm

theorem Renamed.some_of_right (h : s.Renamed ρ s') (hv : s'.nameAt p = some v) :
    ∃ w, s.nameAt p = some w ∧ (ρ.apply w).key = v.key := by
  have hname := h.names p
  rw [hv] at hname
  exact Option.map_eq_some_iff.mp hname

namespace RenamedAll

theorem forall_iff (h : RenamedAll ρ inputs inputs') {P P' : State → Prop}
    (hP : ∀ u u', u.Renamed ρ u' → (P u ↔ P' u')) : (∀ u ∈ inputs, P u) ↔ ∀ u' ∈ inputs', P' u' := by
  constructor
  · intro hall u' hu'
    obtain ⟨u, hu, hrenamed⟩ := h.back u' hu'
    exact (hP u u' hrenamed).mp (hall u hu)
  · intro hall u hu
    obtain ⟨u', hu', hrenamed⟩ := h.forth u hu
    exact (hP u u' hrenamed).mpr (hall u' hu')

theorem bound (h : RenamedAll ρ inputs inputs') (p : Place) :
    (∀ s ∈ inputs, ∃ w, s.nameAt p = some w) ↔ ∀ s ∈ inputs', ∃ w, s.nameAt p = some w := by
  refine h.forall_iff fun u u' hrenamed => ⟨?_, ?_⟩
  · rintro ⟨w, hw⟩
    obtain ⟨w', hw', -⟩ := hrenamed.some_of_left hw
    exact ⟨w', hw'⟩
  · rintro ⟨w', hw'⟩
    obtain ⟨w, hw, -⟩ := hrenamed.some_of_right hw'
    exact ⟨w, hw⟩

theorem agree (h : RenamedAll ρ inputs inputs') (p : Place) (v : Var) :
    Agree inputs p v ↔ Agree inputs' p (ρ.apply v) := by
  refine h.forall_iff fun u u' hrenamed => ⟨?_, ?_⟩
  · rintro ⟨w, hw, hwv⟩
    obtain ⟨w', hw', hww'⟩ := hrenamed.some_of_left hw
    exact ⟨w', hw', hww'.trans (ρ.key_apply_inj.mpr hwv)⟩
  · rintro ⟨w', hw', hwv⟩
    obtain ⟨w, hw, hww'⟩ := hrenamed.some_of_right hw'
    exact ⟨w, hw, ρ.key_apply_inj.mp (hww'.trans hwv)⟩

theorem agree_cell (h : RenamedAll ρ inputs inputs') (hp : p.IsCell) (v : Var) :
    Agree inputs p v ↔ Agree inputs' p v := by
  refine h.forall_iff fun u u' hrenamed => ?_
  rw [← Option.map_eq_some_iff, hrenamed.cells p hp, Option.map_eq_some_iff]

theorem differ (h : RenamedAll ρ inputs inputs') (hne : inputs ≠ []) (hp : Differ inputs p) : Differ inputs' p := by
  refine ⟨(h.bound p).mp hp.1, fun v' hv' => ?_⟩
  obtain ⟨u, hu⟩ := List.exists_mem_of_ne_nil inputs hne
  obtain ⟨u', hu', hrenamed⟩ := h.forth u hu
  obtain ⟨w', hw', hwv'⟩ := hv' u' hu'
  obtain ⟨w, -, hww'⟩ := hrenamed.some_of_right hw'
  refine hp.2 w ((h.agree p w).mpr fun x hx => ?_)
  obtain ⟨y, hy, hyv'⟩ := hv' x hx
  exact ⟨y, hy, hyv'.trans (hwv'.symm.trans hww'.symm)⟩

end RenamedAll
end State

/-! ## Join points -/

namespace Graph

variable {g g' : Graph} {c : Config} {r r' : Run} {ρ : Renaming} {index : Int} {b : Block} {s s' t t' : State}
  {inputs inputs' : List State} {notes notes' : List (Label × Note)} {p : Place}

theorem names_compared (h : State.RenamedAll ρ inputs inputs') (hne : inputs ≠ []) (hne' : inputs' ≠ [])
    (hwhole : ∀ u ∈ inputs, u.Whole) (hwhole' : ∀ u ∈ inputs', u.Whole)
    (hnew : ∀ n m, (compared index inputs).nameAt p = some (.phi index n) →
      (compared index inputs').nameAt p = some (.phi index m) → ρ.number index n = m) :
    ((compared index inputs).nameAt p).map (fun v => (ρ.apply v).key) =
      ((compared index inputs').nameAt p).map Var.key := by
  by_cases hall : ∀ s ∈ inputs, ∃ w, s.nameAt p = some w
  · rcases State.agree_or_differ hall with ⟨v, hv⟩ | hdiffer
    · obtain ⟨w, hw, hwv⟩ := nameAt_compared_agree index hne hwhole hv
      obtain ⟨w', hw', hwv'⟩ := nameAt_compared_agree index hne' hwhole' ((h.agree p v).mp hv)
      rw [hw, hw', Option.map_some, Option.map_some, ρ.key_apply_inj.mpr hwv, hwv']
    · obtain ⟨n, -, hn⟩ := nameAt_compared_differ index hne hwhole hdiffer
      obtain ⟨m, -, hm⟩ := nameAt_compared_differ index hne' hwhole' (h.differ hne hdiffer)
      rw [hn, hm, ← hnew n m hn hm]
      rfl
  · rw [nameAt_compared_none hne hall, nameAt_compared_none hne' fun hcon => hall ((h.bound p).mpr hcon)]
    rfl

theorem cells_compared (index : Int) (h : State.RenamedAll ρ inputs inputs') (hne : inputs ≠ []) (hne' : inputs' ≠ [])
    (hwhole : ∀ u ∈ inputs, u.Whole) (hwhole' : ∀ u ∈ inputs', u.Whole) (hp : p.IsCell) :
    ((compared index inputs).nameAt p).map Var.key = ((compared index inputs').nameAt p).map Var.key :=
  compared_congr index hne hne' hwhole hwhole' (fun q _ => h.bound q) (fun _ v hq => h.agree_cell hq v) hp

/-- From renamed states a join makes renamed states, if the renaming takes new names to those at the same places. -/
theorem renamed_merge (hexit : g'.exit = g.exit) (hm : b.isMerge = true) (h : State.RenamedAll ρ inputs inputs')
    (hne : inputs ≠ []) (hne' : inputs' ≠ []) (hwhole : ∀ u ∈ inputs, u.Whole) (hwhole' : ∀ u ∈ inputs', u.Whole)
    (hmerge : g.merge index b (inputs.map .known) = .ok (.known s))
    (hmerge' : g'.merge index b (inputs'.map .known) = .ok (.known s'))
    (hnew : ∀ p n m, s.nameAt p = some (.phi index n) → s'.nameAt p = some (.phi index m) → ρ.number index n = m) :
    s.Renamed ρ s' := by
  have hinputs := Flow.filterMap_known inputs
  have hinputs' := Flow.filterMap_known inputs'
  have hname := nameAt_merge (g := g) hm (hinputs.symm ▸ hne) (hinputs.symm ▸ hwhole) hmerge
  have hname' := nameAt_merge (g := g') hm (hinputs'.symm ▸ hne') (hinputs'.symm ▸ hwhole') hmerge'
  rw [hinputs] at hname
  rw [hinputs', hexit] at hname'
  have hmarked : ∀ {x x' : Option Var}, x.map Var.key = x'.map Var.key →
      x.map (fun _ => Var.returned) = x'.map fun _ => Var.returned := by
    intro x x' heq
    cases x <;> cases x' <;> simp_all
  refine ⟨fun p => ?_, fun p hp => ?_⟩
  · by_cases hmark : g.exit = index ∧ p = .stack 0
    · have hcell := hmarked (cells_compared index h hne hne' hwhole hwhole' (p := p) (hmark.2 ▸ trivial))
      rw [hname, hname', if_pos hmark, if_pos hmark, Option.map_map, ← hcell, Option.map_map]
      rfl
    · have hs : s.nameAt p = _ := (hname p).trans (if_neg hmark)
      have hs' : s'.nameAt p = _ := (hname' p).trans (if_neg hmark)
      rw [hs, hs']
      exact names_compared h hne hne' hwhole hwhole' fun n m hn hm' => hnew p n m (hs.trans hn) (hs'.trans hm')
  · have hcell := cells_compared index h hne hne' hwhole hwhole' hp
    rw [hname, hname']
    split
    · rw [hmarked hcell]
    · exact hcell

end Graph

/-! ## Instructions -/

section
variable {ρ : Renaming} {sig : Signature} {c : Config} {is : List Instr} {s t s' t' : State}
  {notes notes' : List (Label × Note)}

/-- The two names are the same, and the renaming leaves them as they are. -/
def Renaming.Fixes (ρ : Renaming) (v w : Var) : Prop := v.key = w.key ∧ (ρ.apply v).key = w.key

/-- The memories know the same slots, and the renaming takes what the one knows to what the other does. -/
def Renaming.Takes (ρ : Renaming) (m m' : Memory) : Prop :=
  ∀ k, (m.find? k).map (fun v => (ρ.apply v).key) = (m'.find? k).map Var.key

theorem Instr.Makes.fixed {i : Instr} {v : Var} (h : i.Makes v) (ρ : Renaming) : ρ.Fixes v v := by
  refine ⟨rfl, ?_⟩
  rcases h with rfl | ⟨d, -, -, hv⟩
  · rfl
  · rw [Var.beq_iff] at hv
    cases v <;> simp_all [Var.key, Renaming.apply]

theorem Renaming.Takes.insert {m m' : Memory} {a a' v v' : Var} (h : ρ.Takes m m') (offset : Int) (ha : ρ.Fixes a a')
    (hv : ρ.Fixes v v') : ρ.Takes (m.insert (a, offset) v) (m'.insert (a', offset) v') := by
  intro k
  have hslot : ((a, offset) == k) = ((a', offset) == k) := by
    have hkey : Slot.key (a, offset) = Slot.key (a', offset) := Prod.ext ha.1 rfl
    rw [Bool.eq_iff_iff, Slot.beq_iff, Slot.beq_iff, hkey]
  rw [Table.find?_insert, Table.find?_insert, hslot]
  split
  · exact congrArg some hv.2
  · exact h k

namespace State

theorem renamed_iff_related : s.Renamed ρ s' ↔ s.Related ρ.Fixes ρ.Takes s' := by
  have hlist : ∀ {l l' : List Var}, (∀ k : Nat, l[k]?.map (fun v => (ρ.apply v).key) = l'[k]?.map Var.key) →
      (∀ k : Nat, l[k]?.map Var.key = l'[k]?.map Var.key) → List.Forall₂ ρ.Fixes l l' := by
    intro l l' hnames hkeys
    have hlength : l.length = l'.length := by
      have hmap : l.map Var.key = l'.map Var.key :=
        List.ext_getElem? fun k => by rw [List.getElem?_map, List.getElem?_map, hkeys]
      simpa using congrArg List.length hmap
    refine List.forall₂_iff_get.mpr ⟨hlength, fun k hk hk' => ⟨?_, ?_⟩⟩
    · simpa [List.getElem?_eq_getElem, hk, hk'] using hkeys k
    · simpa [List.getElem?_eq_getElem, hk, hk'] using hnames k
  constructor
  · intro h
    refine ⟨⟨?_, ?_, ?_⟩, fun k => h.names (.memory k)⟩
    · exact hlist (fun k => h.names (.stack k)) fun k => h.cells (.stack k) trivial
    · exact hlist (fun k => h.names (.locals k)) fun k => h.cells (.locals k) trivial
    · exact hlist (fun k => h.names (.globals k)) fun k => h.cells (.globals k) trivial
  · rintro ⟨⟨hstack, hlocals, hglobals⟩, hmemory⟩
    refine ⟨fun p => ?_, fun p hp => ?_⟩
    · cases p with
      | stack k => exact forall₂_map_getElem? (fun _ _ hab => hab.2) hstack k
      | locals k => exact forall₂_map_getElem? (fun _ _ hab => hab.2) hlocals k
      | globals k => exact forall₂_map_getElem? (fun _ _ hab => hab.2) hglobals k
      | memory k => exact hmemory k
    · cases p with
      | stack k => exact forall₂_map_getElem? (fun _ _ hab => hab.1) hstack k
      | locals k => exact forall₂_map_getElem? (fun _ _ hab => hab.1) hlocals k
      | globals k => exact forall₂_map_getElem? (fun _ _ hab => hab.1) hglobals k
      | memory k => cases hp

end State

/-- Two annotations with renamed states, before and after. -/
def Note.Renamed (ρ : Renaming) (a a' : Note) : Prop :=
  ∃ s t s' t', a = ⟨.known s, .known t⟩ ∧ a' = ⟨.known s', .known t'⟩ ∧ s.Renamed ρ s' ∧ t.Renamed ρ t'

theorem Steps.renamed (h : Steps sig c is s notes t) (h' : Steps sig c is s' notes' t') (hs : s.Renamed ρ s') :
    t.Renamed ρ t' ∧ List.Forall₂ (fun e e' => e.1 = e'.1 ∧ e.2.Renamed ρ e'.2) notes notes' := by
  obtain ⟨ht, hnotes⟩ := h.related (fun _ _ _ _ _ _ offset hm ha hv => hm.insert offset ha hv)
    (fun i _ v hv => Instr.Makes.fixed hv ρ) h' (State.renamed_iff_related.mp hs)
  refine ⟨State.renamed_iff_related.mpr ht, hnotes.imp ?_⟩
  rintro e e' ⟨hlabel, x, y, x', y', he, he', hx, hy⟩
  exact ⟨hlabel, x, y, x', y', he, he', State.renamed_iff_related.mpr hx, State.renamed_iff_related.mpr hy⟩

end

/-! ## Two solutions -/

namespace Graph

variable {g g' : Graph} {c : Config} {r r' : Run} {ρ : Renaming} {index : Int} {b : Block} {s s' t t' : State}
  {inputs inputs' : List State} {notes notes' : List (Label × Note)} {p : Place}

/-- What a join point makes stands at one place behind it. -/
theorem Solved.key_eq_of_phi (h : g.Solved c r) (hb : g.blocks.find? index = some b) (hm : b.isMerge = true)
    (ht : r.Exits index t) {q : Place} {n : Int} (hp : t.nameAt p = some (.phi index n))
    (hq : t.nameAt q = some (.phi index n)) : p.key = q.key := by
  obtain ⟨inputs, s, t', notes, hset⟩ := h.settled index b hb
  obtain rfl := hset.exit_eq_start hm
  obtain rfl := hset.exits.unique ht
  have hborn : g.BornAt index (.phi index n) := Or.inl ⟨n, rfl⟩
  by_cases hne : inputs = []
  · have hstarts := hset.starts
    rw [hne] at hstarts
    cases hstarts with
    | entry =>
      have hpassed := covers_entryState _ (State.mentions_of_nameAt hp)
      exact absurd hpassed (not_passed_of_bornAt (p := []) List.not_mem_nil hborn)
    | join hne' => exact absurd rfl hne'
  · obtain ⟨u, hu, hfresh⟩ := h.exists_fresh_input hb hset hne
    cases hset.starts with
    | entry => exact absurd rfl hne
    | join _ hjoined _ =>
      exact (hjoined.distinct p q _ hp hq ⟨hm, hborn⟩).resolve_right fun hall => hfresh _ hborn (hall u hu)

/-- Two numbers that a join point gives to one place, in one run and in the other. -/
def Matched (g : Graph) (r r' : Run) (index n m : Int) : Prop :=
  (∃ b, g.blocks.find? index = some b ∧ b.isMerge = true) ∧ ∃ t t' p, r.Exits index t ∧ r'.Exits index t' ∧
    t.nameAt p = some (.phi index n) ∧ t'.nameAt p = some (.phi index m)

theorem exists_renaming_of_matched (hre : g.Reordered g') (h : g.Solved c r) (h' : g'.Solved c r') :
    ∃ ρ : Renaming, (∀ block, Function.Bijective (ρ.number block)) ∧
      ∀ index n m, g.Matched r r' index n m → ρ.number index n = m := by
  have hblock : ∀ index, ∃ π : Equiv.Perm Int, ∀ n m, g.Matched r r' index n m → π n = m := by
    intro index
    refine exists_perm_of_finite ?_ ?_ ?_
    · refine (r.finite_numbers index).subset ?_
      rintro n ⟨m, -, t, t', p, ht, -, hp, -⟩
      exact ⟨t, p, ht, hp⟩
    · rintro n m m' ⟨⟨b, hb, hm⟩, t, t', p, ht, ht', hp, hp'⟩ ⟨-, t₁, t₁', q, ht₁, ht₁', hq, hq'⟩
      obtain rfl := ht.unique ht₁
      obtain rfl := ht'.unique ht₁'
      rw [t'.nameAt_of_key_eq (h.key_eq_of_phi hb hm ht hp hq), hq', Option.some.injEq] at hp'
      exact (Var.phi.inj hp').2.symm
    · rintro n n' m ⟨⟨b, hb, hm⟩, t, t', p, ht, ht', hp, hp'⟩ ⟨-, t₁, t₁', q, ht₁, ht₁', hq, hq'⟩
      obtain rfl := ht.unique ht₁
      obtain rfl := ht'.unique ht₁'
      rw [t.nameAt_of_key_eq (h'.key_eq_of_phi (hre.blocks ▸ hb) hm ht' hp' hq'), hq, Option.some.injEq] at hp
      exact (Var.phi.inj hp).2.symm
  choose π hπ using hblock
  exact ⟨⟨fun index => π index, fun index => (π index).injective⟩, fun index => (π index).bijective, hπ⟩

/-- The block has settled, and it starts from what the join makes of states in which no place waits for a name. -/
structure Rests (g : Graph) (c : Config) (r : Run) (index : Int) (b : Block) (inputs : List State) (s t : State)
    (notes : List (Label × Note)) : Prop where
  settled : g.Settled c r index b inputs s t notes
  merge : g.merge index b (inputs.map .known) = .ok (.known s)
  whole : ∀ u ∈ inputs, u.Whole

theorem exists_rests (hg : g.Connected) (hl : g.DistinctLabels) {limit : Nat} (hr : g.solve c limit = .ok r)
    (hconv : r.converged = true) (hb : g.blocks.find? index = some b) :
    ∃ inputs s t notes, g.Rests c r index b inputs s t notes := by
  obtain ⟨inputs, s, t, notes, hset, hmerge⟩ := settled_merge_of_converged hg hl hr hconv hb
  exact ⟨inputs, s, t, notes, hset, hmerge, fun u hu => hset.whole_of_input hg hr hu⟩

theorem renamed_entryState (ρ : Renaming) (sig : Signature) : sig.entryState.Renamed ρ sig.entryState := by
  refine ⟨fun p => Option.map_congr fun v hv => ?_, fun _ _ => rfl⟩
  obtain ⟨k, ⟨-, rfl⟩ | ⟨-, rfl⟩⟩ := State.nameAt_entry hv <;> rfl

/-- A block that starts from renamed states leaves renamed states. -/
theorem Rests.renamed (hre : g.Reordered g') (h : g.Rests c r index b inputs s t notes)
    (h' : g'.Rests c r' index b inputs' s' t' notes') (hb : g.blocks.find? index = some b)
    (hmatched : ∀ n m, g.Matched r r' index n m → ρ.number index n = m) (hin : State.RenamedAll ρ inputs inputs') :
    t.Renamed ρ t' ∧ List.Forall₂ (fun e e' => e.1 = e'.1 ∧ e.2.Renamed ρ e'.2) notes notes' := by
  have hempty : inputs = [] ↔ inputs' = [] := by
    constructor
    · rintro rfl
      refine List.eq_nil_iff_forall_not_mem.mpr fun u' hu' => ?_
      obtain ⟨u, hu, -⟩ := hin.back u' hu'
      cases hu
    · rintro rfl
      refine List.eq_nil_iff_forall_not_mem.mpr fun u hu => ?_
      obtain ⟨u', hu', -⟩ := hin.forth u hu
      cases hu'
  have hstart : s.Renamed ρ s' := by
    cases h.settled.starts with
    | entry => cases h'.settled.starts with
      | entry => exact hre.signature ▸ renamed_entryState ρ g.signature
      | join hne' => exact absurd (hempty.mp rfl) hne'
    | join hne _ hone =>
      have hne' : inputs' ≠ [] := fun hcon => hne (hempty.mpr hcon)
      cases hm : b.isMerge with
      | true =>
        refine renamed_merge hre.exit hm hin hne hne' h.whole h'.whole h.merge h'.merge fun p n m hn hm' => ?_
        refine hmatched n m ⟨⟨b, hb, hm⟩, t, t', p, h.settled.exits, h'.settled.exits, ?_, ?_⟩
        · exact h.settled.exit_eq_start hm ▸ hn
        · exact h'.settled.exit_eq_start hm ▸ hm'
      | false =>
        obtain rfl := hone hm
        cases h'.settled.starts with
        | entry => exact absurd rfl hne'
        | join _ _ hone' =>
          obtain rfl := hone' hm
          obtain ⟨u', hu', hrenamed⟩ := hin.forth s (List.mem_singleton_self s)
          exact List.mem_singleton.mp hu' ▸ hrenamed
  exact h.settled.runs.renamed (hre.signature ▸ h'.settled.runs) hstart

/-- What comes into a block is renamed if what its predecessors leave is. -/
theorem Settled.renamedAll (hg : g.Connected) (hre : g.Reordered g') (h : g.Settled c r index b inputs s t notes)
    (h' : g'.Settled c r' index b inputs' s' t' notes')
    (hexits : ∀ e ∈ g.predecessors index, ∀ t t', r.Exits e.target t → r'.Exits e.target t' → t.Renamed ρ t') :
    State.RenamedAll ρ inputs inputs' := by
  constructor
  · intro u hu
    obtain ⟨e, he, x, hx, hux⟩ := h.pred_of_input hu
    obtain ⟨u', hu', x', hx', hux'⟩ := h'.input_of_pred ((hre.predecessors hg index e).mpr he)
    exact ⟨u', hu', (hexits e he x x' hx hx').of_beq hux hux'⟩
  · intro u' hu'
    obtain ⟨e, he, x', hx', hux'⟩ := h'.pred_of_input hu'
    have he' := (hre.predecessors hg index e).mp he
    obtain ⟨u, hu, x, hx, hux⟩ := h.input_of_pred he'
    exact ⟨u, hu, (hexits e he' x x' hx hx').of_beq hux hux'⟩

/-- What two runs record for a block is the same up to the renaming. -/
def RenamedAt (r r' : Run) (ρ : Renaming) (index : Int) (b : Block) : Prop :=
  (∃ t t', r.Exits index t ∧ r'.Exits index t' ∧ t.Renamed ρ t') ∧
    ∀ i ∈ b.instrs, ∃ note note', r.instrs.find? i.label = some note ∧ r'.instrs.find? i.label = some note' ∧
      note.Renamed ρ note'

theorem Acyclic.renamedAt (hacyclic : g.Acyclic) (hg : g.Connected) (hre : g.Reordered g')
    (hrests : ∀ index b, g.blocks.find? index = some b → ∃ inputs s t notes, g.Rests c r index b inputs s t notes)
    (hrests' : ∀ index b, g'.blocks.find? index = some b → ∃ inputs s t notes, g'.Rests c r' index b inputs s t notes)
    (hmatched : ∀ index n m, g.Matched r r' index n m → ρ.number index n = m)
    (hb : g.blocks.find? index = some b) : RenamedAt r r' ρ index b := by
  suffices hall : ∀ b, g.blocks.find? index = some b → RenamedAt r r' ρ index b from hall b hb
  refine hacyclic.induction (P := fun v => ∀ b, g.blocks.find? v = some b → RenamedAt r r' ρ v b) hg
    (fun v _ ih b hb => ?_) (hasBlock_iff.mpr ⟨b, hb⟩)
  obtain ⟨inputs, s, t, notes, h⟩ := hrests v b hb
  obtain ⟨inputs', s', t', notes', h'⟩ := hrests' v b (hre.blocks ▸ hb)
  have hin : State.RenamedAll ρ inputs inputs' := by
    refine h.settled.renamedAll hg hre h'.settled fun e he x x' hx hx' => ?_
    have hbefore := hg.before_of_predecessor he
    obtain ⟨bₑ, hbₑ⟩ := hasBlock_iff.mp (hg.hasBlock_of_before hbefore)
    obtain ⟨⟨y, y', hy, hy', hrenamed⟩, -⟩ := ih e.target hbefore bₑ hbₑ
    exact hx.unique hy ▸ hx'.unique hy' ▸ hrenamed
  obtain ⟨ht, hnotes⟩ := h.renamed hre h' hb (hmatched v) hin
  refine ⟨⟨t, t', h.settled.exits, h'.settled.exits, ht⟩, fun i hi => ?_⟩
  have hlabel : i.label ∈ notes.map (·.1) := h.settled.runs.labels ▸ List.mem_map_of_mem hi
  obtain ⟨e, he, hei⟩ := List.mem_map.mp hlabel
  obtain ⟨e', he', hee', hrenamed⟩ := exists_of_forall₂ hnotes he
  refine ⟨e.2, e'.2, hei ▸ h.settled.instrs e he, ?_, hrenamed⟩
  rw [← hei, hee']
  exact h'.settled.instrs e' he'

end Graph

/-! ## The order of the edges does not matter -/

/-- The stacks, the locals and the globals are equal, the memories know the same slots, and what they know of a slot is
equal up to the renaming. -/
structure State.EqualUpTo (ρ : Renaming) (s s' : State) : Prop where
  stack : (s.stack == s'.stack) = true
  locals : (s.locals == s'.locals) = true
  globals : (s.globals == s'.globals) = true
  memory : ∀ k, (s.memory.find? k).map (fun v => (ρ.apply v).key) = (s'.memory.find? k).map Var.key

theorem State.Renamed.equalUpTo {ρ : Renaming} {s s' : State} (h : s.Renamed ρ s') : s.EqualUpTo ρ s' := by
  have hlist : ∀ {l l' : List Var}, (∀ k : Nat, l[k]?.map Var.key = l'[k]?.map Var.key) → (l == l') = true :=
    fun hkeys => Var.list_beq_iff.mpr (List.ext_getElem? fun k => by rw [List.getElem?_map, List.getElem?_map, hkeys])
  refine ⟨?_, ?_, ?_, fun k => h.names (.memory k)⟩
  · exact hlist fun k => h.cells (.stack k) trivial
  · exact hlist fun k => h.cells (.locals k) trivial
  · exact hlist fun k => h.cells (.globals k) trivial

namespace Graph

variable {g g' : Graph} {c : Config}

/-- In a graph without cycles the analysis fails for one order of the edges if and only if it fails for the other. If it
succeeds, the two runs record equal states after every block and around every instruction, up to one renaming of what
memory holds of the names of each join point. -/
theorem arrow_order_irrelevant {sig : Signature} {blocks : List (Int × Block)} {arrows arrows' : List Arrow}
    {entry exit : Int} {name name' : String} {number number' : Int} (hperm : arrows.Perm arrows')
    (hgraph : g = ofArrows sig blocks arrows entry exit name number)
    (hgraph' : g' = ofArrows sig blocks arrows' entry exit name' number') (hg : g.WellFormed) (hl : g.DistinctLabels)
    (hacyclic : g.Acyclic) {limit limit' : Nat} (hstop : ∀ r, g.solve c limit = .ok r → r.converged = true)
    (hstop' : ∀ r', g'.solve c limit' = .ok r' → r'.converged = true) :
    ((∃ e, g.solve c limit = .error e) ↔ ∃ e, g'.solve c limit' = .error e) ∧
      ∀ r r', g.solve c limit = .ok r → g'.solve c limit' = .ok r' →
        ∃ ρ : Renaming, (∀ block, Function.Bijective (ρ.number block)) ∧
          (∀ index, g.hasBlock index = true →
            ∃ t t', r.Exits index t ∧ r'.Exits index t' ∧ t.EqualUpTo ρ t') ∧
          ∀ i ∈ g.instrs, ∃ s t s' t', r.instrs.find? i.label = some ⟨.known s, .known t⟩ ∧
            r'.instrs.find? i.label = some ⟨.known s', .known t'⟩ ∧ s.EqualUpTo ρ s' ∧ t.EqualUpTo ρ t' := by
  have hre : g.Reordered g' := by
    rw [hgraph, hgraph']
    exact reordered_of_perm sig blocks hperm entry exit name name' number number'
  have hg' := hre.wellFormed hg
  have hl' := hre.distinctLabels hl
  refine ⟨⟨?_, ?_⟩, fun r r' hr hr' => ?_⟩
  · rintro ⟨e, he⟩
    cases hr' : g'.solve c limit' with
    | error e' => exact ⟨e', rfl⟩
    | ok r' =>
      have h' := solved_of_converged hg'.connected hl' hr' (hstop' r' hr')
      obtain ⟨start, finish, hfitting⟩ := h'.exists_fitting (hre.symm hg.built)
      obtain ⟨r, hr⟩ := hfitting.solve_ok hg.connected limit
      cases he.symm.trans hr
  · rintro ⟨e, he⟩
    cases hr : g.solve c limit with
    | error e' => exact ⟨e', rfl⟩
    | ok r =>
      have h := solved_of_converged hg.connected hl hr (hstop r hr)
      obtain ⟨start, finish, hfitting⟩ := h.exists_fitting hre
      obtain ⟨r', hr'⟩ := hfitting.solve_ok hg'.connected limit'
      cases he.symm.trans hr'
  · have hconv := hstop r hr
    have hconv' := hstop' r' hr'
    obtain ⟨ρ, hbijective, hmatched⟩ := exists_renaming_of_matched hre
      (solved_of_converged hg.connected hl hr hconv) (solved_of_converged hg'.connected hl' hr' hconv')
    have hat : ∀ index b, g.blocks.find? index = some b → RenamedAt r r' ρ index b :=
      fun index b hb => hacyclic.renamedAt hg.connected hre (fun _ _ => exists_rests hg.connected hl hr hconv)
        (fun _ _ => exists_rests hg'.connected hl' hr' hconv') hmatched hb
    refine ⟨ρ, hbijective, fun index hindex => ?_, fun i hi => ?_⟩
    · obtain ⟨b, hb⟩ := hasBlock_iff.mp hindex
      obtain ⟨⟨t, t', ht, ht', hrenamed⟩, -⟩ := hat index b hb
      exact ⟨t, t', ht, ht', hrenamed.equalUpTo⟩
    · obtain ⟨index, b, hb, hib⟩ := exists_block_of_mem_instrs hi
      obtain ⟨-, -, hnote, hnote', s, t, s', t', rfl, rfl, hs, ht⟩ := (hat index b hb).2 i hib
      exact ⟨s, t, s', t', hnote, hnote', hs.equalUpTo, ht.equalUpTo⟩

/-- Two ways that write two slots in opposite order. The join point behind them numbers the slots in the order of the
way that is listed first. -/
theorem arrow_order_irrelevant_twoWays : ∃ r r', (twoWays false).solve {} 20 = .ok r ∧ r.converged = true ∧
    (twoWays true).solve {} 20 = .ok r' ∧ r'.converged = true ∧ ∃ ρ : Renaming, ρ.number 4 1 = 2 ∧ ρ.number 4 2 = 1 ∧
      ∃ t t', r.Exits 4 t ∧ r'.Exits 4 t' ∧ t.EqualUpTo ρ t' := by
  obtain ⟨r, hr, hconv⟩ := converges_iff.mp (show (twoWays false).converges {} 20 = true by decide +kernel)
  obtain ⟨r', hr', hconv'⟩ := converges_iff.mp (show (twoWays true).converges {} 20 = true by decide +kernel)
  obtain ⟨ρ, -, hblocks, -⟩ := (arrow_order_irrelevant (List.reverse_perm twoWaysArrows).symm rfl rfl
    (twoWays_wellFormed false) (by decide) (twoWays_acyclic false)
    (fun x hx => Except.ok.inj (hr.symm.trans hx) ▸ hconv)
    fun x hx => Except.ok.inj (hr'.symm.trans hx) ▸ hconv').2 r r' hr hr'
  obtain ⟨t, t', ht, ht', hequal⟩ := hblocks 4 (by decide)
  have hslots : ∀ {swapped x t}, (twoWays swapped).solve {} 20 = .ok x → x.Exits 4 t →
      t.memory.find? (.entryLocal 0, 0) = some (.phi 4 (if swapped then 2 else 1)) ∧
        t.memory.find? (.entryLocal 0, 4) = some (.phi 4 (if swapped then 1 else 2)) := by
    rintro swapped x t hx ⟨note, hnote, hafter⟩
    have hrun : (do
        let x ← (twoWays swapped).solve {} 20
        return (x.blocks.find? 4).map fun note =>
          (note.after.state.memory.find? (.entryLocal 0, 0), note.after.state.memory.find? (.entryLocal 0, 4))) =
        Except.ok (some (some (.phi 4 (if swapped then 2 else 1)), some (.phi 4 (if swapped then 1 else 2)))) := by
      cases swapped <;> decide +kernel
    rw [hx, ok_bind, hnote, pure_eq_ok, Option.map_some, Option.some.injEq, hafter, Prod.mk.injEq] at hrun
    exact hrun
  have hnumbers : ∀ {k n m}, t.memory.find? k = some (.phi 4 n) → t'.memory.find? k = some (.phi 4 m) →
      ρ.number 4 n = m := by
    intro k n m hn hm
    have hk := hequal.memory k
    rw [hn, hm] at hk
    exact (Var.phi.inj (Option.some.inj hk)).2
  obtain ⟨hfirst, hsecond⟩ := hslots hr ht
  obtain ⟨hfirst', hsecond'⟩ := hslots hr' ht'
  exact ⟨r, r', hr, hconv, hr', hconv', ρ, hnumbers hfirst hfirst', hnumbers hsecond hsecond', t, t', ht, ht', hequal⟩

end Graph
end Backslice
