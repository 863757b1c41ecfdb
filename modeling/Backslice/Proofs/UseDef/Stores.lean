import Backslice.Proofs.Graph.Acyclic
import Backslice.Proofs.Provenance
import Backslice.Proofs.Slice.Needs

/-! # The stores behind what is known of memory

When the analysis has converged, what a state knows of memory has been put there on every way to it: by a store that is
listed for the slot and the name, or by a join point that has renamed the content of the slot. -/

namespace Backslice

set_option autoImplicit false

/-- An instruction leaves memory as it is, unless it is a store. -/
theorem Instr.Effect.memory_cases {sig : Signature} {c : Config} {i : Instr} {s t : State} (h : i.Effect sig c s t) :
    t.memory = s.memory ∨
      ∃ d value address rest, i = .data d ∧ d.op = .store ∧ s.stack = value :: address :: rest ∧
        t.memory = s.memory.insert (address, d.offset) value := by
  cases i with
  | data d => cases h with
    | store hop hs => exact Or.inr ⟨d, _, _, _, rfl, hop, hs, rfl⟩
    | _ => exact Or.inl rfl
  | control k => cases h <;> exact Or.inl rfl

namespace Graph

variable {g : Graph} {c : Config} {r : Run} {index : Int} {b : Block} {sites : StoreSites} {steps steps' : List Site}
  {s t : State} {k : Slot} {v w : Var}

/-! ## Steps that bind a slot -/

/-- The step has bound the slot `k` to `v`: it is a store that is listed for them, or the arrival at a join point that
has made the name `v` and leaves it in the slot. -/
def Binds (r : Run) (sites : StoreSites) (k : Slot) (v : Var) : Site → Prop
  | .instr i => (∃ d, i = .data d ∧ d.op = .store) ∧ i.label ∈ (sites.find? (k, v)).getD []
  | .join index => ∃ n t, v = .phi index n ∧ r.Exits index t ∧ t.memory.find? k = some v

/-- What the state knows of memory has been bound on the way. -/
def Backed (r : Run) (sites : StoreSites) (steps : List Site) (s : State) : Prop :=
  ∀ k v, s.memory.find? k = some v → ∃ site ∈ steps, Binds r sites k v site

theorem Binds.of_key_eq {site : Site} (h : Binds r sites k v site) (hvw : v.key = w.key) : Binds r sites k w site := by
  cases site with
  | instr i =>
    have hsame : ((k, v) == (k, w)) = true := Bool.and_eq_true_iff.mpr ⟨BEq.rfl, Var.beq_iff.mpr hvw⟩
    exact ⟨h.1, Table.find?_congr sites hsame ▸ h.2⟩
  | join index =>
    obtain ⟨n, t, rfl, ht, hk⟩ := h
    obtain rfl : .phi index n = w := by cases w <;> simp_all [Var.key]
    exact ⟨n, t, rfl, ht, hk⟩

theorem Backed.mono (h : Backed r sites steps s) (hsub : steps ⊆ steps') : Backed r sites steps' s := by
  intro k v hk
  obtain ⟨site, hsite, hbinds⟩ := h k v hk
  exact ⟨site, hsub hsite, hbinds⟩

theorem Backed.of_key (h : Backed r sites steps t) (hk : t.memory.find? k = some w) (hwv : w.key = v.key) :
    ∃ site ∈ steps, Binds r sites k v site := by
  obtain ⟨site, hsite, hbinds⟩ := h k w hk
  exact ⟨site, hsite, hbinds.of_key_eq hwv⟩

theorem Backed.of_beq (h : Backed r sites steps t) (hst : (s == t) = true) : Backed r sites steps s := by
  intro k v hk
  obtain ⟨w, hw, hwv⟩ := State.nameAt_of_beq (p := .memory k) hst hk
  exact h.of_key hw hwv

theorem backed_entryState (steps : List Site) : Backed r sites steps g.signature.entryState := by
  intro k v hk
  cases hk

/-! ## Instructions -/

theorem Backed.step (hl : g.DistinctLabels) (hsites : (g.withRun r).storeSites = .ok sites) {i : Instr}
    (hi : i ∈ g.instrs) (h : Backed r sites steps s) (heffect : i.Effect g.signature c s t)
    (hnote : r.instrs.find? i.label = some ⟨.known s, .known t⟩) : Backed r sites (steps ++ [.instr i]) t := by
  rcases heffect.memory_cases with hmemory | ⟨d, value, address, rest, rfl, hop, hstack, hmemory⟩
  · intro k v hk
    exact h.mono (List.subset_append_left ..) k v (hmemory ▸ hk)
  · intro k v hk
    rw [hmemory, Table.find?_insert] at hk
    split at hk
    · rename_i hsame
      obtain rfl := Option.some.inj hk
      refine ⟨.instr (.data d), by simp, ⟨d, rfl, hop⟩, ?_⟩
      have hstored : ((Instr.data d).annotate r.instrs).stored = .ok (some ((address, d.offset), value)) :=
        Instr.stored_of_store (d := { d with note := (r.instrs.find? d.label).or d.note })
          (Instr.requireNote_annotate hnote) hop hstack
      have hmem := mem_storeSites (hl.withRun r) hsites (mem_instrs_withRun.mpr ⟨_, hi, rfl⟩) hstored
      rw [Instr.label_annotate] at hmem
      have hslot : (((address, d.offset), value) == (k, value)) = true :=
        Bool.and_eq_true_iff.mpr ⟨hsame, BEq.rfl⟩
      rwa [Table.find?_congr sites hslot] at hmem
    · exact h.mono (List.subset_append_left ..) k v hk

theorem Backed.run (hl : g.DistinctLabels) (hsites : (g.withRun r).storeSites = .ok sites) {is : List Instr}
    (his : ∀ i ∈ is, i ∈ g.instrs) {notes : List (Label × Note)} (hnotes : ∀ e ∈ notes, r.instrs.find? e.1 = some e.2)
    (h : Backed r sites steps s) (hsteps : Steps g.signature c is s notes t) :
    Backed r sites (steps ++ is.map .instr) t := by
  induction hsteps generalizing steps with
  | nil => simpa using h
  | cons hi _ ih =>
    obtain ⟨hfirst, hrest⟩ := List.forall_mem_cons.mp his
    obtain ⟨hnote, htail⟩ := List.forall_mem_cons.mp hnotes
    simpa using ih hrest htail (h.step hl hsites hfirst hi hnote)

/-! ## Join points -/

/-- Behind a join point a slot has what the state on the way has there, or a name that the join point has made. -/
theorem Backed.starts (hg : g.Connected) {limit : Nat} (hr : g.solve c limit = .ok r) {inputs : List State}
    {notes : List (Label × Note)} (hset : g.Settled c r index b inputs s t notes)
    (hmerge : g.merge index b (inputs.map .known) = .ok (.known s)) {u : State} (hu : u ∈ inputs)
    (h : Backed r sites steps u) : Backed r sites (steps ++ if b.isMerge then [.join index] else []) s := by
  cases hm : b.isMerge with
  | false =>
    rcases eq_of_merge_ok hm hmerge with ⟨hnil, -⟩ | hone
    · rw [List.map_eq_nil_iff.mp hnil] at hu
      cases hu
    · obtain rfl : u = s := by
        have hmem : Flow.known u ∈ [Flow.known s] := hone ▸ List.mem_map_of_mem hu
        exact Flow.known.inj (List.mem_singleton.mp hmem)
      exact h.mono (List.subset_append_left ..)
  | true =>
    have hinputs := Flow.filterMap_known inputs
    have hwhole : ∀ x ∈ (inputs.map Flow.known).filterMap Flow.state?, x.Whole :=
      fun x hx => hset.whole_of_input hg hr (hinputs ▸ hx)
    have hne : (inputs.map Flow.known).filterMap Flow.state? ≠ [] := by
      rw [hinputs]
      exact List.ne_nil_of_mem hu
    intro k v hk
    rcases nameAt_merge_cases (p := .memory k) hm hne hwhole hmerge hk with
      ⟨⟨-, hcon⟩, -⟩ | ⟨-, hagree | ⟨-, n, -, hnew⟩⟩
    · cases hcon
    · rw [hinputs] at hagree
      obtain ⟨w, hw, hwv⟩ := hagree u hu
      exact (h.mono (List.subset_append_left ..)).of_key hw hwv
    · refine ⟨.join index, by simp, n, t, hnew, hset.exits, ?_⟩
      rw [← hset.exit_eq_start hm]
      exact hk

/-! ## Paths -/

/-- Along every path to a block what is known of memory at its start and at its end has been bound. -/
theorem backed_path (hg : g.Connected) (hl : g.DistinctLabels) {limit : Nat} (hr : g.solve c limit = .ok r)
    (hconv : r.converged = true) (hsites : (g.withRun r).storeSites = .ok sites) {p : List Int} (hp : g.Path p index)
    (hb : g.blocks.find? index = some b) {inputs : List State} {notes : List (Label × Note)}
    (hset : g.Settled c r index b inputs s t notes) (hmerge : g.merge index b (inputs.map .known) = .ok (.known s)) :
    Backed r sites (g.trace p ++ if b.isMerge then [.join index] else []) s ∧
      Backed r sites (g.trace p ++ b.sites index) t := by
  have h := solved_of_converged hg hl hr hconv
  have hrun : ∀ {p : List Int} {index : Int} {b : Block} {inputs s t notes}, g.blocks.find? index = some b →
      g.Settled c r index b inputs s t notes →
      Backed r sites (g.trace p ++ if b.isMerge then [.join index] else []) s →
      Backed r sites (g.trace p ++ b.sites index) t := by
    intro p index b inputs s t notes hb hset hs
    have ht := hs.run hl hsites (fun i hi => mem_instrs hb hi) hset.instrs hset.runs
    rwa [List.append_assoc, ← sites_eq] at ht
  suffices hs : Backed r sites (g.trace p ++ if b.isMerge then [.join index] else []) s from ⟨hs, hrun hb hset hs⟩
  -- Induction on the path: what the last block on it leaves is one of the states in front of this one.
  induction hp generalizing b inputs s t notes with
  | start =>
    rw [(h.entry_start hset).2]
    exact backed_entryState _
  | @edge p u e hp he ih =>
    obtain ⟨bᵤ, hbᵤ⟩ := hasBlock_iff.mp (hg.ends u e he).1
    obtain ⟨inputsᵤ, sᵤ, tᵤ, notesᵤ, hsetᵤ, hmergeᵤ⟩ := settled_merge_of_converged hg hl hr hconv hbᵤ
    obtain ⟨x, hx, t', ht', hxt⟩ := hset.input_of_pred ((hg.inverse u e.target e.cond).mp he)
    obtain rfl : tᵤ = t' := hsetᵤ.exits.unique ht'
    have hbacked : Backed r sites (g.trace (p ++ [u])) tᵤ := by
      rw [trace_append hbᵤ]
      exact hrun hbᵤ hsetᵤ (ih hbᵤ hsetᵤ hmergeᵤ)
    exact Backed.starts hg hr hset hmerge hx (hbacked.of_beq hxt)

/-! ## What is recorded of memory -/

/-- The stores of an analyzed graph can be listed, and on every path to a point each binding that is recorded there has
been made by a store that is listed for it, or by a join point that leaves it. In front of a join point the recorded
state is that of one predecessor only. -/
theorem memory_bindings_backed (hg : g.WellFormed) (hl : g.DistinctLabels) {limit : Nat}
    (hr : g.solve c limit = .ok r) (hconv : r.converged = true) :
    ∃ sites, (g.withRun r).storeSites = .ok sites ∧
      (∀ index b, g.blocks.find? index = some b → ∃ note, r.blocks.find? index = some note ∧
        ∀ p, g.Path p index →
          (∀ k v, note.after.state.memory.find? k = some v →
            ∃ site ∈ g.trace p ++ b.sites index, Binds r sites k v site) ∧
          (b.isMerge = false → ∀ k v, note.before.state.memory.find? k = some v →
            ∃ site ∈ g.trace p, Binds r sites k v site)) ∧
      ∀ index b pre i post, g.blocks.find? index = some b → b.instrs = pre ++ i :: post →
        ∃ note, r.instrs.find? i.label = some note ∧ ∀ p, g.Path p index →
          (∀ k v, note.before.state.memory.find? k = some v →
            ∃ site ∈ g.trace p ++ pre.map .instr, Binds r sites k v site) ∧
          ∀ k v, note.after.state.memory.find? k = some v →
            ∃ site ∈ g.trace p ++ (pre ++ [i]).map .instr, Binds r sites k v site := by
  have hg := hg.connected
  have h := solved_of_converged hg hl hr hconv
  obtain ⟨sites, hsites, -⟩ := storeSites_ok (hl.withRun r) fun i hi => h.stored_ok hi
  refine ⟨sites, hsites, fun index b hb => ?_, fun index b pre i post hb hi => ?_⟩
  · obtain ⟨inputs, s, t, notes, hset, hmerge⟩ := settled_merge_of_converged hg hl hr hconv hb
    obtain ⟨note, hnote, hafter⟩ := hset.exits
    refine ⟨note, hnote, fun p hp => ?_⟩
    obtain ⟨hs, ht⟩ := backed_path hg hl hr hconv hsites hp hb hset hmerge
    refine ⟨fun k v hk => ht k v (by rwa [hafter] at hk), fun hm k v hk => ?_⟩
    obtain ⟨note', hnote', hbefore⟩ := hset.before hm
    rw [hnote, Option.some.injEq] at hnote'
    rw [hnote', hbefore] at hk
    rw [hm, if_neg Bool.false_ne_true, List.append_nil] at hs
    exact hs k v hk
  · obtain ⟨inputs, s, t, notes, hset, hmerge⟩ := settled_merge_of_converged hg hl hr hconv hb
    have hruns := hset.runs
    rw [hi] at hruns
    obtain ⟨n₁, n₂, u, rfl, hpre, hpost⟩ := hruns.split
    cases hpost with
    | @cons _ _ _ w _ n₃ heffect hrest =>
      have hnote := hset.instrs (i.label, ⟨.known u, .known w⟩) (by simp)
      refine ⟨_, hnote, fun p hp => ?_⟩
      -- A block with instructions is no join point, so nothing is passed at its start.
      have hm : b.isMerge = false := by
        cases hbody : b.body <;> simp_all [Block.isMerge, Block.instrs]
      have hs := (backed_path hg hl hr hconv hsites hp hb hset hmerge).1
      rw [hm, if_neg Bool.false_ne_true, List.append_nil] at hs
      have hmem : ∀ j ∈ pre ++ i :: post, j ∈ g.instrs := fun j hj => mem_instrs hb (hi ▸ hj)
      have hu := hs.run hl hsites (fun j hj => hmem j (List.mem_append_left _ hj))
        (fun e he => hset.instrs e (List.mem_append_left _ he)) hpre
      have hw := hu.step hl hsites (hmem i (by simp)) heffect hnote
      refine ⟨hu, fun k v hk => ?_⟩
      simpa using hw k v hk

/-- Behind the join point of the two ways both slots have new names. -/
theorem memory_bindings_backed_twoWays : ∃ r sites note, (twoWays false).solve {} 20 = .ok r ∧ r.converged = true ∧
    ((twoWays false).withRun r).storeSites = .ok sites ∧ r.blocks.find? 4 = some note ∧
    note.after.state.memory.find? (.entryLocal 0, 4) = some (.phi 4 2) ∧
    ∀ p, (twoWays false).Path p 4 → ∀ k v, note.after.state.memory.find? k = some v →
      ∃ site ∈ (twoWays false).trace p ++ [.join 4], Binds r sites k v site := by
  have hrun : (do
      let r ← (twoWays false).solve {} 20
      return (r.converged, (r.blocks.find? 4).map fun note => note.after.state.memory.find? (.entryLocal 0, 4))) =
      Except.ok (true, some (some (.phi 4 2))) := by decide +kernel
  obtain ⟨r, hr, hrun⟩ := bind_eq_ok.mp hrun
  simp only [pure_eq_ok, Prod.mk.injEq] at hrun
  obtain ⟨sites, hsites, hblocks, -⟩ := memory_bindings_backed (twoWays_wellFormed false) (by decide) hr hrun.1
  obtain ⟨note, hnote, h⟩ := hblocks 4 { body := .merge } (by decide)
  refine ⟨r, sites, note, hr, hrun.1, hsites, hnote, ?_, fun p hp => (h p hp).1⟩
  simpa [hnote] using hrun.2

end Graph
end Backslice
