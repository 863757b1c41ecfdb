import Backslice.Proofs.Bare
import Backslice.Proofs.Slice.Criterion

/-! # What kept labels need

A kept instruction or join point needs the names that it uses, and what makes them is kept with it. For a memory slot
that a kept join point renames the stores that may have bound it are kept as well. -/

namespace Backslice

set_option autoImplicit false

namespace Dependences

theorem useDef_of_ofGraph {g : Graph} {d : Dependences} {control : Option BlockDeps}
    (h : ofGraph g none control = .ok d) : ∃ t, g.useDef = .ok (t, d.chains) := by
  obtain ⟨useDef, huseDef, h⟩ := bind_eq_ok.mp h
  obtain ⟨chains, hchains, h⟩ := bind_eq_ok.mp h
  obtain ⟨stores, -, h⟩ := bind_eq_ok.mp h
  cases pure_eq_ok.mp h
  exact ⟨useDef.1, by rw [huseDef, ← pure_eq_ok.mp hchains]⟩

end Dependences

namespace Graph

variable {g : Graph} {r : Run} {index : Int} {b : Block} {inputs : List State} {s t : State}
  {notes : List (Label × Note)}

/-! ## Uses of join points -/

theorem Settled.mergeNote_ok {c : Config} (hset : g.Settled c r index b inputs s t notes) :
    ∃ note, mergeNote index (b.withRun r index) = .ok note ∧ note.after.state = t := by
  obtain ⟨note, hnote, hafter⟩ := hset.exits
  refine ⟨note, ?_, by rw [hafter]; rfl⟩
  rw [mergeNote, note_withRun hnote]
  rfl

namespace Exact

/-- The states that a join point renames are those that its predecessors leave, place by place. -/
theorem mergeSources_ok (h : g.Exact r) (hset : g.Settled .bare r index b inputs s t notes) (hm : b.isMerge = true) :
    ∃ sources, (g.withRun r).mergeSources index (b.withRun r index) = .ok sources ∧
      (∀ a ∈ sources, (∃ u, g.Feeds r index u ∧ ∀ p, a.nameAt p = u.nameAt p) ∨ a = t) ∧
      ∀ u, g.Feeds r index u → ∃ a ∈ sources, ∀ p, a.nameAt p = u.nameAt p := by
  obtain ⟨sources, hsources, hfrom, hto⟩ := h.solved.mergeSources_ok hset hm
  refine ⟨sources, hsources, fun a ha => ?_, ?_⟩
  · rcases hfrom a ha with ⟨u, hu, hua⟩ | ⟨-, rfl⟩
    · obtain ⟨e, he, t', ht', hut⟩ := hset.pred_of_input hu
      have hfeeds : g.Feeds r index t' := ⟨e, he, ht'⟩
      exact Or.inl ⟨t', hfeeds, (h.feeds_clean hfeeds).nameAt_eq (BEq.trans (BEq.symm hua) hut)⟩
    · exact Or.inr (hset.exit_eq_start hm)
  · rintro u ⟨e, he, hu⟩
    obtain ⟨v, hv, t', ht', hvt⟩ := hset.input_of_pred he
    obtain rfl := ht'.unique hu
    obtain ⟨a, ha, hva⟩ := hto v hv
    exact ⟨a, ha, (h.feeds_clean ⟨e, he, ht'⟩).nameAt_eq (BEq.trans (BEq.symm hva) hvt)⟩

/-- A join point uses the names in front of it that do not stand at the same place behind it. -/
theorem labelUses_merge (h : g.Exact r) (hb : g.blocks.find? index = some b) (hm : b.isMerge = true)
    (ht : r.Exits index t) : ∃ vs, (g.withRun r).labelUses (.merge index) = .ok vs ∧
      ∀ x, x ∈ vs ↔ ∃ u p z, g.Feeds r index u ∧ u.nameAt p = some x ∧ t.nameAt p = some z ∧ x ≠ z := by
  obtain ⟨inputs, s, t', notes, hset⟩ := h.solved.settled index b hb
  obtain rfl := hset.exits.unique ht
  obtain ⟨note, hnote, hafter⟩ := hset.mergeNote_ok
  obtain ⟨sources, hsources, hfrom, hto⟩ := h.mergeSources_ok hset hm
  have huses : (g.withRun r).mergeUses index (b.withRun r index) =
      .ok (sources.flatMap fun a => a.differences t').eraseDups := by
    rw [mergeUses, hnote, ok_bind, hsources, ← hafter]
    rfl
  refine ⟨_, Graph.labelUses_merge (find?_withRun_of_find? hb r) huses, fun x => ?_⟩
  rw [List.mem_map]
  constructor
  · rintro ⟨⟨old, new⟩, he, rfl⟩
    obtain ⟨a, ha, hdiff⟩ := List.mem_flatMap.mp (mem_of_mem_eraseDups he)
    obtain ⟨p, hold, hnew, hne⟩ := State.mem_differences.mp hdiff
    rcases hfrom a ha with ⟨u, hu, hname⟩ | rfl
    · exact ⟨u, p, new, hu, (hname p).symm.trans hold, hnew, fun hcon => hne (congrArg Var.key hcon)⟩
    · exact absurd (congrArg Var.key (Option.some.inj (hold.symm.trans hnew))) hne
  · rintro ⟨u, p, z, hu, hx, hz, hne⟩
    obtain ⟨a, ha, hname⟩ := hto u hu
    have hplain := (h.feeds_clean hu).plain p x hx
    have hdiff : (x, z) ∈ a.differences t' := by
      refine State.mem_differences.mpr ⟨p, (hname p).trans hx, hz, fun hcon => hne ?_⟩
      exact (Var.eq_of_key_eq hplain hcon.symm).symm
    have hmem : (x, z) ∈ sources.flatMap fun a => a.differences t' := List.mem_flatMap.mpr ⟨a, ha, hdiff⟩
    obtain ⟨e, he, heq⟩ := exists_mem_eraseDups hmem
    have hkey : (e.1 == x) = true := (Bool.and_eq_true_iff.mp heq).1
    exact ⟨e, he, Var.eq_of_key_eq hplain (Var.beq_iff.mp hkey)⟩

theorem mem_mergeMemoryUses (h : g.Exact r) (hb : g.blocks.find? index = some b) (hm : b.isMerge = true)
    (ht : r.Exits index t) : ∃ uses, (g.withRun r).mergeMemoryUses index (b.withRun r index) = .ok uses ∧
      ∀ u k x z, g.Feeds r index u → u.nameAt (.memory k) = some x → t.nameAt (.memory k) = some z → x ≠ z →
        ∃ use ∈ uses, (use == (k, x)) = true := by
  obtain ⟨inputs, s, t', notes, hset⟩ := h.solved.settled index b hb
  obtain rfl := hset.exits.unique ht
  obtain ⟨note, hnote, hafter⟩ := hset.mergeNote_ok
  obtain ⟨sources, hsources, -, hto⟩ := h.mergeSources_ok hset hm
  have huses : (g.withRun r).mergeMemoryUses index (b.withRun r index) =
      .ok (sources.flatMap fun a => (a.reboundSlots t').map fun r => (r.1, r.2.1)).eraseDups := by
    rw [mergeMemoryUses, hnote, ok_bind, hsources, ← hafter]
    rfl
  refine ⟨_, huses, fun u k x z hu hx hz hne => ?_⟩
  obtain ⟨a, ha, hname⟩ := hto u hu
  obtain ⟨k', hk', hkk'⟩ := Table.exists_mem_of_find? hz
  have hplain := (h.feeds_clean hu).plain _ x hx
  have hfind : a.memory.find? k' = some x := by
    rw [Table.find?_congr a.memory hkk']
    exact (hname (.memory k)).trans hx
  have hslot : (k', x, z) ∈ a.reboundSlots t' :=
    State.mem_reboundSlots.mpr ⟨hk', hfind, fun hcon => hne (Var.eq_of_key_eq hplain hcon.symm).symm⟩
  have hmem : (k', x) ∈ sources.flatMap fun a => (a.reboundSlots t').map fun r => (r.1, r.2.1) :=
    List.mem_flatMap.mpr ⟨a, ha, List.mem_map.mpr ⟨_, hslot, rfl⟩⟩
  obtain ⟨use, huse, heq⟩ := exists_mem_eraseDups hmem
  exact ⟨use, huse, BEq.trans heq (Bool.and_eq_true_iff.mpr ⟨hkk', BEq.rfl⟩)⟩

end Exact

/-! ## Stores -/

/-- A store is listed for the slot and the value that it binds. -/
theorem mem_storeSites (hl : g.DistinctLabels) {sites : StoreSites} (h : g.storeSites = .ok sites) {i : Instr}
    (hi : i ∈ g.instrs) {site : Slot × Var} (hsite : i.stored = .ok (some site)) :
    i.label ∈ (sites.find? site).getD [] := by
  have hfold : ∀ e ∈ g.instrTable.entries, ∀ site, e.2.stored = .ok (some site) →
      e.1 ∈ (sites.find? site).getD [] := by
    refine foldlM_carries (fun done sites => ∀ e ∈ done, ∀ site, e.2.stored = .ok (some site) →
      e.1 ∈ (sites.find? site).getD []) (fun e he => (by cases he)) h ?_
    intro done e rest sites sites' _ hdone hstep e' he' site hsite
    obtain ⟨o, ho, hstep⟩ := bind_eq_ok.mp hstep
    cases o with
    | none =>
      rw [← pure_eq_ok.mp hstep]
      rcases List.mem_append.mp he' with he' | he'
      · exact hdone e' he' site hsite
      · rw [List.mem_singleton.mp he', ho] at hsite
        cases hsite
    | some stored =>
      rw [← pure_eq_ok.mp hstep, Table.alter, Table.find?_insert]
      rcases List.mem_append.mp he' with he' | he'
      · have hold := hdone e' he' site hsite
        split
        · rename_i hsame
          rw [Table.find?_congr sites hsame]
          exact List.mem_append_left _ hold
        · exact hold
      · rw [List.mem_singleton.mp he', ho] at hsite
        cases hsite
        rw [if_pos BEq.rfl, List.mem_singleton.mp he']
        exact List.mem_append_right _ (List.mem_singleton_self _)
  exact hfold (i.label, i) (by rw [hl.entries_instrTable]; exact List.mem_map_of_mem hi) site hsite

/-! ## Kept labels -/

/-- The name comes from the start of the function, or from a kept site. -/
def Needs (g : Graph) (keep : List Label) (v : Var) : Prop := ∀ l, g.origin v = some l → l ∈ keep

/-- What the kept labels use is needed, and the stores that they depend on are kept. -/
structure Supports (g : Graph) (r : Run) (keep : List Label) : Prop where
  instr : ∀ i ∈ g.instrs, i.label ∈ keep → ∃ vs, (g.withRun r).labelUses i.label = .ok vs ∧
    (i.annotate r.instrs).uses = .ok vs ∧ ∀ v ∈ vs, v.isConstant = false → g.Needs keep v
  join : ∀ index b, g.blocks.find? index = some b → b.isMerge = true → .merge index ∈ keep →
    ∀ vs, (g.withRun r).labelUses (.merge index) = .ok vs → ∀ v ∈ vs, v.isConstant = false → g.Needs keep v
  store : ∀ index b uses, g.blocks.find? index = some b → b.isMerge = true → .merge index ∈ keep →
    (g.withRun r).mergeMemoryUses index (b.withRun r index) = .ok uses → ∀ use ∈ uses, ∀ site,
      (use == site) = true → ∀ i ∈ g.instrs, (i.annotate r.instrs).stored = .ok (some site) → i.label ∈ keep

theorem Solved.supports {c : Config} (h : g.Solved c r) (ho : g.OrdinaryLabels)
    (hrange : ∀ i ∈ g.instrs, i.InRange g.signature) {criterion : Label} {control : Option BlockDeps}
    {keep : List Label} (hkeep : (g.withRun r).keep criterion none control = .ok keep) : g.Supports r keep := by
  have hreadable := h.readable ho hrange
  obtain ⟨t, cs, hcollect, hchains, -, -, hfind⟩ := h.chains_ok hreadable hrange
  obtain ⟨d, hd, hclosure⟩ := bind_eq_ok.mp hkeep
  have hclosed := Dependences.isClosure_of_closure hclosure
  have hstores := (Dependences.ofGraph_eq_ok hd).1
  have hcs : d.chains = cs := by
    obtain ⟨t', huseDef⟩ := Dependences.useDef_of_ofGraph hd
    rw [useDef, hcollect, ok_bind, hchains, ok_bind, pure_eq_ok] at huseDef
    exact (congrArg Prod.snd huseDef).symm
  have hstep : ∀ {l l'}, l ∈ keep → d.LeadsTo (g.withRun r) l l' → l' ∈ keep := by
    intro l l' hl hlead
    rw [hclosed.mem_iff] at hl ⊢
    exact hl.tail hlead
  have huses : ∀ {l vs}, (g.withRun r).IsSite l → l ∈ keep → (g.withRun r).labelUses l = .ok vs →
      ∀ v ∈ vs, v.isConstant = false → g.Needs keep v := by
    intro l vs hsite hl hvs v hv hconst l' hl'
    obtain ⟨source, hsource, hdef⟩ := hfind (.ofLabel l v) ⟨l, hsite, vs, hvs, v, hv, BEq.rfl⟩
    have hvar : (Use.ofLabel l v).var = v := by cases l <;> rfl
    rw [hvar] at hdef
    have hlabel := ((UseDef.located_collect hreadable hcollect).defs v source hdef).origin hconst
    refine hstep hl (.source hvs hv ?_ (hlabel.trans hl'))
    rw [hcs, Chains.get, hsource]
    rfl
  refine ⟨fun i hi hl => ?_, fun index b hb hm hl vs hvs => ?_, ?_⟩
  · have hi' : i.annotate r.instrs ∈ (g.withRun r).instrs := mem_instrs_withRun.mpr ⟨i, hi, rfl⟩
    have hsite : (g.withRun r).IsSite i.label := isSite_withRun.mpr (Or.inl ⟨i, hi, rfl⟩)
    have hsame := labelUses_instr hreadable.labels hreadable.ordinary hi'
    rw [Instr.label_annotate] at hsame
    obtain ⟨vs, hvs⟩ := hreadable.labelUses_ok hsite
    exact ⟨vs, hvs, hsame.symm.trans hvs, huses hsite hl hvs⟩
  · exact huses (isSite_withRun.mpr (Or.inr ⟨index, b, hb, hm, rfl⟩)) hl hvs
  · intro index b uses hb hm hl huses use huse site hsame i hi hstored
    have hi' : i.annotate r.instrs ∈ (g.withRun r).instrs := mem_instrs_withRun.mpr ⟨i, hi, rfl⟩
    have hmem := mem_storeSites hreadable.labels hstores hi' hstored
    rw [Instr.label_annotate, ← Table.find?_congr d.stores hsame] at hmem
    have hlist : (g.withRun r).labelStores d.stores (.merge index) =
        .ok (uses.flatMap fun use => (d.stores.find? use).getD []).eraseDups := by
      rw [labelStores, findBlock_withRun hb, ok_bind, huses]
      rfl
    have hlisted : i.label ∈ uses.flatMap fun use => (d.stores.find? use).getD [] :=
      List.mem_flatMap.mpr ⟨use, huse, hmem⟩
    obtain ⟨l', hl', heq⟩ := exists_mem_eraseDups hlisted
    exact hstep hl (.store hlist (eq_of_beq heq ▸ hl'))

end Graph
end Backslice
