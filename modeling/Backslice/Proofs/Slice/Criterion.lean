import Backslice.Proofs.Slice.Closure
import Backslice.Proofs.UseDef.SingleAssignment

/-! # What a criterion depends on

The definitions, stores and branches behind a site of an analyzed graph are sites again, and each of them can be
found. The search for all that a criterion depends on therefore succeeds. -/

namespace Backslice

set_option autoImplicit false

/-! ## The sites of definitions -/

/-- The site that makes a name. Names of the start have none, and constants may have several. -/
def Graph.origin (g : Graph) : Var → Option Label
  | .pushed l => some l
  | .phi block _ => some (.merge block)
  | .returned => some (.merge g.exit)
  | .entryLocal _ | .entryGlobal _ | .constant _ | .cell _ _ | .hole => none

/-- The definition is at a site of the graph, namely where the name is made if it is no constant. -/
structure Graph.Defined (g : Graph) (v : Var) (d : Def) : Prop where
  site : ∀ l, d.label? = some l → g.IsSite l
  origin : v.isConstant = false → d.label? = g.origin v

theorem Graph.Defined.of_key_eq {g : Graph} {v w : Var} {d : Def} (h : g.Defined v d) (hvw : v.key = w.key) :
    g.Defined w d := by
  refine ⟨h.site, fun hw => ?_⟩
  have hsame : v.isConstant = w.isConstant ∧ g.origin v = g.origin w := by
    cases v <;> cases w <;> simp_all [Var.key, Var.isConstant, Graph.origin]
  rw [h.origin (hsame.1.trans hw), hsame.2]

namespace UseDef

variable {g : Graph} {t t' : UseDef} {v : Var} {d : Def} {l : Label}

/-- The definitions are where they belong, and the producers of constants are sites. -/
structure Located (g : Graph) (t : UseDef) : Prop where
  defs : ∀ v d, t.defs.find? v = some d → g.Defined v d
  producers : t.producers.Lists g.IsSite
  constants : ∀ v, t.producers.contains v = true → v.isConstant = true

theorem located_empty (g : Graph) : Located g {} where
  defs _ _ hfind := by cases hfind
  producers := Table.lists_empty g.IsSite
  constants _ hv := by cases hv

theorem Located.insert (h : t.Located g) (hd : g.Defined v d) : Located g { t with defs := t.defs.insert v d } := by
  refine ⟨fun w d' hfind => ?_, h.producers, h.constants⟩
  rw [Table.find?_insert] at hfind
  split at hfind
  · rename_i hvw
    exact Option.some.inj hfind ▸ hd.of_key_eq (Var.beq_iff.mp hvw)
  · exact h.defs w d' hfind

theorem Located.define (h : t.Located g) (hd : g.Defined v d) (hok : t.define v d = .ok t') : t'.Located g := by
  unfold UseDef.define at hok
  split at hok
  · cases hok
  · exact pure_eq_ok.mp hok ▸ h.insert hd

theorem Located.use (h : t.Located g) (u : Use) : (t.use u).Located g := ⟨h.defs, h.producers, h.constants⟩

theorem Located.produce (h : t.Located g) (hv : v.isConstant = true) (hl : g.IsSite l) :
    (t.produce v l).Located g := by
  refine ⟨h.defs, h.producers.alter v fun l' hl' => ?_, fun w hw => ?_⟩
  · rcases List.mem_append.mp hl' with hl' | hl'
    · exact Or.inl hl'
    · exact Or.inr (List.mem_singleton.mp hl' ▸ hl)
  · rw [UseDef.produce, Table.alter, Table.contains_insert, Bool.or_eq_true] at hw
    rcases hw with hvw | hw
    · have hkey := Var.beq_iff.mp hvw
      cases v <;> cases w <;> simp_all [Var.key, Var.isConstant]
    · exact h.constants w hw

theorem Located.addEntry (h : t.Located g) (hg : g.Readable) (hok : t.addEntry g = .ok t') : t'.Located g := by
  obtain ⟨note, hnote, hfold⟩ := bind_eq_ok.mp hok
  obtain ⟨note', hnote', hnames⟩ := hg.entry
  cases hnote.symm.trans hnote'
  refine foldlM_keeps (Located g) h hfold fun v hv t t' ht hdefine => ?_
  refine ht.define (d := .entry v) ⟨fun l hl => (by cases hl), fun _ => ?_⟩ hdefine
  obtain ⟨i, ⟨-, rfl⟩ | ⟨-, rfl⟩⟩ := hnames v (State.mentions_of_mem (mem_of_mem_eraseDups hv)) <;> rfl

theorem Located.addMerge (h : t.Located g) (hg : g.Readable) {index : Int} {b : Block}
    (hb : g.blocks.find? index = some b) (hm : b.isMerge = true) (hok : t.addMerge g index b = .ok t') :
    t'.Located g := by
  obtain ⟨pairs, hpairs, hok⟩ := bind_eq_ok.mp hok
  obtain ⟨p, hfold, hok⟩ := bind_eq_ok.mp hok
  obtain ⟨pairs', hpairs', hborn⟩ := hg.merge index b hb hm
  cases hpairs.symm.trans hpairs'
  have hdefined : ∀ e ∈ pairs, g.Defined e.2 (.merge index e.2) := by
    intro e he
    refine ⟨fun l hl => Option.some.inj hl ▸ Or.inr ⟨index, b, hb, hm, rfl⟩, fun _ => ?_⟩
    rcases hborn e he with ⟨n, hn⟩ | ⟨hexit, hn⟩
    · rw [hn]
      rfl
    · rw [hn, hexit]
      rfl
  have hp : Located g p.1 := by
    refine foldlM_keeps (fun p : UseDef × List Var => Located g p.1) h hfold ?_
    intro e he p p' hp hstep
    dsimp only at hstep
    split at hstep
    · rw [← pure_eq_ok.mp hstep]
      exact hp.use _
    · obtain ⟨t₁, hdefine, hstep⟩ := bind_eq_ok.mp hstep
      rw [← pure_eq_ok.mp hstep]
      exact (hp.define (hdefined e he) hdefine).use _
  exact pure_eq_ok.mp hok ▸ hp

theorem Located.addInstr (h : t.Located g) (hg : g.Readable) {i : Instr} (hi : i ∈ g.instrs)
    (hok : t.addInstr i.label i = .ok t') : t'.Located g := by
  obtain ⟨ds, hds, hok⟩ := bind_eq_ok.mp hok
  obtain ⟨t₁, hfold, hok⟩ := bind_eq_ok.mp hok
  obtain ⟨vs, _, hok⟩ := bind_eq_ok.mp hok
  have hsite : g.IsSite i.label := Or.inl ⟨i, hi, rfl⟩
  have ht₁ : t₁.Located g := by
    refine foldlM_keeps (Located g) h hfold fun v hv t t' ht hstep => ?_
    split at hstep
    · rename_i hconst
      exact pure_eq_ok.mp hstep ▸ ht.produce hconst hsite
    · refine ht.define (d := .instr i.label v) ⟨fun l hl => Option.some.inj hl ▸ hsite, fun hconst => ?_⟩ hstep
      rw [hg.eq_pushed hi hds hv hconst BEq.rfl]
      rfl
  rw [← pure_eq_ok.mp hok]
  exact List.foldlRecOn vs _ ht₁ fun t ht v _ => ht.use _

theorem constantDef_label? {ls : List Label} (h : (constantDef v ls).label? = some l) : l ∈ ls := by
  unfold constantDef at h
  split at h
  · split at h
    · exact Option.some.inj h ▸ List.mem_cons_self
    · cases h
  · cases h

theorem Located.addConstants (h : t.Located g) : t.addConstants.Located g := by
  refine List.foldlRecOn t.producers.entries _ h fun t₁ ht₁ e he => ?_
  dsimp only
  split
  · exact ht₁
  · have hfind : t.producers.find? e.1 = some e.2 := Table.find?_of_mem he
    have hconst := h.constants e.1 (Table.contains_iff_find?.mpr ⟨e.2, hfind⟩)
    refine ht₁.insert ⟨fun l hl => h.producers e.1 e.2 hfind l (constantDef_label? hl), fun hcon => ?_⟩
    rw [hconst] at hcon
    cases hcon

/-- What has a definition is defined at a site of the graph, and a name that is no constant at its origin. -/
theorem located_collect (hg : g.Readable) (hok : collect g = .ok t) : t.Located g := by
  obtain ⟨t₁, hok₁, hok⟩ := bind_eq_ok.mp hok
  obtain ⟨t₂, hok₂, hok⟩ := bind_eq_ok.mp hok
  obtain ⟨t₃, hok₃, hok⟩ := bind_eq_ok.mp hok
  have ht₂ : t₂.Located g := by
    refine foldlM_keeps (Located g) ((located_empty g).addEntry hg hok₁) hok₂ fun e he t t' ht hstep => ?_
    obtain ⟨hb, hm⟩ := Graph.mem_mergeBlocks.mp he
    exact ht.addMerge hg hb hm hstep
  have ht₃ : t₃.Located g := by
    refine foldlM_keeps (Located g) ht₂ hok₃ fun e he t t' ht hstep => ?_
    obtain ⟨hi, hl⟩ := hg.labels.mem_sortedInstrs.mp he
    exact ht.addInstr hg hi (hl ▸ hstep)
  rw [← pure_eq_ok.mp hok]
  exact ht₃.addConstants

end UseDef

/-! ## Stores -/

theorem Instr.stored_of_store {d : DataInstr} {s t : State} {value address : Var} {rest : List Var}
    (hnote : (Instr.data d).requireNote = .ok ⟨.known s, .known t⟩) (hop : d.op = .store)
    (hstack : s.stack = value :: address :: rest) :
    (Instr.data d).stored = .ok (some ((address, d.offset), value)) := by
  have hstate : (Flow.known s).state.stack = value :: address :: rest := hstack
  simp only [Instr.stored, if_pos hop, hnote, ok_bind, hstate]
  rfl

theorem Instr.stored_ok {sig : Signature} {c : Config} {i : Instr} {s t : State}
    (hnote : i.requireNote = .ok ⟨.known s, .known t⟩) (h : i.Effect sig c s t) : ∃ o, i.stored = .ok o := by
  cases i with
  | control k => exact ⟨none, rfl⟩
  | data d =>
    by_cases hop : d.op = .store
    · have hstack : ∃ value address rest, s.stack = value :: address :: rest := by
        cases h <;> simp_all [DataOp.computes?]
      obtain ⟨value, address, rest, hstack⟩ := hstack
      exact ⟨_, Instr.stored_of_store hnote hop hstack⟩
    · exact ⟨none, by simp only [Instr.stored, if_neg hop]; rfl⟩

namespace Graph

variable {g : Graph} {l : Label}

theorem storeSites_ok (hl : g.DistinctLabels) (hstored : ∀ i ∈ g.instrs, ∃ o, i.stored = .ok o) :
    ∃ sites, g.storeSites = .ok sites ∧ sites.Lists g.IsSite := by
  refine foldlM_succeeds (fun _ sites => Table.Lists g.IsSite sites) _ (Table.lists_empty _)
    fun done e rest sites hsplit hsites => ?_
  have he : e ∈ g.instrTable.entries := by simp [hsplit]
  rw [hl.entries_instrTable] at he
  obtain ⟨i, hi, rfl⟩ := List.mem_map.mp he
  obtain ⟨o, ho⟩ := hstored i hi
  dsimp only
  rw [ho, ok_bind]
  cases o with
  | none => exact ⟨sites, rfl, hsites⟩
  | some stored =>
    refine ⟨_, rfl, hsites.alter stored fun l hl => ?_⟩
    rcases List.mem_append.mp hl with hl | hl
    · exact Or.inl hl
    · exact Or.inr (Or.inl ⟨i, hi, (List.mem_singleton.mp hl).symm⟩)

theorem labelStores_ok (ho : g.OrdinaryLabels) {sites : StoreSites} (hsites : sites.Lists g.IsSite)
    (hmerge : ∀ index b, g.blocks.find? index = some b → b.isMerge = true →
      ∃ uses, g.mergeMemoryUses index b = .ok uses) (hl : g.IsSite l) :
    ∃ ls, g.labelStores sites l = .ok ls ∧ ∀ l' ∈ ls, g.IsSite l' := by
  rcases hl with ⟨i, hi, rfl⟩ | ⟨index, b, hb, hm, rfl⟩
  · have hordinary := ho i hi
    refine ⟨[], ?_, fun _ hl' => nomatch hl'⟩
    unfold labelStores
    split
    · rename_i index heq
      rw [heq] at hordinary
      cases hordinary
    · rfl
  · obtain ⟨uses, huses⟩ := hmerge index b hb hm
    refine ⟨(uses.flatMap fun use => (sites.find? use).getD []).eraseDups, ?_, fun l' hl' => ?_⟩
    · rw [labelStores, findBlock_of_find? hb, ok_bind, huses]
      rfl
    · obtain ⟨use, _, hl'⟩ := List.mem_flatMap.mp (mem_of_mem_eraseDups hl')
      exact hsites.getD hl'

end Graph

/-! ## Branches -/

theorem BlockDeps.lists_addDep {P : Int → Prop} {deps : BlockDeps} (h : deps.Lists P) (n : Int) {branch : Int}
    (hbranch : P branch) : (deps.addDep n branch).Lists P := by
  refine Table.Lists.alter h n fun a ha => ?_
  dsimp only at ha
  split at ha
  · exact Or.inl ha
  · rcases List.mem_append.mp ha with ha | ha
    · exact Or.inl ha
    · exact Or.inr (List.mem_singleton.mp ha ▸ hbranch)

theorem BlockDeps.lists_ofTree {P : Int → Prop} (succs : Adjacency) (tree : Table Int Int) {branches : List Int}
    (h : ∀ a ∈ branches, P a) : (ofTree succs tree branches).Lists P :=
  List.foldlRecOn branches _ (Table.lists_empty P) fun _ hdeps a ha =>
    List.foldlRecOn (governed succs tree a) _ hdeps fun _ hdeps n _ => lists_addDep hdeps n (h a ha)

namespace Graph

variable {g : Graph} {l : Label}

theorem blockDeps_lists (g : Graph) : g.blockDeps.Lists fun a => g.isPredicate a = true :=
  BlockDeps.lists_ofTree _ _ fun _ ha => (List.mem_filter.mp ha).2

theorem exists_control {index : Int} (h : g.isPredicate index = true) :
    ∃ b k, g.blocks.find? index = some b ∧ b.body = .control k ∧ k.op.isBranching = true := by
  obtain ⟨b, hb, hbranch⟩ := (Option.any_eq_true _ _).mp h
  unfold Block.isPredicate at hbranch
  split at hbranch
  · rename_i k hbody
    exact ⟨b, k, hb, hbody, hbranch⟩
  · cases hbranch

theorem branchLabel_of_control {index : Int} {b : Block} {k : ControlInstr} (hb : g.blocks.find? index = some b)
    (hbody : b.body = .control k) : g.branchLabel index = .ok k.label := by
  rw [branchLabel, findBlock_of_find? hb, ok_bind, hbody]
  rfl

theorem branchLabel_ok {index : Int} (h : g.isPredicate index = true) :
    ∃ l, g.branchLabel index = .ok l ∧ g.IsSite l := by
  obtain ⟨b, k, hb, hbody, -⟩ := exists_control h
  refine ⟨k.label, branchLabel_of_control hb hbody, Or.inl ⟨.control k, mem_instrs hb ?_, rfl⟩⟩
  simp [Block.instrs, hbody]

theorem isSite_iff_mem_labels : g.IsSite l ↔ ∃ e ∈ g.blocks.entries, l ∈ e.2.labels e.1 := by
  constructor
  · rintro (⟨i, hi, rfl⟩ | ⟨index, b, hb, hm, rfl⟩)
    · obtain ⟨index, b, hb, hib⟩ := exists_block_of_mem_instrs hi
      refine ⟨(index, b), Table.find?_eq_some_iff_mem.mp hb, ?_⟩
      have hm : b.isMerge ≠ true := by
        intro hm
        rw [Block.instrs_of_isMerge hm] at hib
        cases hib
      rw [Block.labels, if_neg hm]
      exact List.mem_map_of_mem hib
    · exact ⟨(index, b), Table.find?_eq_some_iff_mem.mp hb, by simp [Block.labels, hm]⟩
  · rintro ⟨⟨index, b⟩, he, hl⟩
    have hb := Table.find?_eq_some_iff_mem.mpr he
    unfold Block.labels at hl
    split at hl
    · rename_i hm
      exact Or.inr ⟨index, b, hb, hm, List.mem_singleton.mp hl⟩
    · obtain ⟨i, hi, rfl⟩ := List.mem_map.mp hl
      exact Or.inl ⟨i, mem_instrs hb hi, rfl⟩

instance (g : Graph) (l : Label) : Decidable (g.IsSite l) := decidable_of_iff _ isSite_iff_mem_labels.symm

theorem blockOf_ok (hl : g.IsSite l) : ∃ e, g.blockOf l = .ok e := by
  obtain ⟨e, he, hle⟩ := isSite_iff_mem_labels.mp hl
  unfold blockOf
  split
  · rename_i e' _
    exact ⟨e', rfl⟩
  · rename_i hnone
    have hnot := List.find?_eq_none.mp hnone e (List.mem_reverse.mpr he)
    exact absurd hle (by simpa using hnot)

theorem blockOf_eq_error (hl : ¬ g.IsSite l) : g.blockOf l = .error (.noHome l) := by
  unfold blockOf
  split
  · rename_i e hfind
    have hle : l ∈ e.2.labels e.1 := by simpa using List.find?_some hfind
    exact absurd (isSite_iff_mem_labels.mpr ⟨e, List.mem_reverse.mp (List.mem_of_find?_eq_some hfind), hle⟩) hl
  · rfl

theorem governing_ok {deps : BlockDeps} (hdeps : deps.Lists fun a => g.isPredicate a = true) (hl : g.IsSite l)
    (v : Var) : ∃ ls, g.governing deps (.ofLabel l v) = .ok ls ∧ ∀ l' ∈ ls, g.IsSite l' := by
  have hbranches : ∀ blocks : List Int, (∀ a ∈ blocks, g.isPredicate a = true) →
      ∃ ls, (do
        let labels ← (sortBy (· ≤ ·) blocks.eraseDups).mapM g.branchLabel
        return labels.eraseDups) = Except.ok ls ∧ ∀ l' ∈ ls, g.IsSite l' := by
    intro blocks hblocks
    have hok : ∀ a ∈ sortBy (· ≤ ·) blocks.eraseDups, ∃ l, g.branchLabel a = .ok l ∧ g.IsSite l :=
      fun a ha => branchLabel_ok (hblocks a (mem_of_mem_eraseDups (mem_sortBy.mp ha)))
    obtain ⟨labels, hlabels⟩ := mapM_succeeds fun a ha => (hok a ha).imp fun _ h => h.1
    refine ⟨labels.eraseDups, bind_eq_ok.mpr ⟨labels, hlabels, rfl⟩, fun l' hl' => ?_⟩
    obtain ⟨a, ha, hal⟩ := (mem_of_mapM hlabels).mp (mem_of_mem_eraseDups hl')
    obtain ⟨l'', hal', hsite⟩ := hok a ha
    rw [hal, Except.ok.injEq] at hal'
    exact hal' ▸ hsite
  unfold governing
  cases hu : Use.ofLabel l v with
  | instr site w =>
    have hsite : site = l := by cases l <;> simp_all [Use.ofLabel]
    obtain ⟨⟨index, b⟩, hblock⟩ := blockOf_ok hl
    dsimp only
    rw [hsite, hblock]
    exact hbranches (deps.of index) fun a ha => hdeps.getD ha
  | merge block w =>
    refine hbranches _ fun a ha => ?_
    rcases List.mem_append.mp ha with ha | ha
    · exact hdeps.getD ha
    · obtain ⟨e, _, ha⟩ := List.mem_flatMap.mp ha
      rcases List.mem_append.mp ha with ha | ha
      · exact hdeps.getD ha
      · split at ha
        · rename_i hpredicate
          exact List.mem_singleton.mp ha ▸ hpredicate
        · cases ha

end Graph

/-! ## Following dependences -/

namespace Dependences

variable {g : Graph} {d : Dependences} {l l' : Label}

/-- The dependences lead from sites to sites. -/
structure Closed (g : Graph) (d : Dependences) : Prop where
  chains : ∀ l, g.IsSite l → ∃ vs, g.labelUses l = .ok vs ∧ ∀ v ∈ vs, ∃ source,
    d.chains.find? (.ofLabel l v) = some source ∧ ∀ l', source.label? = some l' → g.IsSite l'
  control : d.control.Lists fun a => g.isPredicate a = true
  stores : ∀ l, g.IsSite l → ∃ ls, g.labelStores d.stores l = .ok ls ∧ ∀ l' ∈ ls, g.IsSite l'

theorem Closed.resolves (h : d.Closed g) (hl : g.IsSite l) : d.Resolves g l := by
  obtain ⟨vs, hvs, hchains⟩ := h.chains l hl
  obtain ⟨stores, hstores, _⟩ := h.stores l hl
  refine ⟨⟨vs, hvs, fun v hv => ?_⟩, stores, hstores⟩
  obtain ⟨source, hsource, _⟩ := hchains v hv
  obtain ⟨branches, hbranches, _⟩ := Graph.governing_ok h.control hl v
  refine ⟨⟨source, ?_⟩, branches, hbranches⟩
  rw [Chains.get, hsource]
  rfl

theorem Closed.isSite_of_leadsTo (h : d.Closed g) (hl : g.IsSite l) (hlead : d.LeadsTo g l l') : g.IsSite l' := by
  obtain ⟨vs, hvs, hchains⟩ := h.chains l hl
  cases hlead with
  | @source vs' v source huses hv hget hlabel =>
    cases hvs.symm.trans huses
    obtain ⟨source', hsource, hsite⟩ := hchains v hv
    rw [Chains.get, hsource] at hget
    cases hget
    exact hsite l' hlabel
  | @branch vs' v branches huses hv hfind hmem =>
    obtain ⟨branches', hbranches, hsites⟩ := Graph.governing_ok h.control hl v
    cases hfind.symm.trans hbranches
    exact hsites l' hmem
  | store hstores hmem =>
    obtain ⟨stores', hstores', hsites⟩ := h.stores l hl
    cases hstores.symm.trans hstores'
    exact hsites l' hmem

theorem Closed.closure_ok (h : d.Closed g) (hl : g.IsSite l) :
    ∃ keep, d.closure g l = .ok keep ∧ l ∈ keep ∧ ∀ l' ∈ keep, g.IsSite l' := by
  have hsites : ∀ l', Relation.ReflTransGen (d.LeadsTo g) l l' → g.IsSite l' := by
    intro l' hl'
    induction hl' with
    | refl => exact hl
    | tail _ hlead ih => exact h.isSite_of_leadsTo ih hlead
  obtain ⟨keep, hok, hkeep⟩ := exists_isClosure_iff.mpr fun l' hl' => h.resolves (hsites l' hl')
  exact ⟨keep, hok, (hkeep.mem_iff l).mpr .refl, fun l' hl' => hsites l' ((hkeep.mem_iff l').mp hl')⟩

end Dependences

/-! ## The kept labels -/

namespace Graph

variable {g : Graph} {c : Config} {r : Run} {l : Label}

theorem isSite_withRun : (g.withRun r).IsSite l ↔ g.IsSite l := by
  constructor
  · rintro (⟨i, hi, rfl⟩ | ⟨index, b, hb, hm, rfl⟩)
    · obtain ⟨j, hj, rfl⟩ := mem_instrs_withRun.mp hi
      exact Or.inl ⟨j, hj, (Instr.label_annotate ..).symm⟩
    · rw [find?_withRun, Option.map_eq_some_iff] at hb
      obtain ⟨b₀, hb₀, rfl⟩ := hb
      exact Or.inr ⟨index, b₀, hb₀, Block.isMerge_withRun r index b₀ ▸ hm, rfl⟩
  · rintro (⟨i, hi, rfl⟩ | ⟨index, b, hb, hm, rfl⟩)
    · exact Or.inl ⟨_, mem_instrs_withRun.mpr ⟨i, hi, rfl⟩, Instr.label_annotate ..⟩
    · exact Or.inr ⟨index, b.withRun r index, find?_withRun_of_find? hb r, by rw [Block.isMerge_withRun, hm], rfl⟩

theorem Solved.stored_ok (h : g.Solved c r) {i : Instr} (hi : i ∈ (g.withRun r).instrs) : ∃ o, i.stored = .ok o := by
  obtain ⟨j, hj, rfl⟩ := mem_instrs_withRun.mp hi
  obtain ⟨u, w, hnote, he, _⟩ := h.instr hj
  exact Instr.stored_ok (Instr.requireNote_annotate hnote) (he.annotate r.instrs)

theorem Solved.mergeMemoryUses_ok (h : g.Solved c r) {index : Int} {b : Block}
    (hb : (g.withRun r).blocks.find? index = some b) (hm : b.isMerge = true) :
    ∃ uses, (g.withRun r).mergeMemoryUses index b = .ok uses := by
  rw [find?_withRun, Option.map_eq_some_iff] at hb
  obtain ⟨b₀, hb₀, rfl⟩ := hb
  rw [Block.isMerge_withRun] at hm
  obtain ⟨inputs, s, t, notes, hset⟩ := h.settled index b₀ hb₀
  obtain ⟨sources, hsources, _⟩ := h.mergeSources_ok hset hm
  obtain ⟨note, hnote, _⟩ := hset.exits
  unfold mergeMemoryUses mergeNote
  rw [note_withRun hnote, hsources]
  exact ⟨_, rfl⟩

/-- The dependences of an analyzed graph can be found, and they lead from sites to sites. -/
theorem Solved.dependences_ok (h : g.Solved c r) (ho : g.OrdinaryLabels)
    (hrange : ∀ i ∈ g.instrs, i.InRange g.signature) :
    ∃ d, Dependences.ofGraph (g.withRun r) none none = .ok d ∧ d.Closed (g.withRun r) := by
  have hreadable := h.readable ho hrange
  obtain ⟨t, cs, hcollect, hchains, _, _, hfind⟩ := h.chains_ok hreadable hrange
  obtain ⟨sites, hsites, hlists⟩ := storeSites_ok hreadable.labels fun i hi => h.stored_ok hi
  refine ⟨⟨cs, (g.withRun r).blockDeps, sites⟩, ?_, ?_, blockDeps_lists _, fun l hl => ?_⟩
  · rw [Dependences.ofGraph, useDef, hcollect, ok_bind, hchains, hsites]
    rfl
  · intro l hl
    obtain ⟨vs, hvs⟩ := hreadable.labelUses_ok hl
    refine ⟨vs, hvs, fun v hv => ?_⟩
    obtain ⟨d, hd, hdef⟩ := hfind (.ofLabel l v) ⟨l, hl, vs, hvs, v, hv, BEq.rfl⟩
    exact ⟨d, hd, ((UseDef.located_collect hreadable hcollect).defs _ d hdef).site⟩
  · exact labelStores_ok hreadable.ordinary hlists (fun index b hb hm => h.mergeMemoryUses_ok hb hm) hl

/-- The labels that a site of an analyzed graph depends on can be found, and they are sites, that one among them. -/
theorem Solved.keep_ok (h : g.Solved c r) (ho : g.OrdinaryLabels) (hrange : ∀ i ∈ g.instrs, i.InRange g.signature)
    (hl : g.IsSite l) :
    ∃ keep, (g.withRun r).keep l none none = .ok keep ∧ l ∈ keep ∧ ∀ l' ∈ keep, g.IsSite l' := by
  obtain ⟨d, hd, hclosed⟩ := h.dependences_ok ho hrange
  obtain ⟨keep, hok, hmem, hsites⟩ := hclosed.closure_ok (isSite_withRun.mpr hl)
  refine ⟨keep, ?_, hmem, fun l' hl' => isSite_withRun.mp (hsites l' hl')⟩
  rw [Graph.keep, hd, ok_bind, hok]

end Graph
end Backslice
