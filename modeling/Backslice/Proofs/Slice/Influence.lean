import Backslice.Proofs.Dependence.Control
import Backslice.Proofs.Slice.Criterion

/-! # Branches that decide about what is kept

A slice keeps the branches that a kept label depends on directly, and each of them has an operand, so that the branches
behind it are kept as well. In this way all branches are kept that decide whether a kept instruction runs, and all that
decide which way a kept join point is reached. -/

namespace Backslice

set_option autoImplicit false

theorem Block.body_withRun_control {b : Block} {k : ControlInstr} (h : b.body = .control k) (r : Run) (n : Int) :
    (b.withRun r n).body = .control { k with note := (r.instrs.find? k.label).or k.note } := by
  simp [withRun, annotateInstrs, h]

theorem ControlInstr.Effect.uses_of_branching {sig : Signature} {k : ControlInstr} {s t : State} (h : k.Effect sig s t)
    (hop : k.op.isBranching = true) : ∃ v, k.uses s = [v] := by
  cases h with
  | @branch v rest _ hs =>
    refine ⟨v, ?_⟩
    unfold uses
    cases hk : k.op <;> simp_all [ControlOp.isBranching]
  | call hcall => cases hk : k.op <;> simp_all [ControlOp.isBranching, ControlOp.isCall]
  | br hk => simp [hk, ControlOp.isBranching] at hop
  | ret hk => simp [hk, ControlOp.isBranching] at hop
  | leave hk =>
    rcases hk with hk | ⟨hk, -⟩
    · simp [hk, ControlOp.isBranching] at hop
    · simp [hk, ControlOp.isBranching] at hop

namespace Graph

variable {g : Graph} {c : Config} {r : Run} {a n : Int} {l : Label} {v : Var} {b : Block} {i : Instr}
  {keep ls : List Label} {deps : BlockDeps}

/-! ## Branches of the annotated graph -/

theorem isPredicate_withRun (g : Graph) (r : Run) (n : Int) : (g.withRun r).isPredicate n = g.isPredicate n := by
  rw [isPredicate, isPredicate, find?_withRun, Option.any_map]
  refine congrArg (fun p => Option.any p (g.blocks.find? n)) (funext fun b => ?_)
  show (b.withRun r n).isPredicate = b.isPredicate
  unfold Block.withRun Block.annotateInstrs
  cases hbody : b.body <;> simp [Block.isPredicate, hbody]

theorem branchLabel_withRun (ha : g.isPredicate a = true) (r : Run) :
    (g.withRun r).branchLabel a = g.branchLabel a := by
  obtain ⟨b, k, hb, hbody, -⟩ := exists_control ha
  rw [branchLabel_of_control hb hbody,
    branchLabel_of_control (find?_withRun_of_find? hb r) (Block.body_withRun_control hbody r a)]

/-- A branch has its condition as an operand. -/
theorem Solved.branch_uses (h : g.Solved c r) (ho : g.OrdinaryLabels) (ha : g.isPredicate a = true) :
    ∃ b i v, g.blocks.find? a = some b ∧ i ∈ b.instrs ∧ g.branchLabel a = .ok i.label ∧
      (g.withRun r).labelUses i.label = .ok [v] := by
  obtain ⟨b, k, hb, hbody, hop⟩ := exists_control ha
  have hk : Instr.control k ∈ b.instrs := by simp [Block.instrs, hbody]
  have hmem : (Instr.control k).annotate r.instrs ∈ (g.withRun r).instrs :=
    mem_instrs_withRun.mpr ⟨_, mem_instrs hb hk, rfl⟩
  obtain ⟨s, t, hnote, heffect, -⟩ := h.instr (mem_instrs hb hk)
  obtain ⟨v, hv⟩ := heffect.uses_of_branching hop
  refine ⟨b, .control k, v, hb, hk, branchLabel_of_control hb hbody, ?_⟩
  rw [← Instr.label_annotate r.instrs, labelUses_instr (h.labels.withRun r) (ho.withRun r) hmem, Instr.uses,
    Instr.requireNote_annotate hnote, ok_bind]
  exact congrArg Except.ok hv

/-! ## The blocks of instructions -/

theorem mem_of_blockOf {e : Int × Block} (h : g.blockOf l = .ok e) :
    e ∈ g.blocks.entries ∧ l ∈ e.2.labels e.1 := by
  unfold blockOf at h
  split at h
  · rename_i e' hfind
    rw [← pure_eq_ok.mp h]
    exact ⟨List.mem_reverse.mp (List.mem_of_find?_eq_some hfind), by simpa using List.find?_some hfind⟩
  · exact absurd h throw_ne_ok

theorem DistinctLabels.blockOf (hl : g.DistinctLabels) (ho : g.OrdinaryLabels) (hb : g.blocks.find? n = some b)
    (hi : i ∈ b.instrs) : g.blockOf i.label = .ok (n, b) := by
  obtain ⟨⟨u, b'⟩, hblock⟩ := blockOf_ok (.inl ⟨i, mem_instrs hb hi, rfl⟩)
  obtain ⟨hentry, hlabel⟩ := mem_of_blockOf hblock
  have hb' : g.blocks.find? u = some b' := Table.find?_eq_some_iff_mem.mpr hentry
  have hu : n = u := by
    by_contra hne
    unfold Block.labels at hlabel
    split at hlabel
    · have hordinary := ho i (mem_instrs hb hi)
      rw [List.mem_singleton.mp hlabel] at hordinary
      cases hordinary
    · exact hl.disjoint hb hb' hne (List.mem_map_of_mem hi) hlabel
  subst hu
  cases hb.symm.trans hb'
  exact hblock

/-! ## The branches behind a use -/

theorem mem_branchLabels {blocks : List Int} (h : (do
      let labels ← (sortBy (· ≤ ·) blocks.eraseDups).mapM g.branchLabel
      return labels.eraseDups) = Except.ok ls) (ha : a ∈ blocks) (hl : g.branchLabel a = .ok l) : l ∈ ls := by
  obtain ⟨labels, hlabels, h⟩ := bind_eq_ok.mp h
  rw [← pure_eq_ok.mp h, List.mem_eraseDups]
  exact (mem_of_mapM hlabels).mpr ⟨a, mem_sortBy.mpr (List.mem_eraseDups.mpr ha), hl⟩

theorem mem_governing_instr (h : g.governing deps (.instr i.label v) = .ok ls) (hblock : g.blockOf i.label = .ok (n, b))
    (ha : a ∈ deps.of n) (hl : g.branchLabel a = .ok l) : l ∈ ls := by
  unfold governing at h
  dsimp only at h
  rw [hblock] at h
  exact mem_branchLabels h ha hl

theorem mem_governing_merge (h : g.governing deps (.merge n v) = .ok ls)
    (ha : a ∈ deps.of n ∨ ∃ e ∈ g.predecessors n, a ∈ deps.of e.target ∨ a = e.target ∧ g.isPredicate a = true)
    (hl : g.branchLabel a = .ok l) : l ∈ ls := by
  refine mem_branchLabels h ?_ hl
  rw [List.mem_append, List.mem_flatMap]
  refine ha.imp_right fun ⟨e, he, hmem⟩ => ⟨e, he, List.mem_append.mpr (hmem.imp_right ?_)⟩
  rintro ⟨rfl, hpredicate⟩
  rw [if_pos hpredicate]
  exact List.mem_singleton_self _

/-! ## Kept branches -/

/-- The label of the branch is kept. -/
def KeepsBranch (g : Graph) (keep : List Label) (a : Int) : Prop := ∃ l, g.branchLabel a = .ok l ∧ l ∈ keep

theorem keepsBranch_withRun (ha : g.isPredicate a = true) (r : Run) :
    (g.withRun r).KeepsBranch keep a ↔ g.KeepsBranch keep a := by
  rw [KeepsBranch, branchLabel_withRun ha, KeepsBranch]

/-- All branches that the block depends on are kept. -/
def KeepsGoverning (g : Graph) (keep : List Label) (n : Int) : Prop := ∀ a ∈ g.blockDeps.of n, g.KeepsBranch keep a

section Kept

variable {d : Dependences} {criterion : Label} (h : d.IsClosure g criterion keep) (hcontrol : d.control = g.blockDeps)

include h hcontrol

/-- With a label all branches are kept that are found for one of its uses. -/
theorem keeps_governing_of_use {vs : List Var} (hl : l ∈ keep) (huses : g.labelUses l = .ok vs) (hv : v ∈ vs) :
    ∃ ls, g.governing g.blockDeps (.ofLabel l v) = .ok ls ∧ ls ⊆ keep := by
  obtain ⟨vs', huses', hlook⟩ := (h.resolved l hl).uses
  cases huses.symm.trans huses'
  obtain ⟨-, ls, hls⟩ := hlook v hv
  refine ⟨ls, hcontrol ▸ hls, fun l' hl' => ?_⟩
  exact (h.mem_iff l').mpr (((h.mem_iff l).mp hl).tail (.branch huses hv hls hl'))

theorem keepsGoverning_of_instr {vs : List Var} (hlabels : g.DistinctLabels) (ho : g.OrdinaryLabels)
    (hb : g.blocks.find? n = some b) (hi : i ∈ b.instrs) (hl : i.label ∈ keep)
    (huses : g.labelUses i.label = .ok vs) (hv : v ∈ vs) : g.KeepsGoverning keep n := by
  intro a ha
  obtain ⟨ls, hls, hsub⟩ := keeps_governing_of_use h hcontrol hl huses hv
  rw [Use.ofLabel_ordinary (ho i (mem_instrs hb hi))] at hls
  obtain ⟨l, hlabel, -⟩ := branchLabel_ok (g.blockDeps_lists.getD ha)
  exact ⟨l, hlabel, hsub (mem_governing_instr hls (hlabels.blockOf ho hb hi) ha hlabel)⟩

theorem keepsGoverning_of_merge {vs : List Var} (hl : .merge n ∈ keep) (huses : g.labelUses (.merge n) = .ok vs)
    (hv : v ∈ vs) : g.KeepsGoverning keep n ∧ ∀ e ∈ g.predecessors n, g.KeepsGoverning keep e.target ∧
      (g.isPredicate e.target = true → g.KeepsBranch keep e.target) := by
  obtain ⟨ls, hls, hsub⟩ := keeps_governing_of_use h hcontrol hl huses hv
  have hkept : ∀ a, g.isPredicate a = true → (a ∈ g.blockDeps.of n ∨ ∃ e ∈ g.predecessors n,
      a ∈ g.blockDeps.of e.target ∨ a = e.target ∧ g.isPredicate a = true) → g.KeepsBranch keep a := by
    intro a ha hmem
    obtain ⟨l, hlabel, -⟩ := branchLabel_ok ha
    exact ⟨l, hlabel, hsub (mem_governing_merge hls hmem hlabel)⟩
  refine ⟨fun a ha => hkept a (g.blockDeps_lists.getD ha) (.inl ha), fun e he => ⟨fun a ha => ?_, fun hpred => ?_⟩⟩
  · exact hkept a (g.blockDeps_lists.getD ha) (.inr ⟨e, he, .inl ha⟩)
  · exact hkept e.target hpred (.inr ⟨e, he, .inr ⟨rfl, hpred⟩⟩)

end Kept

/-- A graph whose blocks all lead to the exit, which is left by no edge, and in which only branches have several
successors. -/
structure WellBranched (g : Graph) : Prop where
  reaches : ∀ u, g.hasBlock u = true → Reaches g.successors g.exit u
  exit_final : g.successors g.exit = []
  branch : ∀ u v w, v ∈ g.successors u → w ∈ g.successors u → v ≠ w → g.isPredicate u = true

/-- `a` is a branch, and it governs `n`. -/
abbrev GovernedBy (g : Graph) (n a : Int) : Prop := Governs g.successors g.exit a n ∧ g.isPredicate a = true

theorem Connected.mem_blockDeps_withRun (hg : g.Connected) (hw : g.WellBranched) (h : g.GovernedBy n a) (r : Run) :
    a ∈ (g.withRun r).blockDeps.of n := by
  obtain ⟨hgoverns, ha⟩ := h
  have hne : a ≠ g.exit := by
    rintro rfl
    obtain ⟨-, -, b, hb, -⟩ := hgoverns
    rw [hw.exit_final] at hb
    cases hb
  have hends : ∀ u e, e ∈ (g.withRun r).edges.leaving u →
      (g.withRun r).hasBlock u = true ∧ (g.withRun r).hasBlock e.target = true := by
    intro u e he
    rw [hasBlock_withRun, hasBlock_withRun]
    exact hg.ends u e he
  refine (mem_blockDeps (g := g.withRun r) hg.inverse hends hne).mpr ⟨?_, hgoverns⟩
  rw [isPredicate_withRun]
  exact ha

section Solved

variable {d : Dependences} {criterion : Label} (h : g.Solved c r) (ho : g.OrdinaryLabels) (hw : g.WellBranched)
  (hcontrol : d.control = (g.withRun r).blockDeps) (hd : d.IsClosure (g.withRun r) criterion keep)

include h ho hcontrol hd

/-- With an instruction that uses something all branches are kept that its block depends on. -/
theorem Solved.keepsGoverning {vs : List Var} (hb : g.blocks.find? n = some b) (hi : i ∈ b.instrs)
    (hkept : i.label ∈ keep) (huses : (g.withRun r).labelUses i.label = .ok vs) (hv : v ∈ vs) :
    (g.withRun r).KeepsGoverning keep n := by
  have hmem : i.annotate r.instrs ∈ (b.withRun r n).instrs := by
    rw [Block.instrs_withRun]
    exact List.mem_map_of_mem hi
  rw [← Instr.label_annotate r.instrs] at hkept huses
  exact keepsGoverning_of_instr hd hcontrol (h.labels.withRun r) (ho.withRun r) (find?_withRun_of_find? hb r) hmem
    hkept huses hv

include hw

/-- Behind a block whose branches are kept, one branch after the other is kept. -/
theorem Solved.keepsBranch_of_governed (hn : (g.withRun r).KeepsGoverning keep n)
    (hrun : Relation.TransGen g.GovernedBy n a) : g.KeepsBranch keep a := by
  have hbranch : ∀ {m a}, g.GovernedBy m a → (g.withRun r).KeepsGoverning keep m → g.KeepsBranch keep a := by
    intro m a hstep hm
    rw [← keepsBranch_withRun hstep.2 r]
    exact hm a (h.connected.mem_blockDeps_withRun hw hstep r)
  induction hrun with
  | single hstep => exact hbranch hstep hn
  | @tail m a hprev hstep ih =>
    -- `m` is a branch that is kept, and it uses its condition, so that the branches of its block are kept
    have hm : g.isPredicate m = true := by
      cases hprev with
      | single hlast => exact hlast.2
      | tail _ hlast => exact hlast.2
    obtain ⟨b, i, v, hb, hi, hlabel, huses⟩ := h.branch_uses ho hm
    obtain ⟨l, hl, hkept⟩ := ih
    cases hl.symm.trans hlabel
    exact hbranch hstep (h.keepsGoverning ho hcontrol hd hb hi hkept huses List.mem_cons_self)

end Solved

theorem WellFormed.reaches_of_edge (hg : g.WellFormed) (hw : g.WellBranched) (u v : Int) (hv : v ∈ g.successors u) :
    Reaches g.successors g.exit v := by
  obtain ⟨e, he, rfl⟩ := mem_successors.mp hv
  exact hw.reaches _ (hg.ends u e he).2

/-! ## A branch inside another -/

/-- Changes a local under two conditions, where the second counts only if the first holds. -/
def nested : Graph :=
  .ofArrows { args := [.i32, .i32], results := [.i32] }
    [(0, { body := .data [{ label := .code 0, op := .localGet, arg := .int 0 }] }),
      (1, { body := .control { label := .code 1, op := .cond } }),
      (2, { body := .data [{ label := .code 2, op := .localGet, arg := .int 1 }] }),
      (3, { body := .control { label := .code 3, op := .brIf } }),
      (4, { body := .data [{ label := .code 4, op := .localGet, arg := .int 0 }, { label := .code 5, op := .unary },
        { label := .code 6, op := .localSet, arg := .int 1 }] }),
      (5, { body := .merge }),
      (6, { body := .data [{ label := .code 7, op := .nop }] }),
      (7, { body := .merge }),
      (8, { body := .data [{ label := .code 8, op := .localGet, arg := .int 1 }] })]
    [{ source := 0, target := 1 }, { source := 1, target := 2, cond := some true },
      { source := 1, target := 6, cond := some false }, { source := 2, target := 3 },
      { source := 3, target := 4, cond := some true }, { source := 3, target := 5, cond := some false },
      { source := 4, target := 5 }, { source := 5, target := 7 }, { source := 6, target := 7 },
      { source := 7, target := 8 }] 0 8 "nested" 0

theorem nested_wellFormed : nested.WellFormed where
  built := ⟨_, _, _, _, _, _, _, rfl⟩
  ends := forall_leaving_of_entries (by decide)
  entry_block := by decide
  exit_block := by decide
  entry_free := by decide
  reachable := reachable_of_smaller (by decide)

theorem nested_wellBranched : nested.WellBranched where
  reaches u hu := by
    have h₇ : Reaches nested.successors 8 7 := .step (by decide) ⟨_, .here⟩
    have h₅ : Reaches nested.successors 8 5 := .step (by decide) h₇
    have h₃ : Reaches nested.successors 8 3 := .step (by decide) h₅
    have h₂ : Reaches nested.successors 8 2 := .step (by decide) h₃
    have h₁ : Reaches nested.successors 8 1 := .step (by decide) h₂
    have hkeys : u ∈ [0, 1, 2, 3, 4, 5, 6, 7, 8] := hasBlock_iff_mem_keys.mp hu
    simp only [List.mem_cons, List.not_mem_nil, or_false] at hkeys
    rcases hkeys with rfl | rfl | rfl | rfl | rfl | rfl | rfl | rfl | rfl
    · exact .step (by decide) h₁
    · exact h₁
    · exact h₂
    · exact h₃
    · exact .step (by decide) h₅
    · exact h₅
    · exact .step (by decide) h₇
    · exact h₇
    · exact ⟨_, .here⟩
  exit_final := by decide
  branch u v w hv hw := by
    obtain ⟨e, he, rfl⟩ := mem_successors.mp hv
    revert w
    exact forall_leaving_of_entries
      (P := fun u e => ∀ w ∈ nested.successors u, e.target ≠ w → nested.isPredicate u = true) (by decide) u e he

/-! ## The branches in a slice -/

/-- A branch from which a path leads to a kept instruction that uses something, without passing a block that strictly
post-dominates the branch, is kept. -/
theorem keep_deciding_branch {limit : Nat} {criterion : Label} {chains : Option Chains} {vs : List Var} {m : Int}
    {p : List Int} (hg : g.WellFormed) (hl : g.DistinctLabels) (ho : g.OrdinaryLabels) (hw : g.WellBranched)
    (hr : g.solve c limit = .ok r) (hconv : r.converged = true)
    (hkeep : (g.withRun r).keep criterion chains none = .ok keep)
    (hb : g.blocks.find? n = some b) (hi : i ∈ b.instrs) (hkept : i.label ∈ keep)
    (huses : (g.withRun r).labelUses i.label = .ok vs) (hvs : vs ≠ [])
    (ha : g.isPredicate a = true) (hm : m ∈ g.successors a) (hp : Route g.successors n m p)
    (hfree : ∀ x ∈ p, ¬ StrictlyPostDominates g.successors g.exit x a) :
    ∃ l, g.branchLabel a = .ok l ∧ l ∈ keep := by
  have hsolved := solved_of_converged hg.connected hl hr hconv
  obtain ⟨d, hcontrol, hd⟩ := exists_isClosure_of_keep hkeep
  obtain ⟨v, hv⟩ := List.exists_mem_of_ne_nil vs hvs
  have hn := hsolved.keepsGoverning ho hcontrol hd hb hi hkept huses hv
  refine hsolved.keepsBranch_of_governed ho hw hcontrol hd hn ?_
  exact governed_of_route (hg.reaches_of_edge hw) hw.exit_final hw.branch ha hm hp hfree

/-- The outer condition is kept for what is done under both, although only the inner one governs it directly. -/
theorem keep_deciding_branch_nested : ∃ r keep, nested.solve {} 20 = .ok r ∧ r.converged = true ∧
    (nested.withRun r).keep (.code 8) none none = .ok keep ∧ Label.code 5 ∈ keep ∧ nested.blockDeps.of 4 = [3] ∧
    ∃ l, nested.branchLabel 1 = .ok l ∧ l ∈ keep := by
  have hrun : (do
      let r ← nested.solve {} 20
      let keep ← (nested.withRun r).keep (.code 8) none none
      let uses ← (nested.withRun r).labelUses (.code 5)
      return (r.converged, keep.contains (.code 5), uses.isEmpty)) = Except.ok (true, true, false) := by decide +kernel
  obtain ⟨r, hr, hrun⟩ := bind_eq_ok.mp hrun
  obtain ⟨keep, hkeep, hrun⟩ := bind_eq_ok.mp hrun
  obtain ⟨uses, huses, hrun⟩ := bind_eq_ok.mp hrun
  simp only [pure_eq_ok, Prod.mk.injEq] at hrun
  obtain ⟨hconv, hmem, hempty⟩ := hrun
  have hkept : Label.code 5 ∈ keep := List.contains_iff_mem.mp hmem
  have hpath : Route nested.successors 4 2 [2, 3, 4] := .step (m := 3) (by decide) (.step (by decide) .here)
  refine ⟨r, keep, hr, hconv, hkeep, hkept, by decide +kernel, ?_⟩
  refine keep_deciding_branch (i := .data { label := .code 5, op := .unary }) (n := 4) (m := 2) nested_wellFormed
    (by decide) (by decide) nested_wellBranched hr hconv hkeep rfl (by decide) hkept huses ?_ (by decide) (by decide)
    hpath ?_
  · rintro rfl
    cases hempty
  · intro x hx hcon
    have hskip : x ∈ [1, 6, 7, 8] :=
      hcon.2 _ (.step (m := 6) (by decide) (.step (m := 7) (by decide) (.step (by decide) .here)))
    have hdisjoint : ∀ x ∈ [2, 3, 4], x ∉ ([1, 6, 7, 8] : List Int) := by decide
    exact hdisjoint x hx hskip

/-- A branch from which two paths lead to a kept join point that renames something, without another block on both, is
kept. -/
theorem keep_selecting_branch {limit : Nat} {criterion : Label} {chains : Option Chains} {pairs : List (Var × Var)}
    {m₁ m₂ : Int} {p₁ p₂ : List Int} (hg : g.WellFormed) (hl : g.DistinctLabels) (ho : g.OrdinaryLabels)
    (hw : g.WellBranched) (hr : g.solve c limit = .ok r) (hconv : r.converged = true)
    (hkeep : (g.withRun r).keep criterion chains none = .ok keep)
    (hb : (g.withRun r).blocks.find? n = some b) (hkept : .merge n ∈ keep)
    (huses : (g.withRun r).mergeUses n b = .ok pairs) (hpairs : pairs ≠ [])
    (ha : g.isPredicate a = true) (hm₁ : m₁ ∈ g.successors a) (hp₁ : Route g.successors n m₁ p₁)
    (hm₂ : m₂ ∈ g.successors a) (hp₂ : Route g.successors n m₂ p₂) (hshare : ∀ x ∈ p₁, x ∈ p₂ → x = a ∨ x = n) :
    ∃ l, g.branchLabel a = .ok l ∧ l ∈ keep := by
  have hsolved := solved_of_converged hg.connected hl hr hconv
  obtain ⟨d, hcontrol, hd⟩ := exists_isClosure_of_keep hkeep
  obtain ⟨pair, hpair⟩ := List.exists_mem_of_ne_nil pairs hpairs
  obtain ⟨hn, hpreds⟩ :=
    keepsGoverning_of_merge hd hcontrol hkept (labelUses_merge hb huses) (List.mem_map_of_mem hpair)
  rcases governed_of_routes (hg.reaches_of_edge hw) hw.exit_final hw.branch ha hm₁ hp₁ hm₂ hp₂ hshare with
    hrun | ⟨u, hu, hrun⟩
  · exact hsolved.keepsBranch_of_governed ho hw hcontrol hd hn hrun
  · obtain ⟨cond, he⟩ := hg.connected.exists_predecessor hu
    obtain ⟨hgoverning, hself⟩ := hpreds ⟨u, cond⟩ he
    rcases Relation.reflTransGen_iff_eq_or_transGen.mp hrun with rfl | hrun
    · exact (keepsBranch_withRun ha r).mp (hself ((isPredicate_withRun ..).trans ha))
    · exact hsolved.keepsBranch_of_governed ho hw hcontrol hd hgoverning hrun

/-- The outer condition selects what comes into the last join point, which it does not govern. -/
theorem keep_selecting_branch_nested : ∃ r keep, nested.solve {} 20 = .ok r ∧ r.converged = true ∧
    (nested.withRun r).keep (.code 8) none none = .ok keep ∧ Label.merge 7 ∈ keep ∧ nested.blockDeps.of 7 = [] ∧
    ∃ l, nested.branchLabel 1 = .ok l ∧ l ∈ keep := by
  have hrun : (do
      let r ← nested.solve {} 20
      let keep ← (nested.withRun r).keep (.code 8) none none
      let pairs ← (nested.withRun r).mergeUses 7 (Block.withRun r 7 { body := .merge })
      return (r.converged, keep.contains (.merge 7), pairs.isEmpty)) = Except.ok (true, true, false) := by
    decide +kernel
  obtain ⟨r, hr, hrun⟩ := bind_eq_ok.mp hrun
  obtain ⟨keep, hkeep, hrun⟩ := bind_eq_ok.mp hrun
  obtain ⟨pairs, hpairs, hrun⟩ := bind_eq_ok.mp hrun
  simp only [pure_eq_ok, Prod.mk.injEq] at hrun
  obtain ⟨hconv, hmem, hempty⟩ := hrun
  have hkept : Label.merge 7 ∈ keep := List.contains_iff_mem.mp hmem
  have hthen : Route nested.successors 7 2 [2, 3, 5, 7] :=
    .step (m := 3) (by decide) (.step (m := 5) (by decide) (.step (by decide) .here))
  have helse : Route nested.successors 7 6 [6, 7] := .step (by decide) .here
  refine ⟨r, keep, hr, hconv, hkeep, hkept, by decide +kernel, ?_⟩
  refine keep_selecting_branch nested_wellFormed (by decide) (by decide) nested_wellBranched hr hconv hkeep
    (find?_withRun_of_find? rfl r) hkept hpairs ?_ (by decide) (by decide) hthen (by decide) helse (by decide)
  rintro rfl
  cases hempty

end Graph
end Backslice
