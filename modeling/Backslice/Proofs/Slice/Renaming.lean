import Backslice.Proofs.OnePass
import Backslice.Proofs.Slice.Influence
import Backslice.Proofs.Slice.Operands
import Mathlib.SetTheory.Cardinal.Arithmetic

/-! # Operands under a renaming

The join points of a slice number their names on their own. Up to this numbering, a kept instruction and a kept join
point use in the slice what they use in the graph, unless a result that is given back from above other values comes in
front of them and is not kept. -/

namespace Backslice

set_option autoImplicit false

/-! ## Renamings -/

/-- New numbers for the names of each join point, no two of them the same. -/
structure Renaming where
  number : Int → Int → Int
  injective : ∀ block, Function.Injective (number block)

def Renaming.apply (ρ : Renaming) : Var → Var
  | .phi block n => .phi block (ρ.number block n)
  | .cell address offset => .cell (ρ.apply address) offset
  | v => v

theorem exists_perm_of_finite {R : Int → Int → Prop} (hfinite : {n | ∃ m, R n m}.Finite)
    (hunique : ∀ n m m', R n m → R n m' → m = m') (hinjective : ∀ n n' m, R n m → R n' m → n = n') :
    ∃ π : Equiv.Perm Int, ∀ n m, R n m → π n = m := by
  have hchoice : ∀ n : {n | ∃ m, R n m}, ∃ m, R n m := fun n => n.2
  choose f hf using hchoice
  have hf' : Function.Injective f := fun n n' heq => Subtype.ext (hinjective n n' (f n) (hf n) (heq ▸ hf n'))
  have hsmall : Cardinal.mk {n | ∃ m, R n m} < Cardinal.mk Int := by
    rw [Cardinal.mk_int]
    exact hfinite.lt_aleph0
  obtain ⟨π, hπ⟩ := Cardinal.extend_function_of_lt ⟨f, hf'⟩ hsmall ⟨Equiv.refl Int⟩
  exact ⟨π, fun n m hnm => (hπ ⟨n, m, hnm⟩).trans (hunique n _ m (hf ⟨n, m, hnm⟩) hnm)⟩

theorem Run.finite_numbers (r : Run) (w : Int) :
    {n | ∃ t p, r.Exits w t ∧ t.nameAt p = some (.phi w n)}.Finite := by
  rcases Set.eq_empty_or_nonempty {n | ∃ t p, r.Exits w t ∧ t.nameAt p = some (.phi w n)} with
    hempty | ⟨n₀, t, p₀, ht, -⟩
  · rw [hempty]
    exact Set.finite_empty
  · have hinj : Function.Injective (Var.phi w) := fun n n' heq => (Var.phi.inj heq).2
    refine ((List.finite_toSet t.vars).preimage (f := Var.phi w) hinj.injOn).subset ?_
    rintro n ⟨t', p, ht', hp⟩
    exact State.mem_vars_of_nameAt (ht.unique ht' ▸ hp)

namespace Graph

variable {g slice : Graph} {r r' : Run} {keep : List Label}

theorem finite_twins (g : Graph) (r : Run) (keep : List Label) (r' : Run) (w : Int) :
    {n | ∃ m, g.Twin r keep r' (.phi w n) (.phi w m)}.Finite := by
  refine (r.finite_numbers w).subset ?_
  rintro n ⟨m, htwin⟩
  obtain ⟨t, t', p, q, hw, -, hp, -⟩ := htwin.of_bornAt (Or.inl ⟨n, rfl⟩)
  exact ⟨t, p, hw.2.1, hp⟩

/-- One renaming takes all names to their twins. -/
theorem Sliced.exists_renaming (h : g.Sliced r keep slice r') :
    ∃ ρ : Renaming, ∀ x y, g.Carried r keep r' x y → ρ.apply x = y := by
  have hblock : ∀ w, ∃ π : Equiv.Perm Int, ∀ n m, g.Twin r keep r' (.phi w n) (.phi w m) → π n = m := by
    intro w
    refine exists_perm_of_finite (finite_twins g r keep r' w) (fun n m m' htwin htwin' => ?_)
      fun n n' m htwin htwin' => ?_
    · exact (Var.phi.inj (htwin.unique h.exact.distinguishes htwin')).2
    · exact (Var.phi.inj (htwin.injective h.distinguishes' htwin')).2
  choose π hπ using hblock
  refine ⟨⟨fun w => π w, fun w => (π w).injective⟩, fun x y hxy => ?_⟩
  obtain ⟨htwin, hplain, hexit⟩ := hxy
  have hmade : ∀ {w}, g.BornAt w x → g.BornAt w y → Renaming.apply ⟨fun w => π w, fun w => (π w).injective⟩ x = y := by
    intro w hx hy
    have hw : w ≠ g.exit := by
      rintro rfl
      exact hexit hx
    obtain ⟨n, rfl⟩ := hx.resolve_right fun hcon => hw hcon.1
    obtain ⟨m, rfl⟩ := hy.resolve_right fun hcon => hw hcon.1
    exact congrArg (Var.phi w) (hπ w n m htwin)
  cases htwin with
  | start hx => cases x with
    | phi => cases hx
    | cell => cases hplain
    | _ => rfl
  | kept => rfl
  | cell _ _ hx hy => exact hmade hx hy
  | slot _ _ hx hy => exact hmade hx hy

/-! ## Slices of analyzed graphs -/

theorem Exact.sliced (h : g.Exact r) (hplain : g.NoPlaceholders) (hnodup : ∀ u, (g.predecessors u).Nodup)
    {criterion : Label} {control : Option BlockDeps} (hkeep : (g.withRun r).keep criterion none control = .ok keep)
    (hslice : (g.withRun r).slice criterion control = .ok slice) (limit : Nat) : ∃ r',
      slice.solve .bare limit = .ok r' ∧ (r'.converged = true ↔ slice.blocks.size ≤ limit) ∧
      (r'.converged = true → g.Sliced r keep slice r') := by
  have hrestrict : (g.withRun r).restrict keep = .ok slice := by
    obtain ⟨_, -, hslice⟩ := bind_eq_ok.mp hslice
    rwa [hkeep, ok_bind] at hslice
  obtain ⟨slice', hrestrict', hof⟩ := h.solved.restrict_ok h.fits hplain hnodup keep
  obtain rfl := Except.ok.inj (hrestrict'.symm.trans hrestrict)
  obtain ⟨r', hr', -⟩ := hof.solve_ok h.solved .bare limit
  have hacyclic := restrict_acyclic h.solved.connected h.acyclic hof.connected hrestrict
  exact ⟨r', hr', hacyclic.converged_iff hof.connected hr', fun hconv => sliced_of_restrict h hof hrestrict hr' hconv⟩

/-- The slices of an analyzed graph without cycles. Each is analyzed again in one pass, and a limit that lets it end
gives what can be compared with the analysis of the graph. -/
theorem exists_sliced (hg : g.WellFormed) (hl : g.DistinctLabels) (ho : g.OrdinaryLabels)
    (hplain : g.NoPlaceholders) (hrange : g.IndicesInRange) (harity : g.ArityNonneg) (hacyclic : g.Acyclic)
    {limit : Nat} (hr : g.solve .bare limit = .ok r) (hconv : r.converged = true) {criterion : Label}
    (hsite : g.IsSite criterion) :
    (∃ keep slice, (g.withRun r).keep criterion none none = .ok keep ∧
      (g.withRun r).slice criterion none = .ok slice) ∧
    ∀ control keep slice, (g.withRun r).keep criterion none control = .ok keep →
      (g.withRun r).slice criterion control = .ok slice → g.Supports r keep ∧
        ∀ limit', ∃ r', slice.solve .bare limit' = .ok r' ∧ (r'.converged = true ↔ slice.blocks.size ≤ limit') ∧
          (r'.converged = true → g.Sliced r keep slice r') := by
  have hfits : ∀ i ∈ g.instrs, i.Fits g.signature := fun i hi => fits_of_legal hrange harity hi
  have h := exact_of_converged hg.connected hl hfits hacyclic hr hconv
  have hrange' : ∀ i ∈ g.instrs, i.InRange g.signature := fun i hi => (hfits i hi).inRange
  obtain ⟨keep, slice, hkeep, hslice, -⟩ := h.solved.exists_slice ho hrange' hsite
  refine ⟨⟨keep, slice, hkeep, hslice⟩, fun control keep slice hkeep hslice => ?_⟩
  exact ⟨h.solved.supports ho hrange' hkeep, h.sliced hplain (Edges.nodup_predecessors hg.built) hkeep hslice⟩

/-- In an analyzed graph without cycles a kept instruction uses the same names in the slice, up to the numbers that join
points give to theirs. The blocks are left out that follow a `return` which is not kept and has more than the result on
the stack. The slice is analyzed to the end if the limit is not less than the number of its blocks. -/
theorem slice_keeps_operands (hg : g.WellFormed) (hl : g.DistinctLabels) (ho : g.OrdinaryLabels)
    (hplain : g.NoPlaceholders) (hrange : g.IndicesInRange) (harity : g.ArityNonneg) (hacyclic : g.Acyclic)
    (hlast : g.ReturnsLast) {limit : Nat} (hr : g.solve .bare limit = .ok r) (hconv : r.converged = true)
    {criterion : Label} (hsite : g.IsSite criterion) :
    (∃ keep slice, (g.withRun r).keep criterion none none = .ok keep ∧
      (g.withRun r).slice criterion none = .ok slice) ∧
    ∀ control keep slice, (g.withRun r).keep criterion none control = .ok keep →
      (g.withRun r).slice criterion control = .ok slice → ∀ limit', ∃ r', slice.solve .bare limit' = .ok r' ∧
        (r'.converged = true ↔ slice.blocks.size ≤ limit') ∧
        (r'.converged = true → ∃ ρ : Renaming, ∀ v b i, g.blocks.find? v = some b → i ∈ b.instrs → i.label ∈ keep →
          (∀ e ∈ g.predecessors v, ¬ g.Buries r keep e.target) →
          ∃ vs, (g.withRun r).labelUses i.label = .ok vs ∧
            (slice.withRun r').labelUses i.label = .ok (vs.map ρ.apply)) := by
  obtain ⟨hexists, hall⟩ := exists_sliced hg hl ho hplain hrange harity hacyclic hr hconv hsite
  refine ⟨hexists, fun control keep slice hkeep hslice limit' => ?_⟩
  obtain ⟨hsup, hruns⟩ := hall control keep slice hkeep hslice
  obtain ⟨r', hr', hstop, hsliced⟩ := hruns limit'
  refine ⟨r', hr', hstop, fun hconv' => ?_⟩
  obtain ⟨ρ, hρ⟩ := (hsliced hconv').exists_renaming
  refine ⟨ρ, fun v b i hb hi hkept hlevel => ?_⟩
  obtain ⟨vs, vs', hvs, hvs', htwins⟩ :=
    (hsliced hconv').labelUses_kept hsup hlast ho hb hi hkept hlevel
  have hmap : List.Forall₂ Eq (vs.map ρ.apply) vs' := List.forall₂_map_left_iff.mpr (htwins.imp hρ)
  rw [List.forall₂_eq_eq_eq] at hmap
  exact ⟨vs, hvs, hmap ▸ hvs'⟩

theorem nested_acyclic : nested.Acyclic := acyclic_of_increasing (forall_leaving_of_entries (by decide))

theorem nested_not_buries (r : Run) (keep : List Label) (v : Int) : ¬ nested.Buries r keep v := by
  rintro ⟨b, i, -, -, hb, hi, hyields, -⟩
  have hnone : ∀ i ∈ nested.instrs, i.isReturn = false := by decide
  cases (hnone i (mem_instrs hb hi)).symm.trans (Instr.isReturn_of_yields hyields)

/-- The slice for the last instruction, with the join point in front of it. -/
theorem nested_bare_slice : ∃ r keep slice, nested.solve .bare 20 = .ok r ∧ r.converged = true ∧
    (nested.withRun r).keep (.code 8) none none = .ok keep ∧ .code 8 ∈ keep ∧ .merge 7 ∈ keep ∧
    (nested.withRun r).slice (.code 8) none = .ok slice ∧ slice.blocks.size ≤ 20 := by
  have hrun : (do
      let r ← nested.solve .bare 20
      let keep ← (nested.withRun r).keep (.code 8) none none
      let slice ← (nested.withRun r).slice (.code 8) none
      return (r.converged, keep.contains (.code 8), keep.contains (.merge 7), decide (slice.blocks.size ≤ 20))) =
      Except.ok (true, true, true, true) := by decide +kernel
  obtain ⟨r, hr, hrun⟩ := bind_eq_ok.mp hrun
  obtain ⟨keep, hkeep, hrun⟩ := bind_eq_ok.mp hrun
  obtain ⟨slice, hslice, hrun⟩ := bind_eq_ok.mp hrun
  simp only [pure_eq_ok, Prod.mk.injEq, List.contains_iff_mem, decide_eq_true_eq] at hrun
  obtain ⟨hconv, hkept, hjoin, hsize⟩ := hrun
  exact ⟨r, keep, slice, hr, hconv, hkeep, hkept, hjoin, hslice, hsize⟩

/-- The local that is read last comes from the join points of both branches. -/
theorem slice_keeps_operands_nested : ∃ r keep slice r', nested.solve .bare 20 = .ok r ∧ r.converged = true ∧
    (nested.withRun r).keep (.code 8) none none = .ok keep ∧ .code 8 ∈ keep ∧
    (nested.withRun r).slice (.code 8) none = .ok slice ∧ slice.solve .bare 20 = .ok r' ∧ r'.converged = true ∧
    ∃ ρ : Renaming, ∃ vs, (nested.withRun r).labelUses (.code 8) = .ok vs ∧
      (slice.withRun r').labelUses (.code 8) = .ok (vs.map ρ.apply) := by
  obtain ⟨r, keep, slice, hr, hconv, hkeep, hkept, -, hslice, hsize⟩ := nested_bare_slice
  obtain ⟨-, hall⟩ := slice_keeps_operands nested_wellFormed (by decide) (by decide) (by decide) (by decide) (by decide)
    nested_acyclic (by decide) hr hconv (show nested.IsSite (.code 8) by decide)
  obtain ⟨r', hr', hstop, hrenamed⟩ := hall none keep slice hkeep hslice 20
  have hconv' := hstop.mpr hsize
  obtain ⟨ρ, hρ⟩ := hrenamed hconv'
  refine ⟨r, keep, slice, r', hr, hconv, hkeep, hkept, hslice, hr', hconv', ρ, ?_⟩
  exact hρ 8 _ (.data { label := .code 8, op := .localGet, arg := .int 1 }) rfl (by decide) hkept
    fun e _ => nested_not_buries r keep e.target

/-- In an analyzed graph without cycles a kept join point uses the same names in the slice, up to the numbers that join
points give to theirs. Left out is the exit, if it follows a `return` which is not kept and has more than the result on
the stack. The slice is analyzed to the end if the limit is not less than the number of its blocks. -/
theorem slice_keeps_join_operands (hg : g.WellFormed) (hl : g.DistinctLabels) (ho : g.OrdinaryLabels)
    (hplain : g.NoPlaceholders) (hrange : g.IndicesInRange) (harity : g.ArityNonneg) (hacyclic : g.Acyclic)
    (hlast : g.ReturnsLast) {limit : Nat} (hr : g.solve .bare limit = .ok r) (hconv : r.converged = true)
    {criterion : Label} (hsite : g.IsSite criterion) :
    (∃ keep slice, (g.withRun r).keep criterion none none = .ok keep ∧
      (g.withRun r).slice criterion none = .ok slice) ∧
    ∀ control keep slice, (g.withRun r).keep criterion none control = .ok keep →
      (g.withRun r).slice criterion control = .ok slice → ∀ limit', ∃ r', slice.solve .bare limit' = .ok r' ∧
        (r'.converged = true ↔ slice.blocks.size ≤ limit') ∧
        (r'.converged = true → ∃ ρ : Renaming, ∀ v b, g.blocks.find? v = some b → b.isMerge = true →
          .merge v ∈ keep → (∀ e ∈ g.predecessors v, ¬ g.Buries r keep e.target) →
          ∃ vs vs', (g.withRun r).labelUses (.merge v) = .ok vs ∧ (slice.withRun r').labelUses (.merge v) = .ok vs' ∧
            ∀ y, y ∈ vs' ↔ y ∈ vs.map ρ.apply) := by
  obtain ⟨hexists, hall⟩ := exists_sliced hg hl ho hplain hrange harity hacyclic hr hconv hsite
  refine ⟨hexists, fun control keep slice hkeep hslice limit' => ?_⟩
  obtain ⟨hsup, hruns⟩ := hall control keep slice hkeep hslice
  obtain ⟨r', hr', hstop, hsliced⟩ := hruns limit'
  refine ⟨r', hr', hstop, fun hconv' => ?_⟩
  obtain ⟨ρ, hρ⟩ := (hsliced hconv').exists_renaming
  refine ⟨ρ, fun v b hb hm hkept hlevel => ?_⟩
  obtain ⟨vs, vs', hvs, hvs', hforth, hback⟩ :=
    (hsliced hconv').labelUses_join hsup hlast hb hm hkept hlevel
  refine ⟨vs, vs', hvs, hvs', fun y => ⟨fun hy => ?_, fun hy => ?_⟩⟩
  · obtain ⟨x, hx, hxy⟩ := hback y hy
    exact List.mem_map.mpr ⟨x, hx, hρ x y hxy⟩
  · obtain ⟨x, hx, rfl⟩ := List.mem_map.mp hy
    obtain ⟨y, hy, hxy⟩ := hforth x hx
    exact hρ x y hxy ▸ hy

/-- The join point of the outer branch, with what the join point of the inner one makes in front of it. -/
theorem slice_keeps_join_operands_nested : ∃ r keep slice r', nested.solve .bare 20 = .ok r ∧ r.converged = true ∧
    (nested.withRun r).keep (.code 8) none none = .ok keep ∧ .merge 7 ∈ keep ∧
    (nested.withRun r).slice (.code 8) none = .ok slice ∧ slice.solve .bare 20 = .ok r' ∧ r'.converged = true ∧
    ∃ ρ : Renaming, ∃ vs vs', (nested.withRun r).labelUses (.merge 7) = .ok vs ∧
      (slice.withRun r').labelUses (.merge 7) = .ok vs' ∧ ∀ y, y ∈ vs' ↔ y ∈ vs.map ρ.apply := by
  obtain ⟨r, keep, slice, hr, hconv, hkeep, -, hkept, hslice, hsize⟩ := nested_bare_slice
  obtain ⟨-, hall⟩ := slice_keeps_join_operands nested_wellFormed (by decide) (by decide) (by decide) (by decide)
    (by decide) nested_acyclic (by decide) hr hconv (show nested.IsSite (.code 8) by decide)
  obtain ⟨r', hr', hstop, hrenamed⟩ := hall none keep slice hkeep hslice 20
  have hconv' := hstop.mpr hsize
  obtain ⟨ρ, hρ⟩ := hrenamed hconv'
  exact ⟨r, keep, slice, r', hr, hconv, hkeep, hkept, hslice, hr', hconv', ρ,
    hρ 7 _ rfl rfl hkept fun e _ => nested_not_buries r keep e.target⟩

/-! ## A result from above other values -/

/-- Puts the size of the memory on the stack twice and gives back the upper value. The exit is a join point, or changes
the result. -/
def upperResult (joins : Bool) : Graph :=
  .ofArrows { results := [.i32] }
    [(0, { body := .data [{ label := .code 0, op := .memorySize }, { label := .code 1, op := .memorySize }] }),
      (1, { body := .control { label := .code 2, op := .ret } }),
      (2, { body := if joins then .merge else .data [{ label := .code 3, op := .unary }] })]
    [{ source := 0, target := 1 }, { source := 1, target := 2 }] 0 2 "upperResult" 0

theorem upperResult_wellFormed (joins : Bool) : (upperResult joins).WellFormed where
  built := ⟨_, _, _, _, _, _, _, rfl⟩
  ends := forall_leaving_of_entries (by cases joins <;> decide)
  entry_block := by cases joins <;> decide
  exit_block := by cases joins <;> decide
  entry_free := by cases joins <;> decide
  reachable := reachable_of_smaller (by cases joins <;> decide)

theorem upperResult_acyclic (joins : Bool) : (upperResult joins).Acyclic :=
  acyclic_of_increasing (forall_leaving_of_entries (by cases joins <;> decide))

/-- The `return` becomes one placeholder that drops the upper value, and what follows is left with the placeholder that
stands for the lower one. -/
theorem upperResult_uses (joins : Bool) (l : Label) (hl : l = if joins then .merge 2 else .code 3) :
    ∃ r keep slice r', (upperResult joins).solve .bare 20 = .ok r ∧ r.converged = true ∧
      ((upperResult joins).withRun r).keep l none none = .ok keep ∧ l ∈ keep ∧
      ((upperResult joins).withRun r).slice l none = .ok slice ∧ slice.solve .bare 20 = .ok r' ∧ r'.converged = true ∧
      ((upperResult joins).withRun r).labelUses l = .ok [.pushed (.code 1)] ∧
      (slice.withRun r').labelUses l = .ok [.pushed (.dummy 0)] := by
  have hrun : (do
      let r ← (upperResult joins).solve .bare 20
      let keep ← ((upperResult joins).withRun r).keep l none none
      let slice ← ((upperResult joins).withRun r).slice l none
      let r' ← slice.solve .bare 20
      let uses ← ((upperResult joins).withRun r).labelUses l
      let uses' ← (slice.withRun r').labelUses l
      return (r.converged, keep.contains l, r'.converged, uses, uses')) =
      Except.ok (true, true, true, [.pushed (.code 1)], [.pushed (.dummy 0)]) := by
    subst hl
    cases joins <;> decide +kernel
  obtain ⟨r, hr, hrun⟩ := bind_eq_ok.mp hrun
  obtain ⟨keep, hkeep, hrun⟩ := bind_eq_ok.mp hrun
  obtain ⟨slice, hslice, hrun⟩ := bind_eq_ok.mp hrun
  obtain ⟨r', hr', hrun⟩ := bind_eq_ok.mp hrun
  obtain ⟨uses, huses, hrun⟩ := bind_eq_ok.mp hrun
  obtain ⟨uses', huses', hrun⟩ := bind_eq_ok.mp hrun
  simp only [pure_eq_ok, Prod.mk.injEq, List.contains_iff_mem] at hrun
  obtain ⟨hconv, hkept, hconv', rfl, rfl⟩ := hrun
  exact ⟨r, keep, slice, r', hr, hconv, hkeep, hkept, hslice, hr', hconv', huses, huses'⟩

theorem dropped_return_replaces_operand : (upperResult false).WellFormed ∧ (upperResult false).DistinctLabels ∧
    (upperResult false).OrdinaryLabels ∧ (upperResult false).NoPlaceholders ∧ (upperResult false).IndicesInRange ∧
    (upperResult false).ArityNonneg ∧ (upperResult false).Acyclic ∧ (upperResult false).ReturnsLast ∧
    ∃ r keep slice r', (upperResult false).solve .bare 20 = .ok r ∧ r.converged = true ∧
      ((upperResult false).withRun r).keep (.code 3) none none = .ok keep ∧ .code 3 ∈ keep ∧
      ((upperResult false).withRun r).slice (.code 3) none = .ok slice ∧
      slice.solve .bare 20 = .ok r' ∧ r'.converged = true ∧ ∃ vs vs',
        ((upperResult false).withRun r).labelUses (.code 3) = .ok vs ∧
        (slice.withRun r').labelUses (.code 3) = .ok vs' ∧ ∀ ρ : Renaming, vs' ≠ vs.map ρ.apply := by
  obtain ⟨r, keep, slice, r', hr, hconv, hkeep, hkept, hslice, hr', hconv', huses, huses'⟩ :=
    upperResult_uses false (.code 3) rfl
  refine ⟨upperResult_wellFormed false, by decide, by decide, by decide, by decide, by decide,
    upperResult_acyclic false, by decide, r, keep, slice, r', hr, hconv, hkeep, hkept, hslice, hr', hconv', _, _, huses,
    huses', fun ρ hcon => ?_⟩
  cases hcon

/-- The same where the result comes to a join point at the exit. -/
theorem dropped_return_replaces_join_operand : (upperResult true).WellFormed ∧ (upperResult true).DistinctLabels ∧
    (upperResult true).OrdinaryLabels ∧ (upperResult true).NoPlaceholders ∧ (upperResult true).IndicesInRange ∧
    (upperResult true).ArityNonneg ∧ (upperResult true).Acyclic ∧ (upperResult true).ReturnsLast ∧
    ∃ r keep slice r', (upperResult true).solve .bare 20 = .ok r ∧ r.converged = true ∧
      ((upperResult true).withRun r).keep (.merge 2) none none = .ok keep ∧ .merge 2 ∈ keep ∧
      ((upperResult true).withRun r).slice (.merge 2) none = .ok slice ∧
      slice.solve .bare 20 = .ok r' ∧ r'.converged = true ∧ ∃ vs vs',
        ((upperResult true).withRun r).labelUses (.merge 2) = .ok vs ∧
        (slice.withRun r').labelUses (.merge 2) = .ok vs' ∧
        ∀ ρ : Renaming, ¬ ∀ y, y ∈ vs' ↔ y ∈ vs.map ρ.apply := by
  obtain ⟨r, keep, slice, r', hr, hconv, hkeep, hkept, hslice, hr', hconv', huses, huses'⟩ :=
    upperResult_uses true (.merge 2) rfl
  refine ⟨upperResult_wellFormed true, by decide, by decide, by decide, by decide, by decide,
    upperResult_acyclic true, by decide, r, keep, slice, r', hr, hconv, hkeep, hkept, hslice, hr', hconv', _, _, huses,
    huses', fun ρ hcon => ?_⟩
  have hmem := (hcon (.pushed (.dummy 0))).mp (List.mem_singleton_self _)
  cases List.mem_singleton.mp hmem

end Graph
end Backslice
