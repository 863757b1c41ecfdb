import Backslice.Proofs.Solver

/-! # The visits of a run

A run is a sequence of visits, and all that it has recorded was found out on one of them. -/

namespace Backslice

set_option autoImplicit false

/-! ## One more visit -/

namespace Run

variable {g : Graph} {c : Config} {order : List Int} {r r' : Run}

/-- A run with one more visit goes on from the run without it, unless that one had nothing left to visit. -/
theorem advance_succ_eq_ok {limit : Nat} : advance g c order (limit + 1) r = .ok r' ↔
    ∃ x, advance g c order limit r = .ok x ∧ ((x.pending = [] ∧ r' = x) ∨
      ∃ index rest, x.pending = index :: rest ∧ x.step g c order index rest = .ok r') := by
  induction limit generalizing r with
  | zero =>
    constructor
    · intro h
      refine ⟨r, rfl, ?_⟩
      rw [advance] at h
      split at h
      · rename_i hp
        exact Or.inl ⟨hp, (pure_eq_ok.mp h).symm⟩
      · rename_i index rest hp
        obtain ⟨x, hx, h⟩ := bind_eq_ok.mp h
        exact Or.inr ⟨index, rest, hp, hx.trans (congrArg _ (pure_eq_ok.mp h))⟩
    · rintro ⟨x, hx, h⟩
      obtain rfl := pure_eq_ok.mp hx
      rcases h with ⟨hp, rfl⟩ | ⟨index, rest, hp, hstep⟩
      · simp only [advance, hp]
        rfl
      · simp only [advance, hp]
        exact bind_eq_ok.mpr ⟨r', hstep, rfl⟩
  | succ limit ih =>
    cases hp : r.pending with
    | nil =>
      have hstay : ∀ k, advance g c order (k + 1) r = .ok r := by
        intro k
        simp only [advance, hp]
        rfl
      rw [hstay]
      constructor
      · intro h
        exact ⟨r, hstay limit, Or.inl ⟨hp, (Except.ok.inj h).symm⟩⟩
      · rintro ⟨x, hx, h⟩
        obtain rfl := Except.ok.inj ((hstay limit).symm.trans hx)
        rcases h with ⟨-, rfl⟩ | ⟨index, rest, hp', -⟩
        · rfl
        · rw [hp] at hp'
          cases hp'
    | cons index rest =>
      have hfirst : ∀ k y, advance g c order (k + 1) r = .ok y ↔
          ∃ x, r.step g c order index rest = .ok x ∧ advance g c order k x = .ok y := by
        intro k y
        simp only [advance, hp]
        exact bind_eq_ok
      rw [hfirst]
      constructor
      · rintro ⟨x, hx, h⟩
        obtain ⟨y, hy, hlast⟩ := ih.mp h
        exact ⟨y, (hfirst limit y).mpr ⟨x, hx, hy⟩, hlast⟩
      · rintro ⟨y, hy, hlast⟩
        obtain ⟨x, hx, hy⟩ := (hfirst limit y).mp hy
        exact ⟨x, hx, ih.mpr ⟨y, hy, hlast⟩⟩

end Run

/-! ## Visits -/

namespace Graph

variable {g : Graph} {c : Config} {k : Nat} {r : Run} {index : Int} {b : Block} {v : Visit}

/-- After `k` visits the run is `r` and visits the block `index` next, where it finds out `v`. -/
structure VisitAt (g : Graph) (c : Config) (k : Nat) (r : Run) (index : Int) (b : Block) (v : Visit) : Prop where
  solve : g.solve c k = .ok r
  pending : ∃ rest, r.pending = index :: rest
  block : g.blocks.find? index = some b
  visit : g.visit c index b (g.incoming r.outcomes index) = .ok v

theorem solve_zero (g : Graph) (c : Config) : g.solve c 0 = .ok { pending := g.order } := rfl

theorem solve_succ {r' : Run} (h : g.solve c (k + 1) = .ok r') : ∃ r, g.solve c k = .ok r ∧
    ((r.pending = [] ∧ r' = r) ∨ ∃ index rest b v, r.pending = index :: rest ∧ g.VisitAt c k r index b v ∧
      r' = r.record g g.order index rest v) := by
  obtain ⟨r, hr, h⟩ := Run.advance_succ_eq_ok.mp h
  refine ⟨r, hr, h.imp_right ?_⟩
  rintro ⟨index, rest, hp, hstep⟩
  obtain ⟨b, v, hb, hv, rfl⟩ := Run.step_eq_ok.mp hstep
  exact ⟨index, rest, b, v, hp, ⟨hr, ⟨rest, hp⟩, hb, hv⟩, rfl⟩

theorem solve_ok_of_le {k' : Nat} (hle : k ≤ k') {r' : Run} (h : g.solve c k' = .ok r') :
    ∃ r, g.solve c k = .ok r := by
  induction hle generalizing r' with
  | refl => exact ⟨r', h⟩
  | step _ ih =>
    obtain ⟨r, hr, -⟩ := solve_succ h
    exact ih hr

/-- What holds at the start and survives every visit holds of every run. -/
theorem solve_induction {P : Nat → Run → Prop} (hstart : P 0 { pending := g.order })
    (hdone : ∀ k r, g.solve c k = .ok r → r.pending = [] → P k r → P (k + 1) r)
    (hvisit : ∀ k r index rest b v, r.pending = index :: rest → g.VisitAt c k r index b v → P k r →
      P (k + 1) (r.record g g.order index rest v)) (hr : g.solve c k = .ok r) : P k r := by
  induction k generalizing r with
  | zero => exact Except.ok.inj hr ▸ hstart
  | succ k ih =>
    obtain ⟨x, hx, ⟨hp, rfl⟩ | ⟨index, rest, b, v, hp, hv, rfl⟩⟩ := solve_succ hr
    · exact hdone k r hx hp (ih hx)
    · exact hvisit k x index rest b v hp hv (ih hx)

/-! ## What a run has recorded -/

/-- What has come to hold of a run has come with a visit. -/
theorem exists_visit_of_gained {P : Run → Prop} {Q : Int → Visit → Prop} (hstart : ¬ P { pending := g.order })
    (hgain : ∀ r index rest v, P (r.record g g.order index rest v) → P r ∨ Q index v) (hr : g.solve c k = .ok r)
    (hp : P r) : ∃ j < k, ∃ x index b v, g.VisitAt c j x index b v ∧ Q index v := by
  revert hp
  refine solve_induction (P := fun k r => P r → ∃ j < k, ∃ x index b v, g.VisitAt c j x index b v ∧ Q index v)
    (fun hp => absurd hp hstart) ?_ ?_ hr
  · intro k r _ _ ih hp
    obtain ⟨j, hj, hvisit⟩ := ih hp
    exact ⟨j, by omega, hvisit⟩
  · intro k r index rest b v _ hv ih hp
    rcases hgain r index rest v hp with hold | hnew
    · obtain ⟨j, hj, hvisit⟩ := ih hold
      exact ⟨j, by omega, hvisit⟩
    · exact ⟨k, by omega, r, index, b, v, hv, hnew⟩

/-- What leaves a block was found out on a visit of it, and is recorded together with the states around the block. -/
theorem exists_visit (hr : g.solve c k = .ok r) {o : Outcome} (ho : r.outcomes.find? index = some o) :
    ∃ j < k, ∃ x b v, g.VisitAt c j x index b v ∧ v.outcome = o ∧ r.blocks.find? index = some v.note := by
  revert ho
  refine solve_induction (P := fun k r => r.outcomes.find? index = some o → ∃ j < k, ∃ x b v,
    g.VisitAt c j x index b v ∧ v.outcome = o ∧ r.blocks.find? index = some v.note) ?_ ?_ ?_ hr
  · intro ho
    cases ho
  · intro k r _ _ ih ho
    obtain ⟨j, hj, hvisit⟩ := ih ho
    exact ⟨j, by omega, hvisit⟩
  · intro k r u rest b v _ hv ih ho
    by_cases hu : u = index
    · subst hu
      exact ⟨k, by omega, r, b, v, hv, by simpa [Run.record] using ho, by simp [Run.record]⟩
    · obtain ⟨j, hj, x, b', v', hv', ho', hnote⟩ := ih (by simpa [Run.record, hu] using ho)
      exact ⟨j, by omega, x, b', v', hv', ho', by simpa [Run.record, hu] using hnote⟩

theorem exists_visit_of_note (hr : g.solve c k = .ok r) {note : Note} (hnote : r.blocks.find? index = some note) :
    ∃ j < k, ∃ x b v, g.VisitAt c j x index b v ∧ v.note = note := by
  have hgain : ∀ (r : Run) u rest v, (r.record g g.order u rest v).blocks.find? index = some note →
      r.blocks.find? index = some note ∨ u = index ∧ v.note = note := by
    intro r u rest v h
    by_cases hu : u = index
    · subst hu
      exact Or.inr ⟨rfl, by simpa [Run.record] using h⟩
    · exact Or.inl (by simpa [Run.record, hu] using h)
  obtain ⟨j, hj, x, _, b, v, hv, rfl, hv'⟩ := exists_visit_of_gained (P := fun r => r.blocks.find? index = some note)
    (Q := fun u v => u = index ∧ v.note = note) (fun hcon => by cases hcon) hgain hr hnote
  exact ⟨j, hj, x, b, v, hv, hv'⟩

/-- The states around an instruction were found out on a visit of a block. -/
theorem exists_visit_of_instr (hr : g.solve c k = .ok r) {label : Label} {note : Note}
    (hnote : r.instrs.find? label = some note) :
    ∃ j < k, ∃ x index b v, g.VisitAt c j x index b v ∧ (label, note) ∈ v.instrs :=
  exists_visit_of_gained (P := fun r => r.instrs.find? label = some note) (Q := fun _ v => (label, note) ∈ v.instrs)
    (fun hcon => by cases hcon) (fun _ _ _ _ h => (Table.mem_of_find?_foldl_insert _ _ h).symm) hr hnote

/-- A block that is not pending was visited before, and what came in on that visit equals what would come in now. -/
theorem exists_visit_current (hg : g.Connected) (hr : g.solve c k = .ok r) (hindex : index ∈ g.order)
    (hp : index ∉ r.pending) : ∃ j < k, ∃ x b v, g.VisitAt c j x index b v ∧
      r.outcomes.find? index = some v.outcome ∧
      List.Forall₂ Flow.Alike (g.incoming x.outcomes index) (g.incoming r.outcomes index) := by
  revert hp
  refine solve_induction (P := fun k r => index ∉ r.pending → ∃ j < k, ∃ x b v, g.VisitAt c j x index b v ∧
    r.outcomes.find? index = some v.outcome ∧
    List.Forall₂ Flow.Alike (g.incoming x.outcomes index) (g.incoming r.outcomes index)) ?_ ?_ ?_ hr
  · exact fun hp => absurd hindex hp
  · intro k r _ _ ih hp
    obtain ⟨j, hj, hvisit⟩ := ih hp
    exact ⟨j, by omega, hvisit⟩
  · intro k r u rest b v hpending hv ih hp
    have hunderway := Run.Underway.of_solve hg hv.solve
    obtain ⟨s, t, -, hfound⟩ := visit_runs (hunderway.known_incoming hg hpending) hv.visit
    have halike := hunderway.incoming_alike hg hfound.along hindex hp
    by_cases hu : u = index
    · subst hu
      exact ⟨k, by omega, r, b, v, hv, by simp [Run.record], halike⟩
    · have hold : index ∉ r.pending := by
        intro hcon
        rw [hpending] at hcon
        rcases List.mem_cons.mp hcon with heq | hrest
        · exact hu heq.symm
        · exact hp ((Run.mem_pending_record hindex).mpr (Or.inl hrest))
      obtain ⟨j, hj, x, b', v', hv', ho, halike'⟩ := ih hold
      exact ⟨j, by omega, x, b', v', hv', by simpa [Run.record, hu] using ho, Flow.forall₂_alike_trans halike' halike⟩

/-! ## One visit -/

theorem VisitAt.underway (hg : g.Connected) (h : g.VisitAt c k r index b v) : r.Underway g :=
  Run.Underway.of_solve hg h.solve

theorem VisitAt.known_incoming (hg : g.Connected) (h : g.VisitAt c k r index b v) :
    (g.incoming r.outcomes index = [] ∧ index = g.entry) ∨
      (g.incoming r.outcomes index).filterMap Flow.state? ≠ [] := by
  obtain ⟨rest, hp⟩ := h.pending
  exact (h.underway hg).known_incoming hg hp

/-- A visit takes the block from a state that comes from its predecessors to the state that it leaves. -/
theorem VisitAt.runs (hg : g.Connected) (h : g.VisitAt c k r index b v) :
    ∃ s t, g.merge index b (g.incoming r.outcomes index) = .ok (.known s) ∧
      g.Starts index b ((g.incoming r.outcomes index).filterMap Flow.state?) s ∧
      g.Found c b ((g.incoming r.outcomes index).filterMap Flow.state?) s t v := by
  have hin := h.known_incoming hg
  obtain ⟨s, hmerge, hs⟩ := visit_start hin h.visit
  obtain ⟨t, ht⟩ := visit_found hmerge (hin.imp_left fun hnil => hnil.1) h.visit
  exact ⟨s, t, hmerge, hs, ht⟩

end Graph
end Backslice
