import Backslice.Proofs.Solver

/-! # Every name is made before it is met

When the analysis has converged, a path from the entry to a point has passed the origin of every name that is
recorded there. The states follow the path: an instruction adds no name but its own, and a join point none but
those it makes, since what it keeps stands in all the states in front of it. -/

namespace Backslice

set_option autoImplicit false

/-! ## Traces and origins -/

/-- A step of an execution: an instruction, or the arrival at a join point. -/
inductive Site where
  | instr (i : Instr)
  | join (index : Int)

def Block.sites (b : Block) (index : Int) : List Site :=
  if b.isMerge then [.join index] else b.instrs.map .instr

/-- The names that an instruction makes. -/
def Instr.Makes (i : Instr) (v : Var) : Prop :=
  v = .pushed i.label ∨ ∃ d, i = .data d ∧ d.op = .const ∧ (v == .constant d.arg) = true

/-- The names of the locals and globals at the start of the function. -/
def Signature.Names (sig : Signature) (v : Var) : Prop :=
  ∃ i : Nat, (i < sig.localCount ∧ v = .entryLocal i) ∨ (i < sig.globals.length ∧ v = .entryGlobal i)

namespace Graph

/-- The steps that are taken on the way through the blocks `p`. -/
def trace (g : Graph) (p : List Int) : List Site :=
  p.flatMap fun u => match g.blocks.find? u with
    | some b => b.sites u
    | none => []

def Makes (g : Graph) (v : Var) : Site → Prop
  | .instr i => i.Makes v
  | .join index => g.BornAt index v

/-- The origin of a name has been passed: it is a name of the start, or one of the steps has made it. -/
def Passed (g : Graph) (steps : List Site) (v : Var) : Prop :=
  g.signature.Names v ∨ ∃ site ∈ steps, g.Makes v site

/-- The origins of all names of a state have been passed. -/
def Covers (g : Graph) (steps : List Site) (s : State) : Prop := ∀ v, s.Mentions v → g.Passed steps v

variable {g : Graph} {c : Config} {r : Run} {index : Int} {b : Block} {steps : List Site}

theorem trace_append {p : List Int} {u : Int} (hb : g.blocks.find? u = some b) :
    g.trace (p ++ [u]) = g.trace p ++ b.sites u := by
  simp [trace, hb]

theorem mem_trace {p : List Int} {site : Site} :
    site ∈ g.trace p ↔ ∃ u ∈ p, ∃ b, g.blocks.find? u = some b ∧ site ∈ b.sites u := by
  unfold trace
  rw [List.mem_flatMap]
  refine exists_congr fun u => and_congr_right fun _ => ?_
  cases g.blocks.find? u <;> simp

theorem mem_sites {site : Site} : site ∈ b.sites index ↔
    (b.isMerge = true ∧ site = .join index) ∨ ∃ i ∈ b.instrs, site = .instr i := by
  unfold Block.sites
  cases hbody : b.body <;> simp [Block.isMerge, Block.instrs, hbody, eq_comm]

theorem Passed.mono {steps' : List Site} {v : Var} (h : g.Passed steps v) (hsub : steps ⊆ steps') :
    g.Passed steps' v := by
  rcases h with h | ⟨site, hsite, hmakes⟩
  · exact Or.inl h
  · exact Or.inr ⟨site, hsub hsite, hmakes⟩

theorem Makes.of_key_eq {site : Site} {v w : Var} (h : g.Makes v site) (hvw : v.key = w.key) : g.Makes w site := by
  cases site with
  | join index => exact bornAt_of_key_eq h hvw ▸ h
  | instr i =>
    rcases h with rfl | ⟨d, hd, hop, hv⟩
    · cases w <;> simp_all [Var.key, Makes, Instr.Makes]
    · exact Or.inr ⟨d, hd, hop, Var.beq_iff.mpr (hvw.symm.trans (Var.beq_iff.mp hv))⟩

theorem Passed.of_key_eq {v w : Var} (h : g.Passed steps v) (hvw : v.key = w.key) : g.Passed steps w := by
  rcases h with ⟨i, ⟨hi, rfl⟩ | ⟨hi, rfl⟩⟩ | ⟨site, hsite, hmakes⟩
  · have hw : w = .entryLocal i := by cases w <;> simp_all [Var.key]
    exact Or.inl ⟨i, Or.inl ⟨hi, hw⟩⟩
  · have hw : w = .entryGlobal i := by cases w <;> simp_all [Var.key]
    exact Or.inl ⟨i, Or.inr ⟨hi, hw⟩⟩
  · exact Or.inr ⟨site, hsite, hmakes.of_key_eq hvw⟩

theorem Covers.of_beq {s t : State} (h : g.Covers steps t) (hst : (s == t) = true) : g.Covers steps s :=
  fun v hv => h v (hv.of_beq hst)

theorem covers_entryState : g.Covers [] g.signature.entryState := by
  rintro v ⟨w, hw, hwv⟩
  have hnames : g.signature.Names w := by
    rw [State.mem_vars] at hw
    rcases hw with hw | hw | hw | ⟨e, he, _⟩
    · cases hw
    · obtain ⟨i, hi, rfl⟩ := List.mem_map.mp hw
      exact ⟨i, Or.inl ⟨List.mem_range.mp hi, rfl⟩⟩
    · obtain ⟨i, hi, rfl⟩ := List.mem_map.mp hw
      exact ⟨i, Or.inr ⟨List.mem_range.mp hi, rfl⟩⟩
    · cases he
  exact Passed.of_key_eq (Or.inl hnames) hwv

end Graph

/-! ## One step -/

theorem Instr.Effect.mentions {sig : Signature} {c : Config} {i : Instr} {s t : State} (h : i.Effect sig c s t)
    {v : Var} (hv : t.Mentions v) : s.Mentions v ∨ i.Makes v := by
  obtain ⟨w, hw, hwv⟩ := hv
  cases i with
  | data d =>
    rcases DataInstr.Effect.mem_vars h hw with hs | rfl | ⟨hop, rfl⟩
    · exact Or.inl ⟨w, hs, hwv⟩
    · have hv : v = .pushed d.label := by cases v <;> simp_all [Var.key, DataInstr.fresh]
      exact Or.inr (Or.inl hv)
    · exact Or.inr (Or.inr ⟨d, rfl, hop, Var.beq_iff.mpr hwv.symm⟩)
  | control k =>
    rcases ControlInstr.Effect.mem_vars h hw with hs | rfl
    · exact Or.inl ⟨w, hs, hwv⟩
    · have hv : v = .pushed k.label := by cases v <;> simp_all [Var.key, ControlInstr.fresh]
      exact Or.inr (Or.inl hv)

theorem Steps.mentions {sig : Signature} {c : Config} {is : List Instr} {s t : State} {notes : List (Label × Note)}
    (h : Steps sig c is s notes t) {v : Var} (hv : t.Mentions v) : s.Mentions v ∨ ∃ i ∈ is, i.Makes v := by
  induction h with
  | nil => exact Or.inl hv
  | cons hi _ ih =>
    rcases ih hv with hu | ⟨i, hmem, hmakes⟩
    · exact (hi.mentions hu).imp_right fun hmakes => ⟨_, List.mem_cons_self .., hmakes⟩
    · exact Or.inr ⟨i, List.mem_cons_of_mem _ hmem, hmakes⟩

namespace Graph

variable {g : Graph} {c : Config} {r : Run} {index : Int} {b : Block} {steps : List Site}

theorem Covers.step {i : Instr} {s t : State} (h : g.Covers steps s) (hi : i.Effect g.signature c s t) :
    g.Covers (steps ++ [.instr i]) t := by
  intro v hv
  rcases hi.mentions hv with hs | hmakes
  · exact (h v hs).mono (List.subset_append_left ..)
  · exact Or.inr ⟨.instr i, by simp, hmakes⟩

theorem Covers.run {is : List Instr} {s t : State} {notes : List (Label × Note)} (h : g.Covers steps s)
    (his : Steps g.signature c is s notes t) : g.Covers (steps ++ is.map .instr) t := by
  induction his generalizing steps with
  | nil => simpa using h
  | cons hi _ ih => simpa using ih (h.step hi)

theorem Covers.starts {inputs : List State} {s u : State} (hs : g.Starts index b inputs s) (hu : u ∈ inputs)
    (h : g.Covers steps u) : g.Covers (steps ++ if b.isMerge then [.join index] else []) s := by
  cases hs with
  | entry => cases hu
  | join _ hjoined _ =>
    intro v hv
    rcases hjoined.mentions hv with ⟨w, ⟨hm, hborn⟩, hwv⟩ | hall
    · rw [if_pos hm]
      exact Or.inr ⟨.join index, by simp, bornAt_of_key_eq hborn hwv ▸ hborn⟩
    · exact (h v (hall u hu)).mono (List.subset_append_left ..)

/-! ## Paths -/

theorem sites_eq (b : Block) (index : Int) :
    b.sites index = (if b.isMerge then [.join index] else []) ++ b.instrs.map .instr := by
  unfold Block.sites
  cases hbody : b.body <;> simp [Block.isMerge, Block.instrs, hbody]

/-- Along every path to a block the origins of all names at its start and at its end are passed. -/
theorem Solved.covers_path (h : g.Solved c r) {p : List Int} (hp : g.Path p index)
    (hb : g.blocks.find? index = some b) {inputs : List State} {s t : State} {notes : List (Label × Note)}
    (hset : g.Settled c r index b inputs s t notes) :
    g.Covers (g.trace p ++ if b.isMerge then [.join index] else []) s ∧ g.Covers (g.trace p ++ b.sites index) t := by
  have hrun : ∀ {p : List Int} {index : Int} {b : Block} {inputs s t notes},
      g.Settled c r index b inputs s t notes →
      g.Covers (g.trace p ++ if b.isMerge then [.join index] else []) s →
      g.Covers (g.trace p ++ b.sites index) t := by
    intro p index b inputs s t notes hset hs
    have ht := hs.run hset.runs
    rwa [List.append_assoc, ← sites_eq] at ht
  suffices hs : g.Covers (g.trace p ++ if b.isMerge then [.join index] else []) s from ⟨hs, hrun hset hs⟩
  -- Induction on the path: what the last block on it leaves is one of the states in front of this one.
  induction hp generalizing b inputs s t notes with
  | start =>
    rw [(h.entry_start hset).2]
    exact fun v hv => (covers_entryState v hv).mono (List.nil_subset _)
  | @edge p u e hp he ih =>
    obtain ⟨bᵤ, _, sᵤ, tᵤ, _, hbᵤ, hsetᵤ, w, hw, hwt⟩ := h.input_along he hset
    have hcov : g.Covers (g.trace (p ++ [u])) tᵤ := by
      rw [trace_append hbᵤ]
      exact hrun hsetᵤ (ih hbᵤ hsetᵤ)
    exact Covers.starts hset.starts hw (hcov.of_beq hwt)

/-! ## Names that are absent -/

/-- A path that has not passed a join point has met no name that is made there. -/
theorem not_passed_of_bornAt {p : List Int} (hp : index ∉ p) {v : Var} (hborn : g.BornAt index v) :
    ¬ g.Passed (g.trace p) v := by
  rintro (⟨i, hi⟩ | ⟨site, hsite, hmakes⟩)
  · rcases hborn with ⟨n, rfl⟩ | ⟨_, rfl⟩ <;> simp at hi
  · obtain ⟨u, hu, b, _, hsite⟩ := mem_trace.mp hsite
    rcases mem_sites.mp hsite with ⟨_, rfl⟩ | ⟨i, _, rfl⟩
    · have huv : u = index := by
        rcases hborn with ⟨n, rfl⟩ | ⟨rfl, rfl⟩
        · rcases hmakes with ⟨m, hm⟩ | ⟨_, hm⟩
          · exact (Var.phi.inj hm).1.symm
          · cases hm
        · rcases hmakes with ⟨m, hm⟩ | ⟨hu, _⟩
          · cases hm
          · exact hu
      exact hp (huv ▸ hu)
    · rcases hborn with ⟨n, rfl⟩ | ⟨_, rfl⟩ <;> simp [Makes, Instr.Makes, Var.beq_iff, Var.key] at hmakes

/-- One of the states in front of a join point has no name that is made there. -/
theorem Solved.exists_fresh_input (h : g.Solved c r) (hb : g.blocks.find? index = some b) {inputs : List State}
    {s t : State} {notes : List (Label × Note)} (hset : g.Settled c r index b inputs s t notes)
    (hne : inputs ≠ []) : ∃ u ∈ inputs, ∀ v, g.BornAt index v → ¬ u.Mentions v := by
  obtain ⟨p, hp⟩ := h.connected.reachable index (hasBlock_iff.mpr ⟨b, hb⟩)
  obtain ⟨q, hq, hnot, _⟩ := hp.first_arrival
  cases hq with
  | start => exact absurd (h.entry_start hset).1 hne
  | @edge q u e hq he =>
    obtain ⟨bᵤ, _, sᵤ, tᵤ, _, hbᵤ, hsetᵤ, w, hw, hwt⟩ := h.input_along he hset
    refine ⟨w, hw, fun v hborn hv => not_passed_of_bornAt hnot hborn ?_⟩
    rw [trace_append hbᵤ]
    exact (h.covers_path hq hbᵤ hsetᵤ).2 v (hv.of_beq hwt)

/-- The value that an instruction pushes is not named in front of it, even where it lies on a cycle. -/
theorem Solved.not_mentions_pushed (h : g.Solved c r) (hb : g.blocks.find? index = some b) {pre post : List Instr}
    {i : Instr} (hi : b.instrs = pre ++ i :: post) {inputs : List State} {s t u : State}
    {notes notes' : List (Label × Note)} (hset : g.Settled c r index b inputs s t notes)
    (hpre : Steps g.signature c pre s notes' u) : ¬ u.Mentions (.pushed i.label) := by
  intro hu
  obtain ⟨p, hp⟩ := h.connected.reachable index (hasBlock_iff.mpr ⟨b, hb⟩)
  obtain ⟨q, hq, hnot, _⟩ := hp.first_arrival
  have hlabel : ∀ {site : Site}, g.Makes (.pushed i.label) site → ∃ j, site = .instr j ∧ j.label = i.label := by
    intro site hmakes
    cases site with
    | join _ => rcases hmakes with ⟨n, hn⟩ | ⟨_, hn⟩ <;> cases hn
    | instr j =>
      rcases hmakes with hj | ⟨d, _, _, hd⟩
      · exact ⟨j, rfl, (Var.pushed.inj hj).symm⟩
      · simp [Var.beq_iff, Var.key] at hd
  have hcov := (h.covers_path hq hb hset).1.run hpre
  rcases hcov _ hu with ⟨k, hk⟩ | ⟨site, hsite, hmakes⟩
  · simp at hk
  · obtain ⟨j, rfl, hj⟩ := hlabel hmakes
    have hhere : j ∈ pre ∨ Site.instr j ∈ g.trace q := by
      rcases List.mem_append.mp hsite with hsite | hsite
      · rcases List.mem_append.mp hsite with hsite | hsite
        · exact Or.inr hsite
        · split at hsite <;> simp at hsite
      · exact Or.inl (by simpa using hsite)
    rcases hhere with hj' | hj'
    · have hnodup := h.labels.nodup_block hb
      rw [hi, List.map_append, List.nodup_append] at hnodup
      exact hnodup.2.2 j.label (List.mem_map_of_mem hj') i.label (by simp) hj
    · obtain ⟨x, hx, bₓ, hbₓ, hsite⟩ := mem_trace.mp hj'
      have hjx : j ∈ bₓ.instrs := by
        rcases mem_sites.mp hsite with ⟨_, hcon⟩ | ⟨j', hj', heq⟩
        · cases hcon
        · exact Site.instr.inj heq ▸ hj'
      have hx' : x ≠ index := fun hcon => hnot (hcon ▸ hx)
      have hi' : i ∈ b.instrs := by simp [hi]
      exact h.labels.disjoint hbₓ hb hx' (hj ▸ List.mem_map_of_mem hjx) (List.mem_map_of_mem hi')

/-! ## The recorded names -/

/-- Every block and every instruction has recorded states, and every path to it has passed the origins of the
names in them. In front of a join point the recorded state is that of one predecessor only. -/
theorem recorded_names_passed (hg : g.WellFormed) (hl : g.DistinctLabels) {limit : Nat}
    (hr : g.solve c limit = .ok r) (hconv : r.converged = true) :
    (∀ index b, g.blocks.find? index = some b → ∃ note, r.blocks.find? index = some note ∧
      ∀ p, g.Path p index → (∀ v ∈ note.after.state.vars, g.Passed (g.trace p ++ b.sites index) v) ∧
        (b.isMerge = false → ∀ v ∈ note.before.state.vars, g.Passed (g.trace p) v)) ∧
    (∀ index b pre i post, g.blocks.find? index = some b → b.instrs = pre ++ i :: post →
      ∃ note, r.instrs.find? i.label = some note ∧
        note.before.state.vars.contains (.pushed i.label) = false ∧
        ∀ p, g.Path p index → (∀ v ∈ note.before.state.vars, g.Passed (g.trace p ++ pre.map .instr) v) ∧
          ∀ v ∈ note.after.state.vars, g.Passed (g.trace p ++ (pre ++ [i]).map .instr) v) := by
  have h := solved_of_converged hg.connected hl hr hconv
  constructor
  · intro index b hb
    obtain ⟨inputs, s, t, notes, hset⟩ := h.settled index b hb
    obtain ⟨note, hnote, hafter⟩ := hset.exits
    refine ⟨note, hnote, fun p hp => ?_⟩
    obtain ⟨hs, ht⟩ := h.covers_path hp hb hset
    refine ⟨fun v hv => ?_, fun hm v hv => ?_⟩
    · rw [hafter] at hv
      exact ht v (State.mentions_of_mem hv)
    · obtain ⟨note', hnote', hbefore⟩ := hset.before hm
      rw [hnote, Option.some.injEq] at hnote'
      rw [hnote', hbefore] at hv
      have hpassed := hs v (State.mentions_of_mem hv)
      rwa [hm, if_neg Bool.false_ne_true, List.append_nil] at hpassed
  · intro index b pre i post hb hi
    obtain ⟨inputs, s, t, notes, hset⟩ := h.settled index b hb
    have hruns := hset.runs
    rw [hi] at hruns
    obtain ⟨n₁, u, w, hpre, heffect, hmem⟩ := hruns.middle
    refine ⟨_, hset.instrs _ hmem, ?_, fun p hp => ?_⟩
    · rw [← Bool.not_eq_true, ← State.mentions_iff_contains]
      exact h.not_mentions_pushed hb hi hset hpre
    · -- A block with instructions is no join point, so nothing is passed at its start.
      have hm : b.isMerge = false := by
        cases hbody : b.body <;> simp_all [Block.isMerge, Block.instrs]
      have hs := (h.covers_path hp hb hset).1
      rw [hm, if_neg Bool.false_ne_true, List.append_nil] at hs
      have hu := hs.run hpre
      refine ⟨fun v hv => hu v (State.mentions_of_mem hv), fun v hv => ?_⟩
      have hw := (hu.step heffect) v (State.mentions_of_mem hv)
      simpa using hw

theorem recorded_names_passed_countdown : ∃ r, countdown.solve {} 20 = .ok r ∧ r.converged = true ∧
    ∃ note, r.blocks.find? 5 = some note ∧ ∀ p, countdown.Path p 5 →
      ∀ v ∈ note.after.state.vars, countdown.Passed (countdown.trace p ++ [.join 5]) v := by
  obtain ⟨r, hr, hconv⟩ := converges_iff.mp (show countdown.converges {} 20 = true by decide +kernel)
  obtain ⟨note, hnote, h⟩ :=
    (recorded_names_passed countdown_wellFormed (by decide) hr hconv).1 5 { body := .merge } (by decide)
  exact ⟨r, hr, hconv, note, hnote, fun p hp => (h p hp).1⟩

end Graph
end Backslice
