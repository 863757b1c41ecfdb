import Backslice.Proofs.Graph.Traversal
import Backslice.Proofs.Visit
import Mathlib.Data.List.Forall2

/-! # Runs of the analysis

What a run has recorded about a block comes from one visit of it, and as long as the block is not pending, what
came in on that visit equals what would come in now. When nothing is pending, the recorded states are therefore
a solution: every block runs from what its predecessors leave. -/

namespace Backslice

set_option autoImplicit false

/-! ## Steps and runs -/

namespace Run

variable {g : Graph} {c : Config} {order rest : List Int} {r r' : Run} {index : Int}

/-- The run after a visit of `index`, with `rest` still waiting. -/
def record (g : Graph) (order : List Int) (r : Run) (index : Int) (rest : List Int) (v : Visit) : Run where
  outcomes := r.outcomes.insert index v.outcome
  blocks := r.blocks.insert index v.note
  instrs := v.instrs.foldl (fun t e => t.insert e.1 e.2) r.instrs
  pending := if r.changes index v.outcome then wake order rest (g.successors index) else rest
  visits := r.visits + 1

theorem step_eq_ok : r.step g c order index rest = .ok r' ↔ ∃ b v, g.blocks.find? index = some b ∧
    g.visit c index b (g.incoming r.outcomes index) = .ok v ∧ r' = r.record g order index rest v := by
  unfold step Graph.findBlock
  cases g.blocks.find? index with
  | none => simp [bind, Except.bind, throw, throwThe, MonadExceptOf.throw]
  | some b =>
    show ((g.visit c index b (g.incoming r.outcomes index)) >>= fun v => pure (r.record g order index rest v)) =
      .ok r' ↔ _
    rw [bind_eq_ok]
    constructor
    · rintro ⟨v, hv, h⟩
      exact ⟨b, v, rfl, hv, (pure_eq_ok.mp h).symm⟩
    · rintro ⟨b', v, hb, hv, rfl⟩
      cases hb
      exact ⟨v, hv, rfl⟩

/-- What every step keeps, a run keeps. -/
theorem advance_keeps (P : Run → Prop) (hstep : ∀ r index rest r', P r → r.pending = index :: rest →
      r.step g c order index rest = .ok r' → P r')
    (limit : Nat) (hr : P r) (h : advance g c order limit r = .ok r') : P r' := by
  induction limit generalizing r with
  | zero => exact pure_eq_ok.mp h ▸ hr
  | succ limit ih =>
    rw [advance] at h
    split at h
    · exact pure_eq_ok.mp h ▸ hr
    · rename_i index rest hp
      obtain ⟨r₁, h₁, h⟩ := bind_eq_ok.mp h
      exact ih (hstep r index rest r₁ hr hp h₁) h

/-- If every step succeeds that starts from what the steps keep, a run does. -/
theorem advance_succeeds (P : Run → Prop) (hstep : ∀ r index rest, P r → r.pending = index :: rest →
      ∃ r', r.step g c order index rest = .ok r' ∧ P r')
    (limit : Nat) (hr : P r) : ∃ r', advance g c order limit r = .ok r' ∧ P r' := by
  induction limit generalizing r with
  | zero => exact ⟨r, rfl, hr⟩
  | succ limit ih =>
    rw [advance]
    split
    · exact ⟨r, rfl, hr⟩
    · rename_i index rest hp
      obtain ⟨r₁, h₁, hr₁⟩ := hstep r index rest hr hp
      rw [h₁]
      exact ih hr₁

end Run

/-! ## What a run knows -/

theorem Flow.forall₂_alike_trans {l l' l'' : List Flow} (h : List.Forall₂ Flow.Alike l l')
    (h' : List.Forall₂ Flow.Alike l' l'') : List.Forall₂ Flow.Alike l l'' := by
  induction h generalizing l'' with
  | nil => exact h'
  | cons hab _ ih => cases h' with
    | cons hbc htail => exact .cons (hab.trans hbc) (ih htail)

theorem Outcome.beq_along {o o' : Outcome} (h : (o == o') = true) {cond : Option Bool} {t t' : State}
    (ho : o.along cond = .known t) (ho' : o'.along cond = .known t') : (t == t') = true := by
  have hflow : ∀ {f f' : Flow}, (f == f') = true → f = .known t → f' = .known t' → (t == t') = true := by
    rintro _ _ hff rfl rfl
    exact hff
  cases o with
  | simple f => cases o' with
    | simple f' => exact hflow h ho ho'
    | branch _ _ => cases h
  | branch taken passed => cases o' with
    | simple _ => cases h
    | branch taken' passed' =>
      obtain ⟨h₁, h₂⟩ := Bool.and_eq_true_iff.mp h
      match cond with
      | some false => exact hflow h₂ ho ho'
      | some true => exact hflow h₁ ho ho'
      | none => exact hflow h₁ ho ho'

/-- What a run has recorded about the block `index` is what the visit `v` found out, with `flows` coming in. -/
structure Run.Recorded (g : Graph) (c : Config) (r : Run) (index : Int) (b : Block) (flows : List Flow)
    (v : Visit) : Prop where
  block : g.blocks.find? index = some b
  visit : g.visit c index b flows = .ok v
  known : (flows = [] ∧ index = g.entry) ∨ flows.filterMap Flow.state? ≠ []
  outcome : r.outcomes.find? index = some v.outcome
  note : r.blocks.find? index = some v.note
  instrs : ∀ e ∈ v.instrs, r.instrs.find? e.1 = some e.2
  current : index ∉ r.pending → List.Forall₂ Flow.Alike flows (g.incoming r.outcomes index)

/-- The blocks that are not pending have been visited, in an order that leaves no pending block behind. -/
structure Run.Sound (g : Graph) (c : Config) (r : Run) : Prop where
  pending : r.pending.Sublist g.order
  visited : ∀ index ∈ g.order, index ∉ r.pending → ∃ o, r.outcomes.find? index = some o
  recorded : ∀ index o, r.outcomes.find? index = some o → ∃ b flows v, r.Recorded g c index b flows v

namespace Run

variable {g : Graph} {c : Config} {rest : List Int} {r : Run} {index : Int}

theorem Recorded.along {b : Block} {flows : List Flow} {v : Visit} (h : r.Recorded g c index b flows v) :
    ∃ t, ∀ cond, v.outcome.along cond = .known t := by
  obtain ⟨s, t, _, hfound⟩ := Graph.visit_runs h.known h.visit
  exact ⟨t, hfound.along⟩

theorem Sound.along (h : r.Sound g c) {o : Outcome} (ho : r.outcomes.find? index = some o) :
    ∃ t, ∀ cond, o.along cond = .known t := by
  obtain ⟨b, flows, v, hrec⟩ := h.recorded index o ho
  have hv := hrec.outcome
  rw [ho, Option.some.injEq] at hv
  exact hv ▸ hrec.along

theorem sound_start (g : Graph) (c : Config) : Run.Sound g c { pending := g.order } where
  pending := List.Sublist.refl _
  visited index h hp := absurd h hp
  recorded index o h := by cases h

/-- What a run keeps to whatever the labels are: the blocks that are not pending have been visited, and what leaves a
visited block is known. -/
structure Underway (g : Graph) (r : Run) : Prop where
  pending : r.pending.Sublist g.order
  visited : ∀ index ∈ g.order, index ∉ r.pending → ∃ o, r.outcomes.find? index = some o
  along : ∀ index o, r.outcomes.find? index = some o → ∃ t, ∀ cond, o.along cond = .known t

theorem underway_start (g : Graph) : Run.Underway g { pending := g.order } where
  pending := List.Sublist.refl _
  visited index h hp := absurd h hp
  along index o h := by cases h

theorem Sound.underway (h : r.Sound g c) : r.Underway g where
  pending := h.pending
  visited := h.visited
  along _ _ ho := h.along ho

/-- The blocks in front of the next one in the visiting order are not pending. -/
theorem Underway.not_pending_before (hg : g.Connected) (h : r.Underway g) (hp : r.pending = index :: rest)
    {pre post : List Int} (horder : g.order = pre ++ index :: post) {u : Int} (hu : u ∈ pre) : u ∉ r.pending := by
  have hnodup := hg.order_nodup
  rw [horder, List.nodup_append] at hnodup
  obtain ⟨_, _, hdisjoint⟩ := hnodup
  have hsub : (index :: rest).Sublist (index :: post) := by
    have hsub := h.pending
    rw [hp, horder] at hsub
    obtain ⟨l₁, l₂, hl, h₁, h₂⟩ := List.sublist_append_iff.mp hsub
    cases l₁ with
    | nil =>
      rw [List.nil_append] at hl
      exact hl ▸ h₂
    | cons a l₁ =>
      have ha : index = a := (List.cons.inj hl).1
      have hmem : index ∈ pre := h₁.subset (ha ▸ List.mem_cons_self ..)
      exact absurd rfl (hdisjoint index hmem index (List.mem_cons_self ..))
  intro hcon
  rw [hp] at hcon
  exact hdisjoint u hu u (hsub.subset hcon) rfl

theorem Underway.visited_before (hg : g.Connected) (h : r.Underway g) (hp : r.pending = index :: rest)
    {pre post : List Int} (horder : g.order = pre ++ index :: post) {u : Int} (hu : u ∈ pre) :
    ∃ o, r.outcomes.find? u = some o :=
  h.visited u (horder ▸ List.mem_append_left _ hu) (h.not_pending_before hg hp horder hu)

/-- Something is known in front of the block that is visited next. -/
theorem Underway.known_incoming (hg : g.Connected) (h : r.Underway g) (hp : r.pending = index :: rest) :
    (g.incoming r.outcomes index = [] ∧ index = g.entry) ∨
      (g.incoming r.outcomes index).filterMap Flow.state? ≠ [] := by
  have hmem : index ∈ g.order := h.pending.subset (hp ▸ List.mem_cons_self ..)
  obtain ⟨pre, post, horder⟩ := List.append_of_mem hmem
  rcases hg.order_parent horder with hentry | ⟨u, hu, hsucc⟩
  · left
    exact ⟨by rw [Graph.incoming, hentry, hg.entry_free]; rfl, hentry⟩
  · right
    obtain ⟨o, ho⟩ := h.visited_before hg hp horder hu
    obtain ⟨cond, hpred⟩ := hg.exists_predecessor hsucc
    obtain ⟨t, ht⟩ := h.along u o ho
    refine List.ne_nil_of_mem (a := t) (List.mem_filterMap.mpr ⟨.known t, ?_, rfl⟩)
    refine List.mem_map.mpr ⟨⟨u, cond⟩, hpred, ?_⟩
    simp only [ho, ht]

theorem Sound.known_incoming (hg : g.Connected) (h : r.Sound g c) (hp : r.pending = index :: rest) :
    (g.incoming r.outcomes index = [] ∧ index = g.entry) ∨
      (g.incoming r.outcomes index).filterMap Flow.state? ≠ [] :=
  h.underway.known_incoming hg hp

/-! ## One step -/

variable {b : Block} {v : Visit}

theorem changes_eq_false {o : Outcome} (h : r.changes index o = false) :
    ∃ previous, r.outcomes.find? index = some previous ∧ (previous == o) = true := by
  unfold changes at h
  split at h
  · rename_i previous hprevious
    exact ⟨previous, hprevious, by simpa using h⟩
  · cases h

theorem mem_pending_record {order : List Int} {u : Int} (hu : u ∈ order) :
    u ∈ (r.record g order index rest v).pending ↔
      u ∈ rest ∨ (r.changes index v.outcome = true ∧ u ∈ g.successors index) := by
  unfold record
  cases r.changes index v.outcome <;> simp [wake, hu]

theorem Sound.mem_order (h : r.Sound g c) (hp : r.pending = index :: rest) {u : Int} (hu : u ∈ index :: rest) :
    u ∈ g.order := h.pending.subset (hp ▸ hu)

/-- A visit leaves what comes into a block as it was, unless the block is pending afterwards. -/
theorem Underway.incoming_alike (hg : g.Connected) (h : r.Underway g) {t : State}
    (hv : ∀ cond, v.outcome.along cond = .known t) {u : Int} (hu : u ∈ g.order)
    (hnot : u ∉ (r.record g g.order index rest v).pending) :
    List.Forall₂ Flow.Alike (g.incoming r.outcomes u) (g.incoming (r.outcomes.insert index v.outcome) u) := by
  rw [mem_pending_record hu, not_or, not_and] at hnot
  unfold Graph.incoming
  rw [List.forall₂_map_left_iff, List.forall₂_map_right_iff, List.forall₂_same]
  intro e he
  rw [Table.find?_insert]
  by_cases hindex : index = e.target
  · have hsucc : u ∈ g.successors index := hindex ▸ hg.mem_successors_of_mem_predecessors he
    obtain ⟨previous, hprevious, hbeq⟩ := changes_eq_false (Bool.eq_false_iff.mpr fun hcon => hnot.2 hcon hsucc)
    obtain ⟨t', ht'⟩ := h.along index previous hprevious
    rw [← hindex, hprevious, if_pos BEq.rfl]
    dsimp only
    rw [ht', hv]
    exact Outcome.beq_along hbeq (ht' e.cond) (hv e.cond)
  · rw [if_neg (by simpa using hindex)]
    exact Flow.Alike.refl _

/-- A visit records states for the instructions of the block, in their order. -/
theorem visit_labels {flows : List Flow} (hv : g.visit c index b flows = .ok v) :
    v.instrs.map (·.1) = b.instrs.map Instr.label := by
  cases hbody : b.body with
  | merge =>
    obtain ⟨start, -, rfl⟩ := (Graph.visit_merge hbody).mp hv
    simp [Block.instrs, hbody]
  | control i =>
    obtain ⟨start, o, -, -, rfl⟩ := (Graph.visit_control hbody).mp hv
    simp [Block.instrs, hbody, Instr.label]
  | data is =>
    obtain ⟨start, last, notes, -, hrun, rfl⟩ := (Graph.visit_data hbody).mp hv
    simpa [Block.instrs, hbody, Function.comp_def, Instr.label] using runData_labels hrun

theorem Recorded.record {u : Int} {bᵤ : Block} {flows : List Flow} {vᵤ : Visit} (hg : g.Connected)
    (hl : g.DistinctLabels) (h : r.Sound g c) (hp : r.pending = index :: rest) (hb : g.blocks.find? index = some b)
    (hv : g.visit c index b (g.incoming r.outcomes index) = .ok v) (hrec : r.Recorded g c u bᵤ flows vᵤ)
    (hne : index ≠ u) : (r.record g g.order index rest v).Recorded g c u bᵤ flows vᵤ := by
  have hknown := h.known_incoming hg hp
  obtain ⟨s, t, _, hfound⟩ := Graph.visit_runs hknown hv
  have hu : u ∈ g.order := hg.mem_order.mpr (Graph.hasBlock_iff.mpr ⟨bᵤ, hrec.block⟩)
  have hkeep : ∀ {ν : Type} (table : Table Int ν) (x : ν), (table.insert index x).find? u = table.find? u := by
    intro ν table x
    rw [Table.find?_insert, if_neg (by simpa using hne)]
  refine ⟨hrec.block, hrec.visit, hrec.known, ?_, ?_, ?_, ?_⟩
  · exact (hkeep ..).trans hrec.outcome
  · exact (hkeep ..).trans hrec.note
  · intro e he
    refine (Table.find?_foldl_insert_of_not_mem _ _ fun e' he' heq => ?_).trans (hrec.instrs e he)
    have hmem : e.1 ∈ bᵤ.instrs.map Instr.label :=
      visit_labels hrec.visit ▸ List.mem_map_of_mem he
    have hmem' : e'.1 ∈ b.instrs.map Instr.label := visit_labels hv ▸ List.mem_map_of_mem he'
    exact hl.disjoint hb hrec.block hne hmem' (heq ▸ hmem)
  · intro hnot
    have hold : u ∉ r.pending := by
      intro hcon
      rw [hp] at hcon
      rcases List.mem_cons.mp hcon with heq | hrest
      · exact hne heq.symm
      · exact hnot ((mem_pending_record hu).mpr (Or.inl hrest))
    exact Flow.forall₂_alike_trans (hrec.current hold) (h.underway.incoming_alike hg hfound.along hu hnot)

theorem Sound.recorded_visit (hg : g.Connected) (hl : g.DistinctLabels) (h : r.Sound g c)
    (hp : r.pending = index :: rest) (hb : g.blocks.find? index = some b)
    (hv : g.visit c index b (g.incoming r.outcomes index) = .ok v) :
    (r.record g g.order index rest v).Recorded g c index b (g.incoming r.outcomes index) v := by
  have hknown := h.known_incoming hg hp
  obtain ⟨s, t, _, hfound⟩ := Graph.visit_runs hknown hv
  have hindex : index ∈ g.order := h.mem_order hp (List.mem_cons_self ..)
  refine ⟨hb, hv, hknown, by simp [Run.record], by simp [Run.record], ?_, ?_⟩
  · intro e he
    refine Table.find?_foldl_insert_of_mem _ _ ?_ he
    rw [visit_labels hv]
    exact hl.nodup_block hb
  · exact h.underway.incoming_alike hg hfound.along hindex

theorem Underway.record (hg : g.Connected) (h : r.Underway g) (hp : r.pending = index :: rest)
    (hv : g.visit c index b (g.incoming r.outcomes index) = .ok v) :
    (r.record g g.order index rest v).Underway g := by
  refine ⟨?_, ?_, ?_⟩
  · have hrest : rest.Sublist g.order := (List.sublist_cons_self index rest).trans (hp ▸ h.pending)
    unfold Run.record
    dsimp only
    split
    · exact List.filter_sublist
    · exact hrest
  · intro u hu hnot
    by_cases hne : index = u
    · exact ⟨v.outcome, by simp [Run.record, hne]⟩
    · obtain ⟨o, ho⟩ := h.visited u hu fun hcon => by
        rw [hp] at hcon
        rcases List.mem_cons.mp hcon with heq | hrest
        · exact hne heq.symm
        · exact hnot ((mem_pending_record hu).mpr (Or.inl hrest))
      exact ⟨o, by simp [Run.record, hne, ho]⟩
  · intro u o ho
    by_cases hne : index = u
    · obtain ⟨s, t, _, hfound⟩ := Graph.visit_runs (h.known_incoming hg hp) hv
      obtain rfl : v.outcome = o := by simpa [Run.record, hne] using ho
      exact ⟨t, hfound.along⟩
    · exact h.along u o (by simpa [Run.record, hne] using ho)

theorem Underway.of_solve (hg : g.Connected) {limit : Nat} (h : g.solve c limit = .ok r) : r.Underway g := by
  refine advance_keeps (Run.Underway g) (fun r index rest r' hr hp hstep => ?_) limit (underway_start g) h
  obtain ⟨b, v, -, hv, rfl⟩ := step_eq_ok.mp hstep
  exact hr.record hg hp hv

theorem Sound.record (hg : g.Connected) (hl : g.DistinctLabels) (h : r.Sound g c) (hp : r.pending = index :: rest)
    (hb : g.blocks.find? index = some b) (hv : g.visit c index b (g.incoming r.outcomes index) = .ok v) :
    (r.record g g.order index rest v).Sound g c := by
  have hunderway := h.underway.record hg hp hv
  refine ⟨hunderway.pending, hunderway.visited, ?_⟩
  intro u o ho
  by_cases hne : index = u
  · subst hne
    exact ⟨b, _, v, h.recorded_visit hg hl hp hb hv⟩
  · have ho' : r.outcomes.find? u = some o := by simpa [Run.record, hne] using ho
    obtain ⟨bᵤ, flows, vᵤ, hrec⟩ := h.recorded u o ho'
    exact ⟨bᵤ, flows, vᵤ, hrec.record hg hl h hp hb hv hne⟩

theorem Sound.of_solve (hg : g.Connected) (hl : g.DistinctLabels) {limit : Nat} (h : g.solve c limit = .ok r) :
    r.Sound g c := by
  refine advance_keeps (Run.Sound g c) (fun r index rest r' hr hp hstep => ?_) limit (sound_start g c) h
  obtain ⟨b, v, hb, hv, rfl⟩ := step_eq_ok.mp hstep
  exact hr.record hg hl hp hb hv

/-! ## Runs that have converged -/

/-- The state in front of the block `index`. -/
def Enters (r : Run) (index : Int) (s : State) : Prop :=
  ∃ note, r.blocks.find? index = some note ∧ note.before = .known s

/-- The state behind the block `index`. -/
def Exits (r : Run) (index : Int) (t : State) : Prop :=
  ∃ note, r.blocks.find? index = some note ∧ note.after = .known t

theorem Exits.unique {t t' : State} (h : r.Exits index t) (h' : r.Exits index t') : t = t' := by
  obtain ⟨note, hnote, ht⟩ := h
  obtain ⟨note', hnote', ht'⟩ := h'
  rw [hnote, Option.some.injEq] at hnote'
  rw [hnote', ht'] at ht
  exact (Flow.known.inj ht).symm

end Run

/-- The block `index` has settled: it runs from `s` to `t`, where `s` comes from `inputs`, which are what its
predecessors leave behind. -/
structure Graph.Settled (g : Graph) (c : Config) (r : Run) (index : Int) (b : Block) (inputs : List State)
    (s t : State) (notes : List (Label × Note)) : Prop where
  starts : g.Starts index b inputs s
  runs : Steps g.signature c b.instrs s notes t
  exits : r.Exits index t
  before : b.isMerge = false → ∃ note, r.blocks.find? index = some note ∧ note.before = .known s
  before_merge : b.isMerge = true → ∃ note u, r.blocks.find? index = some note ∧ note.before = .known u ∧
    (u ∈ inputs ∨ inputs = [] ∧ u = s)
  instrs : ∀ e ∈ notes, r.instrs.find? e.1 = some e.2
  inputs : List.Forall₂ (fun u e => ∃ t', r.Exits e.target t' ∧ (u == t') = true) inputs (g.predecessors index)

namespace Graph

variable {g : Graph} {c : Config} {r : Run} {index : Int} {b : Block} {inputs : List State} {s t : State}
  {notes : List (Label × Note)}

theorem exists_of_forall₂ {α β : Type} {R : α → β → Prop} {l : List α} {l' : List β} (h : List.Forall₂ R l l')
    {a : α} (ha : a ∈ l) : ∃ b ∈ l', R a b := by
  induction h with
  | nil => cases ha
  | @cons a' b l l' hab _ ih =>
    rcases List.mem_cons.mp ha with rfl | ha
    · exact ⟨b, List.mem_cons_self .., hab⟩
    · obtain ⟨b', hb', htail⟩ := ih ha
      exact ⟨b', List.mem_cons_of_mem b hb', htail⟩

theorem Settled.pred_of_input (h : g.Settled c r index b inputs s t notes) {u : State} (hu : u ∈ inputs) :
    ∃ e ∈ g.predecessors index, ∃ t', r.Exits e.target t' ∧ (u == t') = true :=
  exists_of_forall₂ h.inputs hu

theorem Settled.input_of_pred (h : g.Settled c r index b inputs s t notes) {e : Edge}
    (he : e ∈ g.predecessors index) : ∃ u ∈ inputs, ∃ t', r.Exits e.target t' ∧ (u == t') = true :=
  exists_of_forall₂ h.inputs.flip he

theorem Settled.exit_eq_start (h : g.Settled c r index b inputs s t notes) (hm : b.isMerge = true) : s = t := by
  have hruns := h.runs
  rw [Block.instrs_of_isMerge hm] at hruns
  cases hruns
  rfl

theorem Settled.note_shape (h : g.Settled c r index b inputs s t notes) :
    ∃ x, r.blocks.find? index = some ⟨.known x, .known t⟩ ∧ x.partLength = s.partLength := by
  obtain ⟨note, hnote, hafter⟩ := h.exits
  cases hm : b.isMerge with
  | false =>
    obtain ⟨note', hnote', hbefore⟩ := h.before hm
    rw [hnote, Option.some.injEq] at hnote'
    subst hnote'
    exact ⟨s, by rw [hnote, ← hbefore, ← hafter], rfl⟩
  | true =>
    obtain ⟨note', x, hnote', hbefore, hinput⟩ := h.before_merge hm
    rw [hnote, Option.some.injEq] at hnote'
    subst hnote'
    refine ⟨x, by rw [hnote, ← hbefore, ← hafter], ?_⟩
    rcases hinput with hinput | ⟨_, rfl⟩
    · exact h.starts.shape hinput
    · rfl

theorem forall₂_known {outcome : Edge → Flow} {R : State → Edge → Prop} {flows : List Flow} {es : List Edge}
    (h : List.Forall₂ (fun f e => Flow.Alike f (outcome e)) flows es)
    (hknown : ∀ e ∈ es, ∃ t, outcome e = .known t ∧ ∀ u, (u == t) = true → R u e) :
    ∃ inputs, flows = inputs.map .known ∧ List.Forall₂ R inputs es := by
  induction h with
  | nil => exact ⟨[], rfl, .nil⟩
  | @cons f e fs es' hfe _ ih =>
    obtain ⟨⟨t, ht, hR⟩, htail⟩ := List.forall_mem_cons.mp hknown
    rw [ht] at hfe
    obtain ⟨u, rfl, hut⟩ := hfe.known
    obtain ⟨inputs, rfl, hinputs⟩ := ih htail
    exact ⟨u :: inputs, rfl, .cons (hR u hut) hinputs⟩

end Graph

namespace Run

variable {g : Graph} {c : Config} {r : Run} {index : Int} {b : Block}

theorem Sound.exists_recorded (h : r.Sound g c) (hg : g.Connected) (hconv : r.converged = true)
    (hb : g.blocks.find? index = some b) : ∃ flows v, r.Recorded g c index b flows v ∧
      List.Forall₂ Flow.Alike flows (g.incoming r.outcomes index) := by
  have hdone : index ∉ r.pending := by
    rw [List.isEmpty_iff.mp hconv]
    exact List.not_mem_nil
  obtain ⟨o, ho⟩ := h.visited index (hg.mem_order.mpr (Graph.hasBlock_iff.mpr ⟨b, hb⟩)) hdone
  obtain ⟨b', flows, v, hrec⟩ := h.recorded index o ho
  obtain rfl : b = b' := Option.some.inj (hb.symm.trans hrec.block)
  exact ⟨flows, v, hrec, hrec.current hdone⟩

/-- When nothing is pending, what came in on the last visit of a block equals what its predecessors leave in the end. -/
theorem Sound.recorded_of_converged (h : r.Sound g c) (hg : g.Connected) (hconv : r.converged = true)
    (hb : g.blocks.find? index = some b) : ∃ inputs v, r.Recorded g c index b (inputs.map .known) v ∧
      List.Forall₂ (fun u e => ∃ t', r.Exits e.target t' ∧ (u == t') = true) inputs (g.predecessors index) := by
  obtain ⟨flows, v, hrec, hcurrent⟩ := h.exists_recorded hg hconv hb
  unfold Graph.incoming at hcurrent
  rw [List.forall₂_map_right_iff] at hcurrent
  obtain ⟨inputs, rfl, hinputs⟩ := Graph.forall₂_known
    (R := fun u e => ∃ t', r.Exits e.target t' ∧ (u == t') = true) hcurrent fun e he => by
      obtain ⟨bₑ, hbₑ⟩ := Graph.hasBlock_iff.mp (hg.ends e.target ⟨index, e.cond⟩ ((hg.inverse _ _ _).mpr he)).1
      obtain ⟨flowsₑ, vₑ, hrecₑ, -⟩ := h.exists_recorded hg hconv hbₑ
      obtain ⟨sₑ, tₑ, _, hfoundₑ⟩ := Graph.visit_runs hrecₑ.known hrecₑ.visit
      refine ⟨tₑ, ?_, fun u hu => ⟨tₑ, ⟨vₑ.note, hrecₑ.note, hfoundₑ.after⟩, hu⟩⟩
      rw [hrecₑ.outcome]
      exact hfoundₑ.along e.cond
  exact ⟨inputs, v, hrec, hinputs⟩

end Run

namespace Graph

variable {g : Graph} {c : Config} {r : Run} {index : Int} {b : Block} {inputs : List State} {s t : State}
  {notes : List (Label × Note)}

/-- The recorded states are a solution: every block has settled. -/
structure Solved (g : Graph) (c : Config) (r : Run) : Prop where
  connected : g.Connected
  labels : g.DistinctLabels
  settled : ∀ index b, g.blocks.find? index = some b → ∃ inputs s t notes, g.Settled c r index b inputs s t notes

/-- When nothing is pending a block has settled, and it starts from what the join makes of its inputs. -/
theorem settled_merge_of_converged (hg : g.Connected) (hl : g.DistinctLabels) {limit : Nat}
    (hr : g.solve c limit = .ok r) (hconv : r.converged = true) (hb : g.blocks.find? index = some b) :
    ∃ inputs s t notes, g.Settled c r index b inputs s t notes ∧
      g.merge index b (inputs.map .known) = .ok (.known s) := by
  obtain ⟨inputs, v, hrec, hinputs⟩ := (Run.Sound.of_solve hg hl hr).recorded_of_converged hg hconv hb
  obtain ⟨s, hmerge, hstarts⟩ := visit_start hrec.known hrec.visit
  obtain ⟨t, hfound⟩ := visit_found hmerge (hrec.known.imp_left fun hnil => hnil.1) hrec.visit
  rw [Flow.filterMap_known] at hstarts hfound
  refine ⟨inputs, s, t, v.instrs,
    ⟨hstarts, hfound.runs, ⟨v.note, hrec.note, hfound.after⟩, ?_, ?_, hrec.instrs, hinputs⟩, hmerge⟩
  · exact fun hm => ⟨v.note, hrec.note, hfound.before hm⟩
  · intro hm
    obtain ⟨u, hu, hcases⟩ := hfound.before_merge hm
    exact ⟨v.note, u, hrec.note, hu, hcases⟩

theorem settled_of_converged (hg : g.Connected) (hl : g.DistinctLabels) {limit : Nat}
    (hr : g.solve c limit = .ok r) (hconv : r.converged = true) (hb : g.blocks.find? index = some b) :
    ∃ inputs s t notes, g.Settled c r index b inputs s t notes := by
  obtain ⟨inputs, s, t, notes, hset, -⟩ := settled_merge_of_converged hg hl hr hconv hb
  exact ⟨inputs, s, t, notes, hset⟩

theorem solved_of_converged (hg : g.Connected) (hl : g.DistinctLabels) {limit : Nat}
    (hr : g.solve c limit = .ok r) (hconv : r.converged = true) : g.Solved c r where
  connected := hg
  labels := hl
  settled _ _ hb := settled_of_converged hg hl hr hconv hb

theorem Solved.entry_start (h : g.Solved c r) (hset : g.Settled c r g.entry b inputs s t notes) :
    inputs = [] ∧ s = g.signature.entryState := by
  have hin := hset.inputs
  rw [h.connected.entry_free] at hin
  cases hin
  cases hset.starts with
  | entry => exact ⟨rfl, rfl⟩
  | join hne => exact absurd rfl hne

theorem Solved.enters_entry (h : g.Solved c r) : r.Enters g.entry g.signature.entryState := by
  obtain ⟨b, hb⟩ := hasBlock_iff.mp h.connected.entry_block
  obtain ⟨inputs, s, t, notes, hset⟩ := h.settled g.entry b hb
  obtain ⟨rfl, rfl⟩ := h.entry_start hset
  cases hm : b.isMerge with
  | false => exact hset.before hm
  | true =>
    obtain ⟨note, u, hnote, hbefore, hu | ⟨-, rfl⟩⟩ := hset.before_merge hm
    · cases hu
    · exact ⟨note, hnote, hbefore⟩

/-- What a block leaves is one of the states that come into its successor. -/
theorem Solved.input_along (h : g.Solved c r) {u : Int} {e : Edge} (he : e ∈ g.edges.leaving u)
    (hset : g.Settled c r e.target b inputs s t notes) : ∃ bᵤ inputsᵤ sᵤ tᵤ notesᵤ,
      g.blocks.find? u = some bᵤ ∧ g.Settled c r u bᵤ inputsᵤ sᵤ tᵤ notesᵤ ∧ ∃ v ∈ inputs, (v == tᵤ) = true := by
  obtain ⟨bᵤ, hbᵤ⟩ := hasBlock_iff.mp (h.connected.ends u e he).1
  obtain ⟨inputsᵤ, sᵤ, tᵤ, notesᵤ, hsetᵤ⟩ := h.settled u bᵤ hbᵤ
  obtain ⟨v, hv, t', ht', hvt⟩ := hset.input_of_pred ((h.connected.inverse u e.target e.cond).mp he)
  obtain rfl : tᵤ = t' := hsetᵤ.exits.unique ht'
  exact ⟨bᵤ, inputsᵤ, sᵤ, tᵤ, notesᵤ, hbᵤ, hsetᵤ, v, hv, hvt⟩

/-- Whether the analysis converges within a number of visits. -/
def converges (g : Graph) (c : Config) (limit : Nat) : Bool :=
  match g.solve c limit with
  | .ok r => r.converged
  | .error _ => false

theorem converges_iff {limit : Nat} :
    g.converges c limit = true ↔ ∃ r, g.solve c limit = .ok r ∧ r.converged = true := by
  unfold converges
  cases g.solve c limit <;> simp

end Graph
end Backslice
