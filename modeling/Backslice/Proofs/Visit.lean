import Backslice.Proofs.Join
import Backslice.Proofs.Transfer
import Backslice.Solver
import Mathlib.Data.List.Induction

/-! # One visit

With a known state in front of it a block runs to a known state, and the states around its instructions follow
one another. -/

namespace Backslice

set_option autoImplicit false

/-! ## Running the instructions of a block -/

/-- What an instruction does to a state, in a function with the signature `sig`. -/
def Instr.Effect (sig : Signature) (c : Config) (s t : State) : Instr → Prop
  | .data i => i.Effect c s t
  | .control i => i.Effect sig s t

/-- Instructions that run one after the other from `s` to `t`, with the states around each. -/
inductive Steps (sig : Signature) (c : Config) : List Instr → State → List (Label × Note) → State → Prop
  | nil (s : State) : Steps sig c [] s [] s
  | cons {i : Instr} {rest : List Instr} {s u t : State} {notes : List (Label × Note)}
      (hi : i.Effect sig c s u) (hrest : Steps sig c rest u notes t) :
      Steps sig c (i :: rest) s ((i.label, ⟨.known s, .known u⟩) :: notes) t

section
variable {sig : Signature} {c : Config}

theorem Instr.Effect.unique {i : Instr} {s t t' : State} (h : i.Effect sig c s t) (h' : i.Effect sig c s t') :
    t = t' := by
  cases i with
  | data d =>
    have heq := (DataInstr.apply_eq_ok.mpr h).symm.trans (DataInstr.apply_eq_ok.mpr h')
    exact Except.ok.inj heq
  | control k =>
    have heq := (ControlInstr.transfer_known.mpr ⟨t, h, rfl⟩).symm.trans
      (ControlInstr.transfer_known.mpr ⟨t', h', rfl⟩)
    have hmain := congrArg Outcome.main (Except.ok.inj heq)
    rw [ControlInstr.main_outcome, ControlInstr.main_outcome] at hmain
    exact Flow.known.inj hmain

theorem Instr.Effect.lengths {i : Instr} {s t : State} (h : i.Effect sig c s t) :
    t.locals.length = s.locals.length ∧ t.globals.length = s.globals.length := by
  cases i with
  | data d => exact DataInstr.Effect.lengths h
  | control k => exact ControlInstr.Effect.lengths h

theorem Steps.lengths {is : List Instr} {s t : State} {notes : List (Label × Note)} (h : Steps sig c is s notes t) :
    t.locals.length = s.locals.length ∧ t.globals.length = s.globals.length := by
  induction h with
  | nil => exact ⟨rfl, rfl⟩
  | cons hi _ ih =>
    have hlengths := hi.lengths
    exact ⟨ih.1.trans hlengths.1, ih.2.trans hlengths.2⟩

theorem Steps.unique {is : List Instr} {s t t' : State} {notes notes' : List (Label × Note)}
    (h : Steps sig c is s notes t) (h' : Steps sig c is s notes' t') : notes = notes' ∧ t = t' := by
  induction h generalizing notes' with
  | nil =>
    cases h'
    exact ⟨rfl, rfl⟩
  | cons hi _ ih => cases h' with
    | cons hi' hrest' =>
      obtain rfl := hi.unique hi'
      obtain ⟨rfl, rfl⟩ := ih hrest'
      exact ⟨rfl, rfl⟩

theorem Steps.labels {is : List Instr} {s t : State} {notes : List (Label × Note)} (h : Steps sig c is s notes t) :
    notes.map (·.1) = is.map Instr.label := by
  induction h with
  | nil => rfl
  | cons _ _ ih => rw [List.map_cons, List.map_cons, ih]

theorem Steps.split {pre post : List Instr} {s t : State} {notes : List (Label × Note)}
    (h : Steps sig c (pre ++ post) s notes t) :
    ∃ n₁ n₂ u, notes = n₁ ++ n₂ ∧ Steps sig c pre s n₁ u ∧ Steps sig c post u n₂ t := by
  induction pre generalizing s notes with
  | nil => exact ⟨[], notes, s, rfl, .nil s, h⟩
  | cons i pre ih => cases h with
    | cons hi hrest =>
      obtain ⟨n₁, n₂, u, rfl, hpre, hpost⟩ := ih hrest
      exact ⟨_ :: n₁, n₂, u, rfl, .cons hi hpre, hpost⟩

theorem Steps.append {pre post : List Instr} {s u t : State} {n₁ n₂ : List (Label × Note)}
    (hpre : Steps sig c pre s n₁ u) (hpost : Steps sig c post u n₂ t) :
    Steps sig c (pre ++ post) s (n₁ ++ n₂) t := by
  induction hpre with
  | nil => exact hpost
  | cons hi _ ih => exact .cons hi (ih hpost)

theorem Steps.middle {pre post : List Instr} {i : Instr} {s t : State} {notes : List (Label × Note)}
    (h : Steps sig c (pre ++ i :: post) s notes t) : ∃ n₁ u w, Steps sig c pre s n₁ u ∧ i.Effect sig c u w ∧
      (i.label, ⟨.known u, .known w⟩) ∈ notes := by
  obtain ⟨n₁, n₂, u, rfl, hpre, hpost⟩ := h.split
  cases hpost with
  | cons hi _ => exact ⟨n₁, u, _, hpre, hi, List.mem_append_right _ (List.mem_cons_self ..)⟩

theorem runData_labels {is : List DataInstr} {f last : Flow} {notes : List (Label × Note)}
    (h : runData c is f = .ok (last, notes)) : notes.map (·.1) = is.map DataInstr.label := by
  induction is generalizing f last notes with
  | nil =>
    obtain ⟨-, rfl⟩ := Prod.mk.inj (pure_eq_ok.mp h)
    rfl
  | cons i rest ih =>
    rw [runData, bind_eq_ok] at h
    obtain ⟨after, -, h⟩ := h
    obtain ⟨⟨last', notes'⟩, hrest, h⟩ := bind_eq_ok.mp h
    obtain ⟨-, rfl⟩ := Prod.mk.inj (pure_eq_ok.mp h)
    rw [List.map_cons, List.map_cons, ih hrest]

theorem runData_known (sig : Signature) {is : List DataInstr} {s : State} {f : Flow} {notes : List (Label × Note)} :
    runData c is (.known s) = .ok (f, notes) ↔ ∃ t, Steps sig c (is.map .data) s notes t ∧ f = .known t := by
  induction is generalizing s f notes with
  | nil =>
    rw [runData, pure_eq_ok, Prod.mk.injEq]
    constructor
    · rintro ⟨rfl, rfl⟩
      exact ⟨s, .nil s, rfl⟩
    · rintro ⟨t, ht, rfl⟩
      cases ht
      exact ⟨rfl, rfl⟩
  | cons i rest ih =>
    rw [runData, bind_eq_ok]
    constructor
    · rintro ⟨f₁, hi, h⟩
      obtain ⟨u, hu, rfl⟩ := DataInstr.transfer_known.mp hi
      obtain ⟨⟨f₂, notes₂⟩, hrest, h⟩ := bind_eq_ok.mp h
      obtain ⟨t, ht, rfl⟩ := ih.mp hrest
      obtain ⟨rfl, rfl⟩ := Prod.mk.inj (pure_eq_ok.mp h)
      exact ⟨t, .cons (i := .data i) hu ht, rfl⟩
    · rintro ⟨t, ht, rfl⟩
      cases ht with
      | cons hu hrest =>
        exact ⟨_, DataInstr.transfer_known.mpr ⟨_, hu, rfl⟩, bind_eq_ok.mpr ⟨_, ih.mpr ⟨t, hrest, rfl⟩, rfl⟩⟩

end

theorem Flow.state?_eq_some {f : Flow} {s : State} : f.state? = some s ↔ f = .known s := by
  cases f <;> simp [Flow.state?]

theorem Flow.filterMap_known (states : List State) : (states.map Flow.known).filterMap Flow.state? = states := by
  rw [List.filterMap_map]
  exact List.filterMap_some

namespace Graph

variable {g : Graph} {c : Config} {index : Int} {b : Block} {flows : List Flow} {v : Visit}

/-! ## The start of a visit -/

/-- The state in front of a join point: the last one that is known, or the one behind it. -/
def lastKnown (start : Flow) (flows : List Flow) : Flow :=
  flows.foldl (fun acc f => if f.isBottom then acc else acc.join f) start

theorem lastKnown_mem (start : Flow) (h : flows.filterMap Flow.state? ≠ []) :
    ∃ s ∈ flows.filterMap Flow.state?, lastKnown start flows = .known s := by
  induction flows using List.reverseRecOn with
  | nil => exact absurd rfl h
  | append_singleton init f ih =>
    rw [lastKnown, List.foldl_append]
    cases f with
    | bottom =>
      rw [List.filterMap_append] at h ⊢
      obtain ⟨s, hs, hlast⟩ := ih (by simpa [Flow.state?] using h)
      exact ⟨s, List.mem_append_left _ hs, hlast⟩
    | known s => exact ⟨s, by simp [Flow.state?], rfl⟩

/-- The states that come into a block, and the one from which it runs: at the entry of the function, or where at
least one of the incoming states is known. -/
inductive Starts (g : Graph) (index : Int) (b : Block) : List State → State → Prop
  | entry (h : index = g.entry) : Starts g index b [] g.signature.entryState
  | join {inputs : List State} {s : State} (hne : inputs ≠ [])
      (hs : State.Joined (fun v => b.isMerge = true ∧ g.BornAt index v) inputs s)
      (hone : b.isMerge = false → inputs = [s]) : Starts g index b inputs s

/-- What comes into a block has the shape of what the block runs from. -/
theorem Starts.shape {inputs : List State} {s x : State} (h : g.Starts index b inputs s) (hx : x ∈ inputs) :
    x.partLength = s.partLength := by
  cases h with
  | entry => cases hx
  | join _ hs _ => exact hs.shape x hx

theorem starts_of_merge (hne : flows.filterMap Flow.state? ≠ []) {f : Flow} (h : g.merge index b flows = .ok f) :
    ∃ s, f = .known s ∧ g.Starts index b (flows.filterMap Flow.state?) s := by
  by_cases hb : b.isMerge = true
  · obtain ⟨s, rfl, hs⟩ := merge_joined hb hne h
    refine ⟨s, rfl, .join hne ?_ fun hcon => ?_⟩
    · simpa [hb] using hs
    · rw [hb] at hcon
      cases hcon
  · have hb : b.isMerge = false := Bool.eq_false_iff.mpr hb
    rcases eq_of_merge_ok hb h with ⟨rfl, _⟩ | rfl
    · exact absurd rfl hne
    · cases f with
      | bottom => exact absurd rfl hne
      | known s => exact ⟨s, rfl, .join hne (State.Joined.single _ s) fun _ => rfl⟩

/-- A block can start from states of one shape, and from a single one also if it is not a join point. -/
theorem starts_of_shape (hne : flows.filterMap Flow.state? ≠ []) (hlength : b.isMerge = false → flows.length ≤ 1)
    {shape : Part → Nat} (hshape : ∀ x ∈ flows.filterMap Flow.state?, x.partLength = shape) :
    ∃ s, g.merge index b flows = .ok (.known s) ∧ g.Starts index b (flows.filterMap Flow.state?) s := by
  have hmerge : ∃ f, g.merge index b flows = .ok f := by
    cases hm : b.isMerge with
    | true => exact merge_succeeds hm hne hshape
    | false =>
      have hle := hlength hm
      rcases flows with _ | ⟨f, _ | ⟨f', rest⟩⟩
      · exact absurd rfl hne
      · exact ⟨f, merge_of_not_isMerge hm f⟩
      · simp at hle
  obtain ⟨f, hf⟩ := hmerge
  obtain ⟨s, rfl, hs⟩ := starts_of_merge hne hf
  exact ⟨s, hf, hs⟩

/-! ## A whole visit -/

theorem visit_merge (hbody : b.body = .merge) : g.visit c index b flows = .ok v ↔ ∃ start,
    g.merge index b flows = .ok start ∧ ⟨.simple start, ⟨lastKnown start flows, start⟩, []⟩ = v := by
  simp only [visit, hbody, bind_eq_ok, pure_eq_ok, lastKnown]

theorem visit_control {i : ControlInstr} (hbody : b.body = .control i) : g.visit c index b flows = .ok v ↔
    ∃ start o, g.merge index b flows = .ok start ∧ i.transfer g.signature start = .ok o ∧
      ⟨o, ⟨start, o.main⟩, [(i.label, ⟨start, o.main⟩)]⟩ = v := by
  simp only [visit, hbody, bind_eq_ok, pure_eq_ok, exists_and_left]

theorem visit_data {is : List DataInstr} (hbody : b.body = .data is) : g.visit c index b flows = .ok v ↔
    ∃ start last notes, g.merge index b flows = .ok start ∧ runData c is start = .ok (last, notes) ∧
      ⟨.simple last, ⟨start, last⟩, notes⟩ = v := by
  simp only [visit, hbody, bind_eq_ok, pure_eq_ok, Prod.exists, exists_and_left]

/-- What a visit finds out if it takes the block from `s` to `t`. -/
structure Found (g : Graph) (c : Config) (b : Block) (inputs : List State) (s t : State) (v : Visit) : Prop where
  runs : Steps g.signature c b.instrs s v.instrs t
  along : ∀ cond, v.outcome.along cond = .known t
  after : v.note.after = .known t
  before : b.isMerge = false → v.note.before = .known s
  before_merge : b.isMerge = true → ∃ u, v.note.before = .known u ∧ (u ∈ inputs ∨ inputs = [] ∧ u = s)

/-- What a visit records in front of a block has the shape of what the block runs from. -/
theorem Found.note_shape {inputs : List State} {s t : State} (h : g.Found c b inputs s t v)
    (hs : g.Starts index b inputs s) :
    ∃ x, v.note = ⟨.known x, .known t⟩ ∧ x.partLength = s.partLength := by
  cases hm : b.isMerge with
  | false =>
    refine ⟨s, ?_, rfl⟩
    rw [← h.before hm, ← h.after]
  | true =>
    obtain ⟨x, hx, hinput⟩ := h.before_merge hm
    refine ⟨x, by rw [← hx, ← h.after], ?_⟩
    rcases hinput with hinput | ⟨_, rfl⟩
    · exact hs.shape hinput
    · rfl

theorem visit_found {s : State} (hmerge : g.merge index b flows = .ok (.known s))
    (hin : flows = [] ∨ flows.filterMap Flow.state? ≠ []) (h : g.visit c index b flows = .ok v) :
    ∃ t, g.Found c b (flows.filterMap Flow.state?) s t v := by
  cases hbody : b.body with
  | merge =>
    obtain ⟨start, hstart, rfl⟩ := (visit_merge hbody).mp h
    cases hmerge.symm.trans hstart
    refine ⟨s, ?_, fun _ => rfl, rfl, fun hcon => ?_, fun _ => ?_⟩
    · simp only [Block.instrs, hbody]
      exact .nil s
    · simp [Block.isMerge, hbody] at hcon
    · rcases hin with rfl | hne
      · exact ⟨s, rfl, Or.inr ⟨rfl, rfl⟩⟩
      · obtain ⟨u, hu, hlast⟩ := lastKnown_mem (.known s) hne
        exact ⟨u, hlast, Or.inl hu⟩
  | control i =>
    obtain ⟨start, o, hstart, ho, rfl⟩ := (visit_control hbody).mp h
    cases hmerge.symm.trans hstart
    obtain ⟨t, ht, rfl⟩ := ControlInstr.transfer_known.mp ho
    have hmain := ControlInstr.main_outcome i t
    refine ⟨t, ?_, ControlInstr.along_outcome i t, hmain, fun _ => rfl, fun hcon => ?_⟩
    · simp only [Block.instrs, hbody, hmain]
      exact .cons (i := .control i) ht (.nil t)
    · simp [Block.isMerge, hbody] at hcon
  | data instrs =>
    obtain ⟨start, last, notes, hstart, hrun, rfl⟩ := (visit_data hbody).mp h
    cases hmerge.symm.trans hstart
    obtain ⟨t, ht, rfl⟩ := (runData_known g.signature).mp hrun
    refine ⟨t, ?_, fun _ => rfl, rfl, fun _ => rfl, fun hcon => ?_⟩
    · simp only [Block.instrs, hbody]
      exact ht
    · simp [Block.isMerge, hbody] at hcon

theorem visit_succeeds {s t : State} {notes : List (Label × Note)}
    (hmerge : g.merge index b flows = .ok (.known s)) (h : Steps g.signature c b.instrs s notes t) :
    ∃ v, g.visit c index b flows = .ok v := by
  cases hbody : b.body with
  | merge => exact ⟨_, (visit_merge hbody).mpr ⟨_, hmerge, rfl⟩⟩
  | control i =>
    simp only [Block.instrs, hbody] at h
    cases h with
    | cons hi _ =>
      exact ⟨_, (visit_control hbody).mpr ⟨_, _, hmerge, ControlInstr.transfer_known.mpr ⟨_, hi, rfl⟩, rfl⟩⟩
  | data instrs =>
    simp only [Block.instrs, hbody] at h
    exact ⟨_, (visit_data hbody).mpr ⟨_, _, notes, hmerge, (runData_known g.signature).mpr ⟨t, h, rfl⟩, rfl⟩⟩

theorem visit_start (hin : (flows = [] ∧ index = g.entry) ∨ flows.filterMap Flow.state? ≠ [])
    (h : g.visit c index b flows = .ok v) :
    ∃ s, g.merge index b flows = .ok (.known s) ∧ g.Starts index b (flows.filterMap Flow.state?) s := by
  rcases hin with ⟨rfl, hentry⟩ | hne
  · exact ⟨_, merge_nil g index b, .entry hentry⟩
  · unfold visit at h
    obtain ⟨f, hf, _⟩ := bind_eq_ok.mp h
    obtain ⟨s, rfl, hs⟩ := starts_of_merge hne hf
    exact ⟨s, hf, hs⟩

theorem visit_runs (hin : (flows = [] ∧ index = g.entry) ∨ flows.filterMap Flow.state? ≠ [])
    (h : g.visit c index b flows = .ok v) : ∃ s t, g.Starts index b (flows.filterMap Flow.state?) s ∧
      g.Found c b (flows.filterMap Flow.state?) s t v := by
  obtain ⟨s, hmerge, hs⟩ := visit_start hin h
  obtain ⟨t, ht⟩ := visit_found hmerge (hin.imp_left fun hnil => hnil.1) h
  exact ⟨s, t, hs, ht⟩

end Graph
end Backslice
