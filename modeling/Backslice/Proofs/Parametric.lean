import Backslice.Proofs.Dominance

/-! # Instructions do not look at names

An instruction moves names about and adds those that it makes, but what it does depends on no name. So it runs alike
from any two states with related names at the same places, and the states behind it are related in the same way. In
particular whether it runs, and how long the parts of the state behind it are, depends on the lengths alone. -/

namespace Backslice

set_option autoImplicit false

/-! ## Lists of related names -/

section
variable {α β : Type} {R : α → β → Prop} {l : List α} {l' : List β}

theorem forall₂_getElem? (h : List.Forall₂ R l l') {k : Nat} {a : α} (ha : l[k]? = some a) :
    ∃ b, l'[k]? = some b ∧ R a b := by
  induction h generalizing k with
  | nil => cases ha
  | cons hab _ ih => cases k with
    | zero =>
      cases ha
      exact ⟨_, rfl, hab⟩
    | succ k => exact ih ha

theorem forall₂_map_getElem? {γ : Type} {f : α → γ} {f' : β → γ} (hR : ∀ a b, R a b → f a = f' b)
    (h : List.Forall₂ R l l') (k : Nat) : l[k]?.map f = l'[k]?.map f' := by
  induction h generalizing k with
  | nil => rfl
  | cons hab _ ih => cases k with
    | zero => exact congrArg some (hR _ _ hab)
    | succ k => exact ih k

theorem forall₂_set (h : List.Forall₂ R l l') (k : Nat) {a : α} {b : β} (hab : R a b) :
    List.Forall₂ R (l.set k a) (l'.set k b) := by
  induction h generalizing k with
  | nil => exact .nil
  | cons hcd htail ih => cases k with
    | zero => exact .cons hab htail
    | succ k => exact .cons hcd (ih k)

theorem forall₂_position (h : List.Forall₂ R l l') {n : Int} {a : α} (ha : Position.get? l n = some a) :
    ∃ b, Position.get? l' n = some b ∧ R a b := by
  unfold Position.get? at ha ⊢
  rw [← h.length_eq]
  by_cases hn : 0 ≤ n
  · rw [if_pos hn] at ha ⊢
    exact forall₂_getElem? h ha
  · rw [if_neg hn] at ha ⊢
    by_cases hn' : 0 ≤ n + l.length
    · rw [if_pos hn'] at ha ⊢
      exact forall₂_getElem? h ha
    · rw [if_neg hn'] at ha
      cases ha

theorem forall₂_dropTo (h : List.Forall₂ R l l') (n : Int) :
    List.Forall₂ R (Position.dropTo l n) (Position.dropTo l' n) := by
  unfold Position.dropTo
  rw [← h.length_eq]
  exact List.forall₂_drop _ h

end

/-! ## Frames -/

namespace State

/-- The names on the stack, in the locals and in the globals are related, place by place. -/
structure Frames (R : Var → Var → Prop) (s s' : State) : Prop where
  stack : List.Forall₂ R s.stack s'.stack
  locals : List.Forall₂ R s.locals s'.locals
  globals : List.Forall₂ R s.globals s'.globals

/-- What an instruction does to memory, in two states: it leaves memory as it is, or puts related names there at
related addresses. -/
inductive Wrote (R : Var → Var → Prop) (m m' : Memory) : Memory → Memory → Prop
  | same : Wrote R m m' m m'
  | store {a a' v v' : Var} (offset : Int) (ha : R a a') (hv : R v v') :
      Wrote R m m' (m.insert (a, offset) v) (m'.insert (a', offset) v')

variable {R : Var → Var → Prop} {s s' : State}

theorem frames_of_shape (h : s'.partLength = s.partLength) : Frames (fun _ _ => True) s s' := by
  have hlist : ∀ {l l' : List Var}, l'.length = l.length → List.Forall₂ (fun _ _ => True) l l' :=
    fun hlen => List.forall₂_iff_get.mpr ⟨hlen.symm, fun _ _ _ => trivial⟩
  exact ⟨hlist (length_stack_of_shape h), hlist (length_locals_of_shape h), hlist (length_globals_of_shape h)⟩

theorem Frames.shape (h : Frames R s s') : s'.partLength = s.partLength :=
  partLength_ext h.stack.length_eq.symm h.locals.length_eq.symm h.globals.length_eq.symm

theorem Frames.push (h : Frames R s s') {v v' : Var} (hv : R v v') : Frames R (s.push v) (s'.push v') :=
  ⟨.cons hv h.stack, h.locals, h.globals⟩

theorem Frames.cons (h : Frames R s s') {v : Var} {rest : List Var} (hs : s.stack = v :: rest) :
    ∃ v' rest', s'.stack = v' :: rest' ∧ R v v' ∧ List.Forall₂ R rest rest' := by
  have hstack := h.stack
  rw [hs] at hstack
  obtain ⟨v', rest', hv, hrest, hs'⟩ := List.forall₂_cons_left_iff.mp hstack
  exact ⟨v', rest', hs', hv, hrest⟩

end State

/-! ## Instructions -/

section
variable {R : Var → Var → Prop} {c : Config} {sig : Signature} {s t s' : State}

theorem DataInstr.Reads.lift {i : DataInstr} {propagate : Bool} {places places' : List Var} {v : Var}
    (h : i.Reads propagate places v) (hfresh : R i.fresh i.fresh) (hplaces : List.Forall₂ R places places') :
    ∃ v', i.Reads propagate places' v' ∧ R v v' := by
  cases propagate with
  | true =>
    obtain ⟨n, harg, hv⟩ := h
    obtain ⟨v', hv', hR⟩ := forall₂_position hplaces hv
    exact ⟨v', ⟨n, harg, hv'⟩, hR⟩
  | false =>
    obtain rfl : v = i.fresh := h
    exact ⟨i.fresh, rfl, hfresh⟩

theorem DataInstr.written_lift {i : DataInstr} (propagate : Bool) {v v' : Var} (hfresh : R i.fresh i.fresh)
    (hv : R v v') : R (i.written propagate v) (i.written propagate v') := by
  unfold DataInstr.written
  split
  · exact hv
  · exact hfresh

theorem DataInstr.Effect.lift {i : DataInstr} (hmade : ∀ v, i.Makes v → R v v) (h : i.Effect c s t)
    (hs : State.Frames R s s') :
    ∃ t', i.Effect c s' t' ∧ State.Frames R t t' ∧ State.Wrote R s.memory s'.memory t.memory t'.memory := by
  have hfresh : R i.fresh i.fresh := hmade _ (Or.inl rfl)
  cases h with
  | nop hop => exact ⟨s', .nop hop, hs, .same⟩
  | @compute n hop hn =>
    refine ⟨_, .compute hop (hs.stack.length_eq ▸ hn), ⟨.cons hfresh ?_, hs.locals, hs.globals⟩, .same⟩
    exact List.forall₂_drop n hs.stack
  | drop hop hcons =>
    obtain ⟨v', rest', hcons', -, hrest⟩ := hs.cons hcons
    exact ⟨_, .drop hop hcons', ⟨hrest, hs.locals, hs.globals⟩, .same⟩
  | localGet hop hv =>
    obtain ⟨v', hv', hR⟩ := hv.lift hfresh hs.locals
    exact ⟨_, .localGet hop hv', hs.push hR, .same⟩
  | @localSet v rest n hop hcons harg hn =>
    obtain ⟨v', rest', hcons', hv, hrest⟩ := hs.cons hcons
    refine ⟨_, .localSet hop hcons' harg (hs.locals.length_eq ▸ hn), ⟨hrest, ?_, hs.globals⟩, .same⟩
    exact forall₂_set hs.locals n (i.written_lift c.propagateLocals hfresh hv)
  | @localTee v rest n hop hcons harg hn =>
    obtain ⟨v', rest', hcons', hv, hrest⟩ := hs.cons hcons
    refine ⟨_, .localTee hop hcons' harg (hs.locals.length_eq ▸ hn), ⟨hs.stack, ?_, hs.globals⟩, .same⟩
    exact forall₂_set hs.locals n (i.written_lift c.propagateLocals hfresh hv)
  | globalGet hop hv =>
    obtain ⟨v', hv', hR⟩ := hv.lift hfresh hs.globals
    exact ⟨_, .globalGet hop hv', hs.push hR, .same⟩
  | @globalSet v rest n hop hcons harg hn =>
    obtain ⟨v', rest', hcons', hv, hrest⟩ := hs.cons hcons
    refine ⟨_, .globalSet hop hcons' harg (hs.globals.length_eq ▸ hn), ⟨hrest, hs.locals, ?_⟩, .same⟩
    exact forall₂_set hs.globals n (i.written_lift c.propagateGlobals hfresh hv)
  | const hop =>
    refine ⟨_, .const hop, hs.push ?_, .same⟩
    split
    · exact hmade _ (Or.inr ⟨hop, rfl⟩)
    · exact hfresh
  | store hop hcons =>
    obtain ⟨v', rest', hcons', hv, hrest⟩ := hs.cons hcons
    obtain ⟨a', rest'', ha, hrest', rfl⟩ := List.forall₂_cons_left_iff.mp hrest
    exact ⟨_, .store hop hcons', ⟨hrest', hs.locals, hs.globals⟩, .store i.offset ha hv⟩

theorem ControlInstr.Effect.lift {i : ControlInstr} (hfresh : R i.fresh i.fresh) (h : i.Effect sig s t)
    (hs : State.Frames R s s') :
    ∃ t', i.Effect sig s' t' ∧ State.Frames R t t' ∧ State.Wrote R s.memory s'.memory t.memory t'.memory := by
  cases h with
  | call hop hn =>
    refine ⟨_, .call hop (hs.stack.length_eq ▸ hn), ⟨?_, hs.locals, hs.globals⟩, .same⟩
    have hresults : List.Forall₂ R i.results i.results := by
      unfold ControlInstr.results
      split
      · exact .cons hfresh .nil
      · exact .nil
    exact List.rel_append hresults (forall₂_dropTo hs.stack i.takes)
  | br hop => exact ⟨s', .br hop, hs, .same⟩
  | branch hop hcons =>
    obtain ⟨v', rest', hcons', -, hrest⟩ := hs.cons hcons
    exact ⟨_, .branch hop hcons', ⟨hrest, hs.locals, hs.globals⟩, .same⟩
  | ret hop hr hcons =>
    obtain ⟨v', rest', hcons', hv, -⟩ := hs.cons hcons
    exact ⟨_, .ret hop hr hcons', ⟨.cons hv .nil, hs.locals, hs.globals⟩, .same⟩
  | leave hop => exact ⟨_, .leave hop, ⟨.nil, hs.locals, hs.globals⟩, .same⟩

/-- An instruction runs from any state whose names are related to those of a state from which it runs. -/
theorem Instr.Effect.lift {i : Instr} (hmade : ∀ v, i.Makes v → R v v) (h : i.Effect sig c s t)
    (hs : State.Frames R s s') :
    ∃ t', i.Effect sig c s' t' ∧ State.Frames R t t' ∧ State.Wrote R s.memory s'.memory t.memory t'.memory := by
  cases i with
  | data d =>
    refine DataInstr.Effect.lift (fun v hv => hmade v ?_) h hs
    rcases hv with rfl | ⟨hop, rfl⟩
    · exact Or.inl rfl
    · exact Or.inr ⟨d, rfl, hop, Var.beq_iff.mpr rfl⟩
  | control k => exact ControlInstr.Effect.lift (hmade _ (Or.inl rfl)) h hs

end

/-! ## Several instructions -/

/-- The names of the frames are related by `R`, and the memories by `M`. -/
structure State.Related (R : Var → Var → Prop) (M : Memory → Memory → Prop) (s s' : State) : Prop where
  frames : State.Frames R s s'
  memory : M s.memory s'.memory

/-- Two annotations with related states, before and after. -/
def Note.Related (R : Var → Var → Prop) (M : Memory → Memory → Prop) (a a' : Note) : Prop :=
  ∃ s t s' t', a = ⟨.known s, .known t⟩ ∧ a' = ⟨.known s', .known t'⟩ ∧ s.Related R M s' ∧ t.Related R M t'

section
variable {R : Var → Var → Prop} {M : Memory → Memory → Prop} {c : Config} {sig : Signature} {s t s' t' : State}
  {is : List Instr} {notes notes' : List (Label × Note)}

theorem State.Wrote.keeps (hstore : ∀ m m' a a' v v' (offset : Int), M m m' → R a a' → R v v' →
      M (m.insert (a, offset) v) (m'.insert (a', offset) v')) {m m' n n' : Memory} (h : State.Wrote R m m' n n')
    (hm : M m m') : M n n' := by
  cases h with
  | same => exact hm
  | store offset ha hv => exact hstore _ _ _ _ _ _ offset hm ha hv

/-- Instructions that run from a state run from every related one, and record related states. -/
theorem Steps.lift (hstore : ∀ m m' a a' v v' (offset : Int), M m m' → R a a' → R v v' →
      M (m.insert (a, offset) v) (m'.insert (a', offset) v'))
    (hmade : ∀ i ∈ is, ∀ v, i.Makes v → R v v) (h : Steps sig c is s notes t) (hs : s.Related R M s') :
    ∃ notes' t', Steps sig c is s' notes' t' ∧ t.Related R M t' ∧
      List.Forall₂ (fun e e' => e.1 = e'.1 ∧ e.2.Related R M e'.2) notes notes' := by
  induction h generalizing s' with
  | nil => exact ⟨[], s', .nil s', hs, .nil⟩
  | cons hi _ ih =>
    obtain ⟨hfirst, hrest⟩ := List.forall_mem_cons.mp hmade
    obtain ⟨u', hu', hframes, hwrote⟩ := hi.lift hfirst hs.frames
    have hu : State.Related R M _ u' := ⟨hframes, hwrote.keeps hstore hs.memory⟩
    obtain ⟨notes', t', hsteps, ht, hnotes⟩ := ih hrest hu
    exact ⟨_, t', .cons hu' hsteps, ht, .cons ⟨rfl, _, _, s', u', rfl, rfl, hs, hu⟩ hnotes⟩

/-- Two runs of the same instructions from related states record related states. -/
theorem Steps.related (hstore : ∀ m m' a a' v v' (offset : Int), M m m' → R a a' → R v v' →
      M (m.insert (a, offset) v) (m'.insert (a', offset) v'))
    (hmade : ∀ i ∈ is, ∀ v, i.Makes v → R v v) (h : Steps sig c is s notes t) (h' : Steps sig c is s' notes' t')
    (hs : s.Related R M s') : t.Related R M t' ∧
      List.Forall₂ (fun e e' => e.1 = e'.1 ∧ e.2.Related R M e'.2) notes notes' := by
  obtain ⟨notes'', t'', hsteps, ht, hnotes⟩ := h.lift hstore hmade hs
  obtain ⟨rfl, rfl⟩ := h'.unique hsteps
  exact ⟨ht, hnotes⟩

/-! ## Shapes -/

theorem State.related_of_shape (h : s'.partLength = s.partLength) :
    s.Related (fun _ _ => True) (fun _ _ => True) s' :=
  ⟨State.frames_of_shape h, trivial⟩

/-- Whether instructions run depends on the shape of the state in front of them. -/
theorem Steps.exists_of_shape (h : Steps sig c is s notes t) (hs : s'.partLength = s.partLength) :
    ∃ notes' t', Steps sig c is s' notes' t' ∧ t'.partLength = t.partLength := by
  obtain ⟨notes', t', hsteps, ht, -⟩ := h.lift (fun _ _ _ _ _ _ _ _ _ _ => trivial) (fun _ _ _ _ => trivial)
    (State.related_of_shape hs)
  exact ⟨notes', t', hsteps, ht.frames.shape⟩

/-- The shape of the state behind instructions depends on the shape of the state in front of them. -/
theorem Steps.shape_eq (h : Steps sig c is s notes t) (h' : Steps sig c is s' notes' t')
    (hs : s'.partLength = s.partLength) : t'.partLength = t.partLength :=
  (h.related (fun _ _ _ _ _ _ _ _ _ _ => trivial) (fun _ _ _ _ => trivial) h'
    (State.related_of_shape hs)).1.frames.shape

end

/-! ## Where names come from -/

/-- The place for which a name stands in a symbolic state. -/
def Var.place? : Var → Option Place
  | .phi 0 (.ofNat k) => some (.stack k)
  | .phi 1 (.ofNat k) => some (.locals k)
  | .phi 2 (.ofNat k) => some (.globals k)
  | _ => none

namespace State

/-- The state of a shape in which every name stands for its own place. -/
def symbolic (shape : Part → Nat) : State where
  stack := (List.range (shape .stack)).map fun k => .phi 0 (.ofNat k)
  locals := (List.range (shape .locals)).map fun k => .phi 1 (.ofNat k)
  globals := (List.range (shape .globals)).map fun k => .phi 2 (.ofNat k)

/-- What a name of a symbolic run means if the run starts from `s`. -/
def meaning (s : State) (v : Var) : Option Var :=
  match v.place? with
  | some p => s.nameAt p
  | none => some v

theorem partLength_symbolic (shape : Part → Nat) : (symbolic shape).partLength = shape := by
  funext part
  cases part <;> simp [symbolic, partLength]

theorem frames_symbolic {R : Var → Var → Prop} {shape : Part → Nat} {s : State} (hshape : s.partLength = shape)
    (hR : ∀ v p w, v.place? = some p → s.nameAt p = some w → R v w) : Frames R (symbolic shape) s := by
  subst hshape
  have hlist : ∀ {l : List Var} {block : Int} {place : Nat → Place},
      (∀ k : Nat, (Var.phi block (.ofNat k)).place? = some (place k)) → (∀ k, s.nameAt (place k) = l[k]?) →
      List.Forall₂ R ((List.range l.length).map fun k => .phi block (.ofNat k)) l := by
    intro l block place hplace hname
    refine List.forall₂_iff_get.mpr ⟨by simp, fun k hk hk' => ?_⟩
    simp only [List.get_eq_getElem, List.getElem_map, List.getElem_range]
    exact hR _ (place k) _ (hplace k) ((hname k).trans (List.getElem?_eq_getElem hk'))
  exact ⟨hlist (fun _ => rfl) fun _ => rfl, hlist (fun _ => rfl) fun _ => rfl, hlist (fun _ => rfl) fun _ => rfl⟩

theorem Frames.nameAt {R : Var → Var → Prop} {s s' : State} (h : Frames R s s') {p : Place} (hp : p.IsCell) :
    (s.nameAt p = none ∧ s'.nameAt p = none) ∨ ∃ v w, s.nameAt p = some v ∧ s'.nameAt p = some w ∧ R v w := by
  have hlist : ∀ {l l' : List Var} (k : Nat), List.Forall₂ R l l' →
      (l[k]? = none ∧ l'[k]? = none) ∨ ∃ v w, l[k]? = some v ∧ l'[k]? = some w ∧ R v w := by
    intro l l' k hl
    cases hk : l[k]? with
    | none =>
      rw [List.getElem?_eq_none_iff, hl.length_eq, ← List.getElem?_eq_none_iff] at hk
      exact Or.inl ⟨rfl, hk⟩
    | some v =>
      obtain ⟨w, hw, hR⟩ := forall₂_getElem? hl hk
      exact Or.inr ⟨v, w, rfl, hw, hR⟩
  cases p with
  | stack k => exact hlist k h.stack
  | locals k => exact hlist k h.locals
  | globals k => exact hlist k h.globals
  | memory k => cases hp

end State

section
variable (sig : Signature) (c : Config) (is : List Instr)

theorem Instr.Makes.place? {i : Instr} {v : Var} (h : i.Makes v) : v.place? = none := by
  rcases h with rfl | ⟨d, -, -, hv⟩
  · rfl
  · rw [Var.beq_iff] at hv
    cases v <;> simp_all [Var.key, Var.place?]

theorem Var.isCell_of_place? {v : Var} {p : Place} (h : v.place? = some p) : p.IsCell := by
  unfold Var.place? at h
  split at h
  · cases h
    trivial
  · cases h
    trivial
  · cases h
    trivial
  · cases h

/-- What stands behind instructions on the stack, in the locals and in the globals has been moved there from a fixed
place, or is a name that one of the instructions makes. -/
theorem Steps.exists_moves (shape : Part → Nat) : ∃ moves : Place → Option Var,
    (∀ p v, p.IsCell → moves p = some v → (∃ q, v.place? = some q) ∨ ∃ i ∈ is, i.Makes v) ∧
      ∀ s notes t p, s.partLength = shape → Steps sig c is s notes t → p.IsCell →
        t.nameAt p = (moves p).bind s.meaning := by
  by_cases hrun : ∃ s notes t, s.partLength = shape ∧ Steps sig c is s notes t
  · obtain ⟨s₁, notes₁, t₁, hs₁, hsteps₁⟩ := hrun
    obtain ⟨notes₀, t₀, hsteps₀, -⟩ := hsteps₁.exists_of_shape ((State.partLength_symbolic shape).trans hs₁.symm)
    refine ⟨t₀.nameAt, fun p v hp hv => ?_, fun s notes t p hs hsteps hp => ?_⟩
    · have hsymbolic : State.Frames (fun v _ => (∃ q, v.place? = some q) ∨ ∃ i ∈ is, i.Makes v)
          (.symbolic shape) (.symbolic shape) :=
        State.frames_symbolic (State.partLength_symbolic shape) fun v q w hq _ => Or.inl ⟨q, hq⟩
      obtain ⟨ht, -⟩ := hsteps₀.related (M := fun _ _ => True) (fun _ _ _ _ _ _ _ _ _ _ => trivial)
        (fun i hi v hv => Or.inr ⟨i, hi, hv⟩) hsteps₀ ⟨hsymbolic, trivial⟩
      rcases ht.frames.nameAt hp with ⟨hnone, -⟩ | ⟨v', w', hv', -, hR⟩
      · cases hnone.symm.trans hv
      · cases hv'.symm.trans hv
        exact hR
    · have hsymbolic : State.Frames (fun v w => s.meaning v = some w) (.symbolic shape) s := by
        refine State.frames_symbolic hs fun v q w hq hw => ?_
        rw [State.meaning, hq]
        exact hw
      obtain ⟨ht, -⟩ := hsteps₀.related (M := fun _ _ => True) (fun _ _ _ _ _ _ _ _ _ _ => trivial)
        (fun i _ v hv => by rw [State.meaning, Instr.Makes.place? hv]) hsteps ⟨hsymbolic, trivial⟩
      rcases ht.frames.nameAt hp with ⟨hnone, hnone'⟩ | ⟨v, w, hv, hw, hR⟩
      · rw [hnone, hnone']
        rfl
      · rw [hv, hw]
        exact hR.symm
  · refine ⟨fun _ => none, fun p v _ hv => ?_, fun s notes t p hs hsteps _ => ?_⟩
    · cases hv
    · exact absurd ⟨s, notes, t, hs, hsteps⟩ hrun

/-- What instructions put into memory depends on the names in the frames. What they do not put there was in memory
before. -/
theorem Steps.exists_stored (s₁ : State) : ∃ stored : Memory, ∀ s notes t k,
    State.Frames (fun v w => v.key = w.key) s₁ s → Steps sig c is s notes t →
      (t.memory.find? k).map Var.key = ((stored.find? k).map Var.key).or ((s.memory.find? k).map Var.key) := by
  by_cases hrun : ∃ s notes t, s₁.partLength = s.partLength ∧ Steps sig c is s notes t
  · obtain ⟨s₀, notes₀, t₀, hs₀, hsteps₀⟩ := hrun
    have hshape : State.partLength { s₁ with memory := ∅ } = s₀.partLength := hs₀
    obtain ⟨notes₁, t₁, hsteps₁, -⟩ := hsteps₀.exists_of_shape hshape
    refine ⟨t₁.memory, fun s notes t k hframes hsteps => ?_⟩
    have hinsert : ∀ (m m' : Memory) (a a' v v' : Var) (offset : Int),
        (∀ k, (m'.find? k).map Var.key = ((m.find? k).map Var.key).or ((s.memory.find? k).map Var.key)) →
        a.key = a'.key → v.key = v'.key → ∀ k, ((m'.insert (a', offset) v').find? k).map Var.key =
          (((m.insert (a, offset) v).find? k).map Var.key).or ((s.memory.find? k).map Var.key) := by
      intro m m' a a' v v' offset hm ha hv k
      have hslot : ((a', offset) == k) = ((a, offset) == k) := by
        have hkey : Slot.key (a', offset) = Slot.key (a, offset) := Prod.ext ha.symm rfl
        rw [Bool.eq_iff_iff, Slot.beq_iff, Slot.beq_iff, hkey]
      rw [Table.find?_insert, Table.find?_insert, hslot]
      split
      · exact congrArg some hv.symm
      · exact hm k
    have hstart : State.Frames (fun v w => v.key = w.key) { s₁ with memory := ∅ } s :=
      ⟨hframes.stack, hframes.locals, hframes.globals⟩
    exact (hsteps₁.related hinsert (fun _ _ _ _ => rfl) hsteps ⟨hstart, fun _ => rfl⟩).1.memory k
  · exact ⟨∅, fun s notes t k hframes hsteps => absurd ⟨s, notes, t, hframes.shape.symm, hsteps⟩ hrun⟩

end
end Backslice
