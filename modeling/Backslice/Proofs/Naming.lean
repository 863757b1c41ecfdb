import Backslice.Proofs.Dominance
import Backslice.Proofs.Machine

/-! # The names are right along every execution

The machine walks along a path of the graph. At a join point the names that are made there get the values at the
places where the analysis has recorded them. When the analysis has converged, the values are in step with the
recorded names at every point of every path. -/

namespace Backslice

set_option autoImplicit false

variable {α : Type}

/-! ## Arrival at a join point -/

namespace Machine

def valueAt (m : Machine α) : Place → Option α
  | .stack k => m.stack[k]?
  | .locals k => m.locals[k]?
  | .globals k => m.globals[k]?
  | .memory _ => none

/-- The value at a place where the state has the name `v`. -/
def holding (m : Machine α) (s : State) (v : Var) : Option α :=
  ((s.stack.zip m.stack ++ s.locals.zip m.locals ++ s.globals.zip m.globals).find? fun e => e.1 == v).map (·.2)

variable {m : Machine α} {s : State} {v : Var} {x : α}

theorem mem_zip_iff {vs : List Var} {xs : List α} : (v, x) ∈ vs.zip xs ↔
    ∃ k : Nat, vs[k]? = some v ∧ xs[k]? = some x := by
  rw [List.mem_iff_getElem?]
  simp only [List.getElem?_zip_eq_some]

theorem mem_held_iff : (v, x) ∈ s.stack.zip m.stack ++ s.locals.zip m.locals ++ s.globals.zip m.globals ↔
    ∃ p, s.nameAt p = some v ∧ m.valueAt p = some x := by
  simp only [List.mem_append, mem_zip_iff]
  constructor
  · rintro ((⟨k, hk⟩ | ⟨k, hk⟩) | ⟨k, hk⟩)
    · exact ⟨.stack k, hk⟩
    · exact ⟨.locals k, hk⟩
    · exact ⟨.globals k, hk⟩
  · rintro ⟨p, hp, hx⟩
    cases p with
    | stack k => exact Or.inl (Or.inl ⟨k, hp, hx⟩)
    | locals k => exact Or.inl (Or.inr ⟨k, hp, hx⟩)
    | globals k => exact Or.inr ⟨k, hp, hx⟩
    | memory k => cases hx

theorem exists_of_holding (h : m.holding s v = some x) :
    ∃ p u, s.nameAt p = some u ∧ u.key = v.key ∧ m.valueAt p = some x := by
  obtain ⟨e, he, rfl⟩ := Option.map_eq_some_iff.mp h
  obtain ⟨p, hp, hx⟩ := mem_held_iff.mp (List.mem_of_find?_eq_some he)
  exact ⟨p, e.1, hp, Var.beq_iff.mp (by simpa using List.find?_some he), hx⟩

theorem exists_holding {p : Place} (hp : s.nameAt p = some v) (hx : m.valueAt p = some x) :
    ∃ y, m.holding s v = some y := by
  have hsome : ((s.stack.zip m.stack ++ s.locals.zip m.locals ++ s.globals.zip m.globals).find?
      fun e => e.1 == v).isSome := by
    rw [List.find?_isSome]
    exact ⟨(v, x), mem_held_iff.mpr ⟨p, hp, hx⟩, BEq.rfl⟩
  obtain ⟨e, he⟩ := Option.isSome_iff_exists.mp hsome
  exact ⟨e.2, Option.map_eq_some_iff.mpr ⟨e, he, rfl⟩⟩

theorem matches_of_places (h₁ : m.stack.length = s.stack.length) (h₂ : m.locals.length = s.locals.length)
    (h₃ : m.globals.length = s.globals.length)
    (h : ∀ p v x, s.nameAt p = some v → m.valueAt p = some x → m.value v = x) : m.Matches s := by
  have hlist : ∀ {vs : List Var} {xs : List α}, xs.length = vs.length →
      (∀ (k : Nat) v x, vs[k]? = some v → xs[k]? = some x → m.value v = x) → xs = vs.map m.value := by
    intro vs xs hlen hall
    refine List.ext_getElem (by simpa using hlen) fun k hk hk' => ?_
    rw [List.length_map] at hk'
    rw [List.getElem_map]
    exact (hall k _ _ (List.getElem?_eq_getElem hk') (List.getElem?_eq_getElem hk)).symm
  exact ⟨hlist h₁ fun k => h (.stack k), hlist h₂ fun k => h (.locals k), hlist h₃ fun k => h (.globals k)⟩

theorem Matches.valueAt_eq (h : m.Matches s) {p : Place} (hp : s.nameAt p = some v) (hx : m.valueAt p = some x) :
    m.value v = x := by
  have hlist : ∀ {vs : List Var} {xs : List α} {k : Nat}, xs = vs.map m.value → vs[k]? = some v →
      xs[k]? = some x → m.value v = x := by
    rintro vs _ k rfl hk hx
    simpa [hk] using hx
  cases p with
  | stack k => exact hlist h.stack hp hx
  | locals k => exact hlist h.locals hp hx
  | globals k => exact hlist h.globals hp hx
  | memory k => cases hx

end Machine

namespace Graph

variable {g : Graph} {index : Int} {m : Machine α} {s : State}

/-- Gives values to the names that a join point makes, from the places that have them in `s`. -/
def arrive (g : Graph) (index : Int) (s : State) (m : Machine α) : Machine α :=
  { m with names := fun v => if g.BornAt index v then (m.holding s v).getD (m.names v) else m.names v }

theorem value_arrive_of_not_bornAt {v : Var} (h : ¬ g.BornAt index v) :
    (g.arrive index s m).value v = m.value v := by
  refine if_neg fun hcon => h ?_
  exact bornAt_of_key_eq hcon v.key_key ▸ hcon

/-- A name that is made at a join point and stands at one place gets the value that is there. -/
theorem value_arrive_of_bornAt {p : Place} {v : Var} {x : α} (hborn : g.BornAt index v)
    (hp : s.nameAt p = some v) (hx : m.valueAt p = some x)
    (hone : ∀ q, s.nameAt q = some v → p.key = q.key) : (g.arrive index s m).value v = x := by
  have hkey : v.key = v := (bornAt_of_key_eq hborn v.key_key.symm).symm
  obtain ⟨y, hy⟩ := Machine.exists_holding hp hx
  obtain ⟨q, u, hq, huv, hyq⟩ := Machine.exists_of_holding hy
  obtain rfl : v = u := bornAt_of_key_eq hborn huv.symm
  have hpq : p = q := by
    have hk := hone q hq
    cases p <;> cases q <;> simp_all [Place.key, Machine.valueAt]
  subst hpq
  have hxy : y = x := Option.some.inj (hyq.symm.trans hx)
  show (if g.BornAt index v.key then (m.holding s v.key).getD (m.names v.key) else m.names v.key) = x
  rw [hkey, if_pos hborn, hy, hxy]
  rfl

/-- The machine agrees with the state behind a join point. Here one input has none of the names that are made at
the join point: otherwise a name could stand at several places with different values. -/
theorem agrees_arrive {w : World α} {b : Block} {inputs : List State} {u : State}
    (hjoined : State.Joined (fun v => b.isMerge = true ∧ g.BornAt index v) inputs s) (hu : u ∈ inputs)
    (hm : m.Agrees w g.signature u) (hmerge : b.isMerge = true)
    (hfresh : ∃ u' ∈ inputs, ∀ v, g.BornAt index v → ¬ u'.Mentions v) :
    (g.arrive index s m).Agrees w g.signature s := by
  obtain ⟨u', hu', hnone⟩ := hfresh
  have hshape := hjoined.shape u hu
  have hstack := congrArg List.length hm.stack
  have hlocals := congrArg List.length hm.locals
  have hglobals := congrArg List.length hm.globals
  rw [List.length_map] at hstack hlocals hglobals
  refine ⟨Machine.matches_of_places ?_ ?_ ?_ fun p v x hp hx => ?_, fun a => ?_, ?_, ?_⟩
  · exact hstack.trans (State.length_stack_of_shape hshape)
  · exact hlocals.trans (State.length_locals_of_shape hshape)
  · exact hglobals.trans (State.length_globals_of_shape hshape)
  · by_cases hborn : g.BornAt index v
    · refine value_arrive_of_bornAt hborn hp hx fun q hq => ?_
      rcases hjoined.distinct p q v hp hq ⟨hmerge, hborn⟩ with hpq | hall
      · exact hpq
      · exact absurd (hall u' hu') (hnone v hborn)
    · rcases hjoined.kept p v hp with hb | hall
      · exact absurd hb.2 hborn
      · obtain ⟨v', hv', hkey⟩ := hall u hu
        rw [value_arrive_of_not_bornAt hborn, ← m.value_congr hkey]
        exact hm.valueAt_eq hv' hx
  · rw [value_arrive_of_not_bornAt (by simp [BornAt, State.phiOf])]
    exact hm.literal a
  · exact (State.length_locals_of_shape hshape).symm.trans hm.localCount
  · exact (State.length_globals_of_shape hshape).symm.trans hm.globalCount

/-- The names of the start are no names of a join point, so arriving there changes nothing. -/
theorem agrees_arrive_entry {w : World α} (hm : m.Agrees w g.signature g.signature.entryState) :
    (g.arrive index g.signature.entryState m).Agrees w g.signature g.signature.entryState := by
  have hnot : ∀ v ∈ g.signature.entryState.vars, ¬ g.BornAt index v := fun v hv hborn =>
    not_passed_of_bornAt (p := []) List.not_mem_nil hborn (covers_entryState v (State.mentions_of_mem hv))
  have hmap : ∀ {vs : List Var}, (∀ v ∈ vs, v ∈ g.signature.entryState.vars) →
      vs.map (g.arrive index g.signature.entryState m).value = vs.map m.value := fun hvs =>
    List.map_congr_left fun v hv => value_arrive_of_not_bornAt (hnot v (hvs v hv))
  refine ⟨⟨hm.stack, ?_, ?_⟩, fun a => ?_, hm.localCount, hm.globalCount⟩
  · rw [hmap fun v hv => State.mem_vars.mpr (Or.inr (Or.inl hv))]
    exact hm.locals
  · rw [hmap fun v hv => State.mem_vars.mpr (Or.inr (Or.inr (Or.inl hv)))]
    exact hm.globals
  · rw [value_arrive_of_not_bornAt (by simp [BornAt, State.phiOf])]
    exact hm.literal a

end Graph

/-! ## Running a block -/

def executeAll (sig : Signature) (w : World α) (is : List Instr) (m : Machine α) : Option (Machine α) :=
  is.foldlM (fun m i => i.execute sig w m) m

theorem Instr.Effect.agrees {sig : Signature} {c : Config} {w : World α} {m : Machine α} {i : Instr} {s t : State}
    (he : i.Effect sig c s t) (h : m.Agrees w sig s) (hl : ¬ s.Mentions (.pushed i.label)) (hfits : i.Fits sig) :
    ∃ m', i.execute sig w m = some m' ∧ m'.Agrees w sig t := by
  cases i with
  | data i => exact DataInstr.Effect.agrees he h hl hfits
  | control i => exact ControlInstr.Effect.agrees he h hl hfits

theorem Steps.agrees {sig : Signature} {c : Config} {w : World α} {m : Machine α} {is : List Instr} {s t : State}
    {notes : List (Label × Note)} (hsteps : Steps sig c is s notes t) (h : m.Agrees w sig s)
    (hl : ∀ pre i post n u, is = pre ++ i :: post → Steps sig c pre s n u → ¬ u.Mentions (.pushed i.label))
    (hfits : ∀ i ∈ is, i.Fits sig) : ∃ m', executeAll sig w is m = some m' ∧ m'.Agrees w sig t := by
  induction hsteps generalizing m with
  | nil s => exact ⟨m, rfl, h⟩
  | @cons i rest s u t notes hi _ ih =>
    obtain ⟨m₁, hm₁, h₁⟩ := hi.agrees h (hl [] i rest [] s rfl (.nil s)) (hfits i (List.mem_cons_self ..))
    obtain ⟨m', hm', h'⟩ := ih h₁
      (fun pre j post n u' heq hpre => hl (i :: pre) j post _ u' (by rw [heq]; rfl) (.cons hi hpre))
      fun j hj => hfits j (List.mem_cons_of_mem i hj)
    refine ⟨m', ?_, h'⟩
    rw [executeAll, List.foldlM_cons, hm₁]
    exact hm'

/-! ## Walks -/

/-- The start of the function, with any values in its locals and globals. -/
structure Machine.Initial (w : World α) (sig : Signature) (m : Machine α) : Prop where
  stack : m.stack = []
  locals : m.locals = (List.range sig.localCount).map fun (i : Nat) => m.names (.entryLocal i)
  globals : m.globals = (List.range sig.globals.length).map fun (i : Nat) => m.names (.entryGlobal i)
  literal : ∀ a, m.names (.constant a) = w.literal a

theorem Machine.Initial.agrees {w : World α} {sig : Signature} {m : Machine α} (h : m.Initial w sig) :
    m.Agrees w sig sig.entryState := by
  refine ⟨⟨h.stack, ?_, ?_⟩, fun a => ?_, ?_, ?_⟩
  · rw [h.locals, Signature.entryState, State.entry, List.map_map]
    rfl
  · rw [h.globals, Signature.entryState, State.entry, List.map_map]
    rfl
  · show m.names (.constant a.key) = w.literal a
    rw [h.literal]
    exact w.literal_congr _ _ a.key_key
  · simp [Signature.entryState, State.entry]
  · simp [Signature.entryState, State.entry]

namespace Graph

variable {g : Graph} {c : Config} {r : Run} {index : Int} {b : Block} {w : World α} {m : Machine α}

/-- The machine at the start of a block. -/
def enter (g : Graph) (r : Run) (index : Int) (b : Block) (m : Machine α) : Machine α :=
  match b.isMerge, r.blocks.find? index with
  | true, some note => g.arrive index note.after.state m
  | _, _ => m

/-- The machine after a walk through the blocks `p`, in front of the block that comes next. -/
def walk (g : Graph) (r : Run) (w : World α) (p : List Int) (m : Machine α) : Option (Machine α) :=
  p.foldlM (fun m u => do
    let b ← g.blocks.find? u
    executeAll g.signature w b.instrs (g.enter r u b m)) m

theorem enter_of_not_isMerge (h : b.isMerge = false) : g.enter r index b m = m := by
  simp [enter, h]

theorem walk_append {p : List Int} {m₁ m₂ : Machine α} (h₁ : g.walk r w p m = some m₁)
    (hb : g.blocks.find? index = some b)
    (h₂ : executeAll g.signature w b.instrs (g.enter r index b m₁) = some m₂) :
    g.walk r w (p ++ [index]) m = some m₂ := by
  unfold walk at h₁ ⊢
  rw [List.foldlM_append, h₁]
  simp [hb, h₂]

theorem Settled.enter_eq {inputs : List State} {s t : State} {notes : List (Label × Note)}
    (h : g.Settled c r index b inputs s t notes) (hm : b.isMerge = true) (m : Machine α) :
    g.enter r index b m = g.arrive index s m := by
  obtain ⟨note, hnote, hafter⟩ := h.exits
  simp only [enter, hm, hnote, hafter, ← h.exit_eq_start hm]
  rfl

theorem Settled.run {inputs : List State} {s t : State} {notes : List (Label × Note)} (h : g.Solved c r)
    (hfits : ∀ i ∈ g.instrs, i.Fits g.signature) (hb : g.blocks.find? index = some b)
    (hset : g.Settled c r index b inputs s t notes) (hm : m.Agrees w g.signature s) :
    ∃ m', executeAll g.signature w b.instrs m = some m' ∧ m'.Agrees w g.signature t :=
  hset.runs.agrees hm (fun _ _ _ _ _ hi hpre => h.not_mentions_pushed hb hi hset hpre)
    fun i hi => hfits i (mem_instrs hb hi)

/-- Along every path the machine reaches the block at its end, with values and names in step at its start. -/
theorem Solved.walk_agrees (h : g.Solved c r)
    (hfits : ∀ i ∈ g.instrs, i.Fits g.signature) (hm : m.Initial w g.signature)
    {p : List Int} (hp : g.Path p index) (hb : g.blocks.find? index = some b) {inputs : List State} {s t : State}
    {notes : List (Label × Note)} (hset : g.Settled c r index b inputs s t notes) :
    ∃ m₁, g.walk r w p m = some m₁ ∧ (g.enter r index b m₁).Agrees w g.signature s := by
  induction hp generalizing b inputs s t notes with
  | start =>
    refine ⟨m, rfl, ?_⟩
    obtain ⟨rfl, rfl⟩ := h.entry_start hset
    have hag := hm.agrees
    cases hmerge : b.isMerge with
    | false => rwa [enter_of_not_isMerge hmerge]
    | true =>
      rw [hset.enter_eq hmerge]
      exact agrees_arrive_entry hag
  | @edge p u e hp he ih =>
    obtain ⟨bᵤ, _, sᵤ, tᵤ, _, hbᵤ, hsetᵤ, v, hv, hvt⟩ := h.input_along he hset
    obtain ⟨m₁, hm₁, hag₁⟩ := ih hbᵤ hsetᵤ
    obtain ⟨m₂, hm₂, hag₂⟩ := Settled.run h hfits hbᵤ hsetᵤ hag₁
    refine ⟨m₂, walk_append hm₁ hbᵤ hm₂, ?_⟩
    have hag := hag₂.of_beq hvt
    cases hmerge : b.isMerge with
    | false =>
      rw [enter_of_not_isMerge hmerge]
      cases hset.starts with
      | entry => cases hv
      | join _ _ hone =>
        rw [hone hmerge, List.mem_singleton] at hv
        exact hv ▸ hag
    | true =>
      rw [hset.enter_eq hmerge]
      cases hset.starts with
      | entry => cases hv
      | join hne hjoined _ => exact agrees_arrive hjoined hv hag hmerge (h.exists_fresh_input hb hset hne)

theorem names_enter {v : Var} (hv : ¬ (b.isMerge = true ∧ g.BornAt index v)) :
    (g.enter r index b m).names v = m.names v := by
  unfold enter
  split
  · rename_i hm _
    exact if_neg fun hborn => hv ⟨hm, hborn⟩
  · rfl

/-- The machine walks along every path without getting stuck, whatever values its operations compute. At each
point stack, locals and globals hold the values of the recorded names. A name changes its value only at its
origin: at the instruction that it names, or at the join point that makes it. -/
theorem walk_keeps_names (hg : g.WellFormed) (hl : g.DistinctLabels) (hrange : g.IndicesInRange)
    (harity : g.ArityNonneg) {limit : Nat} (hr : g.solve c limit = .ok r) (hconv : r.converged = true)
    (hm : m.Initial w g.signature) {p : List Int} (hp : g.Path p index) (hb : g.blocks.find? index = some b) :
    ∃ m₁ note m₂, g.walk r w p m = some m₁ ∧ r.blocks.find? index = some note ∧
      (b.isMerge = false → m₁.Matches note.before.state) ∧
      (∀ v, ¬ (b.isMerge = true ∧ g.BornAt index v) → (g.enter r index b m₁).names v = m₁.names v) ∧
      executeAll g.signature w b.instrs (g.enter r index b m₁) = some m₂ ∧ m₂.Matches note.after.state ∧
      ∀ pre i post, b.instrs = pre ++ i :: post → ∃ note m₃ m₄, r.instrs.find? i.label = some note ∧
        executeAll g.signature w pre (g.enter r index b m₁) = some m₃ ∧ m₃.Matches note.before.state ∧
        i.execute g.signature w m₃ = some m₄ ∧ m₄.Matches note.after.state ∧
        ∀ v, v ≠ .pushed i.label → m₄.names v = m₃.names v := by
  have h := solved_of_converged hg.connected hl hr hconv
  have hfits : ∀ i ∈ g.instrs, i.Fits g.signature := fun i hi => fits_of_legal hrange harity hi
  obtain ⟨inputs, s, t, notes, hset⟩ := h.settled index b hb
  obtain ⟨m₁, hm₁, hag₁⟩ := h.walk_agrees hfits hm hp hb hset
  obtain ⟨m₂, hm₂, hag₂⟩ := Settled.run h hfits hb hset hag₁
  obtain ⟨note, hnote, hafter⟩ := hset.exits
  refine ⟨m₁, note, m₂, hm₁, hnote, fun hmerge => ?_, fun v hv => names_enter hv, hm₂, ?_, fun pre i post hi => ?_⟩
  · obtain ⟨note', hnote', hbefore⟩ := hset.before hmerge
    rw [hnote, Option.some.injEq] at hnote'
    rw [hnote', hbefore]
    rw [enter_of_not_isMerge hmerge] at hag₁
    exact hag₁.toMatches
  · rw [hafter]
    exact hag₂.toMatches
  · have hruns := hset.runs
    rw [hi] at hruns
    obtain ⟨n, u, u', hpre, heffect, hmem⟩ := hruns.middle
    have hfits' : ∀ j ∈ pre ++ i :: post, j.Fits g.signature := fun j hj => hfits j (mem_instrs hb (hi ▸ hj))
    obtain ⟨m₃, hm₃, hag₃⟩ := hpre.agrees hag₁
      (fun pre' j post' n' x heq hpre' =>
        h.not_mentions_pushed hb (by rw [hi, heq, List.append_assoc]; rfl) hset hpre')
      fun j hj => hfits' j (List.mem_append_left _ hj)
    obtain ⟨m₄, hm₄, hag₄⟩ := heffect.agrees hag₃ (h.not_mentions_pushed hb hi hset hpre) (hfits' i (by simp))
    exact ⟨_, m₃, m₄, hset.instrs _ hmem, hm₃, hag₃.toMatches, hm₄, hag₄.toMatches,
      fun v hv => Instr.names_execute hm₄ hv⟩

/-- Twice around the loop, then out of it: with `9` for every literal, and a new value from every operation. -/
theorem walk_keeps_names_countdown :
    let w : World Nat := { literal := fun _ => 9, literal_congr := fun _ _ _ => rfl, supply := fun n => n }
    let m : Machine Nat := { locals := [3], globals := [], names := fun v => if v.isConstant then 9 else 3 }
    ∃ r, countdown.solve {} 20 = .ok r ∧ r.converged = true ∧ ∃ m₁ note m₂,
      countdown.walk r w [0, 1, 2, 3, 1, 2, 3] m = some m₁ ∧ r.blocks.find? 4 = some note ∧
      m₁.Matches note.before.state ∧
      executeAll countdown.signature w [.data { label := .code 6, op := .localGet, arg := .int 0 }] m₁ = some m₂ ∧
      m₂.Matches note.after.state := by
  intro w m
  obtain ⟨r, hr, hconv⟩ := converges_iff.mp (show countdown.converges {} 20 = true by decide +kernel)
  have hinit : m.Initial w countdown.signature := ⟨rfl, rfl, rfl, fun _ => rfl⟩
  have hloop : countdown.Path [0, 1, 2, 3] 1 :=
    .edge (e := ⟨1, some true⟩) (.edge (e := ⟨3, none⟩) (.edge (e := ⟨2, none⟩) (.edge (e := ⟨1, none⟩) .start
      (by decide)) (by decide)) (by decide)) (by decide)
  have hpath : countdown.Path [0, 1, 2, 3, 1, 2, 3] 4 :=
    .edge (e := ⟨4, some false⟩) (.edge (e := ⟨3, none⟩) (.edge (e := ⟨2, none⟩) hloop (by decide)) (by decide))
      (by decide)
  obtain ⟨m₁, note, m₂, hwalk, hnote, hbefore, _, hexec, hafter, _⟩ :=
    walk_keeps_names countdown_wellFormed (by decide) (by decide) (by decide) hr hconv hinit hpath
      (b := { body := .data [{ label := .code 6, op := .localGet, arg := .int 0 }] }) (by decide)
  exact ⟨r, hr, hconv, m₁, note, m₂, hwalk, hnote, hbefore rfl, hexec, hafter⟩

end Graph
end Backslice
