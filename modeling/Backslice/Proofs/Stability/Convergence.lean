import Backslice.Proofs.Stability.Slots

/-! # What settles

If no visit fails, what the blocks leave settles up to the choice of new names in memory. If moreover every join point
numbers its memory slots in one order, the analysis converges: a run without end would come to a time from which on no
visit changes anything, but then no block becomes pending again. Without the condition the analysis may go on for ever,
as the change test compares memory as a map while the numbers of new names depend on the order in which slots were
bound. -/

namespace Backslice

set_option autoImplicit false

open Filter

/-! ## What a block leaves -/

/-- What follows a block that ends in a state. -/
def Block.outcome (b : Block) (t : State) : Outcome :=
  match b.body with
  | .control i => i.outcome t
  | .merge | .data _ => .simple (.known t)

theorem Block.outcome_beq (b : Block) {t t' : State} (h : (t == t') = true) : (b.outcome t == b.outcome t') = true := by
  unfold Block.outcome
  cases b.body with
  | merge | data _ => exact h
  | control i =>
    unfold ControlInstr.outcome
    dsimp only
    split
    · exact Bool.and_eq_true_iff.mpr ⟨h, h⟩
    · exact h

namespace Graph

variable {g : Graph} {c : Config} {index : Int} {b : Block} {flows : List Flow} {v : Visit} {s t : State}

theorem visit_outcome (hmerge : g.merge index b flows = .ok (.known s)) (h : g.visit c index b flows = .ok v)
    (ht : ∀ cond, v.outcome.along cond = .known t) : v.outcome = b.outcome t := by
  cases hbody : b.body with
  | merge =>
    obtain ⟨start, -, rfl⟩ := (visit_merge hbody).mp h
    obtain rfl : start = .known t := ht none
    simp [Block.outcome, hbody]
  | control i =>
    obtain ⟨start, o, hstart, ho, rfl⟩ := (visit_control hbody).mp h
    cases hmerge.symm.trans hstart
    obtain ⟨t', -, rfl⟩ := ControlInstr.transfer_known.mp ho
    rw [Flow.known.inj ((ControlInstr.along_outcome i t' none).symm.trans (ht none))]
    simp [Block.outcome, hbody]
  | data is =>
    obtain ⟨start, last, notes, -, -, rfl⟩ := (visit_data hbody).mp h
    obtain rfl : last = .known t := ht none
    simp [Block.outcome, hbody]

/-! ## No run is without end -/

namespace Endless

variable {E : g.Endless c} {k : Nat}

theorem outcome_eq (E : g.Endless c) {n : Int} (hb : g.blocks.find? n = some b) (ht : E.left k n = some t) :
    (E.run k).outcomes.find? n = some (b.outcome t) := by
  obtain ⟨o, ho, halong⟩ := E.left_eq_some.mp ht
  obtain ⟨j, -, r, b', v, hv, rfl, -⟩ := exists_visit (E.visitAt k).solve ho
  obtain ⟨s, t', hmerge, -, -⟩ := hv.runs E.connected
  obtain rfl : b = b' := Option.some.inj (hb.symm.trans hv.block)
  rw [ho, visit_outcome hmerge hv.visit halong]

/-- A visit that leaves the names as they are makes no block pending. -/
theorem pending_succ_of_fixed (hseen : E.Seen k (E.visited k))
    (hfixed : ∀ p, E.name (k + 1) (E.visited k) p = E.name k (E.visited k) p) :
    (E.run (k + 1)).pending = E.rest k := by
  obtain ⟨t, ht⟩ := hseen
  obtain ⟨s, t', hcomputed⟩ := E.computed_visited k
  have hbeq : (t == t') = true := State.beq_iff_nameAt.mpr fun p => by
    rw [← E.name_of_left ht, ← E.name_of_left hcomputed.left, hfixed]
  have hnew := E.outcome_eq hcomputed.block hcomputed.left
  have hchanges : (E.run k).changes (E.visited k) (E.found k).outcome = false := by
    rw [E.next k] at hnew
    rw [Run.changes, E.outcome_eq hcomputed.block ht]
    have hfound : (E.found k).outcome = (E.block k).outcome t' := by simpa [Run.record] using hnew
    simp [hfound, Block.outcome_beq _ hbeq]
  rw [E.next k]
  simp [Run.record, hchanges]

theorem not_numbersInOneOrder (E : g.Endless c) : ¬ g.NumbersInOneOrder c := by
  intro horder
  have hquiet : ∀ᶠ k in atTop, (E.run (k + 1)).pending.length + 1 = (E.run k).pending.length := by
    filter_upwards [E.eventually_fixed horder, E.eventually_seen] with k hfixed hseen
    obtain ⟨s, t, hcomputed⟩ := E.computed_visited k
    rw [pending_succ_of_fixed ((hseen _).mpr ⟨k + 1, t, hcomputed.left⟩) (hfixed _), E.pending k, List.length_cons]
  -- From some time on every visit leaves one block less to visit.
  obtain ⟨K, hK⟩ := eventually_atTop.mp hquiet
  have hshrinks : ∀ i, (E.run (K + i)).pending.length + i = (E.run K).pending.length := by
    intro i
    induction i with
    | zero => rfl
    | succ i ih =>
      have hstep := hK (K + i) (by omega)
      show (E.run (K + i + 1)).pending.length + (i + 1) = _
      omega
  have hend := hshrinks ((E.run K).pending.length + 1)
  omega

end Endless

theorem solve_of_pending_nil {k : Nat} {r : Run} (h : g.solve c k = .ok r) (hp : r.pending = []) {k' : Nat}
    (hk : k ≤ k') : g.solve c k' = .ok r := by
  induction k', hk using Nat.le_induction with
  | base => exact h
  | succ k' _ ih => exact Run.advance_succ_eq_ok.mpr ⟨r, ih, Or.inl ⟨hp, rfl⟩⟩

/-- From the visit `limit` on the blocks leave the same names on the stack, in the locals and in the globals, and the
same names in memory up to the choice of new names. -/
def SettledFrom (g : Graph) (c : Config) (limit : Nat) : Prop :=
  ∀ k ≥ limit, ∀ r r', g.solve c limit = .ok r → g.solve c k = .ok r' → ∀ index t', r'.Exits index t' →
    ∃ t, r.Exits index t ∧ State.Frames (fun v w => v.key = w.key) t t' ∧
      ∀ slot, (t.memory.find? slot).map Var.unnumbered = (t'.memory.find? slot).map Var.unnumbered

theorem Endless.exits_iff (E : g.Endless c) {k : Nat} {n : Int} : (E.run k).Exits n t ↔ E.left k n = some t := by
  have hexits : ∀ {t}, E.left k n = some t → (E.run k).Exits n t := by
    intro t ht
    obtain ⟨o, ho, halong⟩ := E.left_eq_some.mp ht
    obtain ⟨j, -, r, b, v, hv, rfl, hnote⟩ := exists_visit (E.visitAt k).solve ho
    obtain ⟨s, t', -, -, hfound⟩ := hv.runs E.connected
    obtain rfl : t' = t := Flow.known.inj ((hfound.along none).symm.trans (halong none))
    exact ⟨v.note, hnote, hfound.after⟩
  refine ⟨fun h => ?_, hexits⟩
  have ⟨note, hnote, _⟩ := h
  obtain ⟨j, hj, r, b, v, hv, -⟩ := exists_visit_of_note (E.visitAt k).solve hnote
  have hvisited : E.visited j = n := by
    obtain ⟨rest, hp⟩ := hv.pending
    rw [Except.ok.inj (hv.solve.symm.trans (E.visitAt j).solve), E.pending j] at hp
    exact (List.cons.inj hp).1
  obtain ⟨s, t', hcomputed⟩ := E.computed_visited j
  obtain ⟨u, hu⟩ := Endless.Seen.mono ⟨t', hvisited ▸ hcomputed.left⟩ hj
  rw [hu, (hexits hu).unique h]

theorem Endless.unnumbered_of_left (E : g.Endless c) {k : Nat} {n : Int} (ht : E.left k n = some t) (slot : Slot) :
    (E.name k n (.memory slot)).map Var.unnumbered = (t.memory.find? slot).map Var.unnumbered := by
  rw [E.name_of_left ht, Option.map_map]
  exact congrArg (Option.map · (t.memory.find? slot)) (funext Var.unnumbered_key)

theorem Endless.exists_settledFrom (E : g.Endless c) : ∃ limit, g.SettledFrom c limit := by
  obtain ⟨K₁, hcells⟩ := E.exists_cellsFixed
  obtain ⟨K₂, hslots⟩ := settles_iff.mp E.settles_unnumbered
  obtain ⟨K₃, hseen⟩ := eventually_atTop.mp E.eventually_seen
  generalize hK : max K₁ (max K₂ K₃) = K
  refine ⟨K, fun k hk r r' hr hr' n t' ht' => ?_⟩
  obtain rfl : E.run K = r := Except.ok.inj ((E.visitAt _).solve.symm.trans hr)
  obtain rfl : E.run k = r' := Except.ok.inj ((E.visitAt _).solve.symm.trans hr')
  rw [E.exits_iff] at ht'
  obtain ⟨t, ht⟩ := (hseen K (by omega) n).mpr ⟨k, t', ht'⟩
  refine ⟨t, E.exits_iff.mpr ht, State.frames_of_nameAt fun p hp => ?_, fun slot => ?_⟩
  · rw [← E.name_of_left ht, ← E.name_of_left ht', hcells K (by omega) n p hp, hcells k (by omega) n p hp]
  · rw [← E.unnumbered_of_left ht, ← E.unnumbered_of_left ht']
    exact congrFun (congrFun ((hslots K (by omega)).trans (hslots k (by omega)).symm) n) slot

/-- If no visit fails, what the blocks leave settles up to the choice of new names in memory, and if each block numbers
the memory slots in one order on all its visits, the analysis converges. -/
theorem settles_up_to_slot_order (hg : g.WellFormed) (c : Config) (hok : ∀ k, ∃ r, g.solve c k = .ok r) :
    (∃ limit, g.SettledFrom c limit) ∧
      (g.NumbersInOneOrder c → ∃ limit r, g.solve c limit = .ok r ∧ r.converged = true) := by
  by_cases hconv : ∃ limit r, g.solve c limit = .ok r ∧ r.converged = true
  · refine ⟨?_, fun _ => hconv⟩
    obtain ⟨limit, r, hr, hdone⟩ := hconv
    refine ⟨limit, fun k hk r₁ r₂ hr₁ hr₂ index t ht => ?_⟩
    obtain rfl := Except.ok.inj (hr.symm.trans hr₁)
    obtain rfl := Except.ok.inj ((solve_of_pending_nil hr (List.isEmpty_iff.mp hdone) hk).symm.trans hr₂)
    exact ⟨t, ht, State.frames_of_nameAt fun _ _ => rfl, fun _ => rfl⟩
  · obtain ⟨E⟩ := exists_endless hg.connected hok fun k r hr =>
      Bool.eq_false_iff.mpr fun hdone => hconv ⟨k, r, hr, hdone⟩
    exact ⟨E.exists_settledFrom, fun horder => absurd horder E.not_numbersInOneOrder⟩

/-! ## Checking the order -/

theorem solve_ok_of_converges {limit : Nat} (hconv : g.converges c limit = true) (k : Nat) :
    ∃ r, g.solve c k = .ok r := by
  obtain ⟨r, hr, hdone⟩ := converges_iff.mp hconv
  rcases Nat.le_total k limit with hle | hle
  · exact solve_ok_of_le hle hr
  · exact ⟨r, solve_of_pending_nil hr (List.isEmpty_iff.mp hdone) hle⟩

/-- The block that is visited after `k` visits, and the state from which it starts. -/
def entering (g : Graph) (c : Config) (k : Nat) : Option (Int × State) := do
  let r ← (g.solve c k).toOption
  let index ← r.pending.head?
  let b ← g.blocks.find? index
  let f ← (g.merge index b (g.incoming r.outcomes index)).toOption
  return (index, ← f.state?)

theorem entering_eq_some {k : Nat} : g.entering c k = some (index, s) ↔ g.EntersAt c k index (.known s) := by
  constructor
  · intro h
    obtain ⟨r, hr, h⟩ := Option.bind_eq_some_iff.mp h
    obtain ⟨index', hp, h⟩ := Option.bind_eq_some_iff.mp h
    obtain ⟨b, hb, h⟩ := Option.bind_eq_some_iff.mp h
    obtain ⟨f, hf, h⟩ := Option.bind_eq_some_iff.mp h
    obtain ⟨s', hs', h⟩ := Option.bind_eq_some_iff.mp h
    cases h
    obtain ⟨rest, hp⟩ := List.head?_eq_some_iff.mp hp
    rw [toOption_eq_some] at hr hf
    rw [Flow.state?_eq_some] at hs'
    exact ⟨r, rest, b, hr, hp, hb, hs' ▸ hf⟩
  · rintro ⟨r, rest, b, hr, hp, hb, hmerge⟩
    simp [Graph.entering, hr, hp, hb, hmerge, Except.toOption, Flow.state?]

/-- The memory slots with new names of the block `index`, and their numbers. -/
def numbered (index : Int) (s : State) : List (Slot × Int) := s.memory.entries.filterMap fun e =>
  match e.2 with
  | .phi block n => if block = index then some (e.1, n) else none
  | _ => none

theorem exists_numbered {x : Slot} {i : Int} (h : s.memory.find? x = some (.phi index i)) :
    ∃ a ∈ numbered index s, (a.1 == x) = true ∧ a.2 = i := by
  obtain ⟨k, hmem, hk⟩ := Table.exists_mem_of_find? h
  exact ⟨(k, i), List.mem_filterMap.mpr ⟨_, hmem, by simp⟩, hk, rfl⟩

/-- Two states number the slots that are numbered in both of them in the same order. -/
def SameOrder (index : Int) (s s' : State) : Prop :=
  ∀ a ∈ numbered index s, ∀ b ∈ numbered index s, ∀ a' ∈ numbered index s', ∀ b' ∈ numbered index s',
    (a.1 == a'.1) = true → (b.1 == b'.1) = true → (a.2 < b.2 ↔ a'.2 < b'.2)

instance (index : Int) (s s' : State) : Decidable (SameOrder index s s') :=
  inferInstanceAs (Decidable (∀ a ∈ numbered index s, ∀ b ∈ numbered index s, ∀ a' ∈ numbered index s',
    ∀ b' ∈ numbered index s', (a.1 == a'.1) = true → (b.1 == b'.1) = true → (a.2 < b.2 ↔ a'.2 < b'.2)))

/-- For an analysis that converges it is enough to look at the visits until then. -/
theorem numbersInOneOrder_of_visits {limit : Nat} (hconv : g.converges c limit = true)
    (h : ∀ a ∈ (List.range limit).filterMap (g.entering c), ∀ b ∈ (List.range limit).filterMap (g.entering c),
      a.1 = b.1 → SameOrder a.1 a.2 b.2) : g.NumbersInOneOrder c := by
  obtain ⟨r, hr, hdone⟩ := converges_iff.mp hconv
  have hvisit : ∀ {k s index}, g.EntersAt c k index (.known s) →
      (index, s) ∈ (List.range limit).filterMap (g.entering c) := by
    intro k s index henters
    refine List.mem_filterMap.mpr ⟨k, List.mem_range.mpr ?_, entering_eq_some.mpr henters⟩
    obtain ⟨r', rest, -, hr', hp, -⟩ := henters
    by_contra hle
    have hlast := solve_of_pending_nil hr (List.isEmpty_iff.mp hdone) (Nat.le_of_not_lt hle)
    rw [← Except.ok.inj (hlast.symm.trans hr'), List.isEmpty_iff.mp hdone] at hp
    cases hp
  intro k k' index s s' x y i j i' j' henters henters' hx hy hx' hy'
  obtain ⟨a, ha, hax, rfl⟩ := exists_numbered hx
  obtain ⟨b, hb, hby, rfl⟩ := exists_numbered hy
  obtain ⟨a', ha', hax', rfl⟩ := exists_numbered hx'
  obtain ⟨b', hb', hby', rfl⟩ := exists_numbered hy'
  exact h _ (hvisit henters) _ (hvisit henters') rfl a ha b hb a' ha' b' hb' (BEq.trans hax (BEq.symm hax'))
    (BEq.trans hby (BEq.symm hby'))

/-! ## A loop that converges -/

/-- Stores a local at an offset from the first one. -/
def storeLocal (label : Nat) (offset source : Int) : List DataInstr :=
  [{ label := .code label, op := .localGet, arg := .int 0 },
    { label := .code (label + 1), op := .localGet, arg := .int source },
    { label := .code (label + 2), op := .store, arg := .int offset }]

/-- Writes two memory slots and rewrites them in a loop, in the other order. -/
def rewriting : Graph :=
  .ofArrows { args := [.i32, .i32] }
    [(0, { body := .data (storeLocal 0 0 0 ++ storeLocal 3 4 0) }), (1, { body := .merge }),
      (2, { body := .data (storeLocal 6 4 1 ++ storeLocal 9 0 1 ++
        [{ label := .code 12, op := .localGet, arg := .int 0 }]) }),
      (3, { body := .control { label := .code 13, op := .brIf } }), (4, { body := .merge })]
    [{ source := 0, target := 1 }, { source := 1, target := 2 }, { source := 2, target := 3 },
      { source := 3, target := 1, cond := some true }, { source := 3, target := 4, cond := some false }] 0 4
    "rewriting" 0

theorem rewriting_wellFormed : rewriting.WellFormed where
  built := ⟨_, _, _, _, _, _, _, rfl⟩
  ends := forall_leaving_of_entries (by decide)
  entry_block := by decide
  exit_block := by decide
  entry_free := by decide
  reachable := reachable_of_smaller (by decide)

/-- On the second turn both slots get new names, and the analysis converges. -/
theorem settles_up_to_slot_order_rewriting : rewriting.NumbersInOneOrder {} ∧
    (∃ s, rewriting.EntersAt {} 4 1 (.known s) ∧ (numbered 1 s).length = 2) ∧
    (∃ limit, rewriting.SettledFrom {} limit) ∧ ∃ limit r, rewriting.solve {} limit = .ok r ∧ r.converged = true := by
  have hconv : rewriting.converges {} 12 = true := by decide +kernel
  have horder : rewriting.NumbersInOneOrder {} := numbersInOneOrder_of_visits hconv (by decide +kernel)
  have hturn : (rewriting.entering {} 4).map (fun a => (a.1, (numbered 1 a.2).length)) = some (1, 2) := by
    decide +kernel
  obtain ⟨⟨index, s⟩, hs, hlength⟩ := Option.map_eq_some_iff.mp hturn
  obtain ⟨rfl, hlength⟩ := Prod.mk.inj hlength
  obtain ⟨hsettled, hall⟩ := settles_up_to_slot_order rewriting_wellFormed {} (solve_ok_of_converges hconv)
  exact ⟨horder, ⟨s, entering_eq_some.mp hs, hlength⟩, hsettled, hall horder⟩

/-! ## Runs that recur -/

end Graph

namespace Run

variable {g : Graph} {c : Config} {order : List Int} {r r' x : Run}

/-- The runs have the same visits before them. -/
def SameAhead (r r' : Run) : Prop := r.outcomes = r'.outcomes ∧ r.pending = r'.pending

theorem SameAhead.step (h : r.SameAhead r') {index : Int} {rest : List Int} (hx : r.step g c order index rest = .ok x) :
    ∃ x', r'.step g c order index rest = .ok x' ∧ x.SameAhead x' := by
  obtain ⟨b, v, hb, hv, rfl⟩ := step_eq_ok.mp hx
  refine ⟨_, step_eq_ok.mpr ⟨b, v, hb, h.1 ▸ hv, rfl⟩, ?_⟩
  have hchanges : r.changes index v.outcome = r'.changes index v.outcome := by rw [changes, changes, h.1]
  exact ⟨by rw [record, record, h.1], by rw [record, record, hchanges]⟩

theorem SameAhead.advance {limit : Nat} (h : r.SameAhead r') (hx : Run.advance g c order limit r = .ok x) :
    ∃ x', Run.advance g c order limit r' = .ok x' ∧ x.SameAhead x' := by
  induction limit generalizing x with
  | zero =>
    obtain rfl := pure_eq_ok.mp hx
    exact ⟨r', rfl, h⟩
  | succ limit ih =>
    obtain ⟨y, hy, hlast⟩ := advance_succ_eq_ok.mp hx
    obtain ⟨y', hy', hsame⟩ := ih hy
    rcases hlast with ⟨hp, rfl⟩ | ⟨index, rest, hp, hstep⟩
    · exact ⟨y', advance_succ_eq_ok.mpr ⟨y', hy', Or.inl ⟨hsame.2 ▸ hp, rfl⟩⟩, hsame⟩
    · obtain ⟨x', hx', hnext⟩ := hsame.step hstep
      exact ⟨x', advance_succ_eq_ok.mpr ⟨y', hy', Or.inr ⟨index, rest, hsame.2 ▸ hp, hx'⟩⟩, hnext⟩

theorem advance_add_eq_ok {limit limit' : Nat} : Run.advance g c order (limit + limit') r = .ok r' ↔
    ∃ x, Run.advance g c order limit r = .ok x ∧ Run.advance g c order limit' x = .ok r' := by
  induction limit' generalizing r' with
  | zero =>
    constructor
    · exact fun h => ⟨r', h, rfl⟩
    · rintro ⟨x, hx, h⟩
      obtain rfl := pure_eq_ok.mp h
      exact hx
  | succ limit' ih =>
    rw [← Nat.add_assoc, advance_succ_eq_ok]
    simp only [advance_succ_eq_ok, ih]
    constructor
    · rintro ⟨y, ⟨x, hx, hy⟩, hlast⟩
      exact ⟨x, hx, y, hy, hlast⟩
    · rintro ⟨x, hx, y, hy, hlast⟩
      exact ⟨y, ⟨x, hx, hy⟩, hlast⟩

end Run

namespace Graph

variable {g : Graph} {c : Config}

/-- An analysis that comes back to where it was, with blocks still to visit, never converges. -/
theorem not_converged_of_recurs (k period : Nat) {r r' : Run} (hr : g.solve c k = .ok r)
    (hr' : g.solve c (k + period) = .ok r') (hsame : r.SameAhead r') (hperiod : 0 < period) (hp : r.pending ≠ [])
    (limit : Nat) : ∃ x, g.solve c limit = .ok x ∧ x.converged = false := by
  have hturn : Run.advance g c g.order period r = .ok r' := by
    obtain ⟨x, hx, hturn⟩ := Run.advance_add_eq_ok.mp hr'
    rwa [← Except.ok.inj (hx.symm.trans hr)]
  have hturns : ∀ n, ∃ x, g.solve c (k + n * period) = .ok x ∧ r.SameAhead x := by
    intro n
    induction n with
    | zero => exact ⟨r, by rwa [Nat.zero_mul], rfl, rfl⟩
    | succ n ih =>
      obtain ⟨x, hx, hrx⟩ := ih
      obtain ⟨x', hx', hrx'⟩ := hrx.advance hturn
      refine ⟨x', ?_, hsame.1.trans hrx'.1, hsame.2.trans hrx'.2⟩
      rw [Nat.succ_mul, ← Nat.add_assoc]
      exact Run.advance_add_eq_ok.mpr ⟨x, hx, hx'⟩
  obtain ⟨y, hy, hry⟩ := hturns limit
  have hle : limit ≤ k + limit * period := (Nat.le_mul_of_pos_right limit hperiod).trans (Nat.le_add_left ..)
  obtain ⟨x, hx⟩ := solve_ok_of_le hle hy
  refine ⟨x, hx, Bool.eq_false_iff.mpr fun hdone => hp ?_⟩
  have hlast := solve_of_pending_nil hx (List.isEmpty_iff.mp hdone) hle
  rw [hry.2, ← Except.ok.inj (hlast.symm.trans hy), List.isEmpty_iff.mp hdone]

/-- The order of two memory slots goes round the loop of 6, 7, 4 and 3. What leaves 4 is the same map whatever that order
is, so 3 is not visited again after 4, and 6 numbers the slots by an order that is one turn old. -/
def pendulum : Graph :=
  .ofArrows { args := [.i32, .i32] }
    [(0, { body := .data [] }), (1, { body := .data (storeLocal 0 4 0 ++ storeLocal 3 0 1) }),
      (2, { body := .data (storeLocal 6 0 0 ++ storeLocal 9 4 0) }), (3, { body := .merge }), (4, { body := .merge }),
      (5, { body := .merge }), (6, { body := .merge }), (7, { body := .data (storeLocal 12 4 0) }),
      (8, { body := .data (storeLocal 15 4 1) })]
    [{ source := 0, target := 2 }, { source := 4, target := 3 }, { source := 7, target := 4 },
      { source := 5, target := 4 }, { source := 3, target := 4 }, { source := 7, target := 3 },
      { source := 0, target := 1 }, { source := 2, target := 3 }, { source := 1, target := 4 },
      { source := 3, target := 6 }, { source := 1, target := 5 }, { source := 4, target := 6 },
      { source := 6, target := 7 }, { source := 4, target := 5 }, { source := 7, target := 8 },
      { source := 8, target := 6 }] 0 8 "pendulum" 0

theorem pendulum_wellFormed : pendulum.WellFormed where
  built := ⟨_, _, _, _, _, _, _, rfl⟩
  ends := forall_leaving_of_entries (by decide)
  entry_block := by decide
  exit_block := by decide
  entry_free := by decide
  reachable := reachable_of_smaller (by decide)

/-- The analysis of the pendulum never fails and never converges. -/
theorem pendulum_never_converges : pendulum.WellFormed ∧ pendulum.DistinctLabels ∧ pendulum.ArityNonneg ∧
    ∀ limit, ∃ r, pendulum.solve {} limit = .ok r ∧ r.converged = false := by
  refine ⟨pendulum_wellFormed, by decide, by decide, ?_⟩
  have hrun : (do
      let r ← pendulum.solve {} 15
      let r' ← pendulum.solve {} 25
      return decide (r.outcomes = r'.outcomes ∧ r.pending = r'.pending ∧ r.pending ≠ []) : Except Fault Bool) =
        .ok true := by
    decide +kernel
  obtain ⟨r, hr, hrun⟩ := bind_eq_ok.mp hrun
  obtain ⟨r', hr', hrun⟩ := bind_eq_ok.mp hrun
  obtain ⟨houtcomes, hpending, hne⟩ := of_decide_eq_true (pure_eq_ok.mp hrun)
  exact not_converged_of_recurs 15 10 hr hr' ⟨houtcomes, hpending⟩ (by decide) hne

end Graph
end Backslice
