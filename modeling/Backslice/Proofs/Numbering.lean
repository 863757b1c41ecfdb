import Backslice.Proofs.Join

/-! # The numbers of new names

Behind a join point a place has a new name exactly if all the states in front of it have a name there but not the same.
The number of the name is one more than that of such places in front of it. For the stack, the locals and the globals it
therefore depends only on where the states agree, whatever the order in which they come in. -/

namespace Backslice

set_option autoImplicit false

namespace State

/-! ## Places that differ -/

/-- No place of the state waits for a name. -/
def Whole (s : State) : Prop := ∀ p, s.nameAt p ≠ some .hole

theorem whole_of_beq {s t : State} (hst : (s == t) = true) (ht : t.Whole) : s.Whole := by
  intro p hp
  obtain ⟨w, hw, hwv⟩ := nameAt_of_beq hst hp
  obtain rfl : w = .hole := by cases w <;> simp_all [Var.key]
  exact ht p hw

/-- All states have the name `v` at the place. -/
def Agree (inputs : List State) (p : Place) (v : Var) : Prop := ∀ s ∈ inputs, ∃ w, s.nameAt p = some w ∧ w.key = v.key

/-- All states have a name at the place, but not the same. -/
def Differ (inputs : List State) (p : Place) : Prop :=
  (∀ s ∈ inputs, ∃ w, s.nameAt p = some w) ∧ ∀ v, ¬ Agree inputs p v

variable {first : State} {others inputs : List State} {p : Place}

theorem agree_or_differ (h : ∀ s ∈ inputs, ∃ w, s.nameAt p = some w) : (∃ v, Agree inputs p v) ∨ Differ inputs p := by
  by_cases hagree : ∃ v, Agree inputs p v
  · exact Or.inl hagree
  · exact Or.inr ⟨h, fun v hv => hagree ⟨v, hv⟩⟩

theorem nameAt_foldl_meet_hole (hwhole : ∀ s ∈ first :: others, s.Whole) :
    (others.foldl meet first).nameAt p = some .hole ↔ Differ (first :: others) p := by
  constructor
  · intro h
    refine ⟨(nameAt_foldl_meet h).1, fun v hv => ?_⟩
    obtain ⟨⟨w, hw, hwv⟩, hothers⟩ := List.forall_mem_cons.mp hv
    have hmet := nameAt_foldl_meet_of_agree hw fun t ht => (hothers t ht).imp fun x hx => ⟨hx.1, hx.2.trans hwv.symm⟩
    rw [h, Option.some.injEq] at hmet
    exact hwhole first (List.mem_cons_self ..) p (hmet ▸ hw)
  · rintro ⟨hbound, hnone⟩
    obtain ⟨w, hw⟩ := nameAt_foldl_meet_of_bound hbound
    by_cases hhole : w = .hole
    · rw [hw, hhole]
    · exact absurd ((nameAt_foldl_meet hw).2 hhole) (hnone w)

/-! ## Counting -/

theorem holes_congr {l l' : List Var} (h : ∀ k : Nat, l[k]? = some .hole ↔ l'[k]? = some .hole) :
    holes l = holes l' := by
  have hnone : ∀ {l : List Var}, (∀ k : Nat, l[k]? ≠ some .hole) → holes l = 0 := by
    intro l hl
    refine List.countP_eq_zero.mpr fun v hv hhole => ?_
    obtain ⟨k, hk⟩ := List.mem_iff_getElem?.mp hv
    exact hl k (Var.beq_hole.mp hhole ▸ hk)
  induction l generalizing l' with
  | nil => exact (hnone fun k hk => by simpa using (h k).mpr hk).symm
  | cons v vs ih => cases l' with
    | nil => exact hnone fun k hk => by simpa using (h k).mp hk
    | cons v' vs' =>
      have htail : holes vs = holes vs' := ih fun k => h (k + 1)
      have hhead : (v == .hole) = (v' == .hole) := by
        have hzero := h 0
        rw [List.getElem?_cons_zero, List.getElem?_cons_zero, Option.some.injEq, Option.some.injEq,
          ← Var.beq_hole, ← Var.beq_hole] at hzero
        exact Bool.eq_iff_iff.mpr hzero
      unfold holes at htail ⊢
      rw [List.countP_cons, List.countP_cons, htail, hhead]

theorem holes_take_congr {l l' : List Var} (h : ∀ k : Nat, l[k]? = some .hole ↔ l'[k]? = some .hole) (n : Nat) :
    holes (l.take n) = holes (l'.take n) := by
  refine holes_congr fun k => ?_
  rw [List.getElem?_take, List.getElem?_take]
  split
  · exact h k
  · rfl

/-- The numbers on the stack, in the locals and in the globals depend on which of their places wait for a name. -/
theorem number_congr {s t : State} (h : ∀ p, p.IsCell → (s.nameAt p = some .hole ↔ t.nameAt p = some .hole))
    (hp : p.IsCell) : s.number p = t.number p := by
  have hstack : ∀ k : Nat, s.stack[k]? = some .hole ↔ t.stack[k]? = some .hole := fun k => h (.stack k) trivial
  have hlocals : ∀ k : Nat, s.locals[k]? = some .hole ↔ t.locals[k]? = some .hole := fun k => h (.locals k) trivial
  have hglobals : ∀ k : Nat, s.globals[k]? = some .hole ↔ t.globals[k]? = some .hole :=
    fun k => h (.globals k) trivial
  cases p with
  | stack k => rw [number, number, holes_take_congr hstack]
  | locals k => rw [number, number, holes_congr hstack, holes_take_congr hlocals]
  | globals k => rw [number, number, holes_congr hstack, holes_congr hlocals, holes_take_congr hglobals]
  | memory k => cases hp

/-! ## Numbers of memory slots -/

theorem exists_holes_take {l : List Var} {k m : Nat} (h : m < holes (l.take k)) :
    ∃ j : Nat, l[j]? = some .hole ∧ holes (l.take j) = m := by
  induction k with
  | zero => simp [holes] at h
  | succ k ih =>
    rw [List.take_add_one, holes, List.countP_append] at h
    by_cases hm : m < holes (l.take k)
    · exact ih hm
    · have hk : l[k]? = some .hole := by
        cases hv : l[k]? with
        | none => simp_all [holes]
        | some v =>
          by_cases hhole : (v == .hole) = true
          · rw [Var.beq_hole.mp hhole]
          · simp_all [holes]
      have hone : (l[k]?.toList).countP (· == .hole) = 1 := by
        rw [hk]
        rfl
      rw [hone] at h
      exact ⟨k, hk, Nat.le_antisymm (Nat.not_lt.mp hm) (Nat.lt_succ_iff.mp h)⟩

/-- How many names the stack, the locals and the globals get. -/
def cellHoles (s : State) : Nat := holes s.stack + holes s.locals + holes s.globals

theorem cellHoles_congr {s t : State} (h : ∀ p, p.IsCell → (s.nameAt p = some .hole ↔ t.nameAt p = some .hole)) :
    s.cellHoles = t.cellHoles := by
  have hstack : holes s.stack = holes t.stack := holes_congr fun k => h (.stack k) trivial
  have hlocals : holes s.locals = holes t.locals := holes_congr fun k => h (.locals k) trivial
  have hglobals : holes s.globals = holes t.globals := holes_congr fun k => h (.globals k) trivial
  rw [cellHoles, cellHoles, hstack, hlocals, hglobals]

theorem cellHoles_lt_number (s : State) (k : Slot) : s.cellHoles < s.number (.memory k) := by
  rw [cellHoles, number]
  omega

/-- The numbers of the memory slots follow one another without a gap. -/
theorem exists_number_eq {s : State} {k : Slot} {m : Nat} (hm : s.cellHoles < m) (h : m < s.number (.memory k)) :
    ∃ k', s.nameAt (.memory k') = some .hole ∧ s.number (.memory k') = m := by
  obtain ⟨j, hj, hcount⟩ : ∃ j : Nat, s.memory.values[j]? = some .hole ∧
      holes (s.memory.values.take j) = m - (1 + s.cellHoles) := by
    refine exists_holes_take (k := s.memory.position k) ?_
    rw [number] at h
    rw [cellHoles] at hm ⊢
    omega
  obtain ⟨e, he, hhole⟩ := Option.map_eq_some_iff.mp (List.getElem?_map .. ▸ hj)
  have hposition : s.memory.position e.1 = j := by
    refine Table.position_of_getElem? ?_
    rw [Table.keys, List.getElem?_map, he]
    rfl
  refine ⟨e.1, ?_, ?_⟩
  · rw [nameAt, Table.find?_eq_getElem?, hposition, hj]
  · rw [number, hposition, hcount]
    rw [cellHoles] at hm ⊢
    omega

/-- The numbers of the memory slots in two states that leave the same places without a name, in the same order. -/
theorem number_le_of_order {s t : State} (hholes : ∀ p, s.nameAt p = some .hole ↔ t.nameAt p = some .hole)
    (horder : ∀ k k', s.nameAt (.memory k) = some .hole → s.nameAt (.memory k') = some .hole →
      (s.number (.memory k) < s.number (.memory k') ↔ t.number (.memory k) < t.number (.memory k')))
    {k : Slot} (hk : s.nameAt (.memory k) = some .hole) : s.number (.memory k) ≤ t.number (.memory k) := by
  have hcells : s.cellHoles = t.cellHoles := cellHoles_congr fun p _ => hholes p
  induction hm : s.number (.memory k) using Nat.strongRecOn generalizing k with
  | ind m ih =>
    subst hm
    by_contra hlt
    -- The slot that has in `s` the number which `k` has in `t` comes before `k`, in both states.
    obtain ⟨k', hk', hnumber⟩ :=
      exists_number_eq (hcells ▸ t.cellHoles_lt_number k) (Nat.lt_of_not_le hlt)
    have hbefore : s.number (.memory k') < s.number (.memory k) := by omega
    have hle := ih _ hbefore hk' rfl
    have hbefore' := (horder k' k hk' hk).mp hbefore
    omega

theorem number_eq_of_order {s t : State} (hholes : ∀ p, s.nameAt p = some .hole ↔ t.nameAt p = some .hole)
    (horder : ∀ k k', s.nameAt (.memory k) = some .hole → s.nameAt (.memory k') = some .hole →
      (s.number (.memory k) < s.number (.memory k') ↔ t.number (.memory k) < t.number (.memory k')))
    {k : Slot} (hk : s.nameAt (.memory k) = some .hole) : s.number (.memory k) = t.number (.memory k) := by
  refine Nat.le_antisymm (number_le_of_order hholes horder hk) ?_
  refine number_le_of_order (fun p => (hholes p).symm) (fun x y hx hy => ?_) ((hholes _).mp hk)
  exact (horder x y ((hholes _).mpr hx) ((hholes _).mpr hy)).symm

theorem number_pos (s : State) (p : Place) : 1 ≤ s.number p := by
  cases p <;> simp only [number] <;> omega

end State

/-! ## Join points -/

namespace Graph

variable {g g' : Graph} {index : Int} {b b' : Block} {flows flows' : List Flow} {t t' : State} {p : Place}

/-- What stands behind a join point if it has to compare states, before the result of the function is marked. -/
def compared (index : Int) : List State → State
  | [] => {}
  | first :: others => (others.foldl State.meet first).plugAll index

theorem nameAt_compared_single {s : State} (hs : s.Whole) (p : Place) : (compared index [s]).nameAt p = s.nameAt p := by
  rw [compared, List.foldl_nil, State.nameAt_plugAll]
  cases h : s.nameAt p with
  | none => rfl
  | some v =>
    have hv : ¬ (v == .hole) = true := fun hcon => hs p (h.trans (congrArg some (Var.beq_hole.mp hcon)))
    rw [Option.map_some, if_neg hv]

theorem nameAt_merge (hb : b.isMerge = true) (hne : flows.filterMap Flow.state? ≠ [])
    (hwhole : ∀ s ∈ flows.filterMap Flow.state?, s.Whole) (h : g.merge index b flows = .ok (.known t)) (p : Place) :
    t.nameAt p = if g.exit = index ∧ p = .stack 0
      then ((compared index (flows.filterMap Flow.state?)).nameAt p).map fun _ => .returned
      else (compared index (flows.filterMap Flow.state?)).nameAt p := by
  obtain ⟨u, hf, hu⟩ := merge_cases hb hne h
  obtain rfl := Flow.known.inj hf
  have hnames : ∀ p, u.nameAt p = (compared index (flows.filterMap Flow.state?)).nameAt p := by
    rcases hu with hin | ⟨first, others, hin, hu⟩
    · rw [hin] at hwhole ⊢
      exact fun p => (nameAt_compared_single (hwhole u (List.mem_singleton_self u)) p).symm
    · obtain ⟨-, rfl⟩ := State.joinAll_eq_ok.mp hu
      rw [hin]
      exact fun _ => rfl
  by_cases hexit : g.exit = index
  · rw [if_pos hexit, State.nameAt_markTop, hnames]
    simp only [hexit, true_and]
  · rw [if_neg hexit, hnames, if_neg fun hcon => hexit hcon.1]

/-- The comparison of states leaves the places without a name where they differ, and these are then numbered. -/
theorem exists_met (index : Int) {inputs : List State} (hne : inputs ≠ []) (hwhole : ∀ s ∈ inputs, s.Whole) :
    ∃ met : State, (∀ p, met.nameAt p = some .hole ↔ State.Differ inputs p) ∧ ∀ p, State.Differ inputs p →
      (compared index inputs).nameAt p = some (.phi index (met.number p : Nat)) := by
  cases inputs with
  | nil => exact absurd rfl hne
  | cons first others =>
    refine ⟨others.foldl State.meet first, fun p => State.nameAt_foldl_meet_hole hwhole, fun p hp => ?_⟩
    rw [compared, State.nameAt_plugAll, (State.nameAt_foldl_meet_hole hwhole).mpr hp]
    rfl

theorem nameAt_compared_differ (index : Int) {inputs : List State} (hne : inputs ≠ []) (hwhole : ∀ s ∈ inputs, s.Whole)
    (hp : State.Differ inputs p) : ∃ n : Nat, 1 ≤ n ∧ (compared index inputs).nameAt p = some (.phi index n) := by
  obtain ⟨met, -, hnumber⟩ := exists_met index hne hwhole
  exact ⟨met.number p, met.number_pos p, hnumber p hp⟩

theorem nameAt_compared_agree (index : Int) {inputs : List State} (hne : inputs ≠ []) (hwhole : ∀ s ∈ inputs, s.Whole)
    {v : Var} (hp : State.Agree inputs p v) : ∃ w, (compared index inputs).nameAt p = some w ∧ w.key = v.key := by
  cases inputs with
  | nil => exact absurd rfl hne
  | cons first others =>
    obtain ⟨⟨w, hw, hwv⟩, hothers⟩ := List.forall_mem_cons.mp hp
    have hmet := State.nameAt_foldl_meet_of_agree hw
      fun t ht => (hothers t ht).imp fun x hx => ⟨hx.1, hx.2.trans hwv.symm⟩
    have hhole : ¬ (w == .hole) = true :=
      fun hcon => hwhole first (List.mem_cons_self ..) p (hw.trans (congrArg some (Var.beq_hole.mp hcon)))
    refine ⟨w, ?_, hwv⟩
    rw [compared, State.nameAt_plugAll, hmet, Option.map_some, if_neg hhole]

theorem bound_of_nameAt_compared {inputs : List State} (hne : inputs ≠ []) {v : Var}
    (hv : (compared index inputs).nameAt p = some v) : ∀ s ∈ inputs, ∃ w, s.nameAt p = some w := by
  cases inputs with
  | nil => exact absurd rfl hne
  | cons first others =>
    rw [compared, State.nameAt_plugAll] at hv
    obtain ⟨u, hu, -⟩ := Option.map_eq_some_iff.mp hv
    exact (State.nameAt_foldl_meet hu).1

theorem nameAt_compared_none {inputs : List State} (hne : inputs ≠ []) (h : ¬ ∀ s ∈ inputs, ∃ w, s.nameAt p = some w) :
    (compared index inputs).nameAt p = none :=
  Option.eq_none_iff_forall_ne_some.mpr fun _ hv => h (bound_of_nameAt_compared hne hv)

/-- A name behind a join point marks the result, or the states in front of it agree on it, or they differ and it is new
there. -/
theorem nameAt_merge_cases (hb : b.isMerge = true) (hne : flows.filterMap Flow.state? ≠ [])
    (hwhole : ∀ s ∈ flows.filterMap Flow.state?, s.Whole) (h : g.merge index b flows = .ok (.known t)) {v : Var}
    (hv : t.nameAt p = some v) : ((g.exit = index ∧ p = .stack 0) ∧ v = .returned) ∨
      (¬ (g.exit = index ∧ p = .stack 0) ∧ (State.Agree (flows.filterMap Flow.state?) p v ∨
        State.Differ (flows.filterMap Flow.state?) p ∧ ∃ n : Nat, 1 ≤ n ∧ v = .phi index n)) := by
  rw [nameAt_merge hb hne hwhole h] at hv
  by_cases hmark : g.exit = index ∧ p = .stack 0
  · rw [if_pos hmark] at hv
    obtain ⟨-, -, rfl⟩ := Option.map_eq_some_iff.mp hv
    exact Or.inl ⟨hmark, rfl⟩
  · rw [if_neg hmark] at hv
    refine Or.inr ⟨hmark, ?_⟩
    rcases State.agree_or_differ (bound_of_nameAt_compared hne hv) with ⟨w, hw⟩ | hdiffer
    · obtain ⟨x, hx, hxw⟩ := nameAt_compared_agree index hne hwhole hw
      obtain rfl := Option.some.inj (hx.symm.trans hv)
      exact Or.inl fun s hs => (hw s hs).imp fun y hy => ⟨hy.1, hy.2.trans hxw.symm⟩
    · obtain ⟨n, hn, hnew⟩ := nameAt_compared_differ index hne hwhole hdiffer
      exact Or.inr ⟨hdiffer, n, hn, Option.some.inj (hv.symm.trans hnew)⟩

/-! ## Equal names -/

/-- What stands at a place behind a join point depends on what the states in front of it agree on there, and on the
number of the new name if they differ. -/
theorem compared_congr_of_number (index : Int) {inputs inputs' : List State} (hne : inputs ≠ []) (hne' : inputs' ≠ [])
    (hwhole : ∀ s ∈ inputs, s.Whole) (hwhole' : ∀ s ∈ inputs', s.Whole)
    (hbound : (∀ s ∈ inputs, ∃ w, s.nameAt p = some w) ↔ ∀ s ∈ inputs', ∃ w, s.nameAt p = some w)
    (hagree : ∀ v, State.Agree inputs p v ↔ State.Agree inputs' p v)
    (hnumber : State.Differ inputs p → (compared index inputs).nameAt p = (compared index inputs').nameAt p) :
    ((compared index inputs).nameAt p).map Var.key = ((compared index inputs').nameAt p).map Var.key := by
  by_cases hall : ∀ s ∈ inputs, ∃ w, s.nameAt p = some w
  · rcases State.agree_or_differ hall with ⟨v, hv⟩ | hdiffer
    · obtain ⟨w, hw, hwv⟩ := nameAt_compared_agree index hne hwhole hv
      obtain ⟨w', hw', hwv'⟩ := nameAt_compared_agree index hne' hwhole' ((hagree v).mp hv)
      rw [hw, hw', Option.map_some, Option.map_some, hwv, hwv']
    · rw [hnumber hdiffer]
  · rw [nameAt_compared_none hne hall, nameAt_compared_none hne' fun hcon => hall (hbound.mpr hcon)]

/-- On the stack, in the locals and in the globals the numbers too depend on what the states agree on. -/
theorem compared_congr (index : Int) {inputs inputs' : List State} (hne : inputs ≠ []) (hne' : inputs' ≠ [])
    (hwhole : ∀ s ∈ inputs, s.Whole) (hwhole' : ∀ s ∈ inputs', s.Whole)
    (hbound : ∀ p, p.IsCell → ((∀ s ∈ inputs, ∃ w, s.nameAt p = some w) ↔ ∀ s ∈ inputs', ∃ w, s.nameAt p = some w))
    (hagree : ∀ p v, p.IsCell → (State.Agree inputs p v ↔ State.Agree inputs' p v)) (hp : p.IsCell) :
    ((compared index inputs).nameAt p).map Var.key = ((compared index inputs').nameAt p).map Var.key := by
  refine compared_congr_of_number index hne hne' hwhole hwhole' (hbound p hp) (fun v => hagree p v hp) fun hdiffer => ?_
  have hiff : ∀ p, p.IsCell → (State.Differ inputs p ↔ State.Differ inputs' p) :=
    fun p hp => and_congr (hbound p hp) (forall_congr' fun v => not_congr (hagree p v hp))
  obtain ⟨met, hholes, hname⟩ := exists_met index hne hwhole
  obtain ⟨met', hholes', hname'⟩ := exists_met index hne' hwhole'
  have hnumber : met.number p = met'.number p :=
    State.number_congr (fun q hq => (hholes q).trans ((hiff q hq).trans (hholes' q).symm)) hp
  rw [hname p hdiffer, hname' p ((hiff p hp).mp hdiffer), hnumber]

/-- In memory the numbers depend on the order of the slots as well. -/
theorem compared_congr_of_order (index : Int) {inputs inputs' : List State} (hne : inputs ≠ []) (hne' : inputs' ≠ [])
    (hwhole : ∀ s ∈ inputs, s.Whole) (hwhole' : ∀ s ∈ inputs', s.Whole)
    (hbound : ∀ p, (∀ s ∈ inputs, ∃ w, s.nameAt p = some w) ↔ ∀ s ∈ inputs', ∃ w, s.nameAt p = some w)
    (hagree : ∀ p v, State.Agree inputs p v ↔ State.Agree inputs' p v)
    (horder : ∀ (x y : Slot) (i j i' j' : Int), (compared index inputs).nameAt (.memory x) = some (.phi index i) →
      (compared index inputs).nameAt (.memory y) = some (.phi index j) →
      (compared index inputs').nameAt (.memory x) = some (.phi index i') →
      (compared index inputs').nameAt (.memory y) = some (.phi index j') → (i < j ↔ i' < j')) (slot : Slot) :
    ((compared index inputs).nameAt (.memory slot)).map Var.key =
      ((compared index inputs').nameAt (.memory slot)).map Var.key := by
  refine compared_congr_of_number index hne hne' hwhole hwhole' (hbound _) (hagree _) fun hdiffer => ?_
  have hiff : ∀ p, State.Differ inputs p ↔ State.Differ inputs' p :=
    fun p => and_congr (hbound p) (forall_congr' fun v => not_congr (hagree p v))
  obtain ⟨met, hholes, hname⟩ := exists_met index hne hwhole
  obtain ⟨met', hholes', hname'⟩ := exists_met index hne' hwhole'
  have hnumber : met.number (.memory slot) = met'.number (.memory slot) := by
    refine State.number_eq_of_order (fun p => (hholes p).trans ((hiff p).trans (hholes' p).symm)) (fun x y hx hy => ?_)
      ((hholes _).mpr hdiffer)
    rw [hholes] at hx hy
    have hnumbers := horder x y _ _ _ _ (hname _ hx) (hname _ hy) (hname' _ ((hiff _).mp hx)) (hname' _ ((hiff _).mp hy))
    rwa [Int.ofNat_lt, Int.ofNat_lt] at hnumbers
  rw [hname _ hdiffer, hname' _ ((hiff _).mp hdiffer), hnumber]

end Graph
end Backslice
