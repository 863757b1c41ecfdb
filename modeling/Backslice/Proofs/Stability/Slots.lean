import Backslice.Proofs.Stability.Cells

/-! # The memory slots settle

Once the cells have settled, each block puts the same names into the same slots. Whether a slot is bound then settles, and
so does whether it has a given name that no join point makes. What remains are the numbers of new names, which depend on
the order in which the slots were bound. If each join point numbers its slots in one order, they settle as well. -/

namespace Backslice

set_option autoImplicit false

open Filter

theorem Place.isCell_or_memory (p : Place) : p.IsCell ∨ ∃ slot, p = .memory slot := by
  cases p with
  | memory slot => exact Or.inr ⟨slot, rfl⟩
  | _ => exact Or.inl trivial

/-- A name, where those that join points make are not told apart. -/
def Var.unnumbered : Var → Option Var
  | .phi _ _ => none
  | v => some v.key

theorem Var.unnumbered_key (v : Var) : v.key.unnumbered = v.unnumbered := by
  cases v <;> simp [Var.unnumbered, Var.key, Immediate.key_key, Var.key_key]

theorem Slot.key_key (k : Slot) : Slot.key (Slot.key k) = Slot.key k := Prod.ext k.1.key_key rfl

namespace State

theorem frames_of_nameAt {s s' : State}
    (h : ∀ p, p.IsCell → (s.nameAt p).map Var.key = (s'.nameAt p).map Var.key) :
    Frames (fun v w => v.key = w.key) s s' := by
  have hlist : ∀ {l l' : List Var}, (∀ k : Nat, l[k]?.map Var.key = l'[k]?.map Var.key) →
      List.Forall₂ (fun v w => v.key = w.key) l l' := by
    intro l l' hl
    have hmap : l.map Var.key = l'.map Var.key := by
      refine List.ext_getElem? fun k => ?_
      rw [List.getElem?_map, List.getElem?_map]
      exact hl k
    rwa [← List.forall₂_eq_eq_eq, List.forall₂_map_left_iff, List.forall₂_map_right_iff] at hmap
  exact ⟨hlist fun k => h (.stack k) trivial, hlist fun k => h (.locals k) trivial,
    hlist fun k => h (.globals k) trivial⟩

/-- A memory has finitely many bindings. -/
theorem finite_bindings (m : Memory) :
    {q : Slot × Var | ∃ k v, m.find? k = some v ∧ (Slot.key k, v.key) = q}.Finite := by
  refine (m.entries.map fun e => (Slot.key e.1, e.2.key)).finite_toSet.subset ?_
  rintro q ⟨k, v, hv, rfl⟩
  obtain ⟨k', hmem, hkk⟩ := Table.exists_mem_of_find? hv
  rw [← (Slot.beq_iff k' k).mp hkk]
  exact List.mem_map_of_mem (f := fun e : Slot × Var => (Slot.key e.1, e.2.key)) hmem

end State

namespace Graph.Endless

variable {g : Graph} {c : Config} {E : g.Endless c} {k k' K : Nat} {n m : Int} {b : Block} {flows : List Flow}
  {s t : State} {p q : Place} {w : Var} {slot : Slot}

/-! ## All cells at once -/

theorem left_shape {t' : State} (h : E.left k n = some t) (h' : E.left k' n = some t') :
    t'.partLength = t.partLength := by
  obtain ⟨_, _, _, _, b, flows, s, u, hcomputed⟩ := E.exists_last ⟨t, h⟩
  obtain ⟨_, _, _, _, b', flows', s', u', hcomputed'⟩ := E.exists_last ⟨t', h'⟩
  obtain rfl : u = t := Option.some.inj (hcomputed.left.symm.trans h)
  obtain rfl : u' = t' := Option.some.inj (hcomputed'.left.symm.trans h')
  obtain rfl : b = b' := Option.some.inj (hcomputed.block.symm.trans hcomputed'.block)
  obtain ⟨notes, hsteps⟩ := hcomputed.runs
  obtain ⟨notes', hsteps'⟩ := hcomputed'.runs
  exact hsteps.shape_eq hsteps' (hcomputed.shape_eq hcomputed')

/-- From `K` on the cells of all blocks stay as they are. -/
def CellsFixed (E : g.Endless c) (K : Nat) : Prop :=
  ∀ k ≥ K, ∀ n p, p.IsCell → E.name k n p = E.name K n p

theorem exists_cellsFixed (E : g.Endless c) : ∃ K, E.CellsFixed K := by
  have hblock : ∀ n ∈ g.order, ∀ᶠ k in atTop, ∀ p, p.IsCell → E.name (k + 1) n p = E.name k n p := by
    intro n _
    by_cases hseen : ∃ k, E.Seen k n
    · obtain ⟨k₀, t₀, ht₀⟩ := hseen
      filter_upwards [(eventually_all_finite t₀.finite_cells).mpr fun p hp => settles_cell E n hp.1] with k hk p hp
      by_cases hbound : t₀.nameAt p = none
      · have hnone : ∀ k, E.name k n p = none := by
          intro k
          cases ht : E.left k n with
          | none => rw [name, ht]; rfl
          | some t =>
            rw [E.name_of_left ht, (State.nameAt_eq_none_of_shape (left_shape ht₀ ht) hp).mpr hbound]
            rfl
        rw [hnone, hnone]
      · exact hk p ⟨hp, hbound⟩
    · refine Eventually.of_forall fun k p _ => ?_
      have hnone : ∀ k, E.name k n p = none := fun k =>
        Option.eq_none_iff_forall_ne_some.mpr fun w hw => hseen ⟨k, E.seen_of_name hw⟩
      rw [hnone, hnone]
  obtain ⟨K, hK⟩ := eventually_atTop.mp ((eventually_all_finite g.order.finite_toSet).mpr hblock)
  refine ⟨K, fun k hk n p hp => ?_⟩
  by_cases hn : n ∈ g.order
  · induction k, hk using Nat.le_induction with
    | base => rfl
    | succ k hk ih => exact (hK k hk n hn p hp).trans ih
  · have hnone : ∀ k, E.name k n p = none := fun k =>
      Option.eq_none_iff_forall_ne_some.mpr fun w hw => E.not_seen_of_not_mem hn k (E.seen_of_name hw)
    rw [hnone, hnone]

/-! ## What the blocks store -/

/-- The predecessors seen so far all bind the place. -/
def Bound (E : g.Endless c) (k : Nat) (n : Int) (p : Place) : Prop :=
  ∀ e ∈ g.predecessors n, E.Seen k e.target → E.name k e.target p ≠ none

/-- From `K` on a block puts `stored` into memory and leaves the other slots as they are, where a join point may make a
new name instead. -/
structure Stores (E : g.Endless c) (K : Nat) (n : Int) (stored : Memory) : Prop where
  name_iff : ∀ k' k b flows s t slot w, K ≤ k → E.Computed k' k n b flows s t →
    (b.isMerge = true → ¬ State.phiOf n w) → (E.name k' n (.memory slot) = some w ↔
      (stored.find? slot).map Var.key = some w ∨
        (n ≠ g.entry ∧ stored.find? slot = none) ∧ E.Agreed k n (.memory slot) w)
  bound_iff : ∀ k' k b flows s t slot, K ≤ k → E.Computed k' k n b flows s t →
    (E.name k' n (.memory slot) ≠ none ↔ stored.find? slot ≠ none ∨
      (n ≠ g.entry ∧ stored.find? slot = none) ∧ E.Bound k n (.memory slot))

theorem Computed.stores_entry (h : E.Computed k' k n b flows s t) (hn : n = g.entry) (K : Nat) :
    E.Stores K n t.memory := by
  have hname : ∀ {j' j b' flows' s' t'}, E.Computed j' j n b' flows' s' t' → ∀ slot,
      E.name j' n (.memory slot) = (t.memory.find? slot).map Var.key := by
    intro j' j b' flows' s' t' h' slot
    rw [E.name_of_left h'.left, ← h.eq_of_entry h' hn]
    rfl
  refine ⟨fun j' j b' flows' s' t' slot w _ h' _ => ?_, fun j' j b' flows' s' t' slot _ h' => ?_⟩
  · rw [hname h']
    exact ⟨Or.inl, fun hor => hor.resolve_right fun hcon => hcon.1.1 hn⟩
  · rw [hname h', ne_eq, Option.map_eq_none_iff]
    exact ⟨Or.inl, fun hor => hor.resolve_right fun hcon => hcon.1.1 hn⟩

theorem Computed.bound_inputs_iff (h : E.Computed k' k n b flows s t) :
    (∀ x ∈ flows.filterMap Flow.state?, ∃ w, x.nameAt p = some w) ↔ E.Bound k n p := by
  rw [Bound, ← h.forall_inputs p (Q := (· ≠ none))]
  refine forall₂_congr fun x _ => ?_
  rw [ne_eq, Option.map_eq_none_iff, ← ne_eq, Option.ne_none_iff_exists']

theorem Computed.bound_merge_iff (h : E.Computed k' k n b flows s t) (hn : n ≠ g.entry) (hm : b.isMerge = true) :
    E.name k' n p ≠ none ↔ E.Bound k n p := by
  have hcompared : (compared n (flows.filterMap Flow.state?)).nameAt p ≠ none ↔ E.Bound k n p := by
    rw [← h.bound_inputs_iff, Option.ne_none_iff_exists']
    constructor
    · rintro ⟨v, hv⟩
      exact bound_of_nameAt_compared (h.inputs_ne_nil hn) hv
    · intro hall
      rcases State.agree_or_differ hall with ⟨v, hv⟩ | hdiffer
      · obtain ⟨w, hw, -⟩ := nameAt_compared_agree n (h.inputs_ne_nil hn) h.whole hv
        exact ⟨w, hw⟩
      · obtain ⟨i, -, hi⟩ := nameAt_compared_differ n (h.inputs_ne_nil hn) h.whole hdiffer
        exact ⟨_, hi⟩
  rw [h.name_merge hn hm, ← hcompared]
  split <;> simp

theorem Computed.stores_merge (h : E.Computed k' k n b flows s t) (hn : n ≠ g.entry) (hm : b.isMerge = true) (K : Nat) :
    E.Stores K n ∅ := by
  have hempty : ∀ slot, (∅ : Memory).find? slot = none := fun _ => rfl
  have hmark : ∀ slot, ¬ (g.exit = n ∧ Place.memory slot = .stack 0) := fun slot hcon => by cases hcon.2
  refine ⟨fun j' j b' flows' s' t' slot w _ h' hw => ?_, fun j' j b' flows' s' t' slot _ h' => ?_⟩
  · obtain rfl : b = b' := Option.some.inj (h.block.symm.trans h'.block)
    rw [h'.name_merge_iff hn hm (hmark slot) (hw hm)]
    simp [hempty, hn, Agreed]
  · obtain rfl : b = b' := Option.some.inj (h.block.symm.trans h'.block)
    rw [h'.bound_merge_iff hn hm]
    simp [hempty, hn]

theorem Computed.agreed_single (h : E.Computed k' k n b flows s t) (hn : n ≠ g.entry) (hm : b.isMerge = false) :
    (E.Agreed k n p w ↔ (s.nameAt p).map Var.key = some w) ∧ (E.Bound k n p ↔ (s.nameAt p).map Var.key ≠ none) := by
  rw [Agreed, Bound, ← h.forall_inputs p (Q := (· = some w)), ← h.forall_inputs p (Q := (· ≠ none)),
    h.inputs_single hn hm, List.forall_mem_singleton, List.forall_mem_singleton]
  exact ⟨Iff.rfl, Iff.rfl⟩

theorem Computed.stores_single (h : E.Computed k' k n b flows s t) (hn : n ≠ g.entry) (hm : b.isMerge = false)
    (hfixed : E.CellsFixed K) (hk : K ≤ k) : ∃ stored, E.Stores K n stored := by
  obtain ⟨stored, hstored⟩ := Steps.exists_stored g.signature c b.instrs s
  -- The block always starts from the same cells, those that its predecessor has left.
  have hframes : ∀ {j' j flows' s' t'}, K ≤ j → E.Computed j' j n b flows' s' t' →
      State.Frames (fun v w => v.key = w.key) s s' := by
    intro j' j flows' s' t' hj h'
    refine State.frames_of_nameAt fun p hp => ?_
    obtain ⟨e, he, hrank, hseen⟩ := h.exists_parent hn
    have hinput : ∀ {j' j flows s t}, E.Computed j' j n b flows s t → K ≤ j →
        (s.nameAt p).map Var.key = E.name K e.target p := by
      intro j' j flows s t hcomputed hj
      rw [← hfixed j hj e.target p hp]
      have hall := hcomputed.forall_inputs p (Q := ((s.nameAt p).map Var.key = ·))
      rw [hcomputed.inputs_single hn hm, List.forall_mem_singleton] at hall
      exact hall.mp rfl e he (hcomputed.before e.target hrank)
    rw [hinput h hk, hinput h' hj]
  have hname : ∀ {j' j flows' s' t'}, K ≤ j → E.Computed j' j n b flows' s' t' → ∀ slot,
      E.name j' n (.memory slot) =
        ((stored.find? slot).map Var.key).or ((s'.nameAt (.memory slot)).map Var.key) := by
    intro j' j flows' s' t' hj h' slot
    obtain ⟨notes', hsteps'⟩ := h'.runs
    exact (E.name_of_left h'.left _).trans (hstored s' notes' t' slot (hframes hj h') hsteps')
  refine ⟨stored, fun j' j b' flows' s' t' slot w hj h' _ => ?_, fun j' j b' flows' s' t' slot hj h' => ?_⟩
  · obtain rfl : b = b' := Option.some.inj (h.block.symm.trans h'.block)
    rw [hname hj h', (h'.agreed_single hn hm).1]
    cases stored.find? slot <;> simp [hn]
  · obtain rfl : b = b' := Option.some.inj (h.block.symm.trans h'.block)
    rw [hname hj h', (h'.agreed_single (w := .hole) hn hm).2]
    cases stored.find? slot <;> simp [hn]

theorem exists_stores (E : g.Endless c) (hfixed : E.CellsFixed K) (n : Int) : ∃ stored, E.Stores K n stored := by
  by_cases hcomputed : ∃ k' k b flows s t, K ≤ k ∧ E.Computed k' k n b flows s t
  · obtain ⟨k', k, b, flows, s, t, hk, h⟩ := hcomputed
    by_cases hn : n = g.entry
    · exact ⟨_, h.stores_entry hn K⟩
    · cases hm : b.isMerge with
      | true => exact ⟨_, h.stores_merge hn hm K⟩
      | false => exact h.stores_single hn hm hfixed hk
  · exact ⟨∅, fun k' k b flows s t slot w hk h _ => absurd ⟨k', k, b, flows, s, t, hk, h⟩ hcomputed,
      fun k' k b flows s t slot hk h => absurd ⟨k', k, b, flows, s, t, hk, h⟩ hcomputed⟩

/-! ## Single slots -/

theorem settles_slot_bound (E : g.Endless c) (n : Int) (slot : Slot) :
    Settles fun k => E.name k n (.memory slot) ≠ none := by
  obtain ⟨K, hfixed⟩ := E.exists_cellsFixed
  choose stored hstored using E.exists_stores hfixed
  refine E.settles (fun n => (stored n).find? slot ≠ none) (fun n => n ≠ g.entry ∧ (stored n).find? slot = none)
    (x := fun k n => E.name k n (.memory slot) ≠ none) ?_ ?_ n
  · intro k m hm
    simp only [E.name_other hm]
  · filter_upwards [eventually_ge_atTop K] with k hk k' n b flows s t _ hcomputed
    exact (hstored n).bound_iff k' k b flows s t slot hk hcomputed

/-- Whether a block has a given name in a slot settles, once the join point that makes the name has settled there. -/
theorem settles_slot_eq (E : g.Endless c) (hw : ∀ m i, w = .phi m i → Settles fun k => E.name k m (.memory slot))
    (n : Int) : Settles fun k => E.name k n (.memory slot) = some w := by
  obtain ⟨K, hfixed⟩ := E.exists_cellsFixed
  choose stored hstored using E.exists_stores hfixed
  refine E.settles (fun n => ((stored n).find? slot).map Var.key = some w)
    (fun n => n ≠ g.entry ∧ (stored n).find? slot = none) (x := fun k n => E.name k n (.memory slot) = some w) ?_ ?_ n
  · intro k m hm
    simp only [E.name_other hm]
  · filter_upwards [eventually_ge_atTop K] with k hk k' n b flows s t hrestless hcomputed
    refine (hstored n).name_iff k' k b flows s t slot w hk hcomputed fun _ ⟨i, hi⟩ => hrestless ?_
    exact (hw n i hi).map (· = some w)

/-- The bindings of all blocks after `K` visits, with those that given memories add to them, are finitely many. -/
theorem exists_finite_start (E : g.Endless c) (K : Nat) (stored : Int → Memory) :
    ∃ bindings : Set (Slot × Var), bindings.Finite ∧
      (∀ n slot w, E.name K n (.memory slot) = some w → (Slot.key slot, w) ∈ bindings) ∧
      ∀ n ∈ g.order, ∀ slot v, (stored n).find? slot = some v → (Slot.key slot, v.key) ∈ bindings := by
  have hleft : ∀ n, {q : Slot × Var | ∃ slot w, E.name K n (.memory slot) = some w ∧ (Slot.key slot, w) = q}.Finite := by
    intro n
    cases ht : E.left K n with
    | none => simp [name, ht]
    | some t =>
      refine (State.finite_bindings t.memory).subset ?_
      rintro q ⟨slot, w, hw, rfl⟩
      rw [E.name_of_left ht] at hw
      obtain ⟨v, hv, rfl⟩ := Option.map_eq_some_iff.mp hw
      exact ⟨slot, v, hv, rfl⟩
  refine ⟨_, (g.order.finite_toSet.biUnion fun n _ => hleft n).union
    (g.order.finite_toSet.biUnion fun n _ => State.finite_bindings (stored n)), ?_, ?_⟩
  · intro n slot w hw
    by_cases hn : n ∈ g.order
    · exact Or.inl (Set.mem_biUnion hn ⟨slot, w, hw, rfl⟩)
    · exact absurd (E.seen_of_name hw) (E.not_seen_of_not_mem hn K)
  · exact fun n hn slot v hv => Or.inr (Set.mem_biUnion hn ⟨slot, v, hv, rfl⟩)

/-- From some time on only finitely many slots are bound, and to finitely many names besides the new ones. -/
theorem exists_finite_bindings (E : g.Endless c) : ∃ (slots : Set Slot) (names : Set Var), slots.Finite ∧ names.Finite ∧
    ∀ᶠ k in atTop, ∀ n slot w, E.name k n (.memory slot) = some w →
      Slot.key slot ∈ slots ∧ ((∀ m i, w ≠ .phi m i) → w ∈ names) := by
  obtain ⟨K, hfixed⟩ := E.exists_cellsFixed
  choose stored hstored using E.exists_stores hfixed
  obtain ⟨bindings, hfinite, hold, hnew⟩ := E.exists_finite_start K stored
  refine ⟨_, _, hfinite.image Prod.fst, hfinite.image Prod.snd, eventually_atTop.mpr ⟨K, fun k hk => ?_⟩⟩
  induction k, hk using Nat.le_induction with
  | base => exact fun n slot w hw => ⟨⟨_, hold n slot w hw, rfl⟩, fun _ => ⟨_, hold n slot w hw, rfl⟩⟩
  | succ k hk ih =>
    intro n slot w hw
    by_cases hn : n = E.visited k
    · subst hn
      obtain ⟨s, t, hcomputed⟩ := E.computed_visited k
      constructor
      · have hbound := Option.ne_none_iff_exists'.mpr ⟨w, hw⟩
        rcases ((hstored _).bound_iff _ _ _ _ s t slot hk hcomputed).mp hbound with hmade | ⟨⟨hentry, -⟩, hpassed⟩
        · obtain ⟨v, hv⟩ := Option.ne_none_iff_exists'.mp hmade
          exact ⟨_, hnew _ (E.visited_mem k) slot v hv, rfl⟩
        · obtain ⟨e, he, -, hseen⟩ := hcomputed.exists_parent hentry
          obtain ⟨v, hv⟩ := Option.ne_none_iff_exists'.mp (hpassed e he hseen)
          exact (ih e.target slot v hv).1
      · intro hplain
        have hiff := (hstored _).name_iff _ _ _ _ s t slot w hk hcomputed fun _ ⟨i, hi⟩ => hplain _ i hi
        rcases hiff.mp hw with hmade | ⟨⟨hentry, -⟩, hpassed⟩
        · obtain ⟨v, hv, rfl⟩ := Option.map_eq_some_iff.mp hmade
          exact ⟨_, hnew _ (E.visited_mem k) slot v hv, rfl⟩
        · obtain ⟨e, he, -, hseen⟩ := hcomputed.exists_parent hentry
          exact (ih e.target slot w (hpassed e he hseen)).2 hplain
    · rw [E.name_other hn] at hw
      exact ih n slot w hw

/-! ## All slots -/

end Graph.Endless

/-- On all visits of a block, the memory slots that get new names there get them in the same order. -/
def Graph.NumbersInOneOrder (g : Graph) (c : Config) : Prop :=
  ∀ k k' index s s' x y i j i' j', g.EntersAt c k index (.known s) → g.EntersAt c k' index (.known s') →
    s.memory.find? x = some (.phi index i) → s.memory.find? y = some (.phi index j) →
    s'.memory.find? x = some (.phi index i') → s'.memory.find? y = some (.phi index j') → (i < j ↔ i' < j')

namespace Graph.Endless

variable {g : Graph} {c : Config} {E : g.Endless c} {k k' K : Nat} {n m : Int} {b : Block} {flows : List Flow}
  {s t : State} {p q : Place} {w : Var} {slot : Slot}

theorem name_key (k : Nat) (n : Int) (slot : Slot) :
    E.name k n (.memory (Slot.key slot)) = E.name k n (.memory slot) := by
  unfold name State.nameAt
  simp only [Table.find?_congr _ ((Slot.beq_iff (Slot.key slot) slot).mpr (Slot.key_key slot))]

theorem settles_bound_before (E : g.Endless c) (n : Int) (slot : Slot) :
    Settles fun k => E.Bound k n (.memory slot) := by
  have hbits : ∀ᶠ k in atTop, ∀ e ∈ g.predecessors n,
      (E.name (k + 1) e.target (.memory slot) ≠ none) = (E.name k e.target (.memory slot) ≠ none) :=
    (eventually_all_finite (g.predecessors n).finite_toSet).mpr fun e _ => settles_slot_bound E e.target slot
  filter_upwards [hbits, E.eventually_seen] with k hbits hseen
  refine propext (forall_congr' fun e => forall_congr' fun he => ?_)
  rw [hbits e he]
  exact imp_congr_left ⟨fun hs => (hseen e.target).mpr ⟨_, hs⟩, Seen.succ⟩

/-- The memory of a join point depends on what its predecessors bind and agree on, if it numbers its slots in one
order. -/
theorem Computed.slot_eq_of_agreed {j j' : Nat} {flows' : List Flow} {s' t' : State}
    (h : E.Computed k' k n b flows s t) (h' : E.Computed j' j n b flows' s' t') (hn : n ≠ g.entry)
    (hm : b.isMerge = true) (horder : g.NumbersInOneOrder c) (hbound : ∀ p, E.Bound k n p ↔ E.Bound j n p)
    (hagreed : ∀ p w, E.Agreed k n p w ↔ E.Agreed j n p w) (slot : Slot) :
    E.name k' n (.memory slot) = E.name j' n (.memory slot) := by
  have hmark : ∀ slot, ¬ (g.exit = n ∧ Place.memory slot = .stack 0) := fun slot hcon => by cases hcon.2
  have hname : ∀ x, s.memory.find? x = (compared n (flows.filterMap Flow.state?)).nameAt (.memory x) := fun x =>
    (nameAt_merge hm (h.inputs_ne_nil hn) h.whole h.merge (.memory x)).trans (if_neg (hmark x))
  have hname' : ∀ x, s'.memory.find? x = (compared n (flows'.filterMap Flow.state?)).nameAt (.memory x) := fun x =>
    (nameAt_merge hm (h'.inputs_ne_nil hn) h'.whole h'.merge (.memory x)).trans (if_neg (hmark x))
  rw [h.name_merge hn hm, h'.name_merge hn hm, if_neg (hmark slot), if_neg (hmark slot)]
  refine compared_congr_of_order n (h.inputs_ne_nil hn) (h'.inputs_ne_nil hn) h.whole h'.whole (fun p => ?_)
    (fun p v => ?_) (fun x y i₁ i₂ j₁ j₂ hi₁ hi₂ hj₁ hj₂ => ?_) slot
  · rw [h.bound_inputs_iff, h'.bound_inputs_iff, hbound]
  · rw [h.agree_iff, h'.agree_iff]
    exact hagreed p v.key
  · obtain ⟨_, henters⟩ := h.enters
    obtain ⟨_, henters'⟩ := h'.enters
    exact horder _ _ n s s' x y i₁ i₂ j₁ j₂ henters henters' ((hname x).trans hi₁) ((hname y).trans hi₂)
      ((hname' x).trans hj₁) ((hname' y).trans hj₂)

theorem before_congr (hname : ∀ m, E.name k' m p = E.name k m q) (hseen : ∀ m, E.Seen k' m ↔ E.Seen k m) (n : Int) :
    E.Bound k' n p = E.Bound k n q ∧ E.Agreed k' n p = E.Agreed k n q := by
  refine ⟨?_, funext fun w => ?_⟩
  · simp only [Bound, hname, hseen]
  · simp only [Agreed, hname, hseen]

/-- What the predecessors of a block bind and agree on settles at all places at once. -/
theorem Computed.settles_before (h : E.Computed k' k n b flows s t) (hn : n ≠ g.entry)
    (hagreed : ∀ slot, Settles fun k => E.Agreed k n (.memory slot)) :
    Settles fun k p => (E.Bound k n p, E.Agreed k n p) := by
  obtain ⟨K, hfixed⟩ := E.exists_cellsFixed
  obtain ⟨slots, _, hfinite, -, hslots⟩ := E.exists_finite_bindings
  obtain ⟨K', hslots⟩ := eventually_atTop.mp hslots
  obtain ⟨e₀, he₀, -, hseen₀⟩ := h.exists_parent hn
  have hknown : ∀ᶠ k in atTop, ∀ q ∈ slots, E.Bound (k + 1) n (.memory q) = E.Bound k n (.memory q) ∧
      E.Agreed (k + 1) n (.memory q) = E.Agreed k n (.memory q) :=
    (eventually_all_finite hfinite).mpr fun q _ => (settles_bound_before E n q).and (hagreed q)
  filter_upwards [eventually_ge_atTop (max K (max K' k)), hknown, E.eventually_seen] with j hj hknown hseen
  funext p
  rcases p.isCell_or_memory with hp | ⟨slot, rfl⟩
  · have hname : ∀ m, E.name (j + 1) m p = E.name j m p := fun m =>
      (hfixed (j + 1) (by omega) m p hp).trans (hfixed j (by omega) m p hp).symm
    have hstill : ∀ m, E.Seen (j + 1) m ↔ E.Seen j m := fun m => ⟨fun hs => (hseen m).mpr ⟨_, hs⟩, Seen.succ⟩
    obtain ⟨hbound, hagreed⟩ := before_congr hname hstill n
    rw [hbound, hagreed]
  · by_cases hslot : Slot.key slot ∈ slots
    · obtain ⟨hbound, hagreed⟩ := hknown _ hslot
      have hkey : ∀ j, E.Bound j n (.memory (Slot.key slot)) = E.Bound j n (.memory slot) ∧
          E.Agreed j n (.memory (Slot.key slot)) = E.Agreed j n (.memory slot) := fun j =>
        before_congr (fun m => name_key j m slot) (fun _ => Iff.rfl) n
      rw [← (hkey j).1, ← (hkey j).2, ← (hkey (j + 1)).1, ← (hkey (j + 1)).2, hbound, hagreed]
    · -- The slot is bound nowhere, least of all in the block that was visited before this one.
      have hunbound : ∀ j' ≥ max K (max K' k), E.name j' e₀.target (.memory slot) = none ∧ E.Seen j' e₀.target := by
        intro j' hj'
        refine ⟨Option.eq_none_iff_forall_ne_some.mpr fun w hw => ?_, hseen₀.mono (by omega)⟩
        exact hslot (hslots j' (by omega) _ _ w hw).1
      have hbound : ∀ j' ≥ max K (max K' k), E.Bound j' n (.memory slot) = False := fun j' hj' =>
        propext (iff_false_intro fun hcon => hcon e₀ he₀ (hunbound j' hj').2 (hunbound j' hj').1)
      have hagreed : ∀ j' ≥ max K (max K' k), E.Agreed j' n (.memory slot) = fun _ => False := by
        intro j' hj'
        refine funext fun w => propext (iff_false_intro fun hcon => ?_)
        cases (hunbound j' hj').1.symm.trans (hcon e₀ he₀ (hunbound j' hj').2)
      rw [hbound j hj, hbound (j + 1) (by omega), hagreed j hj, hagreed (j + 1) (by omega)]

theorem settles_of_stores (hphi : ∀ k i, E.name k n (.memory slot) ≠ some (.phi n i))
    (hagreed : Settles fun k => E.Agreed k n (.memory slot)) : Settles fun k => E.name k n (.memory slot) := by
  obtain ⟨K, hfixed⟩ := E.exists_cellsFixed
  obtain ⟨stored, hstored⟩ := E.exists_stores hfixed n
  refine settles_of_agreed (.memory slot) ((stored.find? slot).map Var.key)
    (n ≠ g.entry ∧ stored.find? slot = none) hphi ?_ hagreed
  filter_upwards [eventually_ge_atTop K]
  rintro k hk rfl w hw
  obtain ⟨s, t, hcomputed⟩ := E.computed_visited k
  exact hstored.name_iff _ _ _ _ s t slot w hk hcomputed fun _ => hw

theorem Computed.settles_slot_merge (h : E.Computed k' k n b flows s t) (hn : n ≠ g.entry) (hm : b.isMerge = true)
    (horder : g.NumbersInOneOrder c) (hagreed : ∀ slot, Settles fun k => E.Agreed k n (.memory slot)) (slot : Slot) :
    Settles fun k => E.name k n (.memory slot) := by
  obtain ⟨K, hK⟩ := settles_iff.mp (h.settles_before hn hagreed)
  refine settles_of_visits K fun k₁ hk₁ k₂ hk₂ hvisited₁ hvisited₂ => ?_
  obtain ⟨flows₁, s₁, t₁, h₁⟩ := h.again hvisited₁
  obtain ⟨flows₂, s₂, t₂, h₂⟩ := h.again hvisited₂
  have hsame : ∀ p, (E.Bound k₁ n p, E.Agreed k₁ n p) = (E.Bound k₂ n p, E.Agreed k₂ n p) :=
    congrFun ((hK k₁ hk₁).trans (hK k₂ hk₂).symm)
  refine h₁.slot_eq_of_agreed h₂ hn hm horder (fun p => ?_) (fun p w => ?_) slot
  · exact iff_of_eq (congrArg Prod.fst (hsame p))
  · exact iff_of_eq (congrFun (congrArg Prod.snd (hsame p)) w)

/-- If slots are numbered in one order, the names in memory settle as well. -/
theorem settles_slot (E : g.Endless c) (horder : g.NumbersInOneOrder c) (n : Int) (slot : Slot) :
    Settles fun k => E.name k n (.memory slot) := by
  refine E.settles_of_before (P := fun p => ∃ slot, p = .memory slot) ?_ ?_ ?_ n ⟨slot, rfl⟩
  · rintro n _ ⟨slot, rfl⟩ hphi hagreed
    exact settles_of_stores hphi (hagreed _ ⟨slot, rfl⟩)
  · rintro k' k n b flows s t h hn hm hagreed _ ⟨slot, rfl⟩
    exact h.settles_slot_merge hn hm horder (fun slot => hagreed _ ⟨slot, rfl⟩) slot
  · rintro w hw n _ ⟨slot, rfl⟩
    exact settles_slot_eq E (fun m i hphi => hw m i hphi _ ⟨slot, rfl⟩) n

/-- What is put together of a name in a slot settles for all blocks and slots at once, if it does for each of the slots
that are bound in the long run. -/
theorem settles_all_slots (E : g.Endless c) {α : Type} (f : Option Var → α) {slots : Set Slot} (hfinite : slots.Finite)
    (hbound : ∀ᶠ k in atTop, ∀ n slot w, E.name k n (.memory slot) = some w → Slot.key slot ∈ slots)
    (h : ∀ n, ∀ slot ∈ slots, Settles fun k => f (E.name k n (.memory slot))) :
    Settles fun k n slot => f (E.name k n (.memory slot)) := by
  have hknown : ∀ᶠ k in atTop, ∀ n ∈ g.order, ∀ slot ∈ slots,
      f (E.name (k + 1) n (.memory slot)) = f (E.name k n (.memory slot)) :=
    (eventually_all_finite g.order.finite_toSet).mpr fun n _ =>
      (eventually_all_finite hfinite).mpr fun slot hslot => h n slot hslot
  obtain ⟨K, hbound⟩ := eventually_atTop.mp hbound
  filter_upwards [eventually_ge_atTop K, hknown] with k hk hknown
  funext n slot
  by_cases hn : n = E.visited k
  · by_cases hslot : Slot.key slot ∈ slots
    · rw [← name_key (k + 1) n slot, ← name_key k n slot]
      exact hknown n (hn ▸ E.visited_mem k) _ hslot
    · have hnone : ∀ k ≥ K, E.name k n (.memory slot) = none := fun k hk =>
        Option.eq_none_iff_forall_ne_some.mpr fun w hw => hslot (hbound k hk n slot w hw)
      rw [hnone k hk, hnone (k + 1) (by omega)]
  · rw [E.name_other hn]

/-- From some time on no block leaves anything else than before. -/
theorem eventually_fixed (E : g.Endless c) (horder : g.NumbersInOneOrder c) :
    ∀ᶠ k in atTop, ∀ n p, E.name (k + 1) n p = E.name k n p := by
  obtain ⟨K, hfixed⟩ := E.exists_cellsFixed
  obtain ⟨slots, _, hfinite, -, hslots⟩ := E.exists_finite_bindings
  have hall := E.settles_all_slots id hfinite (hslots.mono fun k hk n slot w hw => (hk n slot w hw).1)
    fun n slot _ => settles_slot E horder n slot
  filter_upwards [eventually_ge_atTop K, hall] with k hk hall n p
  rcases p.isCell_or_memory with hp | ⟨slot, rfl⟩
  · exact (hfixed (k + 1) (by omega) n p hp).trans (hfixed k hk n p hp).symm
  · exact congrFun (congrFun hall n) slot

/-! ## Slots up to the numbers -/

/-- Whatever the order, a slot settles up to the choice of a new name. -/
theorem settles_unnumbered (E : g.Endless c) :
    Settles fun k n slot => (E.name k n (.memory slot)).map Var.unnumbered := by
  obtain ⟨slots, names, hslotsFinite, hfinite, hbindings⟩ := E.exists_finite_bindings
  refine E.settles_all_slots (Option.map Var.unnumbered) hslotsFinite
    (hbindings.mono fun k hk n slot w hw => (hk n slot w hw).1) fun n slot _ => ?_
  have hnames : ∀ᶠ k in atTop, ∀ w ∈ names, (∀ m i, w ≠ .phi m i) →
      (E.name (k + 1) n (.memory slot) = some w) = (E.name k n (.memory slot) = some w) := by
    refine (eventually_all_finite hfinite).mpr fun w _ => ?_
    by_cases hplain : ∀ m i, w ≠ .phi m i
    · exact (settles_slot_eq E (fun m i hphi => absurd hphi (hplain m i)) n).mono fun k hk _ => hk
    · exact Eventually.of_forall fun k hcon => absurd hcon hplain
  obtain ⟨K, hbindings⟩ := eventually_atTop.mp hbindings
  filter_upwards [eventually_ge_atTop K, hnames, settles_slot_bound E n slot] with k hk hnames hbound
  cases hold : E.name k n (.memory slot) with
  | none =>
    rw [hold] at hbound
    rw [not_not.mp fun hcon => hbound.mp hcon rfl]
  | some w =>
    cases hnew : E.name (k + 1) n (.memory slot) with
    | none =>
      rw [hnew] at hbound
      exact absurd rfl (hbound.mpr (hold ▸ Option.some_ne_none w))
    | some w' =>
      -- A name that no join point makes stands there before if and only if it stands there afterwards.
      by_cases hplain : ∀ m i, w ≠ .phi m i
      · have hstill := (hnames w ((hbindings k hk n slot w hold).2 hplain) hplain).mpr hold
        rw [Option.some.inj (hnew.symm.trans hstill)]
      · by_cases hplain' : ∀ m i, w' ≠ .phi m i
        · have hmem := (hbindings (k + 1) (by omega) n slot w' hnew).2 hplain'
          have hbefore := (hnames w' hmem hplain').mp hnew
          rw [Option.some.inj (hold.symm.trans hbefore)]
        · obtain ⟨m, i, rfl⟩ : ∃ m i, w = .phi m i := by simpa using hplain
          obtain ⟨m', i', rfl⟩ : ∃ m' i', w' = .phi m' i' := by simpa using hplain'
          rfl

end Graph.Endless
end Backslice
