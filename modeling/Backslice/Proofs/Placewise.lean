import Backslice.Proofs.Numbering

/-! # Joined states, place by place

A join point compares the states in front of it one after the other and numbers the places that have been left without a
name. What comes out can be said without the comparison. The places of the first state are listed in the order of stack,
locals, globals and memory. A place where all states agree keeps its name, a slot that some state does not bind is
forgotten, and the rest of the list, the contested places, get the new names with the numbers one, two and so on. -/

namespace Backslice

set_option autoImplicit false

theorem exists_of_getElem?_filter {α : Type} {P : α → Bool} {l : List α} {k : Nat} {a : α}
    (h : (l.filter P)[k]? = some a) : ∃ j : Nat, l[j]? = some a ∧ (l.take j).countP P = k := by
  induction l generalizing k with
  | nil => simp at h
  | cons b rest ih =>
    by_cases hb : P b = true
    · rw [List.filter_cons_of_pos hb] at h
      cases k with
      | zero => exact ⟨0, by simpa using h, rfl⟩
      | succ k =>
        obtain ⟨j, hj, hcount⟩ := ih h
        exact ⟨j + 1, hj, by simp [hb, hcount]⟩
    · rw [List.filter_cons_of_neg hb] at h
      obtain ⟨j, hj, hcount⟩ := ih h
      exact ⟨j + 1, hj, by simp [hb, hcount]⟩

namespace State

/-! ## The places of a state -/

/-- The places in the order in which new names are numbered. -/
def places (s : State) : List Place :=
  (List.range s.stack.length).map .stack ++ ((List.range s.locals.length).map .locals ++
    ((List.range s.globals.length).map .globals ++ s.memory.keys.map .memory))

/-- The names at the places. -/
def names (s : State) : List Var := s.stack ++ (s.locals ++ (s.globals ++ s.memory.values))

theorem map_nameAt_places (s : State) : s.places.map s.nameAt = s.names.map some := by
  have hlist : ∀ l : List Var, ((List.range l.length).map fun k => l[k]?) = l.map some := by
    intro l
    refine List.ext_getElem (by simp) fun k hk _ => ?_
    simp
  have hstack := hlist s.stack
  have hlocals := hlist s.locals
  have hglobals := hlist s.globals
  have hmemory := s.memory.map_find?_keys
  simp only [places, names, List.map_append, List.map_map, Function.comp_def, nameAt, hstack, hlocals, hglobals, hmemory]

theorem exists_nameAt_of_mem_places {s : State} {p : Place} (h : p ∈ s.places) : ∃ v, s.nameAt p = some v := by
  have hmem : s.nameAt p ∈ s.names.map some := s.map_nameAt_places ▸ List.mem_map_of_mem h
  obtain ⟨v, -, hv⟩ := List.mem_map.mp hmem
  exact ⟨v, hv.symm⟩

theorem exists_mem_places {s : State} {p : Place} {v : Var} (h : s.nameAt p = some v) :
    ∃ q ∈ s.places, q.key = p.key := by
  cases p with
  | stack k =>
    have hk : k < s.stack.length := (List.getElem?_eq_some_iff.mp h).1
    exact ⟨.stack k, by simp [places, hk], rfl⟩
  | locals k =>
    have hk : k < s.locals.length := (List.getElem?_eq_some_iff.mp h).1
    exact ⟨.locals k, by simp [places, hk], rfl⟩
  | globals k =>
    have hk : k < s.globals.length := (List.getElem?_eq_some_iff.mp h).1
    exact ⟨.globals k, by simp [places, hk], rfl⟩
  | memory slot =>
    obtain ⟨slot', hmem, hslot⟩ := Table.exists_mem_of_find? h
    refine ⟨.memory slot', ?_, congrArg Place.memory ((Slot.beq_iff _ _).mp hslot)⟩
    have hkey : slot' ∈ s.memory.keys := List.mem_map.mpr ⟨_, hmem, rfl⟩
    simp [places, hkey]

theorem whole_of_names {s : State} (h : ∀ v ∈ s.names, v ≠ .hole) : s.Whole := by
  intro p hp
  obtain ⟨q, hq, hkey⟩ := exists_mem_places hp
  have hmem : s.nameAt q ∈ s.names.map some := s.map_nameAt_places ▸ List.mem_map_of_mem hq
  obtain ⟨v, hv, hvq⟩ := List.mem_map.mp hmem
  rw [s.nameAt_of_key_eq hkey, hp, Option.some.injEq] at hvq
  exact h v hv hvq

/-- The number of a place counts the places in front of it that wait for a name. -/
theorem number_of_getElem? {s : State} {j : Nat} {p : Place} (h : s.places[j]? = some p) :
    s.number p = 1 + holes (s.names.take j) := by
  have hcount : holes (s.names.take j) = holes (s.stack.take j) + (holes (s.locals.take (j - s.stack.length)) +
      (holes (s.globals.take (j - s.stack.length - s.locals.length)) +
        holes (s.memory.values.take (j - s.stack.length - s.locals.length - s.globals.length)))) := by
    simp only [names, holes, List.take_append, List.countP_append]
  have hnone : ∀ (l : List Var) {k : Nat}, k = 0 → holes (l.take k) = 0 := by
    rintro l k rfl
    rfl
  have hall : ∀ (l : List Var) {k : Nat}, l.length ≤ k → holes (l.take k) = holes l := by
    intro l k hk
    rw [List.take_of_length_le hk]
  have hrange : ∀ {n i : Nat} {f : Nat → Place}, ((List.range n).map f)[i]? = some p → f i = p := by
    intro n i f hi
    rw [List.getElem?_map] at hi
    obtain ⟨m, hm, rfl⟩ := Option.map_eq_some_iff.mp hi
    obtain ⟨hlt, rfl⟩ := List.getElem?_eq_some_iff.mp hm
    rw [List.getElem_range]
  rw [hcount]
  simp only [places, List.getElem?_append, List.length_map, List.length_range] at h
  -- One case for each part that the place may stand in: the parts in front of it count in full, those behind it not.
  split at h
  · obtain rfl := hrange h
    rw [hnone s.locals (by omega), hnone s.globals (by omega), hnone s.memory.values (by omega)]
    rfl
  split at h
  · obtain rfl := hrange h
    rw [hall s.stack (by omega), hnone s.globals (by omega), hnone s.memory.values (by omega)]
    simp only [number]
    omega
  split at h
  · obtain rfl := hrange h
    rw [hall s.stack (by omega), hall s.locals (by omega), hnone s.memory.values (by omega)]
    simp only [number]
    omega
  · rw [List.getElem?_map] at h
    obtain ⟨slot, hslot, rfl⟩ := Option.map_eq_some_iff.mp h
    rw [hall s.stack (by omega), hall s.locals (by omega), hall s.globals (by omega)]
    simp only [number, Table.position_of_getElem? hslot]
    omega

/-- The places that wait for a name, listed in order, have the numbers one, two and so on. -/
theorem number_of_getElem?_filter {s : State} {k : Nat} {p : Place}
    (h : (s.places.filter fun q => s.nameAt q == some .hole)[k]? = some p) : s.number p = k + 1 := by
  obtain ⟨j, hj, hcount⟩ := exists_of_getElem?_filter h
  have hholes : holes (s.names.take j) = k :=
    calc holes (s.names.take j) = ((s.names.map some).take j).countP (· == some .hole) := by
          rw [← List.map_take, List.countP_map]
          rfl
      _ = (s.places.take j).countP fun q => s.nameAt q == some .hole := by
          rw [← map_nameAt_places, ← List.map_take, List.countP_map]
          rfl
      _ = k := hcount
  rw [number_of_getElem? hj, hholes, Nat.add_comm]

theorem places_congr {s t : State} (hshape : s.partLength = t.partLength) (hkeys : s.memory.keys = t.memory.keys) :
    s.places = t.places := by
  rw [places, places, length_stack_of_shape hshape, length_locals_of_shape hshape, length_globals_of_shape hshape, hkeys]

theorem ext_places {s t : State} (hshape : s.partLength = t.partLength) (hkeys : s.memory.keys = t.memory.keys)
    (h : ∀ p ∈ s.places, s.nameAt p = t.nameAt p) : s = t := by
  have hnames : s.names = t.names := by
    refine List.map_injective_iff.mpr (fun _ _ => Option.some.inj) ?_
    rw [← map_nameAt_places, ← map_nameAt_places, ← places_congr hshape hkeys]
    exact List.map_congr_left h
  obtain ⟨hs, hnames⟩ := List.append_inj hnames (length_stack_of_shape hshape)
  obtain ⟨hl, hnames⟩ := List.append_inj hnames (length_locals_of_shape hshape)
  obtain ⟨hg, hvalues⟩ := List.append_inj hnames (length_globals_of_shape hshape)
  have hmemory := Table.ext_values hkeys hvalues
  cases s
  cases t
  simp_all only

/-! ## Contested places -/

/-- All states have a name at the place. -/
def shared (states : List State) (p : Place) : Bool := states.all fun s => (s.nameAt p).isSome

/-- The places where all states have a name, but not the same, in the order in which the first lists them. -/
def contested : List State → List Place
  | [] => []
  | first :: others =>
    first.places.filter fun p => shared others p && others.any fun s => s.nameAt p != first.nameAt p

variable {first : State} {others : List State} {p : Place}

theorem shared_iff {states : List State} : shared states p = true ↔ ∀ s ∈ states, ∃ v, s.nameAt p = some v := by
  simp only [shared, List.all_eq_true, Option.isSome_iff_exists]

theorem nameAt_beq_some {s : State} {v : Var} :
    (s.nameAt p == some v) = true ↔ ∃ w, s.nameAt p = some w ∧ w.key = v.key := by
  cases s.nameAt p <;> simp [Var.beq_iff]

theorem nameAt_beq_hole {s : State} : (s.nameAt p == some .hole) = true ↔ s.nameAt p = some .hole := by
  cases s.nameAt p <;> simp [Var.beq_hole]

theorem agree_others {v w : Var} (hv : first.nameAt p = some v) (h : Agree (first :: others) p w) :
    Agree others p v := by
  obtain ⟨⟨v', hv', hvw⟩, hothers⟩ := List.forall_mem_cons.mp h
  obtain rfl : v = v' := Option.some.inj (hv.symm.trans hv')
  exact fun s hs => (hothers s hs).imp fun x hx => ⟨hx.1, hx.2.trans hvw.symm⟩

theorem differ_iff {v : Var} (hv : first.nameAt p = some v) : Differ (first :: others) p ↔
    (shared others p && others.any fun s => s.nameAt p != first.nameAt p) = true := by
  have hagree : (∀ s ∈ others, (s.nameAt p == first.nameAt p) = true) ↔ Agree others p v := by
    rw [hv]
    exact forall₂_congr fun _ _ => nameAt_beq_some
  rw [Bool.and_eq_true, shared_iff]
  constructor
  · rintro ⟨hbound, hnone⟩
    refine ⟨fun s hs => hbound s (List.mem_cons_of_mem _ hs), ?_⟩
    by_contra hany
    refine hnone v (List.forall_mem_cons.mpr ⟨⟨v, hv, rfl⟩, hagree.mp fun s hs => ?_⟩)
    by_contra hne
    exact hany (List.any_eq_true.mpr ⟨s, hs, by simp [bne, hne]⟩)
  · rintro ⟨hbound, hany⟩
    refine ⟨List.forall_mem_cons.mpr ⟨⟨v, hv⟩, hbound⟩, fun w hw => ?_⟩
    obtain ⟨s, hs, hne⟩ := List.any_eq_true.mp hany
    have heq := hagree.mpr (agree_others hv hw) s hs
    simp [bne, heq] at hne

theorem keys_meet (s t : State) : (s.meet t).memory.keys = s.memory.keys.filter t.memory.contains := by
  refine Table.keys_filterMap s.memory _ _ fun k v => ?_
  rw [Option.isSome_map, Table.contains_eq_isSome_find?]

theorem keys_foldl_meet (first : State) (others : List State) : (others.foldl meet first).memory.keys =
    first.memory.keys.filter fun k => others.all fun s => s.memory.contains k := by
  induction others generalizing first with
  | nil => exact (List.filter_true _).symm
  | cons s rest ih =>
    rw [List.foldl_cons, ih, keys_meet, List.filter_filter]
    simp only [List.all_cons, Bool.and_comm]

theorem keys_plugAll (block : Int) (s : State) : (s.plugAll block).memory.keys = s.memory.keys := by
  refine Table.keys_withValues s.memory ?_
  rw [length_plug, Table.values, List.length_map, Table.size]

/-- The comparison keeps the places that all states have. -/
theorem places_foldl_meet (hshape : ∀ s ∈ others, s.partLength = first.partLength) :
    (others.foldl meet first).places = first.places.filter (shared others) := by
  have hmet := partLength_foldl_meet hshape
  have hcell : ∀ {n : Nat} {f : Nat → Place}, (∀ k < n, ∀ s ∈ others, ∃ v, s.nameAt (f k) = some v) →
      ((List.range n).map f).filter (shared others) = (List.range n).map f := by
    intro n f hf
    refine List.filter_eq_self.mpr fun q hq => ?_
    obtain ⟨k, hk, rfl⟩ := List.mem_map.mp hq
    exact shared_iff.mpr (hf k (List.mem_range.mp hk))
  have hstack : ∀ k < first.stack.length, ∀ s ∈ others, ∃ v, s.nameAt (.stack k) = some v :=
    fun k hk s hs => ⟨_, List.getElem?_eq_getElem (length_stack_of_shape (hshape s hs) ▸ hk)⟩
  have hlocals : ∀ k < first.locals.length, ∀ s ∈ others, ∃ v, s.nameAt (.locals k) = some v :=
    fun k hk s hs => ⟨_, List.getElem?_eq_getElem (length_locals_of_shape (hshape s hs) ▸ hk)⟩
  have hglobals : ∀ k < first.globals.length, ∀ s ∈ others, ∃ v, s.nameAt (.globals k) = some v :=
    fun k hk s hs => ⟨_, List.getElem?_eq_getElem (length_globals_of_shape (hshape s hs) ▸ hk)⟩
  have hmemory : (first.memory.keys.map Place.memory).filter (shared others) =
      (others.foldl meet first).memory.keys.map .memory := by
    rw [keys_foldl_meet, List.filter_map]
    simp only [Table.contains_eq_isSome_find?]
    rfl
  rw [places, places, length_stack_of_shape hmet, length_locals_of_shape hmet, length_globals_of_shape hmet]
  rw [List.filter_append, List.filter_append, List.filter_append, hcell hstack, hcell hlocals, hcell hglobals, hmemory]

/-- The comparison leaves the contested places without a name. -/
theorem contested_eq (hshape : ∀ s ∈ others, s.partLength = first.partLength)
    (hwhole : ∀ s ∈ first :: others, s.Whole) : contested (first :: others) =
      (others.foldl meet first).places.filter fun p => (others.foldl meet first).nameAt p == some .hole := by
  rw [places_foldl_meet hshape, List.filter_filter, contested]
  refine List.filter_congr fun p hp => ?_
  obtain ⟨v, hv⟩ := exists_nameAt_of_mem_places hp
  rw [Bool.eq_iff_iff, ← differ_iff hv, Bool.and_eq_true, nameAt_beq_hole, nameAt_foldl_meet_hole hwhole, shared_iff]
  exact (and_iff_left_of_imp fun hdiffer s hs => hdiffer.1 s (List.mem_cons_of_mem _ hs)).symm

theorem mem_contested : p ∈ contested (first :: others) ↔ p ∈ first.places ∧ Differ (first :: others) p := by
  rw [contested, List.mem_filter]
  refine and_congr_right fun hp => ?_
  obtain ⟨v, hv⟩ := exists_nameAt_of_mem_places hp
  exact (differ_iff hv).symm

/-! ## The state behind a join point -/

/-- The state that a join point makes of the known states in front of it, place by place: the shape of all, the slots
that all of them bind in the order of the first, the names on which they agree, and new names at the contested places. -/
structure Placewise (block : Int) (first : State) (others : List State) (t : State) : Prop where
  shape : t.partLength = first.partLength
  keys : t.memory.keys = first.memory.keys.filter fun k => others.all fun s => s.memory.contains k
  agreed : ∀ p v, first.nameAt p = some v → Agree others p v → t.nameAt p = some v
  numbered : ∀ k p, (contested (first :: others))[k]? = some p → t.nameAt p = some (.phi block (k + 1 : Nat))

namespace Placewise

variable {block : Int} {t u : State}

theorem of_compared (block : Int) (hshape : ∀ s ∈ others, s.partLength = first.partLength)
    (hwhole : ∀ s ∈ first :: others, s.Whole) :
    Placewise block first others (Graph.compared block (first :: others)) where
  shape := (partLength_plugAll block _).trans (partLength_foldl_meet hshape)
  keys := (keys_plugAll block _).trans (keys_foldl_meet first others)
  agreed p v hv hagree := by
    have hhole : ¬ (v == .hole) = true :=
      fun hcon => hwhole first List.mem_cons_self p (hv.trans (congrArg some (Var.beq_hole.mp hcon)))
    rw [Graph.compared, nameAt_plugAll, nameAt_foldl_meet_of_agree hv hagree, Option.map_some, if_neg hhole]
  numbered k p hk := by
    rw [contested_eq hshape hwhole] at hk
    have hmem := List.mem_of_getElem? hk
    have hhole := nameAt_beq_hole.mp (List.mem_filter.mp hmem).2
    rw [Graph.compared, nameAt_plugAll, hhole, number_of_getElem?_filter hk]
    rfl

/-- The description leaves no choice. -/
theorem unique (hshape : ∀ s ∈ others, s.partLength = first.partLength) (ht : Placewise block first others t)
    (hu : Placewise block first others u) : t = u := by
  have hplaces : t.places = first.places.filter (shared others) :=
    calc t.places = (others.foldl meet first).places :=
          places_congr (ht.shape.trans (partLength_foldl_meet hshape).symm)
            (ht.keys.trans (keys_foldl_meet first others).symm)
      _ = first.places.filter (shared others) := places_foldl_meet hshape
  refine ext_places (ht.shape.trans hu.shape.symm) (ht.keys.trans hu.keys.symm) fun p hp => ?_
  rw [hplaces, List.mem_filter, shared_iff] at hp
  obtain ⟨v, hv⟩ := exists_nameAt_of_mem_places hp.1
  rcases agree_or_differ (List.forall_mem_cons.mpr ⟨⟨v, hv⟩, hp.2⟩) with ⟨w, hw⟩ | hdiffer
  · have hagree := agree_others hv hw
    rw [ht.agreed p v hv hagree, hu.agreed p v hv hagree]
  · obtain ⟨k, hk⟩ := List.mem_iff_getElem?.mp (mem_contested.mpr ⟨hp.1, hdiffer⟩)
    rw [ht.numbered k p hk, hu.numbered k p hk]

/-- States that are equal become the first of them. -/
theorem of_beq (block : Int) (h : ∀ s ∈ others, (first == s) = true) : Placewise block first others first where
  shape := rfl
  keys := by
    refine (List.filter_eq_self.mpr fun k hk => List.all_eq_true.mpr fun s hs => ?_).symm
    obtain ⟨v, hv⟩ := exists_nameAt_of_mem_places (s := first) (p := .memory k) (by simp [places, hk])
    exact Table.contains_iff_find?.mpr ((nameAt_of_beq (h s hs) hv).imp fun w hw => hw.1)
  agreed _ _ hv _ := hv
  numbered k p hk := by
    obtain ⟨hp, hdiffer⟩ := mem_contested.mp (List.mem_of_getElem? hk)
    obtain ⟨v, hv⟩ := exists_nameAt_of_mem_places hp
    refine absurd (List.forall_mem_cons.mpr ⟨⟨v, hv, rfl⟩, fun s hs => ?_⟩) (hdiffer.2 v)
    exact nameAt_of_beq (h s hs) hv

end Placewise

theorem requireShape_eq_error {block : Int} {s t : State} {e : Fault} (h : requireShape block s t = .error e) :
    ∃ part, s.partLength part ≠ t.partLength part ∧ e = .shape part block (s.partLength part) (t.partLength part) := by
  obtain ⟨part, -, hpart⟩ := forM_eq_error h
  split at hpart
  · cases hpart
  · rename_i hne
    exact ⟨part, hne, (Except.error.inj hpart).symm⟩

end State

namespace Graph

variable {g : Graph} {index : Int} {b : Block} {flows : List Flow} {first : State} {others : List State}

theorem merge_eq_compared (g : Graph) (index : Int) (hb : b.isMerge = true)
    (hin : flows.filterMap Flow.state? = first :: others) (hshape : ∀ s ∈ others, s.partLength = first.partLength)
    (hwhole : ∀ s ∈ first :: others, s.Whole) :
    g.merge index b flows = .ok (.known (if g.exit = index then (compared index (first :: others)).markTop
      else compared index (first :: others))) := by
  cases others with
  | nil =>
    have hfirst := (State.Placewise.of_compared index hshape hwhole).unique hshape (.of_beq index (by simp))
    rw [merge_one hb hin, hfirst]
  | cons second rest =>
    rw [merge_many hb hin, State.joinAll_eq_ok.mpr ⟨hshape, rfl⟩]
    rfl

theorem merge_of_refused (hb : b.isMerge = true) (hin : flows.filterMap Flow.state? = first :: others) {e : Fault}
    (h : others.forM (State.requireShape index first) = .error e) : g.merge index b flows = .error e := by
  cases others with
  | nil => cases h
  | cons second rest =>
    rw [merge_many hb hin, State.joinAll, h]
    rfl

theorem exists_refused (index : Int) (h : ¬ ∀ s ∈ others, s.partLength = first.partLength) :
    ∃ e, others.forM (State.requireShape index first) = .error e := by
  cases hforM : others.forM (State.requireShape index first) with
  | ok u => exact absurd (fun s hs => State.requireShape_eq_ok.mp (forM_eq_ok.mp hforM s hs)) h
  | error e => exact ⟨e, rfl⟩

/-- Behind a join point stands the state that the states in front of it describe place by place, with the result of the
function on top of its stack at the exit. States that differ in the length of a part are refused, and equal ones
become the first of them. -/
theorem merge_placewise (g : Graph) (index : Int) (hb : b.isMerge = true)
    (hin : flows.filterMap Flow.state? = first :: others) :
    ((∀ s ∈ others, s.partLength = first.partLength) → (∀ s ∈ first :: others, s.Whole) →
      ∃ t, State.Placewise index first others t ∧ (∀ u, State.Placewise index first others u → u = t) ∧
        g.merge index b flows = .ok (.known (if g.exit = index then t.markTop else t))) ∧
    ((∃ s ∈ first :: others, ∃ s' ∈ first :: others, s.partLength ≠ s'.partLength) →
      ∃ part, ∃ s ∈ others, first.partLength part ≠ s.partLength part ∧
        g.merge index b flows = .error (.shape part index (first.partLength part) (s.partLength part))) ∧
    (first.Whole → (∀ s ∈ others, (first == s) = true) → g.exit ≠ index → g.merge index b flows = .ok (.known first)) := by
  refine ⟨fun hshape hwhole => ?_, ?_, fun hfirst hequal hexit => ?_⟩
  · have hcompared := State.Placewise.of_compared index hshape hwhole
    exact ⟨_, hcompared, fun u hu => hu.unique hshape hcompared, merge_eq_compared g index hb hin hshape hwhole⟩
  · rintro ⟨s, hs, s', hs', hne⟩
    obtain ⟨e, he⟩ : ∃ e, others.forM (State.requireShape index first) = .error e := by
      refine exists_refused index fun hshape => hne ?_
      have hall : ∀ x ∈ first :: others, x.partLength = first.partLength := List.forall_mem_cons.mpr ⟨rfl, hshape⟩
      exact (hall s hs).trans (hall s' hs').symm
    obtain ⟨u, hu, hue⟩ := forM_eq_error he
    obtain ⟨part, hpart, rfl⟩ := State.requireShape_eq_error hue
    exact ⟨part, u, hu, hpart, merge_of_refused hb hin he⟩
  · have hshape : ∀ s ∈ others, s.partLength = first.partLength :=
      fun s hs => (State.partLength_of_beq (hequal s hs)).symm
    have hwhole : ∀ s ∈ first :: others, s.Whole :=
      List.forall_mem_cons.mpr ⟨hfirst, fun s hs => State.whole_of_beq (BEq.symm (hequal s hs)) hfirst⟩
    have hmerged := (State.Placewise.of_compared index hshape hwhole).unique hshape (.of_beq index hequal)
    rw [merge_eq_compared g index hb hin hshape hwhole, if_neg hexit, hmerged]

/-! ## An example -/

/-- What is known behind one arm of a branch. -/
def leftArm : State where
  stack := [.pushed (.code 1), .pushed (.code 0)]
  locals := [.entryLocal 0]
  memory := .ofList [((.entryLocal 0, 0), .pushed (.code 1)), ((.entryLocal 0, 4), .pushed (.code 2)),
    ((.entryLocal 0, 8), .pushed (.code 0)), ((.entryLocal 0, 12), .pushed (.code 3))]

/-- What is known behind the other arm. -/
def rightArm : State where
  stack := [.pushed (.code 4), .pushed (.code 0)]
  locals := [.pushed (.code 5)]
  memory := .ofList [((.entryLocal 0, 8), .pushed (.code 0)), ((.entryLocal 0, 4), .pushed (.code 6)),
    ((.entryLocal 0, 0), .pushed (.code 6))]

/-- A function whose arms meet at its exit. -/
def fork : Graph := .ofArrows {} [(3, { body := .merge })] [] 0 3 "fork" 0

theorem merge_placewise_fork :
    (∃ t, State.Placewise 3 leftArm [rightArm] t ∧ (∀ u, State.Placewise 3 leftArm [rightArm] u → u = t) ∧
      fork.merge 3 { body := .merge } [.known leftArm, .bottom, .known rightArm] = .ok (.known t.markTop)) ∧
    (∃ part, ∃ s ∈ [rightArm, {}], leftArm.partLength part ≠ s.partLength part ∧
      fork.merge 2 { body := .merge } [.known leftArm, .known rightArm, .known {}] =
        .error (.shape part 2 (leftArm.partLength part) (s.partLength part))) ∧
    fork.merge 2 { body := .merge } [.known leftArm, .known leftArm, .known leftArm] = .ok (.known leftArm) := by
  have hleft : leftArm.Whole := State.whole_of_names (by decide)
  have hright : rightArm.Whole := State.whole_of_names (by decide)
  have hshape : rightArm.partLength = leftArm.partLength := State.partLength_ext rfl rfl rfl
  refine ⟨?_, ?_, ?_⟩
  · exact (merge_placewise fork 3 rfl rfl).1 (by simpa using hshape) (by simpa using ⟨hleft, hright⟩)
  · exact (merge_placewise fork 2 rfl rfl).2.1 ⟨leftArm, by simp, {}, by simp, fun h => by cases congrFun h .locals⟩
  · exact (merge_placewise fork 2 rfl rfl).2.2 hleft (by decide) (by decide)

example : fork.merge 2 { body := .merge } [.known leftArm, .bottom, .known rightArm] = .ok (.known {
    stack := [.phi 2 1, .pushed (.code 0)]
    locals := [.phi 2 2]
    memory := .ofList [((.entryLocal 0, 0), .phi 2 3), ((.entryLocal 0, 4), .phi 2 4),
      ((.entryLocal 0, 8), .pushed (.code 0))] }) := by decide

end Graph
end Backslice
