import Backslice.Proofs.Placewise
import Backslice.Proofs.Visit
import Mathlib.Data.List.Forall2

/-! # Joins of equal states

States are equal if they have the same names at the same places; in which order they list the slots of memory does not
count. A join point numbers its new names in that order, though. If equal states come in, equal names go out on the
stack, in the locals, in the globals, and in the slots on which the states agree. The whole states that go out are
equal exactly if the contested slots are listed in the same order both times. -/

namespace Backslice

set_option autoImplicit false

namespace State

variable {states states' others : List State} {first : State} {p q : Place}

/-! ## Numbers of contested places -/

theorem Differ.of_key_eq (h : Differ states p) (hkey : p.key = q.key) : Differ states q := by
  refine ⟨fun s hs => ?_, fun v hv => h.2 v fun s hs => ?_⟩
  · rw [← s.nameAt_of_key_eq hkey]
    exact h.1 s hs
  · rw [s.nameAt_of_key_eq hkey]
    exact hv s hs

theorem exists_contested (h : Differ (first :: others) p) :
    ∃ (k : Nat) (q : Place), (contested (first :: others))[k]? = some q ∧ q.key = p.key := by
  obtain ⟨v, hv⟩ := h.1 first List.mem_cons_self
  obtain ⟨q, hq, hkey⟩ := exists_mem_places hv
  obtain ⟨k, hk⟩ := List.mem_iff_getElem?.mp (mem_contested.mpr ⟨hq, h.of_key_eq hkey.symm⟩)
  exact ⟨k, q, hk, hkey⟩

theorem rank_inj {block : Int} {j k : Nat}
    (h : some (Var.phi block (j + 1 : Nat)) = some (.phi block (k + 1 : Nat))) : j = k := by
  simp only [Option.some.injEq, Var.phi.injEq, true_and] at h
  omega

namespace Placewise

variable {block : Int} {t : State}

/-- A contested place has the number of its rank. -/
theorem nameAt_eq_phi_iff (ht : Placewise block first others t) (hp : Differ (first :: others) p) (k : Nat) :
    t.nameAt p = some (.phi block (k + 1 : Nat)) ↔ ((contested (first :: others)).map Place.key)[k]? = some p.key := by
  rw [List.getElem?_map, Option.map_eq_some_iff]
  constructor
  · intro h
    obtain ⟨j, q, hj, hkey⟩ := exists_contested hp
    rw [← t.nameAt_of_key_eq hkey, ht.numbered j q hj] at h
    obtain rfl := rank_inj h
    exact ⟨q, hj, hkey⟩
  · rintro ⟨q, hk, hkey⟩
    rw [← t.nameAt_of_key_eq hkey]
    exact ht.numbered k q hk

theorem exists_phi (ht : Placewise block first others t) (hp : Differ (first :: others) p) :
    ∃ k : Nat, t.nameAt p = some (.phi block (k + 1 : Nat)) := by
  obtain ⟨k, q, hk, hkey⟩ := exists_contested hp
  exact ⟨k, by rw [← t.nameAt_of_key_eq hkey, ht.numbered k q hk]⟩

end Placewise

theorem mem_keys_contested {x : Place} :
    x ∈ (contested (first :: others)).map Place.key ↔ ∃ q, Differ (first :: others) q ∧ q.key = x := by
  constructor
  · intro h
    obtain ⟨q, hq, rfl⟩ := List.mem_map.mp h
    exact ⟨q, (mem_contested.mp hq).2, rfl⟩
  · rintro ⟨p, hp, rfl⟩
    obtain ⟨k, q, hk, hkey⟩ := exists_contested hp
    exact List.mem_map.mpr ⟨q, List.mem_of_getElem? hk, hkey⟩

namespace Placewise

variable {block : Int} {first' t t' : State} {others' : List State}

theorem nodup_contested (ht : Placewise block first others t) :
    ((contested (first :: others)).map Place.key).Nodup := by
  refine List.nodup_iff_getElem?_ne_getElem?.mpr fun i j hij hj heq => ?_
  obtain ⟨q, hq, hkey⟩ := mem_keys_contested.mp (List.getElem_mem hj)
  have hrank := (List.getElem?_eq_getElem hj).trans (congrArg some hkey.symm)
  have hj' := (ht.nameAt_eq_phi_iff hq j).mpr hrank
  have hi' := (ht.nameAt_eq_phi_iff hq i).mpr (heq.trans hrank)
  exact Nat.ne_of_lt hij (rank_inj (hi'.symm.trans hj'))

variable (ht : Placewise block first others t) (ht' : Placewise block first' others' t')
include ht ht'

theorem contested_perm (hdiffer : ∀ p, Differ (first :: others) p ↔ Differ (first' :: others') p) :
    ((contested (first :: others)).map Place.key).Perm ((contested (first' :: others')).map Place.key) := by
  refine (List.perm_ext_iff_of_nodup ht.nodup_contested ht'.nodup_contested).mpr fun x => ?_
  rw [mem_keys_contested, mem_keys_contested]
  exact exists_congr fun q => and_congr_left fun _ => hdiffer q

theorem getElem?_contested (hdiffer : ∀ p, Differ (first :: others) p → Differ (first' :: others') p)
    (hsame : ∀ p, Differ (first :: others) p → (t.nameAt p).map Var.key = (t'.nameAt p).map Var.key) {k : Nat}
    {x : Place} (hx : ((contested (first :: others)).map Place.key)[k]? = some x) :
    ((contested (first' :: others')).map Place.key)[k]? = some x := by
  obtain ⟨q, hq, rfl⟩ := mem_keys_contested.mp (List.mem_of_getElem? hx)
  obtain ⟨k', hk'⟩ := ht'.exists_phi (hdiffer q hq)
  have hkeys := hsame q hq
  rw [(ht.nameAt_eq_phi_iff hq k).mpr hx, hk'] at hkeys
  obtain rfl : k = k' := rank_inj hkeys
  exact (ht'.nameAt_eq_phi_iff (hdiffer q hq) k).mp hk'

/-- Contested places have the same new names exactly if they come in the same order. -/
theorem contested_eq_iff (hdiffer : ∀ p, Differ (first :: others) p ↔ Differ (first' :: others') p) :
    (contested (first :: others)).map Place.key = (contested (first' :: others')).map Place.key ↔
      ∀ p, Differ (first :: others) p → (t.nameAt p).map Var.key = (t'.nameAt p).map Var.key := by
  constructor
  · intro heq p hp
    obtain ⟨k, hk⟩ := ht.exists_phi hp
    have hrank := (ht.nameAt_eq_phi_iff hp k).mp hk
    rw [hk, (ht'.nameAt_eq_phi_iff ((hdiffer p).mp hp) k).mpr (heq ▸ hrank)]
  · intro hsame
    refine List.ext_getElem? fun k => Option.ext fun x => ⟨?_, ?_⟩
    · exact ht.getElem?_contested ht' (fun p => (hdiffer p).mp) hsame
    · exact ht'.getElem?_contested ht (fun p => (hdiffer p).mpr) fun p hp => (hsame p ((hdiffer p).mpr hp)).symm

end Placewise

/-! ## Lists of equal states -/

theorem forall_mem_congr {P : State → Prop} (hP : ∀ s t, (s == t) = true → P s → P t)
    (h : List.Forall₂ (fun s t => (s == t) = true) states states') : (∀ s ∈ states, P s) ↔ ∀ s ∈ states', P s := by
  induction h with
  | nil => simp
  | cons hst _ ih =>
    rw [List.forall_mem_cons, List.forall_mem_cons, ih]
    exact and_congr_left fun _ => ⟨hP _ _ hst, hP _ _ (BEq.symm hst)⟩

variable (h : List.Forall₂ (fun s t => (s == t) = true) states states')
include h

theorem bound_congr (p : Place) :
    (∀ s ∈ states, ∃ w, s.nameAt p = some w) ↔ ∀ s ∈ states', ∃ w, s.nameAt p = some w :=
  forall_mem_congr (fun _ _ hst ⟨_, hw⟩ => (nameAt_of_beq hst hw).imp fun _ hx => hx.1) h

theorem agree_congr (p : Place) (v : Var) : Agree states p v ↔ Agree states' p v :=
  forall_mem_congr (fun _ _ hst ⟨_, hw, hwv⟩ => (nameAt_of_beq hst hw).imp fun _ hx => ⟨hx.1, hx.2.trans hwv⟩) h

theorem differ_congr (p : Place) : Differ states p ↔ Differ states' p :=
  and_congr (bound_congr h p) (forall_congr' fun v => not_congr (agree_congr h p v))

theorem whole_congr : (∀ s ∈ states, s.Whole) ↔ ∀ s ∈ states', s.Whole :=
  forall_mem_congr (fun _ _ hst => whole_of_beq (BEq.symm hst)) h

theorem shape_congr {first' : State} (hfirst : (first == first') = true) :
    (∀ s ∈ states, s.partLength = first.partLength) ↔ ∀ s ∈ states', s.partLength = first'.partLength := by
  rw [← partLength_of_beq hfirst]
  exact forall_mem_congr (fun _ _ hst hs => (partLength_of_beq hst).symm.trans hs) h

theorem requireShape_congr {first' : State} (block : Int) (hfirst : (first == first') = true) :
    states.forM (requireShape block first) = states'.forM (requireShape block first') := by
  induction h with
  | nil => rfl
  | @cons s s' rest rest' hs _ ih =>
    have hone : requireShape block first s = requireShape block first' s' := by
      rw [requireShape, requireShape, partLength_of_beq hfirst, partLength_of_beq hs]
    show (requireShape block first s >>= fun _ => rest.forM (requireShape block first)) =
      requireShape block first' s' >>= fun _ => rest'.forM (requireShape block first')
    rw [hone, ih]

end State

namespace Graph

variable {g : Graph} {index : Int} {b : Block} {states states' : List State} {t t' : State}

/-- Equal states lead to equal names, on which they agree or which are numbered outside memory. -/
theorem compared_congr_of_beq (index : Int) (hne : states ≠ []) (hne' : states' ≠ [])
    (h : List.Forall₂ (fun s t => (s == t) = true) states states') (hwhole : ∀ s ∈ states, s.Whole) {p : Place}
    (hp : p.IsCell ∨ ¬ State.Differ states p) :
    ((compared index states).nameAt p).map Var.key = ((compared index states').nameAt p).map Var.key := by
  have hwhole' := (State.whole_congr h).mp hwhole
  rcases hp with hcell | hagree
  · exact compared_congr index hne hne' hwhole hwhole' (fun p _ => State.bound_congr h p)
      (fun p v _ => State.agree_congr h p v) hcell
  · exact compared_congr_of_number index hne hne' hwhole hwhole' (State.bound_congr h p) (State.agree_congr h p)
      fun hdiffer => absurd hdiffer hagree

theorem nameAt_merge_known (hb : b.isMerge = true) (hne : states ≠ []) (hwhole : ∀ s ∈ states, s.Whole)
    (ht : g.merge index b (states.map .known) = .ok (.known t)) (p : Place) :
    t.nameAt p = if g.exit = index ∧ p = .stack 0 then ((compared index states).nameAt p).map fun _ => .returned
      else (compared index states).nameAt p := by
  have hin := Flow.filterMap_known states
  have hname := nameAt_merge hb (hin.symm ▸ hne) (hin.symm ▸ hwhole) ht p
  rwa [hin] at hname

theorem nameAt_merge_memory (hb : b.isMerge = true) (hne : states ≠ []) (hwhole : ∀ s ∈ states, s.Whole)
    (ht : g.merge index b (states.map .known) = .ok (.known t)) (slot : Slot) :
    t.nameAt (.memory slot) = (compared index states).nameAt (.memory slot) := by
  rw [nameAt_merge_known hb hne hwhole ht, if_neg (by simp)]

/-- The mark at the exit keeps equal names equal. -/
theorem merge_known_congr (hb : b.isMerge = true) (hne : states ≠ []) (hne' : states' ≠ [])
    (hwhole : ∀ s ∈ states, s.Whole) (hwhole' : ∀ s ∈ states', s.Whole)
    (ht : g.merge index b (states.map .known) = .ok (.known t))
    (ht' : g.merge index b (states'.map .known) = .ok (.known t')) {p : Place}
    (hp : ((compared index states).nameAt p).map Var.key = ((compared index states').nameAt p).map Var.key) :
    (t.nameAt p).map Var.key = (t'.nameAt p).map Var.key := by
  rw [nameAt_merge_known hb hne hwhole ht, nameAt_merge_known hb hne' hwhole' ht']
  split
  · cases hc : (compared index states).nameAt p <;> cases hc' : (compared index states').nameAt p <;> simp_all
  · exact hp

/-- If equal states come in at a join point, it refuses both lists, or equal names go out except in the contested slots
of memory. These have new names both times, and the same ones exactly if they are listed in the same order. -/
theorem merge_equal_states (g : Graph) (index : Int) (hb : b.isMerge = true)
    (h : List.Forall₂ (fun s t => (s == t) = true) states states') (hwhole : ∀ s ∈ states, s.Whole) :
    (∃ e, g.merge index b (states.map .known) = .error e ∧ g.merge index b (states'.map .known) = .error e) ∨
    ∃ t t', g.merge index b (states.map .known) = .ok (.known t) ∧
      g.merge index b (states'.map .known) = .ok (.known t') ∧
      (∀ p, p.IsCell ∨ ¬ State.Differ states p → (t.nameAt p).map Var.key = (t'.nameAt p).map Var.key) ∧
      (∀ slot, State.Differ states (.memory slot) →
        ∃ n n' : Nat, t.nameAt (.memory slot) = some (.phi index n) ∧ t'.nameAt (.memory slot) = some (.phi index n')) ∧
      ((State.contested states).map Place.key).Perm ((State.contested states').map Place.key) ∧
      ((t == t') = true ↔ (State.contested states).map Place.key = (State.contested states').map Place.key) := by
  have hwhole' := (State.whole_congr h).mp hwhole
  have hdiffer := State.differ_congr h
  match states, states', h with
  | [], [], _ =>
    refine Or.inr ⟨_, _, merge_nil .., merge_nil .., fun _ _ => rfl, fun slot hslot => ?_, .refl _, ?_⟩
    · exact absurd (fun s hs => by cases hs) (hslot.2 .hole)
    · exact iff_of_true BEq.rfl rfl
  | first :: others, first' :: others', h =>
    obtain ⟨hfirst, hothers⟩ := List.forall₂_cons.mp h
    have hin := Flow.filterMap_known (first :: others)
    have hin' := Flow.filterMap_known (first' :: others')
    by_cases hshape : ∀ s ∈ others, s.partLength = first.partLength
    · have hshape' := (State.shape_congr hothers hfirst).mp hshape
      have hplace := State.Placewise.of_compared index hshape hwhole
      have hplace' := State.Placewise.of_compared index hshape' hwhole'
      have ht := merge_eq_compared g index hb hin hshape hwhole
      have ht' := merge_eq_compared g index hb hin' hshape' hwhole'
      have hsame : ∀ p : Place, p.IsCell ∨ ¬ State.Differ (first :: others) p → _ :=
        fun p hp => compared_congr_of_beq index (by simp) (by simp) h hwhole hp
      have hmark := fun p => merge_known_congr (p := p) hb (by simp) (by simp) hwhole hwhole' ht ht'
      have hmemory := nameAt_merge_memory hb (by simp) hwhole ht
      have hmemory' := nameAt_merge_memory hb (by simp) hwhole' ht'
      refine Or.inr ⟨_, _, ht, ht', fun p hp => hmark p (hsame p hp), fun slot hslot => ?_, ?_, ?_⟩
      · obtain ⟨k, hk⟩ := hplace.exists_phi hslot
        obtain ⟨k', hk'⟩ := hplace'.exists_phi ((hdiffer _).mp hslot)
        exact ⟨k + 1, k' + 1, (hmemory slot).trans hk, (hmemory' slot).trans hk'⟩
      · exact hplace.contested_perm hplace' hdiffer
      · -- Outside memory the names are equal in any case, and in memory the mark at the exit changes nothing.
        rw [State.beq_iff_nameAt, hplace.contested_eq_iff hplace' hdiffer]
        constructor
        · intro hequal p hp
          cases p with
          | memory slot => rw [← hmemory, ← hmemory', hequal]
          | _ => exact hsame _ (Or.inl trivial)
        · intro hequal p
          by_cases hp : State.Differ (first :: others) p
          · exact hmark p (hequal p hp)
          · exact hmark p (hsame p (Or.inr hp))
    · obtain ⟨e, he⟩ := exists_refused index hshape
      have he' := (State.requireShape_congr hothers index hfirst).symm.trans he
      exact Or.inl ⟨e, merge_of_refused hb hin he, merge_of_refused hb hin' he'⟩

/-- The same names as behind the other arm, with the slots listed the other way round. -/
def rightArmReversed : State :=
  { rightArm with memory := .ofList rightArm.memory.entries.reverse }

theorem merge_equal_states_fork : ∃ t t',
    fork.merge 2 { body := .merge } [.known leftArm, .known rightArm] = .ok (.known t) ∧
    fork.merge 2 { body := .merge } [.known leftArm, .known rightArmReversed] = .ok (.known t') ∧ (t == t') = true := by
  have hleft : leftArm.Whole := State.whole_of_names (by decide)
  have hright : rightArm.Whole := State.whole_of_names (by decide)
  have hequal : List.Forall₂ (fun s t => (s == t) = true) [leftArm, rightArm] [leftArm, rightArmReversed] :=
    .cons (by decide) (.cons (by decide) .nil)
  rcases merge_equal_states (b := { body := .merge }) fork 2 rfl hequal (by simpa using ⟨hleft, hright⟩) with
    ⟨e, he, -⟩ | ⟨t, t', ht, ht', -, -, -, hiff⟩
  · cases he
  · exact ⟨t, t', ht, ht', hiff.mpr (by decide)⟩

/-- With the arms the other way round the order counts: the slots 0 and 4 swap their new names. -/
theorem equal_states_join_apart : (rightArm == rightArmReversed) = true ∧
    rightArm.Whole ∧ rightArmReversed.Whole ∧ leftArm.Whole ∧ ∃ t t',
      fork.merge 2 { body := .merge } [.known rightArm, .known leftArm] = .ok (.known t) ∧
      fork.merge 2 { body := .merge } [.known rightArmReversed, .known leftArm] = .ok (.known t') ∧
      (t == t') = false := by
  refine ⟨by decide, State.whole_of_names (by decide), State.whole_of_names (by decide),
    State.whole_of_names (by decide), _, _, rfl, rfl, ?_⟩
  decide

end Graph
end Backslice
