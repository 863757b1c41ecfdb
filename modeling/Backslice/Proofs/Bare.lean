import Backslice.Proofs.Action
import Backslice.Proofs.Annotated
import Backslice.Proofs.Fixpoint
import Backslice.Proofs.Graph.Acyclic

/-! # The analysis without propagation

If no name is propagated every value has one name, and a name stands at one place of the stack, the locals and the
globals only. In a graph without cycles a join point keeps a name exactly if all states in front of it have it there. -/

namespace Backslice

set_option autoImplicit false

/-! ## Names -/

/-- Names that are told apart by how they are written. -/
def Var.isPlain : Var → Bool
  | pushed _ | entryLocal _ | entryGlobal _ | phi _ _ | returned => true
  | constant _ | cell _ _ | hole => false

theorem Var.eq_of_key_eq {v w : Var} (hv : v.isPlain = true) (h : w.key = v.key) : w = v := by
  cases v <;> cases w <;> simp_all [Var.key, Var.isPlain]

theorem Var.ne_hole_of_isPlain {v : Var} (hv : v.isPlain = true) : v ≠ .hole := by
  rintro rfl
  cases hv

theorem Var.not_isConstant_of_isPlain {v : Var} (hv : v.isPlain = true) : v.isConstant = false := by
  cases v <;> simp_all [Var.isPlain, Var.isConstant]

theorem Slot.beq_iff_of_isPlain {a k : Slot} (ha : a.1.isPlain = true) : (a == k) = true ↔ k = a := by
  rw [Slot.beq_iff]
  constructor
  · intro h
    obtain ⟨hkey, hoffset⟩ := Prod.mk.inj h
    exact Prod.ext (Var.eq_of_key_eq ha hkey.symm) hoffset.symm
  · rintro rfl
    rfl

/-! ## Places -/

namespace Action

variable {a : Action} {x v : Var} {s t : State}

/-- The place that gets the value which the action makes. -/
def dest? : Action → Option Place
  | put _ _ .stack => some (.stack 0)
  | put _ _ (.locals n) => some (.locals n)
  | put _ _ (.globals n) => some (.globals n)
  | _ => none

/-- Where the value at a place comes from if the action has not put it there. -/
def source : Action → Place → Place
  | put d _ .stack, .stack k => .stack (d + (k - 1))
  | put d _ _, .stack k => .stack (d + k)
  | store _, .stack k => .stack (k + 2)
  | _, p => p

theorem source_stack (a : Action) (k : Nat) : ∃ j, a.source (.stack k) = .stack j := by
  cases a with
  | put d m dest => cases dest <;> exact ⟨_, rfl⟩
  | store offset => exact ⟨_, rfl⟩

theorem isCell_source {p : Place} (hp : p.IsCell) : (a.source p).IsCell := by
  cases p with
  | stack k =>
    obtain ⟨j, hj⟩ := a.source_stack k
    rw [hj]
    trivial
  | memory k => cases hp
  | _ => cases a with
    | put d m dest => cases dest <;> trivial
    | store offset => trivial

/-- The values that an action leaves come from different places. -/
theorem source_inj {p q : Place} (hp : a.dest? ≠ some p) (hq : a.dest? ≠ some q) (h : a.source p = a.source q) :
    p = q := by
  cases a with
  | put d m dest => cases dest with
    | stack =>
      cases p <;> cases q <;> simp_all [source, dest?]
      omega
    | _ => cases p <;> cases q <;> simp_all [source]
  | store offset => cases p <;> cases q <;> simp_all [source]

theorem trim_stack {d m k : Nat} (h : (s.trim d m).stack[k]? = some v) : s.stack[d + k]? = some v := by
  simp only [State.trim, List.getElem?_take, List.getElem?_drop] at h
  split at h
  · exact h
  · cases h

theorem set_cases {l : List Var} {n k : Nat} (h : (l.set n x)[k]? = some v) :
    (n = k ∧ v = x) ∨ (n ≠ k ∧ l[k]? = some v) := by
  rw [List.getElem?_set] at h
  split at h
  · rename_i hnk
    split at h
    · exact Or.inl ⟨hnk, (Option.some.inj h).symm⟩
    · cases h
  · rename_i hnk
    exact Or.inr ⟨hnk, h⟩

theorem Leads.put_cell {d m : Nat} {dest : Dest} {p : Place} (hp : p.IsCell)
    (hv : ((s.trim d m).put x dest).nameAt p = some v) :
    ((Action.put d m dest).dest? = some p ∧ v = x) ∨
      ((Action.put d m dest).dest? ≠ some p ∧ s.nameAt ((Action.put d m dest).source p) = some v) := by
  cases p with
  | memory k => cases hp
  | stack k => cases dest with
    | stack => cases k with
      | zero => exact Or.inl ⟨rfl, (Option.some.inj hv).symm⟩
      | succ k => exact Or.inr ⟨by simp [dest?], trim_stack hv⟩
    | _ => exact Or.inr ⟨by simp [dest?], trim_stack hv⟩
  | locals k => cases dest with
    | locals n =>
      rcases set_cases hv with ⟨rfl, rfl⟩ | ⟨hne, hold⟩
      · exact Or.inl ⟨rfl, rfl⟩
      · exact Or.inr ⟨by simpa [dest?] using hne, hold⟩
    | _ => exact Or.inr ⟨by simp [dest?], hv⟩
  | globals k => cases dest with
    | globals n =>
      rcases set_cases hv with ⟨rfl, rfl⟩ | ⟨hne, hold⟩
      · exact Or.inl ⟨rfl, rfl⟩
      · exact Or.inr ⟨by simpa [dest?] using hne, hold⟩
    | _ => exact Or.inr ⟨by simp [dest?], hv⟩

/-- What stands at a place after an action was put there by it, or comes from one place before. -/
theorem Leads.cell (h : a.Leads x s t) {p : Place} (hp : p.IsCell) (hv : t.nameAt p = some v) :
    (a.dest? = some p ∧ v = x) ∨ (a.dest? ≠ some p ∧ s.nameAt (a.source p) = some v) := by
  cases h with
  | put _ => exact put_cell hp hv
  | @store offset value address rest hs => cases p with
    | memory k => cases hp
    | stack k => exact Or.inr ⟨by simp [dest?], by simpa [State.nameAt, source, hs] using hv⟩
    | _ => exact Or.inr ⟨by simp [dest?], hv⟩

theorem Leads.memory (h : a.Leads x s t) : t.memory = s.memory ∨ ∃ offset value address rest,
    a = .store offset ∧ s.stack = value :: address :: rest ∧ t.stack = rest ∧
      t.memory = s.memory.insert (address, offset) value := by
  cases h with
  | @put d m dest _ => cases dest <;> exact Or.inl rfl
  | @store offset value address rest hs => exact Or.inr ⟨offset, value, address, rest, rfl, hs, rfl, rfl⟩

theorem Leads.mem_stack (h : a.Leads x s t) (hv : v ∈ t.stack) : v = x ∨ v ∈ s.stack := by
  obtain ⟨k, hk⟩ := List.mem_iff_getElem?.mp hv
  rcases h.cell (p := .stack k) trivial hk with ⟨-, hx⟩ | ⟨-, hold⟩
  · exact Or.inl hx
  · obtain ⟨j, hj⟩ := a.source_stack k
    rw [hj] at hold
    exact Or.inr (List.mem_of_getElem? hold)

end Action

/-! ## Clean states -/

namespace State

variable {s t u : State}

/-- All names are plain, no two places of the stack, the locals and the globals have the same, and no address of a
memory slot is on the stack. -/
structure Clean (s : State) : Prop where
  plain : ∀ p v, s.nameAt p = some v → v.isPlain = true
  slots : ∀ k v, s.nameAt (.memory k) = some v → k.1.isPlain = true ∧ k.1 ∉ s.stack
  apart : ∀ p q v, p.IsCell → q.IsCell → s.nameAt p = some v → s.nameAt q = some v → p = q

theorem mentions_address {k : Slot} {v : Var} (h : s.nameAt (.memory k) = some v) : s.Mentions k.1 :=
  mentions_iff.mpr (Or.inr ⟨k, v, h, rfl⟩)

/-- What a store leaves in memory. -/
theorem find?_store {k a : Slot} {v value : Var} (ha : a.1.isPlain = true)
    (h : (s.memory.insert a value).find? k = some v) :
    (k = a ∧ v = value) ∨ (k ≠ a ∧ s.memory.find? k = some v) := by
  rw [Table.find?_insert] at h
  split at h
  · rename_i hk
    exact Or.inl ⟨(Slot.beq_iff_of_isPlain ha).mp hk, (Option.some.inj h).symm⟩
  · rename_i hk
    exact Or.inr ⟨fun hcon => hk ((Slot.beq_iff_of_isPlain ha).mpr hcon), h⟩

theorem Clean.act {a : Action} {x : Var} (hs : s.Clean) (h : a.Leads x s t) (hx : x.isPlain = true)
    (hfresh : ¬ s.Mentions x) : t.Clean := by
  have hcell : ∀ {p v}, p.IsCell → t.nameAt p = some v → v.isPlain = true := by
    intro p v hp hv
    rcases h.cell hp hv with ⟨-, rfl⟩ | ⟨-, hold⟩
    · exact hx
    · exact hs.plain _ v hold
  have hslots : ∀ k v, t.nameAt (.memory k) = some v →
      v.isPlain = true ∧ k.1.isPlain = true ∧ k.1 ∉ t.stack := by
    intro k v hv
    change t.memory.find? k = some v at hv
    rcases h.memory with hmem | ⟨offset, value, address, rest, -, hstack, hrest, hmem⟩
    · rw [hmem] at hv
      obtain ⟨hplain, hoff⟩ := hs.slots k v hv
      refine ⟨hs.plain (.memory k) v hv, hplain, fun hcon => ?_⟩
      rcases h.mem_stack hcon with hkx | hold
      · exact hfresh (hkx ▸ mentions_address hv)
      · exact hoff hold
    · rw [hmem] at hv
      have haddress : s.nameAt (.stack 1) = some address := by simp [nameAt, hstack]
      have haplain := hs.plain _ _ haddress
      rcases find?_store haplain hv with ⟨rfl, rfl⟩ | ⟨-, hold⟩
      · refine ⟨hs.plain (.stack 0) v (by simp [nameAt, hstack]), haplain, fun hcon => ?_⟩
        rw [hrest] at hcon
        obtain ⟨j, hj⟩ := List.mem_iff_getElem?.mp hcon
        have hj' : s.nameAt (.stack (j + 2)) = some address := by simpa [nameAt, hstack] using hj
        cases hs.apart (.stack 1) (.stack (j + 2)) address trivial trivial haddress hj'
      · obtain ⟨hplain, hoff⟩ := hs.slots k v hold
        refine ⟨hs.plain (.memory k) v hold, hplain, fun hcon => hoff ?_⟩
        rw [hstack]
        exact List.mem_cons_of_mem _ (List.mem_cons_of_mem _ (hrest ▸ hcon))
  refine ⟨fun p v hv => ?_, fun k v hv => (hslots k v hv).2, fun p q v hp hq hpv hqv => ?_⟩
  · cases p with
    | memory k => exact (hslots k v hv).1
    | stack k => exact hcell (p := .stack k) trivial hv
    | locals k => exact hcell (p := .locals k) trivial hv
    | globals k => exact hcell (p := .globals k) trivial hv
  · rcases h.cell hp hpv with ⟨hp', rfl⟩ | ⟨hp', hpv'⟩
    · rcases h.cell hq hqv with ⟨hq', -⟩ | ⟨-, hqv'⟩
      · exact Option.some.inj (hp'.symm.trans hq')
      · exact absurd (mentions_of_nameAt hqv') hfresh
    · rcases h.cell hq hqv with ⟨-, rfl⟩ | ⟨hq', hqv'⟩
      · exact absurd (mentions_of_nameAt hpv') hfresh
      · exact Action.source_inj hp' hq'
          (hs.apart _ _ v (Action.isCell_source hp) (Action.isCell_source hq) hpv' hqv')

theorem Clean.nameAt_eq (ht : t.Clean) (h : (s == t) = true) (p : Place) : s.nameAt p = t.nameAt p := by
  have hkeys := beq_iff_nameAt.mp h p
  cases hv : t.nameAt p with
  | none =>
    rw [hv] at hkeys
    exact Option.map_eq_none_iff.mp hkeys
  | some v =>
    rw [hv] at hkeys
    obtain ⟨w, hw, hwv⟩ := Option.map_eq_some_iff.mp hkeys
    rw [hw, Var.eq_of_key_eq (ht.plain p v hv) hwv]

theorem stack_eq_of_nameAt (h : ∀ p, s.nameAt p = t.nameAt p) : s.stack = t.stack :=
  List.ext_getElem? fun k => h (.stack k)

theorem Clean.of_beq (ht : t.Clean) (h : (s == t) = true) : s.Clean := by
  have hname := ht.nameAt_eq h
  refine ⟨fun p v hv => ?_, fun k v hv => ?_, fun p q v hp hq hpv hqv => ?_⟩
  · exact ht.plain p v (hname p ▸ hv)
  · rw [stack_eq_of_nameAt hname]
    exact ht.slots k v (hname (.memory k) ▸ hv)
  · exact ht.apart p q v hp hq (hname p ▸ hpv) (hname q ▸ hqv)

/-- A name behind a join point was made there, or stands at the same place in every clean state in front of it. -/
theorem Joined.kept_clean {born : Var → Prop} {inputs : List State} (h : Joined born inputs t) {p : Place} {v : Var}
    (hv : t.nameAt p = some v) : born v ∨ ∀ u ∈ inputs, u.Clean → u.nameAt p = some v := by
  refine (h.kept p v hv).imp id fun hall u hu hclean => ?_
  obtain ⟨w, hw, hwv⟩ := hall u hu
  rw [hw, ← Var.eq_of_key_eq (hclean.plain p w hw) hwv.symm]

theorem Place.key_of_isCell {p : Place} (hp : p.IsCell) : p.key = p := by
  cases p with
  | memory k => cases hp
  | _ => rfl

theorem Clean.join {born : Var → Prop} {inputs : List State} (h : Joined born inputs t)
    (hborn : ∀ v, born v → v.isPlain = true) (hu : u ∈ inputs) (hclean : u.Clean)
    (hfresh : ∃ w ∈ inputs, ∀ v, born v → ¬ w.Mentions v) : t.Clean := by
  obtain ⟨w, hw, hfresh⟩ := hfresh
  refine ⟨fun p v hv => ?_, fun k v hv => ?_, fun p q v hp hq hpv hqv => ?_⟩
  · rcases h.kept_clean hv with hnew | hold
    · exact hborn v hnew
    · exact hclean.plain p v (hold u hu hclean)
  · obtain ⟨x, hx⟩ := h.bound _ _ hv u hu
    obtain ⟨hplain, hoff⟩ := hclean.slots k x hx
    refine ⟨hplain, fun hcon => ?_⟩
    obtain ⟨j, hj⟩ := List.mem_iff_getElem?.mp hcon
    rcases h.kept_clean (p := .stack j) hj with hnew | hold
    · obtain ⟨y, hy⟩ := h.bound _ _ hv w hw
      exact hfresh _ hnew (mentions_address hy)
    · exact hoff (List.mem_of_getElem? (hold u hu hclean))
  · rcases h.kept_clean hpv with hnew | hold
    · rcases h.distinct p q v hpv hqv hnew with heq | hall
      · rwa [Place.key_of_isCell hp, Place.key_of_isCell hq] at heq
      · exact absurd (hall w hw) (hfresh v hnew)
    · rcases h.kept_clean hqv with hnew | hold'
      · have hpw := h.distinct p q v hpv hqv hnew
        rcases hpw with heq | hall
        · rwa [Place.key_of_isCell hp, Place.key_of_isCell hq] at heq
        · exact absurd (hall w hw) (hfresh v hnew)
      · exact hclean.apart p q v hp hq (hold u hu hclean) (hold' u hu hclean)

theorem nameAt_entry {locals globals : Nat} {p : Place} {v : Var} (hv : (entry locals globals).nameAt p = some v) :
    ∃ k : Nat, (p = .locals k ∧ v = .entryLocal k) ∨ (p = .globals k ∧ v = .entryGlobal k) := by
  have hrange : ∀ {n k : Nat} {f : Nat → Var}, ((List.range n).map f)[k]? = some v → v = f k := by
    intro n k f hv
    rw [List.getElem?_map, Option.map_eq_some_iff] at hv
    obtain ⟨j, hj, rfl⟩ := hv
    obtain ⟨_, hkj⟩ := List.getElem?_eq_some_iff.mp hj
    rw [← hkj, List.getElem_range]
  cases p with
  | stack k => cases hv
  | locals k => exact ⟨k, Or.inl ⟨rfl, hrange hv⟩⟩
  | globals k => exact ⟨k, Or.inr ⟨rfl, hrange hv⟩⟩
  | memory k => cases hv

theorem clean_entry (locals globals : Nat) : (entry locals globals).Clean := by
  refine ⟨fun p v hv => ?_, fun k v hv => (by cases hv), fun p q v _ _ hp hq => ?_⟩
  · obtain ⟨k, ⟨-, rfl⟩ | ⟨-, rfl⟩⟩ := nameAt_entry hv <;> rfl
  · obtain ⟨k, ⟨rfl, rfl⟩ | ⟨rfl, rfl⟩⟩ := nameAt_entry hp
    · obtain ⟨j, ⟨rfl, hj⟩ | ⟨-, hj⟩⟩ := nameAt_entry hq
      · rw [Int.ofNat.inj (Var.entryLocal.inj hj)]
      · cases hj
    · obtain ⟨j, ⟨-, hj⟩ | ⟨rfl, hj⟩⟩ := nameAt_entry hq
      · cases hj
      · rw [Int.ofNat.inj (Var.entryGlobal.inj hj)]

/-! ## Joins of clean states -/

/-- The state `s` keeps what all states of `F` have at a place and has a name that is `born` here at every other place
that they bind. At a `marked` place stands the result of the function. -/
structure Joins (born : Var → Prop) (marked : Place → Prop) (F : State → Prop) (s : State) : Prop where
  inhabited : ∃ u, F u
  shape : ∀ u, F u → u.partLength = s.partLength
  bound : ∀ p v, s.nameAt p = some v → ∀ u, F u → ∃ w, u.nameAt p = some w
  total : ∀ p, (∀ u, F u → ∃ w, u.nameAt p = some w) → ∃ v, s.nameAt p = some v
  kept : ∀ p v, s.nameAt p = some v → born v ∨ ∀ u, F u → u.nameAt p = some v
  agreed : ∀ p v, ¬ marked p → (∀ u, F u → u.nameAt p = some v) → s.nameAt p = some v
  marks : ∀ p v, marked p → s.nameAt p = some v → v = .returned
  distinct : ∀ p q v, born v → s.nameAt p = some v → s.nameAt q = some v → p = q
  fresh : ∀ u v, F u → born v → ¬ u.Mentions v

/-- One state, which nothing is joined to. -/
theorem Joins.alone (s : State) : Joins (fun _ => False) (fun _ => False) (· = s) s where
  inhabited := ⟨s, rfl⟩
  shape _ hu := hu ▸ rfl
  bound _ v hv _ hu := ⟨v, hu ▸ hv⟩
  total _ h := h s rfl
  kept _ _ hv := Or.inr fun _ hu => hu ▸ hv
  agreed _ _ _ h := h s rfl
  marks _ _ h := h.elim
  distinct _ _ _ h := h.elim
  fresh _ _ _ h := h.elim

end State

namespace Graph

variable {g : Graph} {r : Run} {index : Int} {b : Block} {inputs : List State} {s t : State}
  {notes : List (Label × Note)}

theorem isPlain_of_bornAt {v : Var} (h : g.BornAt index v) : v.isPlain = true := by
  rcases h with ⟨n, rfl⟩ | ⟨-, rfl⟩ <;> rfl

/-- All states of a solution without propagation are clean. -/
theorem Solved.clean (h : g.Solved .bare r) (hfits : ∀ i ∈ g.instrs, i.Fits g.signature)
    (hs : g.Reached .bare r s) : s.Clean := by
  refine h.invariant State.Clean (State.clean_entry _ _) (fun s t hst ht => ht.of_beq hst) ?_ ?_ s hs
  · intro i u w hi hnote heffect hu
    obtain ⟨u', w', hnote', -, hfresh, -, -⟩ := h.instr hi
    cases hnote.symm.trans hnote'
    exact hu.act (heffect.leads (hfits i hi)) rfl hfresh
  · intro index b inputs s t notes hb hset u hu hclean
    cases hset.starts with
    | entry => cases hu
    | join hne hjoined _ =>
      refine State.Clean.join hjoined (fun v hv => isPlain_of_bornAt hv.2) hu hclean ?_
      obtain ⟨w, hw, hfresh⟩ := h.exists_fresh_input hb hset hne
      exact ⟨w, hw, fun v hv => hfresh v hv.2⟩

/-- A name of a join point is met there, or in blocks that come after it. -/
theorem Solved.before_of_mentions {c : Config} (h : g.Solved c r) (hb : g.blocks.find? index = some b)
    (hset : g.Settled c r index b inputs s t notes) {is : List Instr} {n : List (Label × Note)} {u : State}
    (hsteps : Steps g.signature c is s n u) (his : is ⊆ b.instrs) {v : Var} {w : Int} (hu : u.Mentions v)
    (hv : g.BornAt w v) : w = index ∨ g.Before w index := by
  obtain ⟨p, hp⟩ := h.connected.reachable index (hasBlock_iff.mpr ⟨b, hb⟩)
  by_contra hnot
  obtain ⟨hne, hbefore⟩ := not_or.mp hnot
  have hw : w ∉ p ++ [index] := by
    intro hcon
    rcases List.mem_append.mp hcon with hcon | hcon
    · exact hbefore (before_of_path hp hcon)
    · exact hne (List.mem_singleton.mp hcon)
  refine not_passed_of_bornAt hw hv ?_
  rw [trace_append hb, sites_eq, ← List.append_assoc]
  refine (((h.covers_path hp hb hset).1.run hsteps) v hu).mono (List.append_subset.mpr ⟨List.subset_append_left .., ?_⟩)
  exact List.Subset.trans (List.map_subset _ his) (List.subset_append_right ..)

/-! ## Exact solutions -/

/-- The state is what a predecessor of the block leaves. -/
def Feeds (g : Graph) (r : Run) (index : Int) (u : State) : Prop := ∃ e ∈ g.predecessors index, r.Exits e.target u

/-- A solution without propagation of a graph without cycles, with the equations of its join points. -/
structure Exact (g : Graph) (r : Run) : Prop where
  solved : g.Solved .bare r
  fits : ∀ i ∈ g.instrs, i.Fits g.signature
  acyclic : g.Acyclic
  merged : ∀ index b, g.blocks.find? index = some b → b.isMerge = true → ∃ inputs t,
    List.Forall₂ (fun u e => ∃ t', r.Exits e.target t' ∧ (u == t') = true) inputs (g.predecessors index) ∧
      g.merge index b (inputs.map .known) = .ok (.known t) ∧ r.Exits index t

theorem exact_of_converged (hg : g.Connected) (hl : g.DistinctLabels) (hfits : ∀ i ∈ g.instrs, i.Fits g.signature)
    (hacyclic : g.Acyclic) {limit : Nat} (hr : g.solve .bare limit = .ok r) (hconv : r.converged = true) :
    g.Exact r where
  solved := solved_of_converged hg hl hr hconv
  fits := hfits
  acyclic := hacyclic
  merged index b hb hm := by
    obtain ⟨inputs, v, hrec, hinputs⟩ := (Run.Sound.of_solve hg hl hr).recorded_of_converged hg hconv hb
    obtain ⟨t, ht, hnote⟩ := hrec.joined hm
    exact ⟨inputs, t, hinputs, ht, _, hnote, rfl⟩

namespace Exact

theorem exits_clean (h : g.Exact r) (hb : g.blocks.find? index = some b) (ht : r.Exits index t) : t.Clean := by
  obtain ⟨inputs, s, t', notes, hset⟩ := h.solved.settled index b hb
  obtain rfl := hset.exits.unique ht
  exact h.solved.clean h.fits (hset.reached_exit hb)

theorem block_of_predecessor (h : g.Exact r) {e : Edge} (he : e ∈ g.predecessors index) :
    ∃ b, g.blocks.find? e.target = some b := by
  have hedge := (h.solved.connected.inverse e.target index e.cond).mpr he
  exact hasBlock_iff.mp (h.solved.connected.ends _ _ hedge).1

theorem feeds_clean (h : g.Exact r) (hu : g.Feeds r index t) : t.Clean := by
  obtain ⟨e, he, ht⟩ := hu
  obtain ⟨b, hb⟩ := h.block_of_predecessor he
  exact h.exits_clean hb ht

/-- What is in front of a block has been there on the last visit, place by place. -/
theorem nameAt_inputs (h : g.Exact r)
    (hinputs : List.Forall₂ (fun u e => ∃ t', r.Exits e.target t' ∧ (u == t') = true) inputs (g.predecessors index)) :
    (∀ u ∈ inputs, ∃ t', g.Feeds r index t' ∧ u.partLength = t'.partLength ∧ ∀ p, u.nameAt p = t'.nameAt p) ∧
      ∀ t', g.Feeds r index t' → ∃ u ∈ inputs, u.partLength = t'.partLength ∧ ∀ p, u.nameAt p = t'.nameAt p := by
  constructor
  · intro u hu
    obtain ⟨e, he, t', ht', hut⟩ := exists_of_forall₂ hinputs hu
    have hfeeds : g.Feeds r index t' := ⟨e, he, ht'⟩
    exact ⟨t', hfeeds, State.partLength_of_beq hut, (h.feeds_clean hfeeds).nameAt_eq hut⟩
  · rintro t' ⟨e, he, ht'⟩
    obtain ⟨u, hu, t'', ht'', hut⟩ := exists_of_forall₂ hinputs.flip he
    obtain rfl := ht''.unique ht'
    exact ⟨u, hu, State.partLength_of_beq hut, (h.feeds_clean ⟨e, he, ht''⟩).nameAt_eq hut⟩

/-- No block after a join point leads back to it, so the states in front of it have none of its names. -/
theorem feeds_fresh (h : g.Exact r) {u : State} {v : Var} (hu : g.Feeds r index u) (hv : g.BornAt index v) :
    ¬ u.Mentions v := by
  obtain ⟨e, he, hexits⟩ := hu
  obtain ⟨bₑ, hbₑ⟩ := h.block_of_predecessor he
  obtain ⟨inputs, s, t, notes, hset⟩ := h.solved.settled e.target bₑ hbₑ
  obtain rfl := hset.exits.unique hexits
  intro hmentions
  have hbefore := h.solved.connected.before_of_predecessor he
  rcases h.solved.before_of_mentions hbₑ hset hset.runs (List.Subset.refl _) hmentions hv with heq | hback
  · exact h.acyclic index (heq ▸ hbefore)
  · exact h.acyclic index (hback.trans hbefore)

theorem place_eq_of_key_eq (hs : s.Clean) {p q : Place} {v w : Var} (hp : s.nameAt p = some v)
    (hq : s.nameAt q = some w) (h : p.key = q.key) : p = q := by
  cases p <;> cases q <;> simp only [Place.key, Place.memory.injEq, reduceCtorEq] at h
  case memory.memory k l =>
    obtain ⟨haddress, hoffset⟩ := Prod.mk.inj h
    exact congrArg Place.memory (Prod.ext (Var.eq_of_key_eq (hs.slots l w hq).1 haddress) hoffset)
  all_goals exact h

/-- Behind a join point stands what the equation of the join says, elsewhere what the one predecessor leaves. -/
theorem faithful (h : g.Exact r) (hb : g.blocks.find? index = some b)
    (hset : g.Settled .bare r index b inputs s t notes) (hone : b.isMerge = false → inputs = [s])
    (hfeeds : ∃ u, g.Feeds r index u) : ∃ inputs',
      (∀ u ∈ inputs', ∃ t', g.Feeds r index t' ∧ ∀ p, u.nameAt p = t'.nameAt p) ∧
      State.Faithful (fun p => b.isMerge = true ∧ index = g.exit ∧ p = .stack 0) inputs' s := by
  cases hm : b.isMerge with
  | false =>
    refine ⟨[s], fun u hu => ?_, by simpa using State.Faithful.single s⟩
    obtain ⟨t', ht', -, hname⟩ := (h.nameAt_inputs hset.inputs).1 u (hone hm ▸ hu)
    exact ⟨t', ht', hname⟩
  | true =>
    obtain ⟨inputs', t', hinputs', hmerge, ht'⟩ := h.merged index b hb hm
    obtain rfl : t' = s := ht'.unique (hset.exit_eq_start hm ▸ hset.exits)
    obtain ⟨hforth, hback⟩ := h.nameAt_inputs hinputs'
    have hne : (inputs'.map Flow.known).filterMap Flow.state? ≠ [] := by
      rw [Flow.filterMap_known]
      obtain ⟨u, hu⟩ := hfeeds
      obtain ⟨w, hw, -⟩ := hback u hu
      exact List.ne_nil_of_mem hw
    have hfaithful := merge_faithful hm hne hmerge
    rw [Flow.filterMap_known] at hfaithful
    refine ⟨inputs', fun u hu => ?_, by simpa using hfaithful⟩
    obtain ⟨t'', ht'', -, hname⟩ := hforth u hu
    exact ⟨t'', ht'', hname⟩

/-- What stands at the start of a block, as the join of what its predecessors leave. -/
theorem joins (h : g.Exact r) (hb : g.blocks.find? index = some b)
    (hset : g.Settled .bare r index b inputs s t notes) (hne : index ≠ g.entry) :
    State.Joins (fun v => b.isMerge = true ∧ g.BornAt index v)
      (fun p => b.isMerge = true ∧ index = g.exit ∧ p = .stack 0) (g.Feeds r index) s := by
  have hclean : s.Clean := h.solved.clean h.fits (hset.reached_start hb)
  obtain ⟨hforth, hback⟩ := h.nameAt_inputs hset.inputs
  have hfresh : ∀ u v, g.Feeds r index u → b.isMerge = true ∧ g.BornAt index v → ¬ u.Mentions v :=
    fun u v hu hv => h.feeds_fresh hu hv.2
  cases hset.starts with
  | entry hentry => exact absurd hentry hne
  | join hinputs hjoined hone =>
    have hinhabited : ∃ u, g.Feeds r index u := by
      obtain ⟨u, hu⟩ := List.exists_mem_of_ne_nil inputs hinputs
      obtain ⟨t', ht', -⟩ := hforth u hu
      exact ⟨t', ht'⟩
    obtain ⟨inputs', hfeeds, hfaithful⟩ := h.faithful hb hset hone hinhabited
    refine ⟨hinhabited, fun u hu => ?_, fun p v hv u hu => ?_, fun p hall => ?_, fun p v hv => ?_,
      fun p v hp hall => ?_, hfaithful.marks, fun p q v hv hp hq => ?_, hfresh⟩
    · obtain ⟨w, hw, hshape, -⟩ := hback u hu
      exact hshape.symm.trans (hjoined.shape w hw)
    · obtain ⟨w, hw, -, hname⟩ := hback u hu
      rw [← hname]
      exact hjoined.bound p v hv w hw
    · refine hfaithful.total p fun u hu => ?_
      obtain ⟨t', ht', hname⟩ := hfeeds u hu
      rw [hname]
      exact hall t' ht'
    · refine (hjoined.kept p v hv).imp id fun hall u hu => ?_
      obtain ⟨w, hw, -, hname⟩ := hback u hu
      obtain ⟨x, hx, hxv⟩ := hall w hw
      rw [← hname, hx, Var.eq_of_key_eq (hclean.plain p v hv) hxv]
    · have hplain : v.isPlain = true := by
        obtain ⟨u, hu⟩ := hinhabited
        exact (h.feeds_clean hu).plain p v (hall u hu)
      obtain ⟨w, hw, hwv⟩ := hfaithful.agreed p v hp (Var.ne_hole_of_isPlain hplain) fun u hu => by
        obtain ⟨t', ht', hname⟩ := hfeeds u hu
        exact ⟨v, (hname p).trans (hall t' ht'), rfl⟩
      rw [hw, Var.eq_of_key_eq hplain hwv]
    · rcases hjoined.distinct p q v hp hq hv with heq | hall
      · exact place_eq_of_key_eq hclean hp hq heq
      · obtain ⟨u, hu⟩ := List.exists_mem_of_ne_nil inputs hinputs
        obtain ⟨t', ht', -, hname⟩ := hforth u hu
        have hbeq : (u == t') = true := State.beq_iff_nameAt.mpr fun p => by rw [hname]
        exact absurd ((hall u hu).of_beq hbeq) (hfresh t' v ht' hv)

end Exact
end Graph
end Backslice
