import Backslice.Join
import Backslice.Proofs.Data.Success
import Backslice.Proofs.Names

/-! # What is known behind a join point

Place by place: where all states agree the common name stays, and every other place has a name made at the join
point, which no other place has. -/

namespace Backslice

set_option autoImplicit false

/-! ## Agreement of two states -/

theorem Var.beq_hole {v : Var} : (v == .hole) = true ↔ v = .hole := by
  rw [Var.beq_iff]
  cases v <;> simp [Var.key]

theorem Var.agree_ne_hole {a b : Var} (h : a.agree b ≠ .hole) : a.agree b = a ∧ b.key = a.key := by
  unfold Var.agree at h ⊢
  split at h
  · rename_i hab
    exact ⟨if_pos hab, (Var.beq_iff.mp hab).symm⟩
  · exact absurd rfl h

namespace State

theorem nameAt_meet (s t : State) (p : Place) :
    (s.meet t).nameAt p = (s.nameAt p).bind fun v => (t.nameAt p).map v.agree := by
  have hlist : ∀ (l l' : List Var) (k : Nat),
      (List.zipWith Var.agree l l')[k]? = l[k]?.bind fun v => l'[k]?.map v.agree := by
    intro l l' k
    rw [List.getElem?_zipWith]
    cases l[k]? <;> cases l'[k]? <;> rfl
  cases p with
  | stack k => exact hlist ..
  | locals k => exact hlist ..
  | globals k => exact hlist ..
  | memory k =>
    refine Table.find?_filterMap s.memory _ (fun a b v hab => ?_) k
    rw [Table.find?_congr t.memory hab]

/-- A name that survives the comparison with other states stands at the same place in all of them. -/
theorem nameAt_foldl_meet {others : List State} {s : State} {p : Place} {v : Var}
    (h : (others.foldl meet s).nameAt p = some v) :
    (∀ t ∈ s :: others, ∃ w, t.nameAt p = some w) ∧
      (v ≠ .hole → ∀ t ∈ s :: others, ∃ w, t.nameAt p = some w ∧ w.key = v.key) := by
  suffices hgen : ∃ u, s.nameAt p = some u ∧ (v ≠ .hole → u = v) ∧ (∀ t ∈ others, ∃ w, t.nameAt p = some w) ∧
      (v ≠ .hole → ∀ t ∈ others, ∃ w, t.nameAt p = some w ∧ w.key = v.key) by
    obtain ⟨u, hu, huv, hall, hkeys⟩ := hgen
    exact ⟨List.forall_mem_cons.mpr ⟨⟨u, hu⟩, hall⟩,
      fun hv => List.forall_mem_cons.mpr ⟨⟨u, hu, congrArg Var.key (huv hv)⟩, hkeys hv⟩⟩
  induction others generalizing s with
  | nil => exact ⟨v, h, fun _ => rfl, by simp, by simp⟩
  | cons t rest ih =>
    obtain ⟨u, hu, huv, hall, hkeys⟩ := ih h
    rw [nameAt_meet] at hu
    obtain ⟨a, ha, hmap⟩ := Option.bind_eq_some_iff.mp hu
    obtain ⟨b, hb, rfl⟩ := Option.map_eq_some_iff.mp hmap
    refine ⟨a, ha, fun hv => ?_, List.forall_mem_cons.mpr ⟨⟨b, hb⟩, hall⟩,
      fun hv => List.forall_mem_cons.mpr ⟨⟨b, hb, ?_⟩, hkeys hv⟩⟩
    · have hag := Var.agree_ne_hole (a := a) (b := b) (huv hv ▸ hv)
      exact hag.1.symm.trans (huv hv)
    · have hag := Var.agree_ne_hole (a := a) (b := b) (huv hv ▸ hv)
      rw [hag.2, ← huv hv, hag.1]

/-! ## States of one shape -/

theorem partLength_ext {s t : State} (h₁ : s.stack.length = t.stack.length)
    (h₂ : s.locals.length = t.locals.length) (h₃ : s.globals.length = t.globals.length) :
    s.partLength = t.partLength := by
  funext part
  cases part with
  | stack => exact h₁
  | locals => exact h₂
  | globals => exact h₃

theorem length_stack_of_shape {s t : State} (h : s.partLength = t.partLength) : s.stack.length = t.stack.length :=
  congrFun h .stack

theorem length_locals_of_shape {s t : State} (h : s.partLength = t.partLength) :
    s.locals.length = t.locals.length :=
  congrFun h .locals

theorem length_globals_of_shape {s t : State} (h : s.partLength = t.partLength) :
    s.globals.length = t.globals.length :=
  congrFun h .globals

theorem partLength_of_beq {s t : State} (h : (s == t) = true) : s.partLength = t.partLength :=
  partLength_ext (length_stack_of_beq h) (length_locals_of_beq h) (length_globals_of_beq h)

theorem requireShape_eq_ok {block : Int} {s t : State} :
    requireShape block s t = .ok () ↔ t.partLength = s.partLength := by
  have hpart : ∀ part, (if s.partLength part = t.partLength part then (pure () : Except Fault Unit)
      else throw (.shape part block (s.partLength part) (t.partLength part))) = .ok () ↔
      t.partLength part = s.partLength part := by
    intro part
    split
    · rename_i h
      exact iff_of_true rfl h.symm
    · rename_i h
      exact iff_of_false (by simp [throw_ne_ok]) fun hcon => h hcon.symm
  unfold requireShape
  rw [forM_eq_ok]
  simp only [hpart]
  constructor
  · intro h
    funext part
    cases part <;> exact h _ (by simp)
  · intro h part _
    exact congrFun h part

theorem partLength_foldl_meet {others : List State} {s : State}
    (h : ∀ t ∈ others, t.partLength = s.partLength) : (others.foldl meet s).partLength = s.partLength := by
  induction others generalizing s with
  | nil => rfl
  | cons t rest ih =>
    obtain ⟨ht, hrest⟩ := List.forall_mem_cons.mp h
    have hmeet : (s.meet t).partLength = s.partLength := by
      refine partLength_ext ?_ ?_ ?_
      · simp [meet, length_stack_of_shape ht]
      · simp [meet, length_locals_of_shape ht]
      · simp [meet, length_globals_of_shape ht]
    rw [List.foldl_cons, ih fun u hu => (hrest u hu).trans hmeet.symm, hmeet]

theorem joinAll_eq_ok {block : Int} {first t : State} {others : List State} :
    joinAll block first others = .ok t ↔
      (∀ s ∈ others, s.partLength = first.partLength) ∧ t = (others.foldl meet first).plugAll block := by
  have hshapes : others.forM (requireShape block first) = .ok () ↔
      ∀ s ∈ others, s.partLength = first.partLength := by
    simp only [forM_eq_ok, requireShape_eq_ok]
  unfold joinAll
  constructor
  · intro h
    obtain ⟨_, h₁, h₂⟩ := bind_eq_ok.mp h
    exact ⟨hshapes.mp h₁, (pure_eq_ok.mp h₂).symm⟩
  · rintro ⟨h₁, rfl⟩
    rw [hshapes.mpr h₁]
    rfl

/-! ## Numbers of the new names -/

/-- How many places of a list wait for a name. -/
def holes (l : List Var) : Nat := l.countP (· == .hole)

theorem snd_plug (block : Int) (n : Nat) (l : List Var) : (plug block n l).2 = n + holes l := by
  induction l generalizing n with
  | nil => rfl
  | cons v vs ih =>
    rw [plug, holes, List.countP_cons]
    split
    · simp only [ih, holes]
      omega
    · simp only [ih, holes]
      rfl

theorem getElem?_plug (block : Int) (n : Nat) (l : List Var) (k : Nat) : (plug block n l).1[k]? =
    l[k]?.map fun v => if v == .hole then .phi block ((n + holes (l.take k) : Nat) : Int) else v := by
  induction l generalizing n k with
  | nil => simp [plug]
  | cons v vs ih => cases k with
    | zero => by_cases hv : (v == .hole) = true <;> simp [plug, hv, holes]
    | succ k =>
      by_cases hv : (v == .hole) = true
      · have hnum : n + 1 + holes (vs.take k) = n + holes ((v :: vs).take (k + 1)) := by
          simp only [holes, List.take_succ_cons, List.countP_cons, hv, if_pos]
          omega
        simp only [plug, hv, if_pos, List.getElem?_cons_succ, ih, hnum]
      · have hnum : n + holes (vs.take k) = n + holes ((v :: vs).take (k + 1)) := by
          simp [holes, hv]
        simp [plug, hv, ih, hnum]

theorem length_plug (block : Int) (n : Nat) (l : List Var) : (plug block n l).1.length = l.length := by
  induction l generalizing n with
  | nil => rfl
  | cons v vs ih => by_cases hv : (v == .hole) = true <;> simp [plug, hv, ih]

/-- The number of a place that waits for a name. -/
def number (s : State) : Place → Nat
  | .stack k => 1 + holes (s.stack.take k)
  | .locals k => 1 + holes s.stack + holes (s.locals.take k)
  | .globals k => 1 + holes s.stack + holes s.locals + holes (s.globals.take k)
  | .memory k =>
    1 + holes s.stack + holes s.locals + holes s.globals + holes (s.memory.values.take (s.memory.position k))

theorem nameAt_plugAll (block : Int) (s : State) (p : Place) : (s.plugAll block).nameAt p =
    (s.nameAt p).map fun v => if v == .hole then .phi block (s.number p : Nat) else v := by
  cases p with
  | stack k => exact getElem?_plug ..
  | locals k => exact (getElem?_plug ..).trans (by rw [snd_plug]; rfl)
  | globals k => exact (getElem?_plug ..).trans (by rw [snd_plug, snd_plug]; rfl)
  | memory k =>
    have hsize : s.memory.size = s.memory.values.length := by simp [Table.size, Table.values]
    refine (Table.find?_withValues s.memory _ (by rw [length_plug]; exact hsize) k).trans ?_
    rw [getElem?_plug, snd_plug, snd_plug, snd_plug]
    show _ = (s.memory.find? k).map _
    rw [Table.find?_eq_getElem?]
    rfl

theorem partLength_plugAll (block : Int) (s : State) : (s.plugAll block).partLength = s.partLength :=
  partLength_ext (length_plug ..) (length_plug ..) (length_plug ..)

/-! ## Places that wait for a name have different numbers -/

theorem holes_take_lt {l : List Var} {k m : Nat} (h : l[k]? = some .hole) (hkm : k < m) :
    holes (l.take k) < holes (l.take m) := by
  have hk : k < l.length := (List.getElem?_eq_some_iff.mp h).1
  have htake : l.take (k + 1) = l.take k ++ [.hole] := by
    rw [List.take_add_one, h]
    rfl
  have hsub : (l.take (k + 1)).Sublist (l.take m) := List.take_sublist_take_left (by omega)
  have hle : holes (l.take (k + 1)) ≤ holes (l.take m) := hsub.countP_le
  have hone : holes (l.take (k + 1)) = holes (l.take k) + 1 := by
    rw [htake, holes, List.countP_append]
    rfl
  omega

theorem holes_take_lt_holes {l : List Var} {k : Nat} (h : l[k]? = some .hole) : holes (l.take k) < holes l := by
  have hk : k < l.length := (List.getElem?_eq_some_iff.mp h).1
  have hlt := holes_take_lt h hk
  rwa [List.take_length] at hlt

theorem eq_of_holes_take_eq {l : List Var} {k m : Nat} (hk : l[k]? = some .hole) (hm : l[m]? = some .hole)
    (h : holes (l.take k) = holes (l.take m)) : k = m := by
  rcases Nat.lt_trichotomy k m with hlt | heq | hlt
  · have := holes_take_lt hk hlt
    omega
  · exact heq
  · have := holes_take_lt hm hlt
    omega

end State

/-- Places that are one place: equal slots of memory count as one. -/
def Place.key : Place → Place
  | .memory k => .memory k.key
  | p => p

namespace State

theorem nameAt_of_key_eq (s : State) {p q : Place} (h : p.key = q.key) : s.nameAt p = s.nameAt q := by
  cases p <;> cases q <;> simp only [Place.key, reduceCtorEq, Place.memory.injEq] at h
  case memory.memory k l => exact Table.find?_congr s.memory ((Slot.beq_iff k l).mpr h)
  all_goals rw [h]

theorem key_eq_of_number_eq {s : State} {p q : Place} (hp : s.nameAt p = some .hole)
    (hq : s.nameAt q = some .hole) (h : s.number p = s.number q) : p.key = q.key := by
  have hmem : ∀ {k : Slot}, s.nameAt (.memory k) = some .hole →
      s.memory.values[s.memory.position k]? = some .hole := by
    intro k hk
    rw [← Table.find?_eq_getElem?]
    exact hk
  cases p <;> cases q <;> simp only [number] at h
  case stack.stack k m => rw [eq_of_holes_take_eq hp hq (by omega)]
  case locals.locals k m => rw [eq_of_holes_take_eq hp hq (by omega)]
  case globals.globals k m => rw [eq_of_holes_take_eq hp hq (by omega)]
  case memory.memory k m =>
    have hpos : s.memory.position k = s.memory.position m := eq_of_holes_take_eq (hmem hp) (hmem hq) (by omega)
    have hkm : (k == m) = true := Table.beq_of_position_eq (Table.contains_iff_find?.mpr ⟨_, hp⟩)
      (Table.contains_iff_find?.mpr ⟨_, hq⟩) hpos
    exact congrArg Place.memory ((Slot.beq_iff k m).mp hkm)
  -- The parts are numbered one after the other, so a number of an earlier part is too small for a later one.
  case stack.locals | stack.globals | stack.memory | locals.globals | locals.memory | globals.memory =>
    have := holes_take_lt_holes hp
    omega
  case locals.stack | globals.stack | memory.stack | globals.locals | memory.locals | memory.globals =>
    have := holes_take_lt_holes hq
    omega

/-! ## Joined states -/

/-- `t` keeps the names on which the states `inputs` agree, and has a name that is `born` here at every other
place. No two places share such a name, unless it was in front of the join point already. -/
structure Joined (born : Var → Prop) (inputs : List State) (t : State) : Prop where
  shape : ∀ s ∈ inputs, s.partLength = t.partLength
  bound : ∀ p v, t.nameAt p = some v → ∀ s ∈ inputs, ∃ w, s.nameAt p = some w
  kept : ∀ p v, t.nameAt p = some v → born v ∨ ∀ s ∈ inputs, ∃ w, s.nameAt p = some w ∧ w.key = v.key
  distinct : ∀ p q v, t.nameAt p = some v → t.nameAt q = some v → born v →
    p.key = q.key ∨ ∀ s ∈ inputs, s.Mentions v

def phiOf (index : Int) (v : Var) : Prop := ∃ n, v = .phi index n

theorem Joined.single (born : Var → Prop) (s : State) : Joined born [s] s where
  shape := by simp
  bound p v h := by simp [h]
  kept p v h := by simp [h]
  distinct p q v h _ _ := by simp [mentions_of_nameAt h]

theorem Joined.of_joinAll {index : Int} {first t : State} {others : List State}
    (h : joinAll index first others = .ok t) : Joined (phiOf index) (first :: others) t := by
  obtain ⟨hshape, rfl⟩ := joinAll_eq_ok.mp h
  have hname : ∀ {p v}, ((others.foldl meet first).plugAll index).nameAt p = some v →
      ∃ u, (others.foldl meet first).nameAt p = some u ∧
        (if u == .hole then .phi index ((others.foldl meet first).number p : Nat) else u) = v := by
    intro p v hv
    rw [nameAt_plugAll] at hv
    exact Option.map_eq_some_iff.mp hv
  have hkept : ∀ {p v}, ((others.foldl meet first).plugAll index).nameAt p = some v →
      ((others.foldl meet first).nameAt p = some .hole ∧
        v = .phi index ((others.foldl meet first).number p : Nat)) ∨
      ∀ s ∈ first :: others, ∃ w, s.nameAt p = some w ∧ w.key = v.key := by
    intro p v hv
    obtain ⟨u, hu, huv⟩ := hname hv
    by_cases hhole : u = .hole
    · subst hhole
      exact Or.inl ⟨hu, huv.symm⟩
    · rw [if_neg fun hcon => hhole (Var.beq_hole.mp hcon)] at huv
      subst huv
      exact Or.inr ((nameAt_foldl_meet hu).2 hhole)
  refine ⟨?_, ?_, ?_, ?_⟩
  · rw [partLength_plugAll, partLength_foldl_meet hshape]
    exact List.forall_mem_cons.mpr ⟨rfl, hshape⟩
  · intro p v hv
    obtain ⟨u, hu, _⟩ := hname hv
    exact (nameAt_foldl_meet hu).1
  · intro p v hv
    exact (hkept hv).imp (fun hnew => ⟨_, hnew.2⟩) id
  · intro p q v hp hq _
    rcases hkept hp with ⟨hp', hpv⟩ | hall
    · rcases hkept hq with ⟨hq', hqv⟩ | hall
      · have hnum : (others.foldl meet first).number p = (others.foldl meet first).number q := by
          have heq := hpv.symm.trans hqv
          injection heq with _ hn
          exact Int.ofNat.inj hn
        exact Or.inl (key_eq_of_number_eq hp' hq' hnum)
      · exact Or.inr fun s hs => (hall s hs).elim fun w hw => (mentions_congr hw.2).mp (mentions_of_nameAt hw.1)
    · exact Or.inr fun s hs => (hall s hs).elim fun w hw => (mentions_congr hw.2).mp (mentions_of_nameAt hw.1)

/-- A name behind a join point was made there, or it stands in all the states in front of it. -/
theorem Joined.mentions {born : Var → Prop} {inputs : List State} {t : State} (h : Joined born inputs t)
    {v : Var} (hv : t.Mentions v) : (∃ w, born w ∧ w.key = v.key) ∨ ∀ s ∈ inputs, s.Mentions v := by
  rcases mentions_iff.mp hv with ⟨p, w, hp, hw⟩ | ⟨k, w, hk, hkv⟩
  · rcases h.kept p w hp with hborn | hall
    · exact Or.inl ⟨w, hborn, hw⟩
    · right
      intro s hs
      obtain ⟨u, hu, huw⟩ := hall s hs
      exact mentions_iff.mpr (Or.inl ⟨p, u, hu, huw.trans hw⟩)
  · right
    intro s hs
    obtain ⟨u, hu⟩ := h.bound (.memory k) w hk s hs
    exact mentions_iff.mpr (Or.inr ⟨k, u, hu, hkv⟩)

/-! ## The result of the function -/

/-- The state with the result of the function on top of the stack. -/
def markTop (s : State) : State :=
  match s.stack with
  | [] => s
  | _ :: rest => { s with stack := .returned :: rest }

theorem nameAt_markTop (s : State) (p : Place) :
    s.markTop.nameAt p = if p = .stack 0 then (s.nameAt p).map fun _ => .returned else s.nameAt p := by
  cases hs : s.stack with
  | nil =>
    have hmark : s.markTop = s := by simp [markTop, hs]
    by_cases hp : p = .stack 0 <;> simp [hmark, hp, nameAt, hs]
  | cons v rest =>
    have hmark : s.markTop = { s with stack := .returned :: rest } := by simp [markTop, hs]
    rw [hmark]
    cases p with
    | stack k => cases k <;> simp [nameAt, hs]
    | _ => rfl

theorem partLength_markTop (s : State) : s.markTop.partLength = s.partLength := by
  unfold markTop
  cases hs : s.stack with
  | nil => rfl
  | cons v rest => exact partLength_ext (by simp [hs]) rfl rfl

theorem Joined.markTop {index : Int} {inputs : List State} {t : State} (h : Joined (phiOf index) inputs t) :
    Joined (fun v => phiOf index v ∨ v = .returned) inputs t.markTop := by
  have hname : ∀ {p v}, t.markTop.nameAt p = some v →
      (p = .stack 0 ∧ v = .returned ∧ ∃ w, t.nameAt p = some w) ∨ t.nameAt p = some v := by
    intro p v hv
    rw [nameAt_markTop] at hv
    split at hv
    · rename_i hp
      obtain ⟨w, hw, hwv⟩ := Option.map_eq_some_iff.mp hv
      exact Or.inl ⟨hp, hwv.symm, w, hw⟩
    · exact Or.inr hv
  -- The name of the result is no name of a join point, so away from the top it was there before.
  have hold : ∀ {p}, t.nameAt p = some .returned → ∀ s ∈ inputs, s.Mentions .returned := by
    intro p hp s hs
    rcases h.kept p _ hp with ⟨n, hn⟩ | hall
    · cases hn
    · obtain ⟨w, hw, hwv⟩ := hall s hs
      exact (mentions_congr hwv).mp (mentions_of_nameAt hw)
  refine ⟨?_, ?_, ?_, ?_⟩
  · rw [partLength_markTop]
    exact h.shape
  · intro p v hv
    rcases hname hv with ⟨_, _, w, hw⟩ | hv
    · exact h.bound p w hw
    · exact h.bound p v hv
  · intro p v hv
    rcases hname hv with ⟨_, hret, _⟩ | hv
    · exact Or.inl (Or.inr hret)
    · exact (h.kept p v hv).imp Or.inl id
  · intro p q v hp hq hborn
    rcases hname hp with ⟨hp0, rfl, _⟩ | hp
    · rcases hname hq with ⟨hq0, _, _⟩ | hq
      · exact Or.inl (by rw [hp0, hq0])
      · exact Or.inr (hold hq)
    · rcases hname hq with ⟨_, rfl, _⟩ | hq
      · exact Or.inr (hold hp)
      · rcases hborn with hphi | rfl
        · exact h.distinct p q v hp hq hphi
        · exact Or.inr (hold hp)

/-! ## Nothing is renamed without need -/

/-- `t` binds every place that all of the states `inputs` bind, and has a name on which they agree unless the place is
`marked` as that of the result. -/
structure Faithful (marked : Place → Prop) (inputs : List State) (t : State) : Prop where
  total : ∀ p, (∀ s ∈ inputs, ∃ w, s.nameAt p = some w) → ∃ w, t.nameAt p = some w
  agreed : ∀ p (v : Var), ¬ marked p → v ≠ .hole → (∀ s ∈ inputs, ∃ w, s.nameAt p = some w ∧ w.key = v.key) →
    ∃ w, t.nameAt p = some w ∧ w.key = v.key
  marks : ∀ p v, marked p → t.nameAt p = some v → v = .returned

theorem nameAt_foldl_meet_of_bound {others : List State} {s : State} {p : Place}
    (h : ∀ t ∈ s :: others, ∃ w, t.nameAt p = some w) : ∃ w, (others.foldl meet s).nameAt p = some w := by
  induction others generalizing s with
  | nil => exact h s (List.mem_cons_self ..)
  | cons t rest ih =>
    obtain ⟨⟨v, hv⟩, hothers⟩ := List.forall_mem_cons.mp h
    obtain ⟨⟨w, hw⟩, hrest⟩ := List.forall_mem_cons.mp hothers
    refine ih (List.forall_mem_cons.mpr ⟨⟨v.agree w, ?_⟩, hrest⟩)
    rw [nameAt_meet, hv, hw]
    rfl

theorem nameAt_foldl_meet_of_agree {others : List State} {s : State} {p : Place} {v : Var}
    (hs : s.nameAt p = some v) (h : ∀ t ∈ others, ∃ w, t.nameAt p = some w ∧ w.key = v.key) :
    (others.foldl meet s).nameAt p = some v := by
  induction others generalizing s with
  | nil => exact hs
  | cons t rest ih =>
    obtain ⟨⟨w, hw, hwv⟩, hrest⟩ := List.forall_mem_cons.mp h
    refine ih ?_ hrest
    have hagree : v.agree w = v := if_pos (Var.beq_iff.mpr hwv.symm)
    rw [nameAt_meet, hs, hw]
    exact congrArg some hagree

theorem Faithful.single (s : State) : Faithful (fun _ => False) [s] s where
  total _ h := h s (List.mem_singleton_self s)
  agreed _ _ _ _ h := h s (List.mem_singleton_self s)
  marks _ _ h := h.elim

theorem Faithful.of_joinAll {index : Int} {first t : State} {others : List State}
    (h : joinAll index first others = .ok t) : Faithful (fun _ => False) (first :: others) t := by
  obtain ⟨-, rfl⟩ := joinAll_eq_ok.mp h
  refine ⟨fun p hall => ?_, fun p v _ hv hall => ?_, fun p v hmarked => hmarked.elim⟩
  · obtain ⟨w, hw⟩ := nameAt_foldl_meet_of_bound hall
    exact ⟨_, by rw [nameAt_plugAll, hw]; rfl⟩
  · obtain ⟨⟨w, hw, hwv⟩, hothers⟩ := List.forall_mem_cons.mp hall
    have hne : ¬ (w == .hole) = true := by
      rw [Var.beq_iff, hwv, ← Var.beq_iff, Var.beq_hole]
      exact hv
    have hmet := nameAt_foldl_meet_of_agree hw fun t ht => (hothers t ht).imp fun x hx => ⟨hx.1, hx.2.trans hwv.symm⟩
    refine ⟨w, ?_, hwv⟩
    rw [nameAt_plugAll, hmet, Option.map_some, if_neg hne]

theorem Faithful.markTop {inputs : List State} {t : State} (h : Faithful (fun _ => False) inputs t) :
    Faithful (· = .stack 0) inputs t.markTop := by
  refine ⟨fun p hall => ?_, fun p v hp hv hall => ?_, fun p v hp hv => ?_⟩
  · obtain ⟨w, hw⟩ := h.total p hall
    rw [nameAt_markTop, hw]
    split
    · exact ⟨_, rfl⟩
    · exact ⟨w, rfl⟩
  · rw [nameAt_markTop, if_neg hp]
    exact h.agreed p v id hv hall
  · rw [nameAt_markTop, if_pos hp] at hv
    obtain ⟨-, -, rfl⟩ := Option.map_eq_some_iff.mp hv
    rfl

end State

theorem Flow.markResult_known (s : State) : (Flow.known s).markResult = .known s.markTop := by
  unfold Flow.markResult State.markTop Flow.state
  cases s.stack <;> rfl

/-! ## The start of a block -/

namespace Graph

variable {g : Graph} {index : Int} {b : Block} {flows : List Flow}

/-- The names that the join point `index` makes. -/
def BornAt (g : Graph) (index : Int) (v : Var) : Prop := State.phiOf index v ∨ (index = g.exit ∧ v = .returned)

instance (g : Graph) (index : Int) (v : Var) : Decidable (g.BornAt index v) :=
  match v with
  | .phi block n => decidable_of_iff (block = index) (by simp [BornAt, State.phiOf])
  | .returned => decidable_of_iff (index = g.exit) (by simp [BornAt, State.phiOf])
  | .pushed _ | .entryLocal _ | .entryGlobal _ | .constant _ | .cell _ _ | .hole =>
    isFalse (by simp [BornAt, State.phiOf])

theorem bornAt_of_key_eq {v w : Var} (hv : g.BornAt index v) (h : v.key = w.key) : v = w := by
  rcases hv with ⟨n, rfl⟩ | ⟨_, rfl⟩
  · cases w <;> simp_all [Var.key]
  · cases w <;> simp_all [Var.key]

theorem joinFlows_one {s : State} (h : flows.filterMap Flow.state? = [s]) :
    g.joinFlows index flows = .ok (.known s) := by
  unfold joinFlows
  match flows with
  | [] => cases h
  | [.bottom] => cases h
  | [.known t] =>
    cases h
    rfl
  | _ :: _ :: _ => simp only [h]; rfl

theorem joinFlows_many {first second : State} {rest : List State}
    (h : flows.filterMap Flow.state? = first :: second :: rest) :
    g.joinFlows index flows = Flow.known <$> State.joinAll index first (second :: rest) := by
  unfold joinFlows
  match flows with
  | [] => cases h
  | [.bottom] => cases h
  | [.known t] => cases h
  | _ :: _ :: _ => simp only [h]; rfl

theorem merge_nil (g : Graph) (index : Int) (b : Block) :
    g.merge index b [] = .ok (.known g.signature.entryState) := by
  have hmark : (Flow.known g.signature.entryState).markResult = .known g.signature.entryState := rfl
  unfold merge joinFlows
  split
  · show Except.ok (if g.exit = index then (Flow.known g.signature.entryState).markResult else _) = _
    rw [hmark, ite_self]
  · rfl

theorem merge_of_not_isMerge (hb : b.isMerge = false) (f : Flow) : g.merge index b [f] = .ok f := by
  simp [merge, hb]
  rfl

theorem eq_of_merge_ok (hb : b.isMerge = false) {f : Flow} (h : g.merge index b flows = .ok f) :
    (flows = [] ∧ f = .known g.signature.entryState) ∨ flows = [f] := by
  unfold merge at h
  rw [hb, if_neg Bool.false_ne_true] at h
  match flows with
  | [] => exact Or.inl ⟨rfl, (pure_eq_ok.mp h).symm⟩
  | [f'] => exact Or.inr (by rw [pure_eq_ok.mp h])
  | _ :: _ :: _ => exact absurd h throw_ne_ok

/-- A join point leaves the only known state as it is, with the result of the function on top at the exit. -/
theorem merge_one (hb : b.isMerge = true) {s : State} (hin : flows.filterMap Flow.state? = [s]) :
    g.merge index b flows = .ok (.known (if g.exit = index then s.markTop else s)) := by
  unfold merge
  rw [if_pos hb, joinFlows_one hin, ok_bind]
  split
  · rw [Flow.markResult_known]
    rfl
  · rfl

/-- It joins several known states. -/
theorem merge_many (hb : b.isMerge = true) {first second : State} {rest : List State}
    (hin : flows.filterMap Flow.state? = first :: second :: rest) :
    g.merge index b flows = (fun u => Flow.known (if g.exit = index then u.markTop else u)) <$>
      State.joinAll index first (second :: rest) := by
  unfold merge
  rw [if_pos hb, joinFlows_many hin]
  cases State.joinAll index first (second :: rest) with
  | error e => rfl
  | ok u =>
    show Except.ok (if g.exit = index then (Flow.known u).markResult else .known u) = _
    rw [Flow.markResult_known]
    split <;> rfl

/-- What stands behind a join point is the only known state in front of it or the join of several. -/
theorem merge_cases (hb : b.isMerge = true) (hne : flows.filterMap Flow.state? ≠ []) {f : Flow}
    (h : g.merge index b flows = .ok f) : ∃ u, f = .known (if g.exit = index then u.markTop else u) ∧
      (flows.filterMap Flow.state? = [u] ∨ ∃ first others, flows.filterMap Flow.state? = first :: others ∧
        State.joinAll index first others = .ok u) := by
  match hin : flows.filterMap Flow.state? with
  | [] => exact absurd hin hne
  | [s] =>
    rw [merge_one hb hin] at h
    exact ⟨s, (Except.ok.inj h).symm, Or.inl rfl⟩
  | first :: second :: rest =>
    rw [merge_many hb hin, map_eq_ok] at h
    obtain ⟨u, hu, rfl⟩ := h
    exact ⟨u, rfl, Or.inr ⟨first, second :: rest, rfl, hu⟩⟩

theorem merge_joined (hb : b.isMerge = true) (hne : flows.filterMap Flow.state? ≠ []) {f : Flow}
    (h : g.merge index b flows = .ok f) :
    ∃ t, f = .known t ∧ State.Joined (g.BornAt index) (flows.filterMap Flow.state?) t := by
  obtain ⟨u, rfl, hu⟩ := merge_cases hb hne h
  have hjoined : State.Joined (State.phiOf index) (flows.filterMap Flow.state?) u := by
    rcases hu with hin | ⟨first, others, hin, hu⟩
    · exact hin ▸ State.Joined.single _ u
    · exact hin ▸ State.Joined.of_joinAll hu
  refine ⟨_, rfl, ?_⟩
  split
  · rename_i hexit
    have hborn : g.BornAt index = fun v => State.phiOf index v ∨ v = .returned := by
      funext v
      simp [BornAt, hexit]
    rw [hborn]
    exact hjoined.markTop
  · rename_i hexit
    have hborn : g.BornAt index = State.phiOf index := by
      funext v
      simp [BornAt, Ne.symm hexit]
    exact hborn ▸ hjoined

theorem merge_faithful (hb : b.isMerge = true) (hne : flows.filterMap Flow.state? ≠ []) {t : State}
    (h : g.merge index b flows = .ok (.known t)) :
    State.Faithful (fun p => index = g.exit ∧ p = .stack 0) (flows.filterMap Flow.state?) t := by
  obtain ⟨u, hf, hu⟩ := merge_cases hb hne h
  obtain rfl := Flow.known.inj hf
  have hfaithful : State.Faithful (fun _ => False) (flows.filterMap Flow.state?) u := by
    rcases hu with hin | ⟨first, others, hin, hu⟩
    · exact hin ▸ State.Faithful.single u
    · exact hin ▸ State.Faithful.of_joinAll hu
  by_cases hexit : g.exit = index
  · simpa [hexit] using hfaithful.markTop
  · simpa [hexit, Ne.symm hexit] using hfaithful

theorem merge_succeeds (hb : b.isMerge = true) (hne : flows.filterMap Flow.state? ≠ []) {shape : Part → Nat}
    (hshape : ∀ s ∈ flows.filterMap Flow.state?, s.partLength = shape) : ∃ f, g.merge index b flows = .ok f := by
  match hin : flows.filterMap Flow.state? with
  | [] => exact absurd hin hne
  | [s] => exact ⟨_, merge_one hb hin⟩
  | first :: second :: rest =>
    rw [merge_many hb hin]
    rw [hin] at hshape
    refine ⟨_, map_eq_ok.mpr ⟨_, State.joinAll_eq_ok.mpr ⟨fun s hs => ?_, rfl⟩, rfl⟩⟩
    exact (hshape s (List.mem_cons_of_mem first hs)).trans (hshape first (List.mem_cons_self ..)).symm

end Graph
end Backslice
