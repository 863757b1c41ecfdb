import Backslice.Proofs.Bare
import Backslice.Proofs.Slice.Replay

/-! # Dropped code and its placeholders

Instructions that are dropped leave what they do not take where it was, counted from the bottom of the stack, and so do
the placeholders in their stead. -/

namespace Backslice

set_option autoImplicit false

/-- With a stack of height `h` the place is where `q` is with one of height `h'`, counted from the bottom. -/
def Place.Over (h h' : Nat) : Place → Place → Prop
  | .stack k, .stack k' => k + h' = k' + h
  | .memory _, _ => False
  | p, q => p = q

theorem Place.Over.trans {h₁ h₂ h₃ : Nat} {p q o : Place} (hpq : p.Over h₁ h₂ q) (hqo : q.Over h₂ h₃ o) :
    p.Over h₁ h₃ o := by
  cases p <;> cases q <;> cases o <;> simp_all [Over]
  omega

theorem Place.Over.refl {p : Place} (hp : p.IsCell) (h : Nat) : p.Over h h p := by
  cases p with
  | memory k => cases hp
  | _ => rfl

theorem Place.Over.isCell {h₁ h₂ : Nat} {p q : Place} (hpq : p.Over h₁ h₂ q) : p.IsCell ∧ q.IsCell := by
  cases p <;> cases q <;> simp_all [Over, IsCell]

/-! ## Dropped code -/

theorem Action.Leads.over {a : Action} {x v : Var} {s t : State} (h : a.Leads x s t) (hlevel : a.Level s.stack.length)
    {p : Place} (hp : p.IsCell) (hv : t.nameAt p = some v) :
    v = x ∨ ∃ q, p.Over t.stack.length s.stack.length q ∧ s.nameAt q = some v := by
  rcases h.cell hp hv with ⟨-, hx⟩ | ⟨hdest, hold⟩
  · exact Or.inl hx
  · refine Or.inr ⟨_, ?_, hold⟩
    cases h with
    | @put d m dest hd =>
      have hlength : (s.trim d m).stack.length = s.stack.length - d := by
        simp only [State.trim, List.length_take, List.length_drop]
        have hle : s.stack.length ≤ d + m := hlevel
        omega
      cases p with
      | memory k => cases hp
      | stack k => cases dest with
        | stack =>
          have hk : k ≠ 0 := by
            rintro rfl
            exact hdest rfl
          simp only [Place.Over, source, State.put, State.push, List.length_cons, hlength]
          omega
        | _ =>
          simp only [Place.Over, source, State.put, hlength]
          omega
      | _ => cases dest <;> rfl
    | store hs =>
      cases p with
      | memory k => cases hp
      | stack k =>
        simp only [Place.Over, source, hs, List.length_cons]
        omega
      | _ => rfl

section
variable {sig : Signature} {is : List Instr} {s t : State} {notes : List (Label × Note)} {v : Var}

/-- The stack has at most one value where a function gives back its result. -/
def LevelOn (sig : Signature) (is : List Instr) (notes : List (Label × Note)) : Prop :=
  ∀ i ∈ is, i.Yields sig → ∀ s t, (i.label, ⟨.known s, .known t⟩) ∈ notes → s.stack.length ≤ 1

theorem Steps.over (h : Steps sig .bare is s notes t) (hfits : ∀ i ∈ is, i.Fits sig) (hlevel : LevelOn sig is notes)
    {p : Place} (hp : p.IsCell) (hv : t.nameAt p = some v) :
    (∃ i ∈ is, v = .pushed i.label) ∨ ∃ q, p.Over t.stack.length s.stack.length q ∧ s.nameAt q = some v := by
  induction h with
  | nil s => exact Or.inr ⟨p, .refl hp _, hv⟩
  | @cons i rest s u t notes hi _ ih =>
    obtain ⟨hfirst, hrest⟩ := List.forall_mem_cons.mp hfits
    have hlevel' : LevelOn sig rest notes := fun j hj hy a b hab =>
      hlevel j (List.mem_cons_of_mem _ hj) hy a b (List.mem_cons_of_mem _ hab)
    rcases ih hrest hlevel' hv with ⟨j, hj, rfl⟩ | ⟨q, hpq, hq⟩
    · exact Or.inl ⟨j, List.mem_cons_of_mem _ hj, rfl⟩
    · have hheight : i.Yields sig → s.stack.length ≤ 1 := fun hy =>
        hlevel i List.mem_cons_self hy s u List.mem_cons_self
      rcases (hi.leads hfirst).over (Instr.level_action hheight) hpq.isCell.2 hq with rfl | ⟨o, hqo, ho⟩
      · exact Or.inl ⟨i, List.mem_cons_self, rfl⟩
      · exact Or.inr ⟨o, hpq.trans hqo, ho⟩

/-- What is in memory after several instructions was there before, or one of them has stored it. -/
theorem Steps.stored (h : Steps sig .bare is s notes t) (hfits : ∀ i ∈ is, i.Fits sig)
    (hclean : ∀ l u w, (l, ⟨.known u, .known w⟩) ∈ notes → u.Clean) {k : Slot} (hv : t.nameAt (.memory k) = some v) :
    s.nameAt (.memory k) = some v ∨ ∃ i ∈ is, ∃ u w rest, (i.label, ⟨.known u, .known w⟩) ∈ notes ∧
      i.action sig u.stack.length = .store k.2 ∧ u.stack = v :: k.1 :: rest := by
  induction h with
  | nil => exact Or.inl hv
  | @cons i rest s u t notes hi _ ih =>
    obtain ⟨hfirst, hrest⟩ := List.forall_mem_cons.mp hfits
    rcases ih hrest (fun l a b hab => hclean l a b (List.mem_cons_of_mem _ hab)) hv with hu | ⟨j, hj, a, b, r, hab, hstore⟩
    · rcases (hi.leads hfirst).memory with hmem | ⟨offset, value, address, below, haction, hstack, -, hmem⟩
      · exact Or.inl ((congrArg (·.find? k) hmem).symm.trans hu)
      · have hplain : address.isPlain = true :=
          (hclean _ s u List.mem_cons_self).plain (.stack 1) address (by simp [State.nameAt, hstack])
        have hfind : (s.memory.insert (address, offset) value).find? k = some v :=
          (congrArg (·.find? k) hmem).symm.trans hu
        rcases State.find?_store hplain hfind with ⟨rfl, rfl⟩ | ⟨-, hold⟩
        · exact Or.inr ⟨i, List.mem_cons_self, s, u, below, List.mem_cons_self, haction, hstack⟩
        · exact Or.inl hold
    · exact Or.inr ⟨j, List.mem_cons_of_mem _ hj, a, b, r, List.mem_cons_of_mem _ hab, hstore⟩

/-- A slot is bound once, since its address has been taken off the stack. -/
theorem Action.Leads.slot {a : Action} {x : Var} (h : a.Leads x s t) (hs : s.Clean) {k : Slot}
    (hv : s.nameAt (.memory k) = some v) : t.nameAt (.memory k) = some v := by
  change t.memory.find? k = some v
  rcases h.memory with hmem | ⟨offset, value, address, rest, -, hstack, -, hmem⟩
  · rw [hmem]
    exact hv
  · have hne : ¬ ((address, offset) == k) = true := by
      intro hcon
      have haddress : address.isPlain = true :=
        hs.plain (.stack 1) address (by simp [State.nameAt, hstack])
      obtain rfl := (Slot.beq_iff_of_isPlain (a := (address, offset)) haddress).mp hcon
      exact (hs.slots _ v hv).2 (by simp [hstack])
    rw [hmem, Table.find?_insert, if_neg hne]
    exact hv

theorem Steps.slot (h : Steps sig .bare is s notes t) (hfits : ∀ i ∈ is, i.Fits sig)
    (hclean : ∀ l u w, (l, ⟨.known u, .known w⟩) ∈ notes → u.Clean) {k : Slot} (hv : s.nameAt (.memory k) = some v) :
    t.nameAt (.memory k) = some v := by
  induction h with
  | nil => exact hv
  | cons hi _ ih =>
    obtain ⟨hfirst, hrest⟩ := List.forall_mem_cons.mp hfits
    exact ih hrest (fun l a b hab => hclean l a b (List.mem_cons_of_mem _ hab))
      ((hi.leads hfirst).slot (hclean _ _ _ List.mem_cons_self) hv)

/-! ## Placeholders -/

theorem steps_placeholders_suffix {sinks : Bool} {ids : List Int}
    (h : Steps sig .bare ((ids.map (placeholder sinks)).map .data) s notes t) :
    t.locals = s.locals ∧ t.globals = s.globals ∧ t.memory = s.memory ∧
      if sinks then t.stack <:+ s.stack else s.stack <:+ t.stack := by
  induction ids generalizing s notes with
  | nil =>
    cases h
    exact ⟨rfl, rfl, rfl, by cases sinks <;> simp⟩
  | cons id ids ih => cases h with
    | @cons _ _ _ u _ n hi hrest =>
      obtain ⟨hlocals, hglobals, hmemory, hstack⟩ := ih hrest
      cases sinks with
      | true =>
        obtain ⟨v, rest, hs, rfl⟩ : ∃ v rest, s.stack = v :: rest ∧ u = { s with stack := rest } := by
          cases hi <;> simp_all [placeholder, DataOp.computes?]
        refine ⟨hlocals, hglobals, hmemory, ?_⟩
        rw [if_pos rfl] at hstack ⊢
        exact hstack.trans (hs ▸ List.suffix_cons v rest)
      | false =>
        obtain ⟨v, rfl⟩ : ∃ v, u = s.push v := by
          cases hi <;> simp_all [placeholder, DataOp.computes?]
        refine ⟨hlocals, hglobals, hmemory, ?_⟩
        rw [if_neg Bool.false_ne_true] at hstack ⊢
        exact (List.suffix_cons v s.stack).trans hstack

theorem getElem?_of_suffix {low whole : List Var} (h : low <:+ whole) {k k' : Nat}
    (hk : k + whole.length = k' + low.length) : low[k]? = whole[k']? := by
  obtain ⟨top, rfl⟩ := h
  rw [List.length_append] at hk
  rw [List.getElem?_append_right (by omega)]
  congr 1
  omega

/-- Placeholders leave the memory as it is, and names where they are, counted from the bottom. -/
theorem Steps.placeholders_over {net next : Int} (h : Steps sig .bare ((placeholders net next).map .data) s notes t) :
    t.memory = s.memory ∧ ∀ p q v y, p.Over t.stack.length s.stack.length q → s.nameAt q = some v →
      t.nameAt p = some y → y = v := by
  have hids : placeholders net next = ((List.range net.natAbs).map fun (k : Nat) => next + k).map
      (placeholder (net < 0)) := by
    rw [List.map_map]
    rfl
  rw [hids] at h
  obtain ⟨hlocals, hglobals, hmemory, hstack⟩ := steps_placeholders_suffix h
  refine ⟨hmemory, fun p q v y hpq hv hy => ?_⟩
  cases p with
  | memory k => cases hpq
  | locals n =>
    obtain rfl : Place.locals n = q := hpq
    exact Option.some.inj (hy.symm.trans ((congrArg (·[n]?) hlocals).trans hv))
  | globals n =>
    obtain rfl : Place.globals n = q := hpq
    exact Option.some.inj (hy.symm.trans ((congrArg (·[n]?) hglobals).trans hv))
  | stack k => cases q with
    | stack k' =>
      change k + s.stack.length = k' + t.stack.length at hpq
      refine Option.some.inj (hy.symm.trans (Eq.trans ?_ hv))
      change t.stack[k]? = s.stack[k']?
      -- One of the two stacks is the bottom of the other.
      split at hstack
      · exact getElem?_of_suffix hstack hpq
      · exact (getElem?_of_suffix hstack hpq.symm).symm
    | _ => cases hpq

end

end Backslice
