import Backslice.Flow
import Backslice.Proofs.Data.Table

/-! # Equality of names and of states

Names are equal if they have the same key, and states are equal if the keys agree place by place. What a state
mentions, and how long its parts are, depends on the state only up to this equality. -/

namespace Backslice

set_option autoImplicit false

/-! ## Names -/

theorem Number.key_key (n : Number) : n.key.key = n.key := by
  cases n with
  | int n => rfl
  | float text =>
    unfold key
    cases h : whole? text <;> simp [h]
  | nan occurrence => rfl

theorem Immediate.key_key (i : Immediate) : i.key.key = i.key := by
  cases i with
  | absent => rfl
  | int n => rfl
  | literal c => simp [key, Literal.key, Number.key_key]

namespace Var

theorem key_key (v : Var) : v.key.key = v.key := by
  induction v with
  | constant value => simp [key, Immediate.key_key]
  | cell address offset ih => simp [key, ih]
  | _ => rfl

theorem bne_iff {a b : Var} : (a != b) = true ↔ a.key ≠ b.key := by
  rw [bne, Bool.not_eq_true', ← Bool.not_eq_true, beq_iff]

theorem beq_false_iff {a b : Var} : (a == b) = false ↔ a.key ≠ b.key := by
  rw [← Bool.not_eq_true, beq_iff]

theorem list_beq_iff {l l' : List Var} : (l == l') = true ↔ l.map key = l'.map key := by
  induction l generalizing l' with
  | nil => cases l' <;> simp
  | cons a rest ih => cases l' with
    | nil => simp
    | cons b rest' => simp [ih, beq_iff]

theorem contains_iff {l : List Var} {v : Var} : l.contains v = true ↔ ∃ w ∈ l, w.key = v.key := by
  rw [List.contains_iff_exists_mem_beq]
  exact exists_congr fun w => and_congr_right fun _ => beq_iff.trans eq_comm

end Var

/-! ## Slots -/

namespace Slot

def key (k : Slot) : Slot := (k.1.key, k.2)

theorem beq_iff (a b : Slot) : (a == b) = true ↔ key a = key b := by
  have h : (a == b) = true ↔ (a.1 == b.1) = true ∧ (a.2 == b.2) = true := Bool.and_eq_true_iff
  rw [h, Var.beq_iff, beq_iff_eq, key, key, Prod.mk.injEq]

end Slot

/-! ## States -/

namespace State

/-- States are equal if all their places have equal names. -/
theorem beq_iff {s t : State} : (s == t) = true ↔ s.stack.map Var.key = t.stack.map Var.key ∧
    s.locals.map Var.key = t.locals.map Var.key ∧ s.globals.map Var.key = t.globals.map Var.key ∧
    ∀ k, (s.memory.find? k).map Var.key = (t.memory.find? k).map Var.key := by
  have hmem : s.memory.same t.memory = true ↔
      ∀ k, (s.memory.find? k).map Var.key = (t.memory.find? k).map Var.key := by
    rw [Table.same_iff Slot.beq_iff]
    constructor
    · rintro ⟨h, hback⟩ k
      cases hs : s.memory.find? k with
      | some v =>
        obtain ⟨w, hw, hvw⟩ := h k v hs
        simp [hw, Var.beq_iff.mp hvw]
      | none =>
        have hnot : t.memory.contains k = false := by
          rw [← Bool.not_eq_true]
          intro hk
          rw [Table.find?_eq_none_iff, hback k hk] at hs
          cases hs
        simp [Table.find?_eq_none_iff.mpr hnot]
    · intro h
      refine ⟨fun k v hv => ?_, fun k hk => ?_⟩
      · have hk := h k
        rw [hv] at hk
        obtain ⟨w, hw, hwv⟩ := Option.map_eq_some_iff.mp hk.symm
        exact ⟨w, hw, Var.beq_iff.mpr hwv.symm⟩
      · obtain ⟨w, hw⟩ := Table.contains_iff_find?.mp hk
        have hk := h k
        rw [hw] at hk
        obtain ⟨v, hv, _⟩ := Option.map_eq_some_iff.mp hk
        exact Table.contains_iff_find?.mpr ⟨v, hv⟩
  have hparts : (s == t) = true ↔ (s.stack == t.stack) = true ∧ (s.locals == t.locals) = true ∧
      (s.globals == t.globals) = true ∧ s.memory.same t.memory = true := by
    show (s.stack == t.stack && s.locals == t.locals && s.globals == t.globals && s.memory.same t.memory) = true ↔ _
    simp only [Bool.and_eq_true, and_assoc]
  rw [hparts, Var.list_beq_iff, Var.list_beq_iff, Var.list_beq_iff, hmem]

instance : EquivBEq State where
  symm h := by
    obtain ⟨h₁, h₂, h₃, h₄⟩ := beq_iff.mp h
    exact beq_iff.mpr ⟨h₁.symm, h₂.symm, h₃.symm, fun k => (h₄ k).symm⟩
  trans h h' := by
    obtain ⟨h₁, h₂, h₃, h₄⟩ := beq_iff.mp h
    obtain ⟨h₁', h₂', h₃', h₄'⟩ := beq_iff.mp h'
    exact beq_iff.mpr ⟨h₁.trans h₁', h₂.trans h₂', h₃.trans h₃', fun k => (h₄ k).trans (h₄' k)⟩
  rfl := beq_iff.mpr ⟨rfl, rfl, rfl, fun _ => rfl⟩

/-! ## Places -/

end State

/-- A place of a state that holds a name. -/
inductive Place where
  | stack (k : Nat)
  | locals (k : Nat)
  | globals (k : Nat)
  | memory (k : Slot)
deriving DecidableEq

/-- A place of the stack, the locals or the globals. -/
def Place.IsCell : Place → Prop
  | .memory _ => False
  | _ => True

namespace State

def nameAt (s : State) : Place → Option Var
  | .stack k => s.stack[k]?
  | .locals k => s.locals[k]?
  | .globals k => s.globals[k]?
  | .memory k => s.memory.find? k

theorem beq_iff_nameAt {s t : State} :
    (s == t) = true ↔ ∀ p, (s.nameAt p).map Var.key = (t.nameAt p).map Var.key := by
  have hlist : ∀ {l l' : List Var}, l.map Var.key = l'.map Var.key ↔
      ∀ k : Nat, l[k]?.map Var.key = l'[k]?.map Var.key := by
    intro l l'
    rw [List.ext_getElem?_iff]
    simp only [List.getElem?_map]
  rw [beq_iff, hlist, hlist, hlist]
  constructor
  · rintro ⟨h₁, h₂, h₃, h₄⟩ p
    cases p with
    | stack k => exact h₁ k
    | locals k => exact h₂ k
    | globals k => exact h₃ k
    | memory k => exact h₄ k
  · intro h
    exact ⟨fun k => h (.stack k), fun k => h (.locals k), fun k => h (.globals k), fun k => h (.memory k)⟩

theorem nameAt_of_beq {s t : State} (h : (s == t) = true) {p : Place} {v : Var} (hp : s.nameAt p = some v) :
    ∃ w, t.nameAt p = some w ∧ w.key = v.key := by
  have heq := beq_iff_nameAt.mp h p
  rw [hp] at heq
  exact Option.map_eq_some_iff.mp heq.symm

theorem length_stack_of_beq {s t : State} (h : (s == t) = true) : s.stack.length = t.stack.length := by
  simpa using congrArg List.length (beq_iff.mp h).1

theorem length_locals_of_beq {s t : State} (h : (s == t) = true) : s.locals.length = t.locals.length := by
  simpa using congrArg List.length (beq_iff.mp h).2.1

theorem length_globals_of_beq {s t : State} (h : (s == t) = true) : s.globals.length = t.globals.length := by
  simpa using congrArg List.length (beq_iff.mp h).2.2.1

/-! ## The names that a state mentions -/

def Mentions (s : State) (v : Var) : Prop := ∃ w ∈ s.vars, w.key = v.key

theorem mentions_of_mem {s : State} {v : Var} (h : v ∈ s.vars) : s.Mentions v := ⟨v, h, rfl⟩

theorem mentions_iff_contains {s : State} {v : Var} : s.Mentions v ↔ s.vars.contains v = true :=
  Var.contains_iff.symm

theorem mentions_congr {s : State} {v w : Var} (h : v.key = w.key) : s.Mentions v ↔ s.Mentions w := by
  unfold Mentions
  rw [h]

theorem mem_vars {s : State} {v : Var} : v ∈ s.vars ↔ v ∈ s.stack ∨ v ∈ s.locals ∨ v ∈ s.globals ∨
    ∃ e ∈ s.memory.entries, v = e.1.1 ∨ v = e.2 := by
  simp [vars]

/-- Where no place but those of one name changes, only that name comes in. -/
theorem mem_vars_of_parts {s t : State} {x y : Var} (hy : y ∈ t.vars) (hstack : ∀ v ∈ t.stack, v ∈ s.stack ∨ v = x)
    (hlocals : ∀ v ∈ t.locals, v ∈ s.locals ∨ v = x) (hglobals : ∀ v ∈ t.globals, v ∈ s.globals ∨ v = x)
    (hmemory : t.memory = s.memory) : y ∈ s.vars ∨ y = x := by
  rw [mem_vars, hmemory] at hy
  rw [mem_vars]
  rcases hy with hy | hy | hy | hy
  · exact (hstack y hy).imp_left Or.inl
  · exact (hlocals y hy).imp_left fun hy => Or.inr (Or.inl hy)
  · exact (hglobals y hy).imp_left fun hy => Or.inr (Or.inr (Or.inl hy))
  · exact Or.inl (Or.inr (Or.inr (Or.inr hy)))

/-- A store brings in no name. -/
theorem mem_vars_of_store {s : State} {value address y : Var} {rest : List Var} {offset : Int}
    (hs : s.stack = value :: address :: rest)
    (hy : y ∈ ({ s with stack := rest, memory := s.memory.insert (address, offset) value } : State).vars) :
    y ∈ s.vars := by
  rw [mem_vars] at hy ⊢
  rw [hs]
  rcases hy with hy | hy | hy | ⟨e, he, hy⟩
  · exact Or.inl (List.mem_cons_of_mem _ (List.mem_cons_of_mem _ hy))
  · exact Or.inr (Or.inl hy)
  · exact Or.inr (Or.inr (Or.inl hy))
  · rcases Table.mem_entries_insert he with hold | ⟨hvalue, hkey⟩
    · exact Or.inr (Or.inr (Or.inr ⟨e, hold, hy⟩))
    · rcases hy with rfl | rfl
      · rcases hkey with hkey | ⟨old, hold⟩
        · exact Or.inl (by simp [hkey])
        · exact Or.inr (Or.inr (Or.inr ⟨_, hold, Or.inl rfl⟩))
      · exact Or.inl (by simp [hvalue])

theorem mem_vars_of_nameAt {s : State} {p : Place} {v : Var} (h : s.nameAt p = some v) : v ∈ s.vars := by
  rw [mem_vars]
  cases p with
  | stack k => exact Or.inl (List.mem_of_getElem? h)
  | locals k => exact Or.inr (Or.inl (List.mem_of_getElem? h))
  | globals k => exact Or.inr (Or.inr (Or.inl (List.mem_of_getElem? h)))
  | memory k =>
    obtain ⟨k', hm, _⟩ := Table.exists_mem_of_find? h
    exact Or.inr (Or.inr (Or.inr ⟨_, hm, Or.inr rfl⟩))

/-- The names of a state are those at its places, and the addresses of its memory slots. -/
theorem mentions_iff {s : State} {v : Var} : s.Mentions v ↔ (∃ p w, s.nameAt p = some w ∧ w.key = v.key) ∨
    ∃ k w, s.memory.find? k = some w ∧ k.1.key = v.key := by
  constructor
  · rintro ⟨w, hw, hv⟩
    rcases mem_vars.mp hw with hw | hw | hw | ⟨e, he, rfl | rfl⟩
    · obtain ⟨k, hk⟩ := List.mem_iff_getElem?.mp hw
      exact Or.inl ⟨.stack k, w, hk, hv⟩
    · obtain ⟨k, hk⟩ := List.mem_iff_getElem?.mp hw
      exact Or.inl ⟨.locals k, w, hk, hv⟩
    · obtain ⟨k, hk⟩ := List.mem_iff_getElem?.mp hw
      exact Or.inl ⟨.globals k, w, hk, hv⟩
    · exact Or.inr ⟨e.1, e.2, Table.find?_of_mem he, hv⟩
    · exact Or.inl ⟨.memory e.1, e.2, Table.find?_of_mem he, hv⟩
  · rintro (⟨p, w, hp, hv⟩ | ⟨k, w, hk, hv⟩)
    · exact ⟨w, mem_vars_of_nameAt hp, hv⟩
    · obtain ⟨k', hm, hk'⟩ := Table.exists_mem_of_find? hk
      have haddress : k'.1.key = k.1.key := congrArg (·.1) ((Slot.beq_iff _ _).mp hk')
      exact ⟨k'.1, mem_vars.mpr (Or.inr (Or.inr (Or.inr ⟨_, hm, Or.inl rfl⟩))), haddress.trans hv⟩

theorem mentions_of_nameAt {s : State} {p : Place} {v : Var} (h : s.nameAt p = some v) : s.Mentions v :=
  mentions_iff.mpr (Or.inl ⟨p, v, h, rfl⟩)

theorem Mentions.of_beq {s t : State} {v : Var} (hst : (s == t) = true) (h : s.Mentions v) : t.Mentions v := by
  rw [mentions_iff] at h ⊢
  rcases h with ⟨p, w, hp, hv⟩ | ⟨k, w, hk, hv⟩
  · obtain ⟨w', hp', hw⟩ := nameAt_of_beq hst hp
    exact Or.inl ⟨p, w', hp', hw.trans hv⟩
  · obtain ⟨w', hk', _⟩ := nameAt_of_beq (p := .memory k) hst hk
    exact Or.inr ⟨k, w', hk', hv⟩

end State

/-! ## Program points -/

namespace Flow

/-- Both unknown, or known with equal states. -/
def Alike : Flow → Flow → Prop
  | bottom, bottom => True
  | known s, known t => (s == t) = true
  | _, _ => False

theorem Alike.refl (f : Flow) : f.Alike f := by
  cases f with
  | bottom => trivial
  | known s => exact BEq.rfl

theorem Alike.trans {f f' f'' : Flow} (h : f.Alike f') (h' : f'.Alike f'') : f.Alike f'' := by
  cases f with
  | bottom => cases f' with
    | bottom => exact h'
    | known _ => cases h
  | known s => cases f' with
    | bottom => cases h
    | known t => cases f'' with
      | bottom => cases h'
      | known u => exact (BEq.trans h h' : (s == u) = true)

theorem Alike.known {f : Flow} {t : State} (h : f.Alike (known t)) : ∃ s, f = .known s ∧ (s == t) = true := by
  cases f with
  | bottom => cases h
  | known s => exact ⟨s, rfl, h⟩

end Flow
end Backslice
