import Backslice.Proofs.Data.Distinct
import Backslice.Proofs.Data.Success
import Backslice.Proofs.Data.Table
import Backslice.Proofs.Names
import Backslice.UseDef.Build

/-! # Tables of definitions and uses

What each operation adds to the tables. The parts of a collection may be put together as long as no name is
defined by two of them. -/

namespace Backslice

set_option autoImplicit false

theorem Use.var_beq {u u' : Use} (h : (u == u') = true) : (u.var == u'.var) = true := by
  rw [Use.beq_iff] at h
  rw [Var.beq_iff]
  cases u <;> cases u' <;> simp_all [Use.key, Use.var]

namespace UseDef

variable {t t' t'' : UseDef} {D D' : Var → Prop} {U U' : Use → Prop} {C C' : Var → Prop}

def Uses (t : UseDef) (u : Use) : Prop := ∃ us, t.uses.find? u.var = some us ∧ us.contains u = true

/-- The uses of a name are listed once, at that name, and only names with a use have a list. -/
def Tidy (t : UseDef) : Prop :=
  ∀ v us, t.uses.find? v = some us →
    us ≠ [] ∧ us.Pairwise (fun a b => (a == b) = false) ∧ ∀ u ∈ us, (u.var == v) = true

/-- From `t` to `t'` the definitions of the names `D`, the uses `U` and producers of the constants `C` are added.
-/
structure Adds (t t' : UseDef) (D : Var → Prop) (U : Use → Prop) (C : Var → Prop) : Prop where
  defs : ∀ v, t'.defs.contains v = true ↔ t.defs.contains v = true ∨ D v
  uses : ∀ u, t'.Uses u ↔ t.Uses u ∨ U u
  producers : ∀ v, t'.producers.contains v = true ↔ t.producers.contains v = true ∨ C v
  tidy : t.Tidy → t'.Tidy

theorem Adds.refl (t : UseDef) : Adds t t (fun _ => False) (fun _ => False) fun _ => False where
  defs _ := by simp
  uses _ := by simp
  producers _ := by simp
  tidy h := h

theorem Adds.trans (h : Adds t t' D U C) (h' : Adds t' t'' D' U' C') :
    Adds t t'' (fun v => D v ∨ D' v) (fun u => U u ∨ U' u) fun v => C v ∨ C' v where
  defs v := by rw [h'.defs, h.defs, or_assoc]
  uses u := by rw [h'.uses, h.uses, or_assoc]
  producers v := by rw [h'.producers, h.producers, or_assoc]
  tidy ht := h'.tidy (h.tidy ht)

theorem Adds.congr (h : Adds t t' D U C) (hD : ∀ v, D v ↔ D' v) (hU : ∀ u, U u ↔ U' u) (hC : ∀ v, C v ↔ C' v) :
    Adds t t' D' U' C' where
  defs v := by rw [h.defs, hD]
  uses u := by rw [h.uses, hU]
  producers v := by rw [h.producers, hC]
  tidy := h.tidy

/-! ## One entry -/

theorem define_adds {v : Var} (d : Def) (hv : t.defs.contains v = false) :
    ∃ t', t.define v d = .ok t' ∧ Adds t t' (fun w => (v == w) = true) (fun _ => False) fun _ => False := by
  refine ⟨{ t with defs := t.defs.insert v d }, ?_, fun w => ?_, fun u => ?_, fun w => ?_, fun ht => ht⟩
  · rw [define, Table.find?_eq_none_iff.mpr hv]
    rfl
  · rw [Table.contains_insert, Bool.or_eq_true, or_comm]
  · simp [Uses]
  · simp

theorem define_unless_adds {v : Var} {known : Bool} (d : Def) (hv : t.defs.contains v = known) :
    ∃ t', (if known then pure t else t.define v d) = .ok t' ∧
      Adds t t' (fun w => (v == w) = true) (fun _ => False) fun _ => False := by
  cases known with
  | false => exact define_adds d hv
  | true =>
    refine ⟨t, rfl, fun w => ⟨Or.inl, fun h => h.elim id fun hw => ?_⟩, by simp, by simp, id⟩
    rw [← Table.contains_congr _ hw, hv]

theorem use_adds (t : UseDef) (u : Use) :
    Adds t (t.use u) (fun _ => False) (fun u' => (u == u') = true) fun _ => False := by
  have hfind : ∀ v, (t.use u).uses.find? v = if u.var == v then
      some (if ((t.uses.find? u.var).getD []).contains u then (t.uses.find? u.var).getD []
        else (t.uses.find? u.var).getD [] ++ [u]) else t.uses.find? v := by
    intro v
    rw [use, Table.alter, Table.find?_insert]
  refine ⟨fun v => by simp [use], fun u' => ?_, fun v => by simp [use], fun ht => ?_⟩
  · unfold Uses
    rw [hfind]
    by_cases hvar : (u.var == u'.var) = true
    · rw [if_pos hvar, ← Table.find?_congr t.uses hvar]
      cases t.uses.find? u.var with
      | none => simp [BEq.comm]
      | some us =>
        simp only [Option.getD_some, Option.some.injEq, exists_eq_left']
        split
        · rename_i hu
          refine ⟨Or.inl, fun h => h.elim id fun heq => ?_⟩
          rwa [← List.contains_congr heq]
        · rw [List.contains_append, Bool.or_eq_true]
          simp [BEq.comm]
    · rw [if_neg hvar]
      exact ⟨Or.inl, fun h => h.elim id fun heq => absurd (Use.var_beq heq) hvar⟩
  · intro v us hus
    rw [hfind] at hus
    split at hus
    · rename_i hvar
      have hold : ((t.uses.find? u.var).getD []).Pairwise (fun a b => (a == b) = false) ∧
          ∀ w ∈ (t.uses.find? u.var).getD [], (w.var == u.var) = true := by
        cases hfind : t.uses.find? u.var with
        | none => simp
        | some us => exact (ht u.var us hfind).2
      rw [Option.some.injEq] at hus
      subst hus
      split
      · rename_i hmem
        refine ⟨fun hnil => ?_, hold.1, fun w hw => BEq.trans (hold.2 w hw) hvar⟩
        rw [hnil] at hmem
        cases hmem
      · rename_i hnew
        refine ⟨by simp, List.pairwise_append.mpr ⟨hold.1, List.pairwise_singleton _ u, ?_⟩, ?_⟩
        · intro a ha b hb
          rw [List.mem_singleton.mp hb, BEq.comm]
          exact Bool.eq_false_iff.mpr fun hua => hnew (List.contains_iff_exists_mem_beq.mpr ⟨a, ha, hua⟩)
        · intro w hw
          rcases List.mem_append.mp hw with hw | hw
          · exact BEq.trans (hold.2 w hw) hvar
          · rwa [List.mem_singleton.mp hw]
    · exact ht v us hus

theorem produce_adds (t : UseDef) (v : Var) (l : Label) :
    Adds t (t.produce v l) (fun _ => False) (fun _ => False) fun w => (v == w) = true := by
  refine ⟨fun w => by simp [produce], fun u => by simp [Uses, produce], fun w => ?_, fun ht => ht⟩
  rw [produce, Table.alter, Table.contains_insert, Bool.or_eq_true, or_comm]

/-! ## Parts of a collection -/

/-- Parts that define different names are collected one after the other. -/
theorem foldlM_adds {α : Type} {f : UseDef → α → Except Fault UseDef} {D C : α → Var → Prop}
    {U : α → Use → Prop} (l : List α) (hnew : ∀ a ∈ l, ∀ v, D a v → t.defs.contains v = false)
    (hapart : l.Pairwise fun a b => ∀ v, D a v → ¬ D b v)
    (step : ∀ a ∈ l, ∀ t : UseDef, (∀ v, D a v → t.defs.contains v = false) →
      ∃ t', f t a = .ok t' ∧ Adds t t' (D a) (U a) (C a)) :
    ∃ t', l.foldlM f t = .ok t' ∧
      Adds t t' (fun v => ∃ a ∈ l, D a v) (fun u => ∃ a ∈ l, U a u) fun v => ∃ a ∈ l, C a v := by
  induction l generalizing t with
  | nil => exact ⟨t, rfl, (Adds.refl t).congr (by simp) (by simp) (by simp)⟩
  | cons a rest ih =>
    obtain ⟨happart, hrest⟩ := List.pairwise_cons.mp hapart
    obtain ⟨t₁, hfirst, hadds⟩ := step a List.mem_cons_self t (hnew a List.mem_cons_self)
    have hnew' : ∀ b ∈ rest, ∀ v, D b v → t₁.defs.contains v = false := by
      intro b hb v hv
      rw [Bool.eq_false_iff, ne_eq, hadds.defs, hnew b (List.mem_cons_of_mem a hb) v hv]
      exact fun h => h.elim Bool.false_ne_true fun ha => happart b hb v ha hv
    obtain ⟨t₂, hthen, hadds'⟩ := ih hnew' hrest fun b hb => step b (List.mem_cons_of_mem a hb)
    refine ⟨t₂, ?_, (hadds.trans hadds').congr ?_ ?_ ?_⟩
    · rw [List.foldlM_cons, hfirst]
      exact hthen
    all_goals
      intro
      rw [List.exists_mem_cons_iff]

theorem addEntry_adds {g : Graph} {note : Note} (hnote : g.blockNote g.entry = .ok note)
    (hnew : ∀ v, note.before.state.Mentions v → t.defs.contains v = false) :
    ∃ t', t.addEntry g = .ok t' ∧ Adds t t' note.before.state.Mentions (fun _ => False) fun _ => False := by
  have hmentions : ∀ v, (∃ w ∈ note.before.state.vars.eraseDups, (w == v) = true) ↔ note.before.state.Mentions v := by
    intro v
    rw [State.mentions_iff_contains, ← contains_eraseDups, List.contains_iff_exists_mem_beq]
    simp only [BEq.comm]
  obtain ⟨t', hfold, hadds⟩ := foldlM_adds (f := fun t v => t.define v (.entry v)) (t := t)
    (D := fun v w => (v == w) = true) (U := fun _ _ => False) (C := fun _ _ => False)
    note.before.state.vars.eraseDups (fun w hw v hwv => hnew v ((hmentions v).mp ⟨w, hw, hwv⟩))
    ((pairwise_eraseDups _).imp fun hab v hav hbv => Bool.eq_false_iff.mp hab (BEq.trans hav (BEq.symm hbv)))
    fun v _ t hv => define_adds (.entry v) (hv v BEq.rfl)
  refine ⟨t', ?_, hadds.congr hmentions (by simp) (by simp)⟩
  rw [addEntry, hnote]
  exact hfold

theorem addMerge_adds {g : Graph} {index : Int} {b : Block} {pairs : List (Var × Var)}
    (hpairs : g.mergeUses index b = .ok pairs) (hnew : ∀ e ∈ pairs, t.defs.contains e.2 = false) :
    ∃ t', t.addMerge g index b = .ok t' ∧ Adds t t' (fun v => ∃ e ∈ pairs, (e.2 == v) = true)
      (fun u => ∃ e ∈ pairs, (Use.merge index e.1 == u) = true) fun _ => False := by
  have hstep : ∀ done e rest (p : UseDef × List Var), pairs = done ++ e :: rest →
      (Adds t p.1 (fun v => ∃ a ∈ done, (a.2 == v) = true)
          (fun u => ∃ a ∈ done, (Use.merge index a.1 == u) = true) (fun _ => False) ∧
        ∀ v, p.2.contains v = true ↔ ∃ a ∈ done, (a.2 == v) = true) →
      ∃ p', (do
          let t ← if p.2.contains e.2 then pure p.1 else p.1.define e.2 (.merge index e.2)
          return (t.use (.merge index e.1), e.2 :: p.2)) = Except.ok p' ∧
        Adds t p'.1 (fun v => ∃ a ∈ done ++ [e], (a.2 == v) = true)
          (fun u => ∃ a ∈ done ++ [e], (Use.merge index a.1 == u) = true) (fun _ => False) ∧
        ∀ v, p'.2.contains v = true ↔ ∃ a ∈ done ++ [e], (a.2 == v) = true := by
    rintro done e rest ⟨t₁, here⟩ hsplit ⟨hadds, hhere⟩
    have hknown : t₁.defs.contains e.2 = here.contains e.2 := by
      rw [Bool.eq_iff_iff, hadds.defs, hhere, hnew e (by simp [hsplit])]
      simp
    obtain ⟨t₂, hok, hadds'⟩ := define_unless_adds (.merge index e.2) hknown
    refine ⟨(t₂.use (.merge index e.1), e.2 :: here), ?_, ?_, fun v => ?_⟩
    · dsimp only
      cases hc : here.contains e.2 <;> rw [hc] at hok <;> exact bind_eq_ok.mpr ⟨t₂, hok, rfl⟩
    · exact ((hadds.trans hadds').trans (use_adds t₂ (.merge index e.1))).congr
        (by simp [or_and_right, exists_or]) (by simp [or_and_right, exists_or]) (by simp)
    · rw [List.contains_cons, Bool.or_eq_true, hhere, BEq.comm]
      simp [or_and_right, exists_or, or_comm]
  obtain ⟨⟨t', here⟩, hfold, hadds, -⟩ := foldlM_succeeds _ pairs (b := (t, []))
    ⟨(Adds.refl t).congr (by simp) (by simp) (by simp), by simp⟩ hstep
  refine ⟨t', ?_, hadds⟩
  rw [addMerge, hpairs, ok_bind]
  exact congrArg (· >>= fun p => pure p.1) hfold

theorem foldl_use_adds (t : UseDef) (vs : List Var) (l : Label) :
    Adds t (vs.foldl (fun t v => t.use (.instr l v)) t) (fun _ => False)
      (fun u => ∃ x ∈ vs, (Use.instr l x == u) = true) fun _ => False := by
  induction vs generalizing t with
  | nil => exact (Adds.refl t).congr (by simp) (by simp) (by simp)
  | cons v rest ih => exact ((use_adds t (.instr l v)).trans (ih _)).congr (by simp) (by simp) (by simp)

theorem addInstr_adds {l : Label} {i : Instr} {ds vs : List Var} (hdefs : i.defs = .ok ds) (huses : i.uses = .ok vs)
    (hapart : ds.Pairwise fun a b => (a == b) = false)
    (hnew : ∀ x ∈ ds, x.isConstant = false → t.defs.contains x = false) :
    ∃ t', t.addInstr l i = .ok t' ∧
      Adds t t' (fun v => ∃ x ∈ ds, x.isConstant = false ∧ (x == v) = true)
        (fun u => ∃ x ∈ vs, (Use.instr l x == u) = true)
        fun v => ∃ x ∈ ds, x.isConstant = true ∧ (x == v) = true := by
  obtain ⟨t', hfold, hadds⟩ := foldlM_adds (t := t)
    (f := fun t v => if v.isConstant then pure (t.produce v l) else t.define v (.instr l v))
    (D := fun x v => x.isConstant = false ∧ (x == v) = true) (U := fun _ _ => False)
    (C := fun x v => x.isConstant = true ∧ (x == v) = true) ds
    (fun x hx v hv => (Table.contains_congr _ hv.2).symm.trans (hnew x hx hv.1))
    (hapart.imp fun hab v hav hbv => Bool.eq_false_iff.mp hab (BEq.trans hav.2 (BEq.symm hbv.2)))
    (by
      intro x _ t hx
      by_cases hconst : x.isConstant = true
      · refine ⟨t.produce x l, by rw [if_pos hconst]; rfl, ?_⟩
        exact (produce_adds t x l).congr (by simp [hconst]) (by simp) (by simp [hconst])
      · rw [Bool.not_eq_true] at hconst
        obtain ⟨t', hok, hadds⟩ := define_adds (.instr l x) (hx x ⟨hconst, BEq.rfl⟩)
        refine ⟨t', by rw [hconst]; exact hok, ?_⟩
        exact hadds.congr (by simp [hconst]) (by simp) (by simp [hconst]))
  refine ⟨vs.foldl (fun t v => t.use (.instr l v)) t', ?_, ?_⟩
  · rw [addInstr, hdefs, ok_bind, hfold, ok_bind, huses]
    rfl
  · exact (hadds.trans (foldl_use_adds t' vs l)).congr (by simp) (by simp) (by simp)

theorem addConstants_spec (t : UseDef) :
    (∀ v, t.addConstants.defs.contains v = true ↔ t.defs.contains v = true ∨ t.producers.contains v = true) ∧
      t.addConstants.uses = t.uses := by
  have hfold : ∀ (l : List (Var × List Label)) (t t' : UseDef),
      l.foldl (fun t e =>
        if t.defs.contains e.1 then t else { t with defs := t.defs.insert e.1 (constantDef e.1 e.2) }) t = t' →
      (∀ v, t'.defs.contains v = true ↔ t.defs.contains v = true ∨ ∃ e ∈ l, (e.1 == v) = true) ∧
        t'.uses = t.uses := by
    intro l
    induction l with
    | nil => simp +contextual
    | cons e rest ih =>
      intro t t' ht'
      obtain ⟨hdefs, huses⟩ := ih _ _ ht'
      dsimp only at hdefs huses
      refine ⟨fun v => ?_, huses.trans (by split <;> rfl)⟩
      rw [hdefs, List.exists_mem_cons_iff, ← or_assoc]
      refine or_congr ?_ Iff.rfl
      split
      · rename_i hmem
        exact ⟨Or.inl, fun h => h.elim id fun hv => (Table.contains_congr _ hv).symm.trans hmem⟩
      · rw [Table.contains_insert, Bool.or_eq_true, or_comm]
  obtain ⟨hdefs, huses⟩ := hfold t.producers.entries t t.addConstants rfl
  exact ⟨fun v => (hdefs v).trans (or_congr Iff.rfl Table.contains_iff_exists_mem.symm), huses⟩

end UseDef

/-! ## Chains -/

theorem Chains.foldlM_add {cs : Chains} {us : List Use} (d : Def)
    (hapart : us.Pairwise fun a b => (a == b) = false) (hnew : ∀ u ∈ us, cs.contains u = false) :
    ∃ cs', us.foldlM (fun cs u => Chains.add cs u d) cs = .ok cs' ∧
      ∀ u, cs'.find? u = if us.contains u then some d else cs.find? u := by
  induction us generalizing cs with
  | nil => exact ⟨cs, rfl, by simp⟩
  | cons u rest ih =>
    obtain ⟨hu, hrest⟩ := List.pairwise_cons.mp hapart
    have hadd : Chains.add cs u d = .ok (cs.insert u d) := by
      rw [add, Table.find?_eq_none_iff.mpr (hnew u List.mem_cons_self)]
      rfl
    have hnew' : ∀ u' ∈ rest, (cs.insert u d).contains u' = false := by
      intro u' hu'
      rw [Table.contains_insert, hu u' hu', hnew u' (List.mem_cons_of_mem u hu')]
      rfl
    obtain ⟨cs', hfold, hfind⟩ := ih hrest hnew'
    refine ⟨cs', ?_, fun u' => ?_⟩
    · rw [List.foldlM_cons, hadd]
      exact hfold
    · rw [hfind, Table.find?_insert, List.contains_cons, BEq.comm]
      cases u' == u <;> cases rest.contains u' <;> rfl

namespace UseDef

variable {t : UseDef} {u : Use}

theorem Tidy.var_of_contains (ht : t.Tidy) {e : Var × List Use} (he : e ∈ t.uses.entries)
    (hu : e.2.contains u = true) : (u.var == e.1) = true := by
  obtain ⟨u', hu', huu'⟩ := List.contains_iff_exists_mem_beq.mp hu
  exact BEq.trans (Use.var_beq huu') ((ht e.1 e.2 (Table.find?_of_mem he)).2.2 u' hu')

theorem Tidy.uses_iff (ht : t.Tidy) : t.Uses u ↔ ∃ e ∈ t.uses.entries, e.2.contains u = true := by
  constructor
  · rintro ⟨us, hfind, hu⟩
    obtain ⟨v, hmem, -⟩ := Table.exists_mem_of_find? hfind
    exact ⟨(v, us), hmem, hu⟩
  · rintro ⟨e, he, hu⟩
    refine ⟨e.2, ?_, hu⟩
    rw [Table.find?_congr _ (ht.var_of_contains he hu), Table.find?_of_mem he]

theorem Tidy.exists_def (ht : t.Tidy) (hdefs : ∀ u, t.Uses u → t.defs.contains u.var = true) {e : Var × List Use}
    (he : e ∈ t.uses.entries) : ∃ d, t.defs.find? e.1 = some d := by
  obtain ⟨u, hu⟩ := List.exists_mem_of_ne_nil _ (ht e.1 e.2 (Table.find?_of_mem he)).1
  have hmem : e.2.contains u = true := List.contains_iff_exists_mem_beq.mpr ⟨u, hu, BEq.rfl⟩
  rw [← Table.contains_iff_find?, ← Table.contains_congr _ (ht.var_of_contains he hmem)]
  exact hdefs u (ht.uses_iff.mpr ⟨e, he, hmem⟩)

/-- Every use is chained to the definition of its name, once every used name has one. -/
theorem chains_ok (ht : t.Tidy) (hdefs : ∀ u, t.Uses u → t.defs.contains u.var = true) :
    ∃ cs, t.chains = .ok cs ∧ (∀ u, cs.contains u = true ↔ t.Uses u) ∧
      ∀ u d, cs.find? u = some d → t.defs.find? u.var = some d := by
  have hfolded : ∃ cs, t.chains = .ok cs ∧
      (∀ u, cs.contains u = true ↔ ∃ a ∈ t.uses.entries, a.2.contains u = true) ∧
      ∀ u d, cs.find? u = some d → t.defs.find? u.var = some d := by
    refine foldlM_succeeds (fun done (cs : Chains) =>
      (∀ u, cs.contains u = true ↔ ∃ a ∈ done, a.2.contains u = true) ∧
        ∀ u d, cs.find? u = some d → t.defs.find? u.var = some d) t.uses.entries ?_ ?_
    · exact ⟨by simp [Table.contains_eq_isSome_find?], by simp⟩
    rintro done e rest cs hsplit ⟨hcontains, hfind⟩
    have he : e ∈ t.uses.entries := by simp [hsplit]
    obtain ⟨d, hd⟩ := ht.exists_def hdefs he
    -- The uses chained so far are uses of other names.
    have hnew : ∀ u ∈ e.2, cs.contains u = false := by
      intro u hu
      rw [Bool.eq_false_iff, ne_eq, hcontains]
      rintro ⟨a, ha, hau⟩
      have hdistinct := t.uses.distinct
      rw [hsplit, List.map_append, List.pairwise_append] at hdistinct
      have hne : (a.1 == e.1) = false := hdistinct.2.2 a.1 (List.mem_map_of_mem ha) e.1 (by simp)
      have hvar := ht.var_of_contains (by simp [hsplit, ha]) hau
      have hvar' := (ht e.1 e.2 (Table.find?_of_mem he)).2.2 u hu
      exact Bool.eq_false_iff.mp hne (BEq.trans (BEq.symm hvar) hvar')
    obtain ⟨cs', hfold, hfind'⟩ := Chains.foldlM_add d (ht e.1 e.2 (Table.find?_of_mem he)).2.1 hnew
    refine ⟨cs', by dsimp only; rw [hd]; exact hfold, fun u => ?_, fun u d' hu => ?_⟩
    · simp only [List.mem_append, List.mem_singleton, or_and_right, exists_or, exists_eq_left, ← hcontains]
      rw [Table.contains_eq_isSome_find?, hfind', Table.contains_eq_isSome_find?]
      cases e.2.contains u <;> simp
    · rw [hfind'] at hu
      split at hu
      · rename_i hmem
        rw [Table.find?_congr _ (ht.var_of_contains he hmem), hd]
        exact hu
      · exact hfind u d' hu
  obtain ⟨cs, hok, hcontains, hfind⟩ := hfolded
  exact ⟨cs, hok, fun u => (hcontains u).trans ht.uses_iff.symm, hfind⟩

end UseDef
end Backslice
