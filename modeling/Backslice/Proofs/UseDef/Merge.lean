import Backslice.Proofs.Annotated
import Backslice.Proofs.Data.Distinct
import Backslice.UseDef.Merge

/-! # Names used and defined at a join point

The new names at the differences between the states in front of a join point and the state behind it are exactly
the names that the join point makes and that are met behind it. -/

namespace Backslice

set_option autoImplicit false

/-! ## Differences between two states -/

namespace State

variable {a b : State} {old new : Var}

theorem mem_mismatches {before after : List Var} : (old, new) ∈ mismatches before after ↔
    ∃ k : Nat, before[k]? = some old ∧ after[k]? = some new ∧ old.key ≠ new.key := by
  rw [mismatches, List.mem_filter, List.mem_iff_getElem?, Var.bne_iff]
  simp only [List.getElem?_zip_eq_some]
  constructor
  · rintro ⟨⟨k, h₁, h₂⟩, hne⟩
    exact ⟨k, h₁, h₂, hne⟩
  · rintro ⟨k, h₁, h₂, hne⟩
    exact ⟨⟨k, h₁, h₂⟩, hne⟩

theorem mem_reboundSlots {k : Slot} : (k, old, new) ∈ reboundSlots a b ↔
    (k, new) ∈ b.memory.entries ∧ a.memory.find? k = some old ∧ old.key ≠ new.key := by
  rw [reboundSlots, List.mem_filterMap]
  constructor
  · rintro ⟨e, he, h⟩
    split at h
    · rename_i v hv
      split at h
      · rename_i hne
        cases h
        exact ⟨he, hv, Var.bne_iff.mp hne⟩
      · cases h
    · cases h
  · rintro ⟨he, hold, hne⟩
    refine ⟨(k, new), he, ?_⟩
    simp only [hold]
    rw [if_pos (Var.bne_iff.mpr hne)]

theorem mem_differences : (old, new) ∈ differences a b ↔
    ∃ p, a.nameAt p = some old ∧ b.nameAt p = some new ∧ old.key ≠ new.key := by
  simp only [differences, List.mem_append, mem_mismatches]
  constructor
  · rintro (((⟨k, h⟩ | ⟨k, h⟩) | ⟨k, h⟩) | h)
    · exact ⟨.stack k, h⟩
    · exact ⟨.locals k, h⟩
    · exact ⟨.globals k, h⟩
    · obtain ⟨⟨k, x⟩, hx, rfl⟩ := List.mem_map.mp h
      obtain ⟨he, hold, hne⟩ := mem_reboundSlots.mp hx
      exact ⟨.memory k, hold, Table.find?_of_mem he, hne⟩
  · rintro ⟨p, hold, hnew, hne⟩
    cases p with
    | stack k => exact Or.inl (Or.inl (Or.inl ⟨k, hold, hnew, hne⟩))
    | locals k => exact Or.inl (Or.inl (Or.inr ⟨k, hold, hnew, hne⟩))
    | globals k => exact Or.inl (Or.inr ⟨k, hold, hnew, hne⟩)
    | memory k =>
      obtain ⟨k', he, hk⟩ := Table.exists_mem_of_find? hnew
      refine Or.inr (List.mem_map.mpr ⟨(k', old, new), mem_reboundSlots.mpr ⟨he, ?_, hne⟩, rfl⟩)
      rw [Table.find?_congr a.memory hk]
      exact hold

end State

/-! ## Join points of an annotated graph -/

namespace Graph

variable {g : Graph} {c : Config} {r : Run} {index : Int} {b : Block} {inputs : List State} {s t : State}
  {notes : List (Label × Note)}

/-- The states that a join point renames are those that come in, up to equality. -/
theorem Solved.mergeSources_ok (h : g.Solved c r) (hset : g.Settled c r index b inputs s t notes)
    (hm : b.isMerge = true) : ∃ sources, (g.withRun r).mergeSources index (b.withRun r index) = .ok sources ∧
      (∀ a ∈ sources, (∃ u ∈ inputs, (u == a) = true) ∨ (inputs = [] ∧ a = s)) ∧
      ∀ u ∈ inputs, ∃ a ∈ sources, (u == a) = true := by
  obtain ⟨note, u₀, hnote, hbefore, hu₀⟩ := hset.before_merge hm
  have hmergeNote : mergeNote index (b.withRun r index) = .ok note := by
    rw [mergeNote, note_withRun hnote]
    rfl
  have hpred : ∀ e ∈ g.predecessors index, ∃ note' t', ((g.withRun r).findBlock e.target >>= fun x => pure x.note) =
      Except.ok (some note') ∧ note'.after = .known t' ∧ r.Exits e.target t' := by
    intro e he
    obtain ⟨u, _, t', ⟨note', hnote', hafter⟩, _⟩ := hset.input_of_pred he
    have hedge := (h.connected.inverse e.target index e.cond).mpr he
    obtain ⟨bₑ, hbₑ⟩ := hasBlock_iff.mp (h.connected.ends e.target _ hedge).1
    refine ⟨note', t', ?_, hafter, note', hnote', hafter⟩
    rw [findBlock_withRun hbₑ, ok_bind, note_withRun hnote']
    rfl
  obtain ⟨behind, hbehind⟩ := mapM_succeeds (l := g.predecessors index)
    (f := fun e => (g.withRun r).findBlock e.target >>= fun x => pure x.note)
    fun e he => (hpred e he).elim fun note' hn => hn.elim fun t' ht => ⟨_, ht.1⟩
  refine ⟨note.before.state :: (behind.filterMap id).map (·.after.state), ?_, ?_, ?_⟩
  · unfold mergeSources
    rw [hmergeNote, ok_bind, predecessors_withRun]
    exact bind_eq_ok.mpr ⟨behind, hbehind, rfl⟩
  · intro a ha
    rcases List.mem_cons.mp ha with rfl | ha
    · rw [hbefore]
      rcases hu₀ with hu₀ | ⟨hnil, rfl⟩
      · exact Or.inl ⟨u₀, hu₀, BEq.rfl⟩
      · exact Or.inr ⟨hnil, rfl⟩
    · obtain ⟨note', hnote', rfl⟩ := List.mem_map.mp ha
      obtain ⟨x, hx, hxnote⟩ := List.mem_filterMap.mp hnote'
      obtain ⟨e, he, hex⟩ := (mem_of_mapM hbehind).mp hx
      obtain ⟨note'', t', hfound, hafter, hexits⟩ := hpred e he
      obtain ⟨u, hu, t'', ht'', hut⟩ := hset.input_of_pred he
      rw [hfound, Except.ok.injEq] at hex
      rw [← hex, id, Option.some.injEq] at hxnote
      rw [← hxnote, hafter, hexits.unique ht'']
      exact Or.inl ⟨u, hu, hut⟩
  · intro u hu
    obtain ⟨e, he, t', ht', hut⟩ := hset.pred_of_input hu
    obtain ⟨note', t'', hfound, hafter, hexits⟩ := hpred e he
    have hmem : note' ∈ behind.filterMap id :=
      List.mem_filterMap.mpr ⟨some note', (mem_of_mapM hbehind).mpr ⟨e, he, hfound⟩, rfl⟩
    refine ⟨t', List.mem_cons_of_mem _ (List.mem_map.mpr ⟨note', hmem, ?_⟩), hut⟩
    rw [hafter, hexits.unique ht']
    rfl

/-- A join point renames from names that are met in front of it to names that it makes, and it does so for all
names that it makes and that are met behind it. -/
theorem Solved.mergeUses_ok (h : g.Solved c r) (hb : g.blocks.find? index = some b)
    (hset : g.Settled c r index b inputs s t notes) (hm : b.isMerge = true) :
    ∃ pairs, (g.withRun r).mergeUses index (b.withRun r index) = .ok pairs ∧
      (∀ e ∈ pairs, g.BornAt index e.2 ∧ e.2 ∈ s.vars ∧ ∃ t', g.Reached c r t' ∧ t'.Mentions e.1) ∧
      ∀ v, s.Mentions v → g.BornAt index v → ∃ e ∈ pairs, e.2 = v := by
  obtain ⟨sources, hsources, hfrom, hto⟩ := h.mergeSources_ok hset hm
  obtain ⟨note, hnote, hafter⟩ := hset.exits
  have hst : note.after.state = s := by rw [hafter, hset.exit_eq_start hm]; rfl
  have hok : (g.withRun r).mergeUses index (b.withRun r index) =
      .ok (sources.flatMap fun a => a.differences s).eraseDups := by
    unfold mergeUses mergeNote
    rw [note_withRun hnote, hsources, ← hst]
    rfl
  refine ⟨_, hok, ?_, ?_⟩
  · rintro ⟨old, new⟩ he
    obtain ⟨a, ha, hdiff⟩ := List.mem_flatMap.mp (mem_of_mem_eraseDups he)
    obtain ⟨p, hold, hnew, hne⟩ := State.mem_differences.mp hdiff
    rcases hfrom a ha with ⟨u, hu, hua⟩ | ⟨_, rfl⟩
    · cases hset.starts with
      | entry => cases hu
      | join _ hjoined _ =>
        have hborn : g.BornAt index new := by
          rcases hjoined.kept p new hnew with hborn | hall
          · exact hborn.2
          · -- a name that all the incoming states have is no difference
            obtain ⟨v, hv, hvnew⟩ := hall u hu
            obtain ⟨v', hv', hkey⟩ := State.nameAt_of_beq hua hv
            rw [hold, Option.some.injEq] at hv'
            exact absurd (hv' ▸ hkey.trans hvnew) hne
        obtain ⟨t', ht', hut⟩ := h.reached_of_input hset hu
        have hmentions := (State.mentions_of_nameAt hold).of_beq (BEq.trans (BEq.symm hua) hut)
        exact ⟨hborn, State.mem_vars_of_nameAt hnew, t', ht', hmentions⟩
    · rw [hold, Option.some.injEq] at hnew
      exact absurd (congrArg Var.key hnew) hne
  · intro v hv hborn
    cases hset.starts with
    | entry hentry =>
      exact absurd (covers_entryState v hv) (not_passed_of_bornAt (p := []) List.not_mem_nil hborn)
    | join hne hjoined _ =>
      obtain ⟨u, hu, hnone⟩ := h.exists_fresh_input hb hset hne
      rcases State.mentions_iff.mp hv with ⟨p, v', hp, hkey⟩ | ⟨k, x, hk, hkey⟩
      · obtain rfl : v = v' := bornAt_of_key_eq hborn hkey.symm
        obtain ⟨y, hy⟩ := hjoined.bound p v hp u hu
        obtain ⟨a, ha, hua⟩ := hto u hu
        obtain ⟨old, hold, holdy⟩ := State.nameAt_of_beq hua hy
        have hdiffer : old.key ≠ v.key := by
          intro hcon
          exact hnone v hborn ((State.mentions_congr (holdy.symm.trans hcon)).mp (State.mentions_of_nameAt hy))
        have hmem : (old, v) ∈ sources.flatMap fun a => a.differences s :=
          List.mem_flatMap.mpr ⟨a, ha, State.mem_differences.mpr ⟨p, hold, hp, hdiffer⟩⟩
        obtain ⟨e, he, heq⟩ := exists_mem_eraseDups hmem
        have hkeys : (e.2 == v) = true := (Bool.and_eq_true_iff.mp heq).2
        exact ⟨e, he, (bornAt_of_key_eq hborn (Var.beq_iff.mp hkeys).symm).symm⟩
      · -- an address behind the join point stands in all the incoming states
        obtain ⟨y, hy⟩ := hjoined.bound (.memory k) x hk u hu
        exact absurd (State.mentions_iff.mpr (Or.inr ⟨k, y, hy, hkey⟩)) (hnone v hborn)

end Graph
end Backslice
