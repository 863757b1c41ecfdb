import Backslice.Proofs.Slice.Dropped
import Backslice.Proofs.Slice.Twins

/-! # Following a graph in its slice

Block by block the state of the slice keeps up with the state of the graph: where a needed name stands in the graph, its
twin stands in the slice, and all else in the slice goes back to the graph. Kept instructions do the same to both states,
dropped ones make nothing that is needed, and join points rename the same names. -/

namespace Backslice

set_option autoImplicit false

theorem State.exists_nameAt_of_shape {s s' : State} (h : s'.partLength = s.partLength) {p : Place} (hp : p.IsCell)
    {x : Var} (hx : s.nameAt p = some x) : ∃ y, s'.nameAt p = some y := by
  have hlist : ∀ {l l' : List Var} {k : Nat}, l'.length = l.length → l[k]? = some x → ∃ y, l'[k]? = some y := by
    intro l l' k hlength hk
    obtain ⟨hlt, -⟩ := List.getElem?_eq_some_iff.mp hk
    exact ⟨_, List.getElem?_eq_getElem (hlength ▸ hlt)⟩
  cases p with
  | memory k => cases hp
  | stack k => exact hlist (length_stack_of_shape h) hx
  | locals k => exact hlist (length_locals_of_shape h) hx
  | globals k => exact hlist (length_globals_of_shape h) hx

theorem State.memory_put (s : State) (d m : Nat) (x : Var) (dest : Dest) : ((s.trim d m).put x dest).memory = s.memory := by
  cases dest <;> rfl

/-- What the annotation of a store says about it. -/
theorem Instr.stored_of_action {sig : Signature} {i : Instr} {table : Table Label Note} {s t : State}
    (hnote : table.find? i.label = some ⟨.known s, .known t⟩) {k : Slot} {v : Var} {rest : List Var}
    (haction : i.action sig s.stack.length = .store k.2) (hstack : s.stack = v :: k.1 :: rest) :
    (i.annotate table).stored = .ok (some (k, v)) := by
  obtain ⟨d, rfl, hop, hoffset⟩ := exists_store_of_action haction
  have hrequire := requireNote_annotate hnote
  rw [annotate] at hrequire ⊢
  rw [stored_of_store hrequire hop hstack]
  exact congrArg (fun offset => Except.ok (some ((k.1, offset), v))) hoffset

namespace Graph

variable {g slice : Graph} {r r' : Run} {keep : List Label} {loose : Var → Prop} {s s' t t' : State}

theorem Solved.reached_before {c : Config} (h : g.Solved c r) {i : Instr} (hi : i ∈ g.instrs)
    (hnote : r.instrs.find? i.label = some ⟨.known s, .known t⟩) : g.Reached c r s := by
  obtain ⟨u, w, hfind, -, -, hreached, -⟩ := h.instr hi
  cases hnote.symm.trans hfind
  exact hreached

theorem Exact.clean_before (h : g.Exact r) {i : Instr} (hi : i ∈ g.instrs)
    (hnote : r.instrs.find? i.label = some ⟨.known s, .known t⟩) : s.Clean :=
  h.solved.clean h.fits (h.solved.reached_before hi hnote)

/-! ## States that keep up -/

/-- The name is needed, and in memory the stores that bind the slot to it are kept. -/
def Wanted (g : Graph) (r : Run) (keep : List Label) (p : Place) (x : Var) : Prop :=
  g.Needs keep x ∧ ∀ k, p = .memory k → ∀ i ∈ g.instrs,
    (i.annotate r.instrs).stored = .ok (some (k, x)) → i.label ∈ keep

/-- The state `s'` of the slice keeps up with the state `s` of the graph. The `loose` names have been made since the
last block boundary by instructions that are not kept. -/
structure Tracks (g slice : Graph) (r : Run) (keep : List Label) (r' : Run) (loose : Var → Prop) (s s' : State) :
    Prop where
  shape : s'.partLength = s.partLength
  twins : ∀ p x y, p.IsCell → s.nameAt p = some x → s'.nameAt p = some y → g.Needs keep x → g.Twin r keep r' x y
  mates : ∀ p x y, p.IsCell → s.nameAt p = some x → s'.nameAt p = some y → g.Mate slice r keep r' x y ∨ loose x
  forth : ∀ a offset x, s.nameAt (.memory (a, offset)) = some x → g.Wanted r keep (.memory (a, offset)) x →
    ∃ a' y, g.Twin r keep r' a a' ∧ s'.nameAt (.memory (a', offset)) = some y ∧ g.Twin r keep r' x y
  back : ∀ a' offset y, s'.nameAt (.memory (a', offset)) = some y →
    ∃ a x, g.Twin r keep r' a a' ∧ s.nameAt (.memory (a, offset)) = some x ∧ g.Mate slice r keep r' x y

theorem tracks_entry (g slice : Graph) (r : Run) (keep : List Label) (r' : Run) (loose : Var → Prop) :
    g.Tracks slice r keep r' loose g.signature.entryState g.signature.entryState := by
  have htwin : ∀ {p x y}, g.signature.entryState.nameAt p = some x → g.signature.entryState.nameAt p = some y →
      g.Twin r keep r' x y := by
    intro p x y hx hy
    obtain rfl := Option.some.inj (hx.symm.trans hy)
    exact .start (origin_entry hx)
  exact ⟨rfl, fun p x y _ hx hy _ => htwin hx hy, fun p x y _ hx hy => Or.inl (Or.inl (htwin hx hy)),
    fun a offset x hx => (by cases hx), fun a' offset y hy => (by cases hy)⟩

namespace Tracks

/-- What is in memory after a kept instruction was there before, or has been stored in both states. -/
theorem slots (h : g.Tracks slice r keep r' loose s s') {a : Action} {x : Var} (ha : a.Leads x s t)
    (ha' : a.Leads x s' t') (hs : s.Clean) (hs' : s'.Clean)
    (hneeds : ∀ offset, a = .store offset → ∀ v ∈ s.stack.take 2, g.Needs keep v) :
    (∀ k v, t.nameAt (.memory k) = some v → s.nameAt (.memory k) = some v ∨ ∃ a' y, g.Twin r keep r' k.1 a' ∧
      t'.nameAt (.memory (a', k.2)) = some y ∧ g.Twin r keep r' v y) ∧
    ∀ k v, t'.nameAt (.memory k) = some v → s'.nameAt (.memory k) = some v ∨ ∃ a y, g.Twin r keep r' a k.1 ∧
      t.nameAt (.memory (a, k.2)) = some y ∧ g.Twin r keep r' y v := by
  cases ha with
  | put => cases ha' with
    | put =>
      simp only [State.nameAt, State.memory_put]
      exact ⟨fun k v hv => Or.inl hv, fun k v hv => Or.inl hv⟩
  | @store offset value address rest hstack => cases ha' with
    | @store _ value' address' rest' hstack' =>
      rw [hstack] at hneeds
      have hvalue : g.Twin r keep r' value value' :=
        h.twins (.stack 0) _ _ trivial (by simp [State.nameAt, hstack]) (by simp [State.nameAt, hstack'])
          (hneeds offset rfl value (by simp))
      have haddress : g.Twin r keep r' address address' :=
        h.twins (.stack 1) _ _ trivial (by simp [State.nameAt, hstack]) (by simp [State.nameAt, hstack'])
          (hneeds offset rfl address (by simp))
      have hplain := hs.plain (.stack 1) address (by simp [State.nameAt, hstack])
      have hplain' := hs'.plain (.stack 1) address' (by simp [State.nameAt, hstack'])
      refine ⟨fun k v hv => ?_, fun k v hv => ?_⟩
      · rcases State.find?_store (a := (address, offset)) hplain hv with ⟨rfl, rfl⟩ | ⟨-, hold⟩
        · exact Or.inr ⟨address', value', haddress, by simp [State.nameAt, Table.find?_insert], hvalue⟩
        · exact Or.inl hold
      · rcases State.find?_store (a := (address', offset)) hplain' hv with ⟨rfl, rfl⟩ | ⟨-, hold⟩
        · exact Or.inr ⟨address, value, haddress, by simp [State.nameAt, Table.find?_insert], hvalue⟩
        · exact Or.inl hold

/-- A kept instruction does the same in the slice. -/
theorem act (h : g.Tracks slice r keep r' loose s s') {l : Label} (hl : l ∈ keep) {a : Action}
    (ha : a.Leads (.pushed l) s t) (ha' : a.Leads (.pushed l) s' t') (hshape : t'.partLength = t.partLength)
    (hs : s.Clean) (hs' : s'.Clean)
    (hneeds : ∀ offset, a = .store offset → ∀ v ∈ s.stack.take 2, g.Needs keep v) :
    g.Tracks slice r keep r' loose t t' := by
  -- What stands at a place was put there in both states, or comes from the same place in both.
  have hcell : ∀ p x y, p.IsCell → t.nameAt p = some x → t'.nameAt p = some y → g.Twin r keep r' x y ∨
      ∃ q, q.IsCell ∧ s.nameAt q = some x ∧ s'.nameAt q = some y := by
    intro p x y hp hx hy
    rcases ha.cell hp hx with ⟨hdest, rfl⟩ | ⟨hdest, hx⟩
    · rcases ha'.cell hp hy with ⟨-, rfl⟩ | ⟨hdest', -⟩
      · exact Or.inl (.kept hl)
      · exact absurd hdest hdest'
    · rcases ha'.cell hp hy with ⟨hdest', -⟩ | ⟨-, hy⟩
      · exact absurd hdest' hdest
      · exact Or.inr ⟨_, Action.isCell_source hp, hx, hy⟩
  obtain ⟨hslot, hslot'⟩ := h.slots ha ha' hs hs' hneeds
  refine ⟨hshape, fun p x y hp hx hy hneeded => ?_, fun p x y hp hx hy => ?_, fun a₀ offset x hx hwanted => ?_,
    fun a₀ offset y hy => ?_⟩
  · rcases hcell p x y hp hx hy with htwin | ⟨q, hq, hx, hy⟩
    · exact htwin
    · exact h.twins q x y hq hx hy hneeded
  · rcases hcell p x y hp hx hy with htwin | ⟨q, hq, hx, hy⟩
    · exact Or.inl (Or.inl htwin)
    · exact h.mates q x y hq hx hy
  · rcases hslot _ x hx with hold | hnew
    · obtain ⟨a', y, ha₀, hy, htwin⟩ := h.forth a₀ offset x hold hwanted
      exact ⟨a', y, ha₀, ha'.slot hs' hy, htwin⟩
    · exact hnew
  · rcases hslot' _ y hy with hold | ⟨a', x, ha₀, hx, htwin⟩
    · obtain ⟨a', x, ha₀, hx, hmate⟩ := h.back a₀ offset y hold
      exact ⟨a', x, ha₀, ha.slot hs hx, hmate⟩
    · exact ⟨a', x, ha₀, hx, Or.inl htwin⟩

/-- Placeholders keep up with dropped instructions. -/
theorem drop (h : g.Tracks slice r keep r' loose s s') (hexact : g.Exact r) {run : List Instr}
    {notes notes' : List (Label × Note)} (hrun : Steps g.signature .bare run s notes t)
    (hmem : ∀ i ∈ run, i ∈ g.instrs) (hrecorded : ∀ e ∈ notes, r.instrs.find? e.1 = some e.2)
    (hlevel : LevelOn g.signature run notes) (hdropped : ∀ i ∈ run, i.label ∉ keep)
    (hloose : ∀ i ∈ run, loose (.pushed i.label)) {next : Int}
    (hsteps : Steps g.signature .bare
      ((placeholders ((t.stack.length : Int) - s.stack.length) next).map .data) s' notes' t') :
    g.Tracks slice r keep r' loose t t' := by
  have hfits : ∀ i ∈ run, i.Fits g.signature := fun i hi => hexact.fits i (hmem i hi)
  have hclean : ∀ l u w, (l, (⟨.known u, .known w⟩ : Note)) ∈ notes → u.Clean := by
    intro l u w hnote
    have hl : l ∈ run.map Instr.label := hrun.labels ▸ List.mem_map_of_mem hnote
    obtain ⟨i, hi, rfl⟩ := List.mem_map.mp hl
    exact hexact.clean_before (hmem i hi) (hrecorded _ hnote)
  have hshape : t'.partLength = t.partLength := by
    obtain ⟨n, u, hsteps', hu, -⟩ := Replays.placeholders g.signature hrun.lengths.1 hrun.lengths.2 next [] .bare s' h.shape
    obtain ⟨-, rfl⟩ := hsteps.unique hsteps'
    exact hu
  obtain ⟨hmemory, hover⟩ := hsteps.placeholders_over
  -- What is not new stands where it stood, counted from below, and so does what the slice has there.
  have hcell : ∀ p x y, p.IsCell → t.nameAt p = some x → t'.nameAt p = some y →
      (∃ i ∈ run, x = .pushed i.label) ∨ ∃ q, q.IsCell ∧ s.nameAt q = some x ∧ s'.nameAt q = some y := by
    intro p x y hp hx hy
    refine (hrun.over hfits hlevel hp hx).imp id ?_
    rintro ⟨q, hpq, hq⟩
    obtain ⟨y', hy'⟩ := State.exists_nameAt_of_shape h.shape hpq.isCell.2 hq
    rw [← State.length_stack_of_shape h.shape, ← State.length_stack_of_shape hshape] at hpq
    exact ⟨q, hpq.isCell.2, hq, hover p q y' y hpq hy' hy ▸ hy'⟩
  refine ⟨hshape, fun p x y hp hx hy hneeded => ?_, fun p x y hp hx hy => ?_, fun a offset x hx hwanted => ?_,
    fun a' offset y hy => ?_⟩
  · rcases hcell p x y hp hx hy with ⟨i, hi, rfl⟩ | ⟨q, hq, hx, hy⟩
    · exact absurd (hneeded i.label rfl) (hdropped i hi)
    · exact h.twins q x y hq hx hy hneeded
  · rcases hcell p x y hp hx hy with ⟨i, hi, rfl⟩ | ⟨q, hq, hx, hy⟩
    · exact Or.inr (hloose i hi)
    · exact h.mates q x y hq hx hy
  · rcases hrun.stored hfits hclean hx with hold | ⟨i, hi, u, w, rest, hnote, haction, hstack⟩
    · obtain ⟨a', y, ha, hy, htwin⟩ := h.forth a offset x hold hwanted
      exact ⟨a', y, ha, (congrArg (·.find? (a', offset)) hmemory).trans hy, htwin⟩
    · have hstored := Instr.stored_of_action (hrecorded _ hnote) haction hstack
      exact absurd (hwanted.2 _ rfl i (hmem i hi) hstored) (hdropped i hi)
  · obtain ⟨a, x, ha, hx, hmate⟩ := h.back a' offset y ((congrArg (·.find? (a', offset)) hmemory).symm.trans hy)
    exact ⟨a, x, ha, hrun.slot hfits hclean hx, hmate⟩

end Tracks

/-! ## Straight-line code -/

theorem Supports.needs_store (h : g.Supports r keep) {i : Instr} (hi : i ∈ g.instrs) (hkeep : i.label ∈ keep)
    (hnote : r.instrs.find? i.label = some ⟨.known s, .known t⟩) (hs : s.Clean) {offset : Int}
    (haction : i.action g.signature s.stack.length = .store offset) : ∀ v ∈ s.stack.take 2, g.Needs keep v := by
  obtain ⟨vs, -, huses, hneeds⟩ := h.instr i hi hkeep
  obtain ⟨d, rfl, hop, -⟩ := Instr.exists_store_of_action haction
  have hvs : vs = s.stack.take 2 := by
    have hrequire := Instr.requireNote_annotate hnote
    rw [Instr.annotate] at hrequire huses
    rw [Instr.uses, hrequire, ok_bind] at huses
    simp only [DataInstr.uses, hop, DataOp.operandCount] at huses
    exact (pure_eq_ok.mp huses).symm
  intro v hv
  refine hneeds v (hvs ▸ hv) ?_
  obtain ⟨k, hk⟩ := List.mem_iff_getElem?.mp (List.mem_of_mem_take hv)
  exact Var.not_isConstant_of_isPlain (hs.plain (.stack k) v hk)

/-- The code of the slice keeps up with the code of the graph, and in front of every kept instruction it does. -/
theorem Sliced.follow (h : g.Sliced r keep slice r') (hsup : g.Supports r keep) {is js : List Instr}
    {notes notes' : List (Label × Note)} (hfollows : Follows g.signature .bare keep is s notes t js)
    (hsteps : Steps g.signature .bare js s' notes' t') (hmem : ∀ i ∈ is, i ∈ g.instrs)
    (hmem' : ∀ j ∈ js, j ∈ slice.instrs) (hrecorded : ∀ e ∈ notes, r.instrs.find? e.1 = some e.2)
    (hrecorded' : ∀ e ∈ notes', r'.instrs.find? e.1 = some e.2)
    (hlevel : ∀ i ∈ is, i.label ∉ keep → i.Yields g.signature → ∀ u w,
      r.instrs.find? i.label = some ⟨.known u, .known w⟩ → u.stack.length ≤ 1)
    (hloose : ∀ i ∈ is, i.label ∉ keep → loose (.pushed i.label)) (hs : g.Tracks slice r keep r' loose s s') :
    g.Tracks slice r keep r' loose t t' ∧ ∀ i ∈ is, i.label ∈ keep → ∃ u w u' w',
      r.instrs.find? i.label = some ⟨.known u, .known w⟩ ∧ r'.instrs.find? i.label = some ⟨.known u', .known w'⟩ ∧
      g.Tracks slice r keep r' loose u u' := by
  induction hfollows generalizing s' notes' with
  | nil s =>
    cases hsteps
    exact ⟨hs, fun i hi => (by cases hi)⟩
  | @kept i is js s u t notes hkeep hi _ ih =>
    cases hsteps with
    | @cons _ _ _ u' _ n' hi' hrest' =>
      obtain ⟨hig, hmemRest⟩ := List.forall_mem_cons.mp hmem
      obtain ⟨hnote, hrecordedRest⟩ := List.forall_mem_cons.mp hrecorded
      obtain ⟨hnote', hrecordedRest'⟩ := List.forall_mem_cons.mp hrecorded'
      obtain ⟨hjg, hmemRest'⟩ := List.forall_mem_cons.mp hmem'
      have hi' := Instr.effect_clear hi'
      have hfits := h.exact.fits i hig
      have hclean := h.exact.clean_before hig hnote
      have hclean' := h.exact'.clean_before hjg hnote'
      obtain ⟨hlocals, hglobals⟩ := h.exact.solved.lengths (h.exact.solved.reached_before hig hnote)
      have hu : g.Tracks slice r keep r' loose u u' := by
        have hshape : u'.partLength = u.partLength := by
          obtain ⟨x, hx, hshape⟩ := hi.again .bare hfits hlocals hglobals hs.shape
          exact hx.unique hi' ▸ hshape
        have hleads := hi'.leads hfits
        rw [State.length_stack_of_shape hs.shape] at hleads
        exact hs.act hkeep (hi.leads hfits) hleads hshape hclean hclean' fun offset haction =>
          hsup.needs_store hig hkeep hnote hclean haction
      obtain ⟨ht, hkept⟩ := ih hrest' hmemRest hmemRest' hrecordedRest hrecordedRest'
        (fun j hj => hlevel j (List.mem_cons_of_mem _ hj)) (fun j hj => hloose j (List.mem_cons_of_mem _ hj)) hu
      refine ⟨ht, fun j hj hjkeep => ?_⟩
      rcases List.mem_cons.mp hj with rfl | hj
      · exact ⟨s, u, s', u', hnote, Instr.label_clear j ▸ hnote', hs⟩
      · exact hkept j hj hjkeep
  | @dropped run is js s u t n₁ n₂ next hrun hsteps₁ _ ih =>
    obtain ⟨n₁', n₂', u', rfl, hdummies, hrest'⟩ := hsteps.split
    have hu : g.Tracks slice r keep r' loose u u' := by
      refine hs.drop h.exact hsteps₁ (fun i hi => hmem i (List.mem_append_left _ hi))
        (fun e he => hrecorded e (List.mem_append_left _ he)) ?_ hrun
        (fun i hi => hloose i (List.mem_append_left _ hi) (hrun i hi)) hdummies
      intro i hi hyields a b hab
      exact hlevel i (List.mem_append_left _ hi) (hrun i hi) hyields a b (hrecorded _ (List.mem_append_left _ hab))
    obtain ⟨ht, hkept⟩ := ih hrest' (fun i hi => hmem i (List.mem_append_right _ hi))
      (fun j hj => hmem' j (List.mem_append_right _ hj)) (fun e he => hrecorded e (List.mem_append_right _ he))
      (fun e he => hrecorded' e (List.mem_append_right _ he)) (fun i hi => hlevel i (List.mem_append_right _ hi))
      (fun i hi => hloose i (List.mem_append_right _ hi)) hu
    refine ⟨ht, fun i hi hkeep => ?_⟩
    rcases List.mem_append.mp hi with hi | hi
    · exact absurd hkeep (hrun i hi)
    · exact hkept i hi hkeep

end Graph
end Backslice
