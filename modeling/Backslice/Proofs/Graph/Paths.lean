import Backslice.Graph.Basic
import Backslice.Proofs.Data.Table
import Mathlib.Data.List.Nodup
import Mathlib.Data.List.Pairwise

/-! # Paths and well-formed graphs

A path is the list of the blocks passed on the way to a block. A well-formed graph is built from a list of
arrows between its blocks, nothing leads back to its entry, and its entry reaches every block. -/

namespace Backslice

set_option autoImplicit false

def Label.isDummy : Label → Bool
  | dummy _ => true
  | _ => false

/-- The local or global that an instruction reads or assigns exists. -/
def DataInstr.InRange (i : DataInstr) (locals globals : Nat) : Prop :=
  (i.op = .localGet ∨ i.op = .localSet ∨ i.op = .localTee → ∃ n : Nat, i.arg = .int n ∧ n < locals) ∧
  (i.op = .globalGet ∨ i.op = .globalSet → ∃ n : Nat, i.arg = .int n ∧ n < globals)

/-- What a legal program keeps to at an instruction. -/
def Instr.Fits (sig : Signature) : Instr → Prop
  | .data i => i.InRange sig.localCount sig.globals.length
  | .control i => i.op.isCall = true → 0 ≤ i.arity.inputs

/-- The locals and globals that an instruction reads or assigns exist. -/
def Instr.InRange (sig : Signature) : Instr → Prop
  | .data i => i.InRange sig.localCount sig.globals.length
  | .control _ => True

theorem Instr.Fits.inRange {sig : Signature} {i : Instr} (h : i.Fits sig) : i.InRange sig := by
  cases i with
  | data d => exact h
  | control k => trivial

instance (i : DataInstr) (locals globals : Nat) : Decidable (i.InRange locals globals) :=
  have hslot : ∀ k : Nat, Decidable (∃ n : Nat, i.arg = .int n ∧ n < k) := fun k =>
    match h : i.arg with
    | .int (.ofNat n) => decidable_of_iff (n < k) ⟨fun hn => ⟨n, rfl, hn⟩, fun ⟨m, hm, hlt⟩ => by cases hm; exact hlt⟩
    | .int (.negSucc n) => isFalse fun ⟨m, hm, _⟩ => by cases hm
    | .absent | .literal _ => isFalse fun ⟨m, hm, _⟩ => by cases hm
  have := hslot locals
  have := hslot globals
  inferInstanceAs (Decidable (_ ∧ _))

theorem Block.instrs_of_isMerge {b : Block} (h : b.isMerge = true) : b.instrs = [] := by
  cases hbody : b.body <;> simp_all [Block.isMerge, Block.instrs]

theorem Block.body_of_isMerge {b : Block} (h : b.isMerge = true) : b.body = .merge := by
  cases hbody : b.body <;> simp_all [Block.isMerge]

/-! ## Paths -/

namespace Edges

/-- `es.Path source p u`: the blocks `p` lead from `source` to `u`, which comes after the last of them. -/
inductive Path (es : Edges) (source : Int) : List Int → Int → Prop
  | start : Path es source [] source
  | edge {p : List Int} {u : Int} {e : Edge} (h : Path es source p u) (he : e ∈ es.leaving u) :
      Path es source (p ++ [u]) e.target

variable {es : Edges} {source : Int}

theorem Path.before {p q : List Int} {u x : Int} (h : es.Path source (p ++ x :: q) u) : es.Path source p x := by
  generalize hl : p ++ x :: q = l at h
  induction h generalizing q with
  | start => simp at hl
  | @edge p' u' e h' he ih =>
    rcases List.eq_nil_or_concat q with rfl | ⟨q', y, rfl⟩
    · obtain ⟨hp, hx⟩ := List.append_inj' hl rfl
      rw [hp, List.singleton_inj.mp hx]
      exact h'
    · have hl' : (p ++ x :: q') ++ [y] = p' ++ [u'] := by simpa using hl
      exact ih (List.append_inj' hl' rfl).1

theorem Path.source_eq {u : Int} (h : es.Path source [] u) : source = u := by
  generalize hp : ([] : List Int) = p at h
  cases h with
  | start => rfl
  | edge => simp at hp

/-- What can be reached is reached by a path that does not pass it before. -/
theorem Path.first_arrival {p : List Int} {u : Int} (h : es.Path source p u) :
    ∃ q, es.Path source q u ∧ u ∉ q ∧ q ⊆ p := by
  induction hn : p.length using Nat.strongRecOn generalizing p with
  | ind n ih =>
    by_cases hu : u ∈ p
    · obtain ⟨a, b, rfl⟩ := List.append_of_mem hu
      obtain ⟨q, hq, huq, hsub⟩ := ih a.length (by simp at hn; omega) h.before rfl
      exact ⟨q, hq, huq, fun x hx => List.mem_append_left _ (hsub hx)⟩
    · exact ⟨p, h, hu, fun _ hx => hx⟩

end Edges

namespace Graph

/-- Paths from the entry along the edges of the graph. -/
abbrev Path (g : Graph) (p : List Int) (u : Int) : Prop := g.edges.Path g.entry p u

/-! ## Connected graphs -/

/-- What the analysis needs of the edges of a graph. -/
structure Connected (g : Graph) : Prop where
  inverse : ∀ u v c, ⟨v, c⟩ ∈ g.edges.leaving u ↔ ⟨u, c⟩ ∈ g.predecessors v
  ends : ∀ u e, e ∈ g.edges.leaving u → g.hasBlock u = true ∧ g.hasBlock e.target = true
  entry_block : g.hasBlock g.entry = true
  entry_free : g.predecessors g.entry = []
  reachable : ∀ u, g.hasBlock u = true → ∃ p, g.Path p u

theorem hasBlock_iff {g : Graph} {u : Int} : g.hasBlock u = true ↔ ∃ b, g.blocks.find? u = some b :=
  Table.contains_iff_find?

theorem hasBlock_iff_mem_keys {g : Graph} {u : Int} : g.hasBlock u = true ↔ u ∈ g.blocks.keys := by
  rw [hasBlock, Table.contains_iff_exists_mem, Table.keys, List.mem_map]
  simp only [beq_iff_eq]

theorem findBlock_of_find? {g : Graph} {u : Int} {b : Block} (hb : g.blocks.find? u = some b) :
    g.findBlock u = .ok b := by
  rw [findBlock, hb]
  rfl

theorem mem_instrs {g : Graph} {u : Int} {b : Block} (hb : g.blocks.find? u = some b) {i : Instr}
    (hi : i ∈ b.instrs) : i ∈ g.instrs :=
  List.mem_flatMap.mpr ⟨b, List.mem_map.mpr ⟨(u, b), Table.find?_eq_some_iff_mem.mp hb, rfl⟩, hi⟩

theorem exists_block_of_mem_instrs {g : Graph} {i : Instr} (hi : i ∈ g.instrs) :
    ∃ u b, g.blocks.find? u = some b ∧ i ∈ b.instrs := by
  obtain ⟨b, hb, hib⟩ := List.mem_flatMap.mp hi
  obtain ⟨e, he, rfl⟩ := List.mem_map.mp hb
  exact ⟨e.1, e.2, Table.find?_eq_some_iff_mem.mpr he, hib⟩

theorem mem_successors {g : Graph} {u v : Int} : v ∈ g.successors u ↔ ∃ e ∈ g.edges.leaving u, e.target = v :=
  List.mem_map

theorem Connected.mem_successors_of_mem_predecessors {g : Graph} (h : g.Connected) {u : Int} {e : Edge}
    (he : e ∈ g.predecessors u) : u ∈ g.successors e.target :=
  mem_successors.mpr ⟨⟨u, e.cond⟩, (h.inverse e.target u e.cond).mpr he, rfl⟩

theorem Connected.exists_predecessor {g : Graph} (h : g.Connected) {u v : Int} (hv : v ∈ g.successors u) :
    ∃ c, ⟨u, c⟩ ∈ g.predecessors v := by
  obtain ⟨e, he, rfl⟩ := mem_successors.mp hv
  exact ⟨e.cond, (h.inverse u e.target e.cond).mp he⟩

/-! ## Graphs that are built from arrows -/

/-- The graph was put together from blocks and arrows. -/
def Built (g : Graph) : Prop :=
  ∃ signature blocks arrows entry exit name index,
    g = Graph.ofArrows signature blocks arrows entry exit name index

/-- A graph that an analysis may be asked about. -/
structure WellFormed (g : Graph) : Prop where
  built : g.Built
  ends : ∀ u e, e ∈ g.edges.leaving u → g.hasBlock u = true ∧ g.hasBlock e.target = true
  entry_block : g.hasBlock g.entry = true
  exit_block : g.hasBlock g.exit = true
  entry_free : g.predecessors g.entry = []
  reachable : ∀ u, g.hasBlock u = true → ∃ p, g.Path p u

/-- The instructions have different labels. -/
def DistinctLabels (g : Graph) : Prop := (g.instrs.map Instr.label).Nodup

theorem DistinctLabels.flatMap {g : Graph} (h : g.DistinctLabels) :
    (g.blocks.entries.flatMap fun e => e.2.instrs.map Instr.label).Nodup := by
  simpa [DistinctLabels, instrs, Table.values, List.map_flatMap, List.flatMap_map] using h

theorem DistinctLabels.nodup_block {g : Graph} (h : g.DistinctLabels) {u : Int} {b : Block}
    (hb : g.blocks.find? u = some b) : (b.instrs.map Instr.label).Nodup :=
  (List.nodup_flatMap.mp h.flatMap).1 (u, b) (Table.find?_eq_some_iff_mem.mp hb)

theorem DistinctLabels.disjoint {g : Graph} (h : g.DistinctLabels) {u v : Int} {b b' : Block}
    (hb : g.blocks.find? u = some b) (hb' : g.blocks.find? v = some b') (huv : u ≠ v) :
    (b.instrs.map Instr.label).Disjoint (b'.instrs.map Instr.label) := by
  have hpairs := (List.nodup_flatMap.mp h.flatMap).2
  have hsymm : Std.Symm (Function.onFun List.Disjoint fun e : Int × Block => e.2.instrs.map Instr.label) :=
    ⟨fun _ _ hd _ hx hy => hd hy hx⟩
  exact hpairs.forall (Table.find?_eq_some_iff_mem.mp hb) (Table.find?_eq_some_iff_mem.mp hb')
    fun heq => huv (congrArg (·.1) heq)

/-- No instruction has a label that is meant for a join point. -/
def OrdinaryLabels (g : Graph) : Prop := ∀ i ∈ g.instrs, i.label.isMerge = false

/-- No instruction has a label that is meant for a placeholder. -/
def NoPlaceholders (g : Graph) : Prop := ∀ i ∈ g.instrs, i.label.isDummy = false

/-- Every local and global that an instruction reads or assigns is one of the signature. -/
def IndicesInRange (g : Graph) : Prop :=
  ∀ i, Instr.data i ∈ g.instrs → i.InRange g.signature.localCount g.signature.globals.length

/-- Calls take and give no negative number of values. -/
def ArityNonneg (g : Graph) : Prop :=
  ∀ i, Instr.control i ∈ g.instrs → i.op.isCall = true → 0 ≤ i.arity.inputs ∧ 0 ≤ i.arity.outputs

theorem IndicesInRange.instr {g : Graph} (h : g.IndicesInRange) {i : Instr} (hi : i ∈ g.instrs) :
    i.InRange g.signature := by
  cases i with
  | data d => exact h d hi
  | control k => trivial

theorem fits_of_legal {g : Graph} (hrange : g.IndicesInRange) (harity : g.ArityNonneg) {i : Instr}
    (hi : i ∈ g.instrs) : i.Fits g.signature := by
  cases i with
  | data d => exact hrange d hi
  | control k => exact fun hcall => (harity k hi hcall).1

instance (g : Graph) : Decidable g.DistinctLabels := inferInstanceAs (Decidable (List.Nodup _))

instance (g : Graph) : Decidable g.OrdinaryLabels := inferInstanceAs (Decidable (∀ i ∈ g.instrs, _))

instance (g : Graph) : Decidable g.NoPlaceholders := inferInstanceAs (Decidable (∀ i ∈ g.instrs, _))

instance (g : Graph) : Decidable g.IndicesInRange :=
  decidable_of_iff (g.instrs.all fun x => match x with
      | .data i => decide (i.InRange g.signature.localCount g.signature.globals.length)
      | .control _ => true) <| by
    rw [List.all_eq_true]
    refine ⟨fun h i hi => of_decide_eq_true (h (.data i) hi), fun h x hx => ?_⟩
    cases x with
    | data i => exact decide_eq_true (h i hx)
    | control _ => rfl

instance (g : Graph) : Decidable g.ArityNonneg :=
  decidable_of_iff (g.instrs.all fun x => match x with
      | .data _ => true
      | .control i => decide (i.op.isCall = true → 0 ≤ i.arity.inputs ∧ 0 ≤ i.arity.outputs)) <| by
    rw [List.all_eq_true]
    refine ⟨fun h i hi => of_decide_eq_true (h (.control i) hi), fun h x hx => ?_⟩
    cases x with
    | data _ => rfl
    | control i => exact decide_eq_true (h i hx)

theorem mem_leaving_foldl_add {α : Type} (f : α → Int) (k : α → Edge) (l : List α) (es : Edges) (u : Int) (e : Edge) :
    e ∈ (l.foldl (fun es a => Edges.add es (f a) (k a)) es).leaving u ↔
      e ∈ es.leaving u ∨ ∃ a ∈ l, f a = u ∧ k a = e := by
  induction l generalizing es with
  | nil => simp
  | cons a rest ih =>
    rw [List.foldl_cons, ih, Edges.mem_leaving_add, List.exists_mem_cons_iff]
    constructor
    · rintro ((h | ⟨hu, he⟩) | h)
      · exact Or.inl h
      · exact Or.inr (Or.inl ⟨hu.symm, he.symm⟩)
      · exact Or.inr (Or.inr h)
    · rintro (h | ⟨hu, he⟩ | h)
      · exact Or.inl (Or.inl h)
      · exact Or.inl (Or.inr ⟨hu.symm, he.symm⟩)
      · exact Or.inr h

theorem Built.inverse {g : Graph} (h : g.Built) (u v : Int) (c : Option Bool) :
    ⟨v, c⟩ ∈ g.edges.leaving u ↔ ⟨u, c⟩ ∈ g.predecessors v := by
  obtain ⟨signature, blocks, arrows, entry, exit, name, index, rfl⟩ := h
  have hforth := mem_leaving_foldl_add (·.source) (fun a => ⟨a.target, a.cond⟩) arrows ∅ u ⟨v, c⟩
  have hback := mem_leaving_foldl_add (·.target) (fun a => ⟨a.source, a.cond⟩) arrows ∅ v ⟨u, c⟩
  refine hforth.trans (Iff.trans ?_ hback.symm)
  simp only [Edges.leaving, Table.find?_empty, Option.getD_none, List.not_mem_nil, false_or, Edge.mk.injEq]
  refine exists_congr fun a => and_congr_right fun _ => ?_
  constructor
  · rintro ⟨h₁, h₂, h₃⟩
    exact ⟨h₂, h₁, h₃⟩
  · rintro ⟨h₁, h₂, h₃⟩
    exact ⟨h₂, h₁, h₃⟩

theorem WellFormed.connected {g : Graph} (h : g.WellFormed) : g.Connected where
  inverse := h.built.inverse
  ends := h.ends
  entry_block := h.entry_block
  entry_free := h.entry_free
  reachable := h.reachable

/-! ## A graph with a loop -/

theorem forall_leaving_of_entries {es : Edges} {P : Int → Edge → Prop} (h : ∀ x ∈ es.entries, ∀ e ∈ x.2, P x.1 e)
    (u : Int) (e : Edge) (he : e ∈ es.leaving u) : P u e := by
  unfold Edges.leaving at he
  cases hu : es.find? u with
  | none => simp [hu] at he
  | some l =>
    rw [hu] at he
    exact h (u, l) (Table.find?_eq_some_iff_mem.mp hu) e he

/-- Every block is reached if an edge comes to each but the entry from a block with a smaller number. -/
theorem reachable_of_smaller {g : Graph} (h : ∀ u ∈ g.blocks.keys, u = g.entry ∨
    ∃ v ∈ g.blocks.keys, (g.entry ≤ v ∧ v < u) ∧ u ∈ g.successors v) (u : Int) (hu : g.hasBlock u = true) :
    ∃ p, g.Path p u := by
  have hkey := hasBlock_iff_mem_keys.mp hu
  -- The numbers of the blocks before `u` stay above that of the entry.
  induction hn : (u - g.entry).toNat using Nat.strongRecOn generalizing u with
  | ind n ih =>
    rcases h u hkey with rfl | ⟨v, hv, hlt, hedge⟩
    · exact ⟨_, .start⟩
    · obtain ⟨p, hp⟩ := ih (v - g.entry).toNat (by omega) v (hasBlock_iff_mem_keys.mpr hv) hv rfl
      obtain ⟨e, he, rfl⟩ := mem_successors.mp hedge
      exact ⟨_, hp.edge he⟩

/-- Counts a local down in a loop, with join points in front of the body and at the exit. -/
def countdown : Graph :=
  .ofArrows { args := [.i32], results := [.i32] }
    [(0, { body := .data [{ label := .code 0, op := .const, arg := .literal (.i32 9) },
        { label := .code 1, op := .localSet, arg := .int 0 }] }),
      (1, { body := .merge }),
      (2, { body := .data [{ label := .code 2, op := .localGet, arg := .int 0 }, { label := .code 3, op := .unary },
        { label := .code 4, op := .localTee, arg := .int 0 }] }),
      (3, { body := .control { label := .code 5, op := .brIf } }),
      (4, { body := .data [{ label := .code 6, op := .localGet, arg := .int 0 }] }),
      (5, { body := .merge })]
    [{ source := 0, target := 1 }, { source := 1, target := 2 }, { source := 2, target := 3 },
      { source := 3, target := 1, cond := some true }, { source := 3, target := 4, cond := some false },
      { source := 4, target := 5 }] 0 5 "countdown" 0

theorem countdown_wellFormed : countdown.WellFormed where
  built := ⟨_, _, _, _, _, _, _, rfl⟩
  ends := forall_leaving_of_entries (by decide)
  entry_block := by decide
  exit_block := by decide
  entry_free := by decide
  reachable := reachable_of_smaller (by decide)

end Graph
end Backslice
