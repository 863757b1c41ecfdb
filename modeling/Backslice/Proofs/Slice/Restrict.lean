import Backslice.Proofs.Slice.Outline
import Backslice.Proofs.Slice.Replay

/-! # Restricting a graph

A graph whose analysis has converged can be restricted to any set of labels. Each block that stays takes the states
that came into the original block, as far as their shape goes, to what left it, and a block is removed only if it
changes no shape. -/

namespace Backslice

set_option autoImplicit false

/-! ## Annotated blocks -/

theorem Steps.annotate {sig : Signature} {c : Config} {is : List DataInstr} {s t : State}
    {notes : List (Label × Note)} (h : Steps sig c (is.map .data) s notes t) {table : Table Label Note}
    (hrecorded : ∀ e ∈ notes, table.find? e.1 = some e.2) :
    Steps sig c ((is.map fun i => { i with note := (table.find? i.label).or i.note }).map .data) s notes t ∧
      (is.map fun i => { i with note := (table.find? i.label).or i.note }).map DataInstr.note =
        notes.map fun e => some e.2 := by
  induction is generalizing s notes with
  | nil =>
    cases h
    exact ⟨.nil _, rfl⟩
  | cons i rest ih =>
    cases h with
    | @cons _ _ _ u _ n hi hrest =>
      obtain ⟨hfirst, htail⟩ := List.forall_mem_cons.mp hrecorded
      obtain ⟨hsteps, hnotes⟩ := ih hrest htail
      refine ⟨.cons (i := .data { i with note := (table.find? i.label).or i.note })
        (DataInstr.Effect.withNote hi _) hsteps, ?_⟩
      have hnote : table.find? i.label = some ⟨.known s, .known u⟩ := hfirst
      simp only [List.map_cons, hnotes, hnote, Option.some_or]

theorem Block.body_withRun (r : Run) (index : Int) (b : Block) : (b.withRun r index).body = match b.body with
    | .data is => .data (is.map fun i => { i with note := (r.instrs.find? i.label).or i.note })
    | .control k => .control { k with note := (r.instrs.find? k.label).or k.note }
    | .merge => .merge := by
  unfold withRun annotateInstrs
  cases hbody : b.body <;> simp [hbody]

namespace Graph

variable {g : Graph} {c : Config} {r : Run} {index : Int} {b : Block} {inputs : List State} {s t : State}
  {notes : List (Label × Note)}

/-- The net effect of a block that is no join point is the difference in height between its two ends. -/
theorem Settled.blockEffect_eq (h : g.Settled c r index b inputs s t notes) (hb : g.blocks.find? index = some b)
    (hm : b.isMerge = false) :
    (g.withRun r).blockEffect index = .ok ((t.stack.length : Int) - s.stack.length) := by
  obtain ⟨note, hnote, hbefore⟩ := h.before hm
  obtain ⟨note', hnote', hafter⟩ := h.exits
  rw [hnote, Option.some.injEq] at hnote'
  subst hnote'
  have hblock : (g.withRun r).blockNote index = .ok note := by
    refine blockNote_eq_ok.mpr ⟨b.withRun r index, ?_, note_withRun hnote⟩
    rw [find?_withRun, hb]
    rfl
  rw [blockEffect, hblock, ok_bind, Note.rise, hbefore, hafter]
  rfl

/-! ## One block -/

/-- Whatever comes into `b'` in the shape of what came into the block `index` leaves it in the shape of what left
that block. -/
def Retained (g : Graph) (c : Config) (r : Run) (index : Int) (b' : Block) : Prop :=
  ∃ b inputs s t notes, g.blocks.find? index = some b ∧ g.Settled c r index b inputs s t notes ∧
    b'.isMerge = b.isMerge ∧ Replays g.signature b'.instrs s t notes

/-- The block `index` leaves the shape of a state as it is. -/
def Passes (g : Graph) (c : Config) (r : Run) (index : Int) : Prop :=
  ∃ b inputs s t notes, g.blocks.find? index = some b ∧ g.Settled c r index b inputs s t notes ∧
    b.isMerge = false ∧ s.partLength = t.partLength

/-- What happens to a block: it stays in some form, or it is removed. -/
inductive Treats (g : Graph) (c : Config) (r : Run) (index : Int) (old : List Label) (cut : Cut) : Cut → Prop
  | keep {b' : Block} {next : Int} (hb' : g.Retained c r index b')
      (hlabels : Renumbers (b'.instrs.map Instr.label) old cut.next next) :
      Treats g c r index old cut { cut with blocks := cut.blocks.insert index b', next }
  | remove {next : Int} (hnext : cut.next ≤ next) (hpasses : g.Passes c r index)
      (hstructural : cut.structural g index = false) :
      Treats g c r index old cut { cut with wiring := cut.wiring.splice index, removed := index :: cut.removed, next }

theorem Settled.addInstrs_treats (h : g.Settled c r index b inputs s t notes) (hb : g.blocks.find? index = some b)
    (hm : b.isMerge = false) {cut : Cut} {instrs : List DataInstr} {next : Int} {old : List Label}
    (hreplays : Replays g.signature (instrs.map .data) s t notes)
    (hlabels : Renumbers (instrs.map DataInstr.label) old cut.next next) :
    g.Treats c r index old cut (cut.addInstrs (g.withRun r) index instrs next) := by
  unfold Cut.addInstrs
  split
  · rename_i hcond
    rw [Bool.and_eq_true, List.isEmpty_iff] at hcond
    obtain ⟨rfl, hcond⟩ := hcond
    have hstructural : cut.structural (g.withRun r) index = false := by simpa using hcond
    exact .remove hlabels.le ⟨b, inputs, s, t, notes, hb, h, hm, hreplays.shape_eq⟩ hstructural
  · refine .keep ⟨b, inputs, s, t, notes, hb, h, hm.symm, hreplays⟩ ?_
    show Renumbers ((instrs.map .data).map Instr.label) _ _ _
    rw [List.map_map]
    exact hlabels

theorem Settled.retained_merge (h : g.Settled c r index b inputs s t notes) (hb : g.blocks.find? index = some b)
    (hbody : b.body = .merge) : g.Retained c r index { body := .merge } := by
  have hm : b.isMerge = true := by simp [Block.isMerge, hbody]
  exact ⟨b, inputs, s, t, notes, hb, h, hm.symm, .nil (by rw [h.exit_eq_start hm])⟩

theorem Solved.retained_control (h : g.Solved c r) (hset : g.Settled c r index b inputs s t notes)
    (hb : g.blocks.find? index = some b) {k : ControlInstr} (hbody : b.body = .control k)
    (hfits : (Instr.control k).Fits g.signature) :
    g.Retained c r index { body := .control { k with note := none } } := by
  have hm : b.isMerge = false := by simp [Block.isMerge, hbody]
  obtain ⟨hlocals, hglobals⟩ := h.lengths (hset.reached_start hb)
  refine ⟨b, inputs, s, t, notes, hb, hset, hm.symm, ?_⟩
  have hruns := hset.runs
  rw [show b.instrs = [.control k] by simp [Block.instrs, hbody]] at hruns
  cases hruns with
  | cons hi hnil =>
    cases hnil
    exact .instr (c := c) (i := .control { k with note := none }) (ControlInstr.Effect.withNote hi none) hfits
      hlocals hglobals

theorem Solved.addInstrs_sliced (h : g.Solved c r) (hset : g.Settled c r index b inputs s t notes)
    (hb : g.blocks.find? index = some b) {is : List DataInstr} (hbody : b.body = .data is)
    (hfits : ∀ i ∈ is, (Instr.data i).Fits g.signature) (hplain : ∀ i ∈ is, i.label.isDummy = false)
    (keep : List Label) (cut : Cut) :
    ∃ sliced last, sliceInstrs keep [] cut.next
        (is.map fun i => { i with note := (r.instrs.find? i.label).or i.note }) = .ok (sliced, last) ∧
      g.Treats c r index (b.instrs.map Instr.label) cut (cut.addInstrs (g.withRun r) index sliced last) := by
  have hm : b.isMerge = false := by simp [Block.isMerge, hbody]
  have hinstrs : b.instrs = is.map .data := by simp [Block.instrs, hbody]
  obtain ⟨hlocals, hglobals⟩ := h.lengths (hset.reached_start hb)
  have hnodup := h.labels.nodup_block hb
  have hruns := hset.runs
  rw [hinstrs] at hruns hnodup ⊢
  obtain ⟨hsteps, hnotes⟩ := hruns.annotate hset.instrs
  have hold : (is.map fun i => { i with note := (r.instrs.find? i.label).or i.note }).map DataInstr.label =
      (is.map .data).map Instr.label := by
    rw [List.map_map, List.map_map]
    rfl
  have hannotated : ∀ i ∈ is.map fun i => { i with note := (r.instrs.find? i.label).or i.note },
      (Instr.data i).Fits g.signature ∧ i.label.isDummy = false := by
    intro i hi
    obtain ⟨j, hj, rfl⟩ := List.mem_map.mp hi
    exact ⟨hfits j hj, hplain j hj⟩
  obtain ⟨sliced, last, hok, hreplays, hlabels⟩ := sliceInstrs_spec keep [] cut.next (.nil s) rfl hsteps hnotes
    (fun i hi => (hannotated i hi).1) hlocals hglobals (hold ▸ hnodup) fun i hi => (hannotated i hi).2
  exact ⟨sliced, last, hok, hset.addInstrs_treats hb hm hreplays (hold ▸ hlabels)⟩

theorem Solved.addBlock_ok (h : g.Solved c r) (hfits : ∀ i ∈ g.instrs, i.Fits g.signature)
    (hplain : g.NoPlaceholders) (keep : List Label) (cut : Cut) (hb : g.blocks.find? index = some b) :
    ∃ cut', cut.addBlock (g.withRun r) keep index (b.withRun r index) = .ok cut' ∧
      g.Treats c r index (b.instrs.map Instr.label) cut cut' := by
  obtain ⟨inputs, s, t, notes, hset⟩ := h.settled index b hb
  have hmem : ∀ i ∈ b.instrs, i ∈ g.instrs := fun i hi => mem_instrs hb hi
  unfold Cut.addBlock
  rw [Block.body_withRun]
  cases hbody : b.body with
  | merge =>
    have hclear : (b.withRun r index).clear = { body := .merge } := by
      rw [Block.clear, Block.body_withRun, hbody]
    dsimp only
    rw [hclear]
    exact ⟨_, rfl, .keep (hset.retained_merge hb hbody) (.nil _ _)⟩
  | control k =>
    have hm : b.isMerge = false := by simp [Block.isMerge, hbody]
    have hinstrs : b.instrs = [.control k] := by simp [Block.instrs, hbody]
    have hnodup := h.labels.nodup_block hb
    rw [hinstrs] at hmem hnodup ⊢
    have hk : Instr.control k ∈ g.instrs := hmem _ (List.mem_singleton_self _)
    dsimp only
    split
    · have hclear : (b.withRun r index).clear = { body := .control { k with note := none } } := by
        rw [Block.clear, Block.body_withRun, hbody]
      rw [hclear]
      refine ⟨_, rfl, .keep (h.retained_control hset hb hbody (hfits _ hk)) ?_⟩
      refine ⟨Int.le_refl _, hnodup, fun _ hl _ => hl, fun id hid => ?_⟩
      have hdummy := hplain _ hk
      rw [show (Instr.control k).label = .dummy id from (List.mem_singleton.mp hid).symm] at hdummy
      cases hdummy
    · have hlengths := hset.runs.lengths
      rw [hset.blockEffect_eq hb hm, ok_bind]
      exact ⟨_, rfl, hset.addInstrs_treats hb hm (.placeholders _ hlengths.1 hlengths.2 _ _) (.placeholders _ _ _)⟩
  | data is =>
    have hinstrs : b.instrs = is.map .data := by simp [Block.instrs, hbody]
    rw [hinstrs] at hmem
    obtain ⟨sliced, last, hok, htreats⟩ := h.addInstrs_sliced hset hb hbody
      (fun i hi => hfits _ (hmem _ (List.mem_map_of_mem hi))) (fun i hi => hplain _ (hmem _ (List.mem_map_of_mem hi)))
      keep cut
    dsimp only
    rw [hok, ok_bind]
    exact ⟨_, rfl, htreats⟩

/-! ## Edges -/

/-- What leaves the block `u` has the shape of what the block `v` starts with. -/
def Hands (g : Graph) (c : Config) (r : Run) (u v : Int) : Prop :=
  ∀ b inputs s t notes b' inputs' s' t' notes', g.Settled c r u b inputs s t notes →
    g.Settled c r v b' inputs' s' t' notes' → t.partLength = s'.partLength

theorem Solved.hands (h : g.Solved c r) {u : Int} {e : Edge} (he : e ∈ g.edges.leaving u) :
    g.Hands c r u e.target := by
  intro b inputs s t notes b' inputs' s' t' notes' hset hset'
  obtain ⟨_, _, _, tᵤ, _, _, hsetᵤ, x, hx, hxt⟩ := h.input_along he hset'
  obtain rfl : t = tᵤ := hset.exits.unique hsetᵤ.exits
  exact (State.partLength_of_beq hxt).symm.trans (hset'.starts.shape hx)

theorem Passes.hands (h : g.Passes c r index) {u v : Int} (hu : g.Hands c r u index) (hv : g.Hands c r index v) :
    g.Hands c r u v := by
  obtain ⟨b, inputs, s, t, notes, _, hset, _, hshape⟩ := h
  intro bᵤ inputsᵤ sᵤ tᵤ notesᵤ bᵥ inputsᵥ sᵥ tᵥ notesᵥ hsetᵤ hsetᵥ
  calc tᵤ.partLength = s.partLength := hu _ _ _ _ _ _ _ _ _ _ hsetᵤ hset
    _ = t.partLength := hshape
    _ = sᵥ.partLength := hv _ _ _ _ _ _ _ _ _ _ hset hsetᵥ

theorem Solved.single_pred (h : g.Solved c r) (hb : g.blocks.find? index = some b) (hm : b.isMerge = false) :
    ∀ e ∈ g.predecessors index, ∀ e' ∈ g.predecessors index, e = e' := by
  obtain ⟨inputs, s, t, notes, hset⟩ := h.settled index b hb
  have hlength := hset.inputs.length_eq
  have hle : (g.predecessors index).length ≤ 1 := by
    rw [← hlength]
    cases hset.starts with
    | entry => exact Nat.zero_le 1
    | join _ _ hone => exact Nat.le_of_eq (congrArg List.length (hone hm))
  exact fun e he e' he' => eq_of_length_le_one hle he he'

/-! ## All blocks -/

/-- The part of a slice that has been built from the blocks `done`. -/
structure CutSound (g : Graph) (c : Config) (r : Run) (done : List Int) (cut : Cut) : Prop where
  wiring : cut.wiring.Sane g.entry (fun u => g.hasBlock u = true ∧ u ∉ cut.removed)
    (fun u => ∃ b, g.blocks.find? u = some b ∧ b.isMerge = false) (g.Hands c r)
  removed : ∀ u ∈ cut.removed, u ∈ done ∧ u ≠ g.entry
  keys : ∀ u, cut.blocks.contains u = true ↔ u ∈ done ∧ u ∉ cut.removed
  retained : ∀ u b', cut.blocks.find? u = some b' → g.Retained c r u b'
  distinct : (cut.blocks.entries.flatMap fun e => e.2.instrs.map Instr.label).Nodup
  kept : ∀ e ∈ cut.blocks.entries, ∀ l ∈ e.2.instrs.map Instr.label, l.isDummy = false →
    ∃ b, g.blocks.find? e.1 = some b ∧ l ∈ b.instrs.map Instr.label
  fresh : ∀ e ∈ cut.blocks.entries, ∀ k, .dummy k ∈ e.2.instrs.map Instr.label → k < cut.next

theorem Solved.cutSound_start (h : g.Solved c r) (hnodup : ∀ u, (g.predecessors u).Nodup) :
    g.CutSound c r [] { wiring := ⟨g.edges, g.backEdges⟩ } where
  wiring := {
    inverse := h.connected.inverse
    ends := fun u e he => ⟨⟨(h.connected.ends u e he).1, List.not_mem_nil⟩, (h.connected.ends u e he).2,
      List.not_mem_nil⟩
    along := fun _ _ he => h.hands he
    entry_free := h.connected.entry_free
    reachable := fun u hu => h.connected.reachable u hu.1
    nodup := hnodup
    single := fun _ ⟨_, hb, hm⟩ => h.single_pred hb hm }
  removed u hu := by cases hu
  keys u := by simp [Table.contains_eq_isSome_find?]
  retained u b' hb' := by cases hb'
  distinct := .nil
  kept e he := by cases he
  fresh e he := by cases he

variable {cut cut' : Cut} {done : List Int}

theorem CutSound.keep (h : g.CutSound c r done cut) (hl : g.DistinctLabels) (hb : g.blocks.find? index = some b)
    (hindex : index ∉ done) {b' : Block} {next : Int} (hb' : g.Retained c r index b')
    (hlabels : Renumbers (b'.instrs.map Instr.label) (b.instrs.map Instr.label) cut.next next) :
    g.CutSound c r (done ++ [index]) { cut with blocks := cut.blocks.insert index b', next } := by
  have hindex' : ∀ e ∈ cut.blocks.entries, e.1 ≠ index := by
    rintro e he rfl
    exact hindex ((h.keys e.1).mp (Table.contains_iff_exists_mem.mpr ⟨e, he, BEq.rfl⟩)).1
  have hentries : (cut.blocks.insert index b').entries = cut.blocks.entries ++ [(index, b')] := by
    refine Table.entries_insert_of_fresh b' (Bool.eq_false_iff.mpr fun hcon => ?_)
    exact hindex ((h.keys index).mp hcon).1
  refine ⟨h.wiring, fun u hu => ?_, fun u => ?_, fun u x hx => ?_, ?_, ?_, ?_⟩
  · exact ⟨List.mem_append_left _ (h.removed u hu).1, (h.removed u hu).2⟩
  · exact Cut.kept_insert h.keys hindex (fun u hu => (h.removed u hu).1) b' u
  · rw [Table.find?_insert] at hx
    split at hx
    · rename_i heq
      rw [← eq_of_beq heq, ← Option.some.inj hx]
      exact hb'
    · exact h.retained u x hx
  · dsimp only
    rw [hentries, List.flatMap_append, List.flatMap_singleton, List.nodup_append]
    refine ⟨h.distinct, hlabels.nodup, ?_⟩
    rintro l hold l' hnew rfl
    obtain ⟨e, he, hle⟩ := List.mem_flatMap.mp hold
    cases hd : l.isDummy with
    | false =>
      obtain ⟨bₑ, hbₑ, hlₑ⟩ := h.kept e he l hle hd
      exact hl.disjoint hbₑ hb (hindex' e he) hlₑ (hlabels.kept l hnew hd)
    | true =>
      obtain ⟨k, rfl⟩ : ∃ k, l = .dummy k := by cases l <;> simp_all [Label.isDummy]
      have hlt := h.fresh e he k hle
      have hle := (hlabels.fresh k hnew).1
      omega
  · intro e he l hle hd
    dsimp only at he
    rw [hentries, List.mem_append, List.mem_singleton] at he
    rcases he with he | rfl
    · exact h.kept e he l hle hd
    · exact ⟨b, hb, hlabels.kept l hle hd⟩
  · intro e he k hk
    dsimp only at he ⊢
    rw [hentries, List.mem_append, List.mem_singleton] at he
    rcases he with he | rfl
    · have hlt := h.fresh e he k hk
      have hle := hlabels.le
      omega
    · exact (hlabels.fresh k hk).2

theorem CutSound.remove (h : g.CutSound c r done cut) (hindex : index ∉ done) {next : Int} (hnext : cut.next ≤ next)
    (hpasses : g.Passes c r index) (hstructural : cut.structural g index = false) :
    g.CutSound c r (done ++ [index])
      { cut with wiring := cut.wiring.splice index, removed := index :: cut.removed, next } := by
  obtain ⟨hentry, -, hsingle⟩ := Cut.structural_eq_false.mp hstructural
  have halive : (fun u => (g.hasBlock u = true ∧ u ∉ cut.removed) ∧ u ≠ index) =
      fun u => g.hasBlock u = true ∧ u ∉ index :: cut.removed := by
    funext u
    rw [List.mem_cons, not_or, and_assoc, and_comm (a := u ∉ cut.removed)]
  refine ⟨?_, fun u hu => ?_, fun u => ?_, h.retained, h.distinct, h.kept, fun e he k hk => ?_⟩
  · have hsane := h.wiring.splice hentry hsingle fun u v => hpasses.hands
    rw [halive] at hsane
    exact hsane
  · rcases List.mem_cons.mp hu with rfl | hu
    · exact ⟨List.mem_append_right _ (List.mem_singleton_self _), hentry⟩
    · exact ⟨List.mem_append_left _ (h.removed u hu).1, (h.removed u hu).2⟩
  · exact Cut.kept_remove h.keys hindex u
  · have hlt := h.fresh e he k hk
    dsimp only
    omega

/-- A graph that can be analyzed in place of `g`, whose blocks do to the shapes of states what those of `g` do. -/
structure SliceOf (g : Graph) (c : Config) (r : Run) (slice : Graph) : Prop where
  signature : slice.signature = g.signature
  entry : slice.entry = g.entry
  connected : slice.Connected
  labels : slice.DistinctLabels
  retained : ∀ u b', slice.blocks.find? u = some b' → g.Retained c r u b'
  along : ∀ u e, e ∈ slice.edges.leaving u → g.Hands c r u e.target
  single : ∀ u b', slice.blocks.find? u = some b' → b'.isMerge = false → (slice.predecessors u).length ≤ 1

theorem CutSound.sliceOf (h : g.CutSound c r done cut) (hg : g.Connected)
    (hdone : ∀ u, u ∈ done ↔ g.hasBlock u = true) :
    g.SliceOf c r { g with blocks := cut.blocks, edges := cut.wiring.edges, backEdges := cut.wiring.backEdges } where
  signature := rfl
  entry := rfl
  connected := by
    have halive : ∀ u, cut.blocks.contains u = true ↔ g.hasBlock u = true ∧ u ∉ cut.removed :=
      fun u => (h.keys u).trans (and_congr_left fun _ => hdone u)
    refine ⟨h.wiring.inverse, fun u e he => ?_, ?_, h.wiring.entry_free, fun u hu => ?_⟩
    · obtain ⟨hu, he⟩ := h.wiring.ends u e he
      exact ⟨(halive u).mpr hu, (halive e.target).mpr he⟩
    · exact (halive g.entry).mpr ⟨hg.entry_block, fun hcon => (h.removed g.entry hcon).2 rfl⟩
    · exact h.wiring.reachable u ((halive u).mp hu)
  labels := by
    have hdistinct := h.distinct
    simpa [DistinctLabels, instrs, Table.values, List.map_flatMap, List.flatMap_map] using hdistinct
  retained := h.retained
  along := h.wiring.along
  single u b' hb' hm := by
    obtain ⟨b, _, _, _, _, hb, _, hmerge, _⟩ := h.retained u b' hb'
    exact length_le_one (h.wiring.nodup u) (h.wiring.single u ⟨b, hb, hmerge ▸ hm⟩)

/-- A graph can be restricted to any labels once it has been analyzed. -/
theorem Solved.restrict_ok (h : g.Solved c r) (hfits : ∀ i ∈ g.instrs, i.Fits g.signature) (hplain : g.NoPlaceholders)
    (hnodup : ∀ u, (g.predecessors u).Nodup) (keep : List Label) :
    ∃ slice, (g.withRun r).restrict keep = .ok slice ∧ g.SliceOf c r slice := by
  have hstep : ∀ done (e : Int × Block) rest cut, (g.withRun r).sortedBlocks = done ++ e :: rest →
      g.CutSound c r (done.map (·.1)) cut →
      ∃ cut', cut.addBlock (g.withRun r) keep e.1 e.2 = .ok cut' ∧ g.CutSound c r ((done ++ [e]).map (·.1)) cut' := by
    intro done e rest cut hsplit hcut
    have he : e ∈ (g.withRun r).sortedBlocks := by simp [hsplit]
    obtain ⟨b, hb, heq⟩ := mem_entries_withRun.mp (mem_sortBy.mp he)
    have hindex := fst_not_mem_of_sortedBlocks hsplit
    obtain ⟨cut', hok, htreats⟩ := h.addBlock_ok hfits hplain keep cut hb
    refine ⟨cut', heq ▸ hok, ?_⟩
    rw [List.map_append, List.map_singleton]
    cases htreats with
    | keep hb' hlabels => exact hcut.keep h.labels hb hindex hb' hlabels
    | remove hnext hpasses hstructural => exact hcut.remove hindex hnext hpasses hstructural
  obtain ⟨cut, hfold, hcut⟩ := foldlM_succeeds (fun done cut => g.CutSound c r (done.map (·.1)) cut)
    (g.withRun r).sortedBlocks (h.cutSound_start hnodup) hstep
  have hdone : ∀ u, u ∈ (g.withRun r).sortedBlocks.map (·.1) ↔ g.hasBlock u = true := fun u => by
    rw [mem_fst_sortedBlocks, hasBlock_withRun]
  have hslice := hcut.sliceOf h.connected hdone
  refine ⟨_, ?_, hslice⟩
  have hprune : cut.wiring.prune g.entry g.exit cut.removed = cut.wiring :=
    hcut.wiring.linked.prune_eq (fun u hu => hu.2) hcut.wiring.reachable g.exit
  refine bind_eq_ok.mpr ⟨cut, hfold, ?_⟩
  show Except.ok _ = _
  rw [show (g.withRun r).entry = g.entry from rfl, show (g.withRun r).exit = g.exit from rfl, hprune]
  rfl

end Graph
end Backslice
