import Backslice.Proofs.Slice.Tracking

/-! # A graph and its slice in step

What a kept join point renames is needed, so the slice has its twins in front of the same join point, and they differ
where the names differ. The slice hence keeps up with the graph from block to block. An exception is a `return` that
takes its result from above other values: dropping it leaves the lowest value in the place of the result. -/

namespace Backslice

set_option autoImplicit false

namespace Graph

variable {g slice : Graph} {r r' : Run} {keep : List Label} {v : Int} {b : Block} {inputs : List State}
  {s s' t t' : State} {notes notes' : List (Label × Note)} {code : List Instr} {p q : Place} {x y z z' : Var}

theorem wanted_cell (hp : p.IsCell) (hx : g.Needs keep x) : g.Wanted r keep p x := by
  refine ⟨hx, fun k hk => ?_⟩
  subst hk
  cases hp

/-- What a kept join point renames is needed, and in memory the stores that bind it are kept. -/
theorem Supports.wanted_merge (hsup : g.Supports r keep) (h : g.Exact r) (hb : g.blocks.find? v = some b)
    (hm : b.isMerge = true) (hkeep : .merge v ∈ keep) (ht : r.Exits v t) (hs : g.Feeds r v s)
    (hx : s.nameAt p = some x) (hz : t.nameAt p = some z) (hne : x ≠ z) : g.Wanted r keep p x := by
  obtain ⟨vs, hvs, hmem⟩ := h.labelUses_merge hb hm ht
  obtain ⟨uses, huses, hslots⟩ := h.mem_mergeMemoryUses hb hm ht
  have hplain := Var.not_isConstant_of_isPlain ((h.feeds_clean hs).plain p x hx)
  refine ⟨hsup.join v b hb hm hkeep vs hvs x ((hmem x).mpr ⟨s, p, z, hs, hx, hz, hne⟩) hplain, ?_⟩
  rintro k rfl i hi hstored
  obtain ⟨use, huse, hsame⟩ := hslots s k x z hs hx hz hne
  exact hsup.store v b uses hb hm hkeep huses use huse (k, x) hsame i hi hstored

/-! ## Join points -/

/-- In front of the block `v` what stands at the place `p` of the graph and at the place `q` of the slice corresponds. -/
def Fronts (g slice : Graph) (r : Run) (keep : List Label) (r' : Run) (v : Int) (p q : Place) : Prop :=
  ∀ e ∈ g.predecessors v, ∃ u u' x y, r.Exits e.target u ∧ g.Lands slice r' e.target u' ∧ u.nameAt p = some x ∧
    u'.nameAt q = some y ∧ (g.Wanted r keep p x → g.Twin r keep r' x y) ∧ g.Mate slice r keep r' x y

theorem Fronts.of_feeds (hf : g.Fronts slice r keep r' v p q) {u : State} (hu : g.Feeds r v u) : ∃ x y u',
    (∃ e ∈ g.predecessors v, g.Lands slice r' e.target u') ∧ u.nameAt p = some x ∧ u'.nameAt q = some y ∧
      (g.Wanted r keep p x → g.Twin r keep r' x y) ∧ g.Mate slice r keep r' x y := by
  obtain ⟨e, he, hu⟩ := hu
  obtain ⟨u₁, u', x, y, hu₁, hu', hxy⟩ := hf e he
  obtain rfl := hu.unique hu₁
  exact ⟨x, y, u', ⟨e, he, hu'⟩, hxy⟩

theorem Fronts.of_lands (hf : g.Fronts slice r keep r' v p q) (h : g.Sliced r keep slice r') {u' : State}
    (hu' : ∃ e ∈ g.predecessors v, g.Lands slice r' e.target u') : ∃ x y u, g.Feeds r v u ∧ u.nameAt p = some x ∧
      u'.nameAt q = some y ∧ (g.Wanted r keep p x → g.Twin r keep r' x y) ∧ g.Mate slice r keep r' x y := by
  obtain ⟨e, he, hu'⟩ := hu'
  obtain ⟨u, u₁', x, y, hu, hu₁', hxy⟩ := hf e he
  obtain rfl := h.lands_unique hu' hu₁'
  exact ⟨x, y, u, ⟨e, he, hu⟩, hxy⟩

theorem Aligned.eq_of_stack {k : Nat} (h : g.Aligned r keep r' p (.stack k)) : p = .stack k := by
  cases h
  rfl

namespace Sliced

/-- Where all agree in front of the block, they agree in the slice, and nothing is renamed. -/
theorem rejoin_kept (h : g.Sliced r keep slice r') (hb : g.blocks.find? v = some b)
    (hset : g.Settled .bare r v b inputs s t notes) (hlanded : Landed g slice r' v b code s' t' notes')
    (hv : v ≠ g.entry) (hpq : g.Aligned r keep r' p q) (hf : g.Fronts slice r keep r' v p q)
    (hborn : ¬ (b.isMerge = true ∧ g.BornAt v z)) (hz : s.nameAt p = some z) :
    ∃ y, s'.nameAt q = some y ∧ (g.Wanted r keep p z → g.Twin r keep r' z y) ∧ g.Mate slice r keep r' z y ∧
      ∀ u', (∃ e ∈ g.predecessors v, g.Lands slice r' e.target u') → u'.nameAt q = some y := by
  have hjoins := h.exact.joins hb hset hv
  have hall := (hjoins.kept p z hz).resolve_left hborn
  obtain ⟨u, hu⟩ := hjoins.inhabited
  obtain ⟨x, y, u', hu', hx, hy, htwin, hmate⟩ := hf.of_feeds hu
  obtain rfl := Option.some.inj (hx.symm.trans (hall u hu))
  have hagree : ∀ w', (∃ e ∈ g.predecessors v, g.Lands slice r' e.target w') → w'.nameAt q = some y := by
    intro w' hw'
    obtain ⟨x₁, y₁, w, hw, hx₁, hy₁, -, hmate₁⟩ := hf.of_lands h hw'
    obtain rfl := Option.some.inj (hx₁.symm.trans (hall w hw))
    rwa [h.mate_unique hmate hmate₁]
  have hmarked : ¬ (b.isMerge = true ∧ v = g.exit ∧ q = .stack 0) := by
    rintro ⟨hm, hexit, rfl⟩
    obtain rfl := hpq.eq_of_stack
    exact hborn ⟨hm, Or.inr ⟨hexit, hjoins.marks _ x ⟨hm, hexit, rfl⟩ hz⟩⟩
  exact ⟨y, (hlanded.joins hv).agreed q y hmarked hagree, htwin, hmate, hagree⟩

/-- Where a kept join point makes a name, the slice makes one as well. -/
theorem rejoin_born (h : g.Sliced r keep slice r') (hsup : g.Supports r keep) (hb : g.blocks.find? v = some b)
    (hset : g.Settled .bare r v b inputs s t notes) (hlanded : Landed g slice r' v b code s' t' notes')
    (hv : v ≠ g.entry) (hpq : g.Aligned r keep r' p q) (hf : g.Fronts slice r keep r' v p q) (hm : b.isMerge = true)
    (hborn : g.BornAt v z) (hkeep : .merge v ∈ keep) (hz : s.nameAt p = some z) (hz' : s'.nameAt q = some z') :
    g.BornAt v z' := by
  have hjoins := h.exact.joins hb hset hv
  have hexits : r.Exits v s := hset.exit_eq_start hm ▸ hset.exits
  -- Otherwise all twins in front of the block are the same, hence all names, and the join point would keep them.
  rcases (hlanded.joins hv).kept q z' hz' with hborn' | hall
  · exact hborn'.2
  · have htwins : ∀ u, g.Feeds r v u → ∃ x, u.nameAt p = some x ∧ x ≠ z ∧ g.Twin r keep r' x z' := by
      intro u hu
      obtain ⟨x, y, u', hu', hx, hy, htwin, -⟩ := hf.of_feeds hu
      have hne : x ≠ z := by
        rintro rfl
        exact hjoins.fresh u x hu ⟨hm, hborn⟩ (State.mentions_of_nameAt hx)
      obtain rfl := Option.some.inj (hy.symm.trans (hall u' hu'))
      exact ⟨x, hx, hne, htwin (hsup.wanted_merge h.exact hb hm hkeep hexits hu hx hz hne)⟩
    obtain ⟨u, hu⟩ := hjoins.inhabited
    obtain ⟨x, hx, hne, htwin⟩ := htwins u hu
    by_cases hmarked : b.isMerge = true ∧ v = g.exit ∧ p = .stack 0
    · have hreturned : z' = .returned := by
        refine (hlanded.joins hv).marks q z' ⟨hm, hmarked.2.1, ?_⟩ hz'
        obtain ⟨-, -, rfl⟩ := hmarked
        cases hpq
        rfl
      exact Or.inr ⟨hmarked.2.1, hreturned⟩
    · have hagree : ∀ w, g.Feeds r v w → w.nameAt p = some x := by
        intro w hw
        obtain ⟨x₁, hx₁, -, htwin₁⟩ := htwins w hw
        rwa [htwin.injective h.distinguishes' htwin₁]
      exact absurd (Option.some.inj ((hjoins.agreed p x hmarked hagree).symm.trans hz)) hne

/-- What stands behind the block at corresponding places, if it corresponds in front of it. -/
theorem rejoin (h : g.Sliced r keep slice r') (hsup : g.Supports r keep) (hb : g.blocks.find? v = some b)
    (hset : g.Settled .bare r v b inputs s t notes) (hlanded : Landed g slice r' v b code s' t' notes')
    (hv : v ≠ g.entry) (hpq : g.Aligned r keep r' p q) (hf : g.Fronts slice r keep r' v p q)
    (hz : s.nameAt p = some z) (hz' : s'.nameAt q = some z') :
    (g.Wanted r keep p z → g.Twin r keep r' z z') ∧ g.Mate slice r keep r' z z' := by
  by_cases hborn : b.isMerge = true ∧ g.BornAt v z
  · obtain ⟨hm, hborn⟩ := hborn
    obtain ⟨rfl, hexits'⟩ := hlanded.exits hm
    have hexits : r.Exits v s := hset.exit_eq_start hm ▸ hset.exits
    refine ⟨fun hwanted => ?_, Or.inr ⟨v, b, s, s', p, q, hb, hexits, hlanded.lands, hpq, hz, hz', Or.inl ⟨hm, hborn⟩⟩⟩
    have hkeep : .merge v ∈ keep := hwanted.1 _ (origin_of_bornAt hborn)
    exact .made ⟨⟨b, hb, hm⟩, hexits, hexits'⟩ hkeep hborn
      (h.rejoin_born hsup hb hset hlanded hv hpq hf hm hborn hkeep hz hz') hpq hz hz'
  · obtain ⟨y, hy, htwin, hmate, -⟩ := h.rejoin_kept hb hset hlanded hv hpq hf hborn hz
    obtain rfl := Option.some.inj (hz'.symm.trans hy)
    exact ⟨htwin, hmate⟩

/-! ## The start of a block -/

/-- The slice is in step behind all predecessors of the block. -/
def InStepBefore (g slice : Graph) (r : Run) (keep : List Label) (r' : Run) (v : Int) : Prop :=
  ∀ e ∈ g.predecessors v, ∃ u u', r.Exits e.target u ∧ g.Lands slice r' e.target u' ∧
    g.Tracks slice r keep r' (fun _ => False) u u'

theorem fronts_cell (h : g.Sliced r keep slice r') (hb : g.blocks.find? v = some b)
    (hset : g.Settled .bare r v b inputs s t notes) (hlanded : Landed g slice r' v b code s' t' notes')
    (hv : v ≠ g.entry) (hbefore : InStepBefore g slice r keep r' v) (hp : p.IsCell) (hx : s.nameAt p = some x)
    (hy : s'.nameAt p = some y) : g.Fronts slice r keep r' v p p := by
  intro e he
  obtain ⟨u, u', hu, hu', htracks⟩ := hbefore e he
  obtain ⟨x₁, hx₁⟩ := (h.exact.joins hb hset hv).bound p x hx u ⟨e, he, hu⟩
  obtain ⟨y₁, hy₁⟩ := (hlanded.joins hv).bound p y hy u' ⟨e, he, hu'⟩
  exact ⟨u, u', x₁, y₁, hu, hu', hx₁, hy₁, fun hwanted => htracks.twins p x₁ y₁ hp hx₁ hy₁ hwanted.1,
    (htracks.mates p x₁ y₁ hp hx₁ hy₁).resolve_right id⟩

/-- A binding that is wanted in front of the block is there in the slice. -/
theorem fronts_forth (h : g.Sliced r keep slice r') (hb : g.blocks.find? v = some b)
    (hset : g.Settled .bare r v b inputs s t notes) (hlanded : Landed g slice r' v b code s' t' notes')
    (hv : v ≠ g.entry) (hbefore : InStepBefore g slice r keep r' v) {a : Var} {offset : Int}
    (hx : s.nameAt (.memory (a, offset)) = some x)
    (hwanted : ∀ u x, g.Feeds r v u → u.nameAt (.memory (a, offset)) = some x →
      g.Wanted r keep (.memory (a, offset)) x) :
    ∃ a' y, g.Twin r keep r' a a' ∧ s'.nameAt (.memory (a', offset)) = some y ∧
      g.Fronts slice r keep r' v (.memory (a, offset)) (.memory (a', offset)) := by
  have hjoins := h.exact.joins hb hset hv
  have hfront : ∀ e ∈ g.predecessors v, ∃ u u' x₁ a' y, r.Exits e.target u ∧ g.Lands slice r' e.target u' ∧
      u.nameAt (.memory (a, offset)) = some x₁ ∧ g.Twin r keep r' a a' ∧
      u'.nameAt (.memory (a', offset)) = some y ∧ g.Twin r keep r' x₁ y := by
    intro e he
    obtain ⟨u, u', hu, hu', htracks⟩ := hbefore e he
    obtain ⟨x₁, hx₁⟩ := hjoins.bound _ x hx u ⟨e, he, hu⟩
    obtain ⟨a', y, ha, hy, htwin⟩ := htracks.forth a offset x₁ hx₁ (hwanted u x₁ ⟨e, he, hu⟩ hx₁)
    exact ⟨u, u', x₁, a', y, hu, hu', hx₁, ha, hy, htwin⟩
  obtain ⟨-, e₀, he₀, -⟩ := hjoins.inhabited
  obtain ⟨-, -, -, a', -, -, -, -, ha, -⟩ := hfront e₀ he₀
  have hfronts : g.Fronts slice r keep r' v (.memory (a, offset)) (.memory (a', offset)) := by
    intro e he
    obtain ⟨u, u', x₁, a₁, y, hu, hu', hx₁, ha₁, hy, htwin⟩ := hfront e he
    obtain rfl := ha.unique h.exact.distinguishes ha₁
    exact ⟨u, u', x₁, y, hu, hu', hx₁, hy, fun _ => htwin, Or.inl htwin⟩
  obtain ⟨y, hy⟩ := (hlanded.joins hv).total (.memory (a', offset)) fun u' hu' => by
    obtain ⟨_, y, _, _, _, hy, _⟩ := hfronts.of_lands h hu'
    exact ⟨y, hy⟩
  exact ⟨a', y, ha, hy, hfronts⟩

/-- What is wanted behind a block stands in front of it, or is made there of names that are wanted. -/
theorem wanted_front (h : g.Sliced r keep slice r') (hsup : g.Supports r keep) (hb : g.blocks.find? v = some b)
    (hset : g.Settled .bare r v b inputs s t notes) (hv : v ≠ g.entry) (hz : s.nameAt p = some z)
    (hwanted : g.Wanted r keep p z) {u : State} (hu : g.Feeds r v u) (hx : u.nameAt p = some x) :
    g.Wanted r keep p x := by
  by_cases hne : x = z
  · exact hne ▸ hwanted
  · rcases (h.exact.joins hb hset hv).kept p z hz with ⟨hm, hborn⟩ | hall
    · have hexits : r.Exits v s := hset.exit_eq_start hm ▸ hset.exits
      exact hsup.wanted_merge h.exact hb hm (hwanted.1 _ (origin_of_bornAt hborn)) hexits hu hx hz hne
    · exact absurd (Option.some.inj (hx.symm.trans (hall u hu))) hne

/-- A binding of the slice goes back to one binding of the graph in front of the block. -/
theorem fronts_back (h : g.Sliced r keep slice r') (hb : g.blocks.find? v = some b)
    (hset : g.Settled .bare r v b inputs s t notes) (hlanded : Landed g slice r' v b code s' t' notes')
    (hv : v ≠ g.entry) (hbefore : InStepBefore g slice r keep r' v) {a' : Var} {offset : Int}
    (hy : s'.nameAt (.memory (a', offset)) = some y) :
    ∃ a x, g.Twin r keep r' a a' ∧ s.nameAt (.memory (a, offset)) = some x ∧
      g.Fronts slice r keep r' v (.memory (a, offset)) (.memory (a', offset)) := by
  have hfront : ∀ e ∈ g.predecessors v, ∃ u u' a x₁ y₁, r.Exits e.target u ∧ g.Lands slice r' e.target u' ∧
      g.Twin r keep r' a a' ∧ u.nameAt (.memory (a, offset)) = some x₁ ∧
      u'.nameAt (.memory (a', offset)) = some y₁ ∧
      (g.Wanted r keep (.memory (a, offset)) x₁ → g.Twin r keep r' x₁ y₁) ∧ g.Mate slice r keep r' x₁ y₁ := by
    intro e he
    obtain ⟨u, u', hu, hu', htracks⟩ := hbefore e he
    obtain ⟨y₁, hy₁⟩ := (hlanded.joins hv).bound _ y hy u' ⟨e, he, hu'⟩
    obtain ⟨a, x₁, ha, hx₁, hmate⟩ := htracks.back a' offset y₁ hy₁
    refine ⟨u, u', a, x₁, y₁, hu, hu', ha, hx₁, hy₁, fun hwanted => ?_, hmate⟩
    obtain ⟨a₂, y₂, ha₂, hy₂, htwin⟩ := htracks.forth a offset x₁ hx₁ hwanted
    obtain rfl := ha.unique h.exact.distinguishes ha₂
    exact Option.some.inj (hy₂.symm.trans hy₁) ▸ htwin
  have hjoins := h.exact.joins hb hset hv
  obtain ⟨-, e₀, he₀, -⟩ := hjoins.inhabited
  obtain ⟨-, -, a, -, -, -, -, ha, -⟩ := hfront e₀ he₀
  have hfronts : g.Fronts slice r keep r' v (.memory (a, offset)) (.memory (a', offset)) := by
    intro e he
    obtain ⟨u, u', a₁, x₁, y₁, hu, hu', ha₁, hx₁, hy₁, hxy⟩ := hfront e he
    obtain rfl := ha.injective h.distinguishes' ha₁
    exact ⟨u, u', x₁, y₁, hu, hu', hx₁, hy₁, hxy⟩
  obtain ⟨x, hx⟩ := hjoins.total (.memory (a, offset)) fun u hu => by
    obtain ⟨x, _, _, _, hx, _⟩ := hfronts.of_feeds hu
    exact ⟨x, hx⟩
  exact ⟨a, x, ha, hx, hfronts⟩

/-- A block that is entered in step starts in step. -/
theorem enter (h : g.Sliced r keep slice r') (hsup : g.Supports r keep) (hb : g.blocks.find? v = some b)
    (hset : g.Settled .bare r v b inputs s t notes) (hlanded : Landed g slice r' v b code s' t' notes')
    (hbefore : InStepBefore g slice r keep r' v) : g.Tracks slice r keep r' (fun _ => False) s s' := by
  by_cases hv : v = g.entry
  · subst hv
    rw [(h.exact.solved.entry_start hset).2, hlanded.entry rfl]
    exact tracks_entry g slice r keep r' _
  have hjoins := h.exact.joins hb hset hv
  have hjoins' := hlanded.joins hv
  have hcell : ∀ {p x y}, p.IsCell → s.nameAt p = some x → s'.nameAt p = some y →
      (g.Wanted r keep p x → g.Twin r keep r' x y) ∧ g.Mate slice r keep r' x y := by
    intro p x y hp hx hy
    exact h.rejoin hsup hb hset hlanded hv (.cell hp) (h.fronts_cell hb hset hlanded hv hbefore hp hx hy) hx hy
  refine ⟨?_, fun p x y hp hx hy hneeds => (hcell hp hx hy).1 (wanted_cell hp hneeds),
    fun p x y hp hx hy => Or.inl (hcell hp hx hy).2, fun a offset x hx hwanted => ?_, fun a' offset y hy => ?_⟩
  · obtain ⟨-, e, he, -⟩ := hjoins.inhabited
    obtain ⟨u, u', hu, hu', htracks⟩ := hbefore e he
    calc s'.partLength = u'.partLength := (hjoins'.shape u' ⟨e, he, hu'⟩).symm
      _ = u.partLength := htracks.shape
      _ = s.partLength := hjoins.shape u ⟨e, he, hu⟩
  · obtain ⟨a', y, ha, hy, hfronts⟩ := h.fronts_forth hb hset hlanded hv hbefore hx fun u x₁ hu hx₁ =>
      h.wanted_front hsup hb hset hv hx hwanted hu hx₁
    exact ⟨a', y, ha, hy, (h.rejoin hsup hb hset hlanded hv (.slot ha offset) hfronts hx hy).1 hwanted⟩
  · obtain ⟨a, x, ha, hx, hfronts⟩ := h.fronts_back hb hset hlanded hv hbefore hy
    exact ⟨a, x, ha, hx, (h.rejoin hsup hb hset hlanded hv (.slot ha offset) hfronts hx hy).2⟩

/-! ## Whole blocks -/

/-- What has been made in the block by instructions that are not kept. -/
def Loose (keep : List Label) (b : Block) (x : Var) : Prop := ∃ i ∈ b.instrs, i.label ∉ keep ∧ x = .pushed i.label

end Sliced

/-- The block gives back the result of the function from above other values, and it is not kept. -/
def Buries (g : Graph) (r : Run) (keep : List Label) (u : Int) : Prop :=
  ∃ b i s t, g.blocks.find? u = some b ∧ i ∈ b.instrs ∧ i.Yields g.signature ∧ i.label ∉ keep ∧
    r.instrs.find? i.label = some ⟨.known s, .known t⟩ ∧ 1 < s.stack.length

namespace Sliced

theorem leave (h : g.Sliced r keep slice r') (hsup : g.Supports r keep) (hb : g.blocks.find? v = some b)
    (hset : g.Settled .bare r v b inputs s t notes) (hlanded : Landed g slice r' v b code s' t' notes')
    (hfollows : Follows g.signature .bare keep b.instrs s notes t code) (hlevel : ¬ g.Buries r keep v)
    (hs : g.Tracks slice r keep r' (fun _ => False) s s') :
    g.Tracks slice r keep r' (fun _ => False) t t' ∧ ∀ i ∈ b.instrs, i.label ∈ keep → ∃ u w u' w',
      r.instrs.find? i.label = some ⟨.known u, .known w⟩ ∧ r'.instrs.find? i.label = some ⟨.known u', .known w'⟩ ∧
      g.Tracks slice r keep r' (Loose keep b) u u' := by
  have hloose : g.Tracks slice r keep r' (Loose keep b) s s' :=
    { hs with mates := fun p x y hp hx hy => (hs.mates p x y hp hx hy).imp id False.elim }
  have hlevel' : ∀ i ∈ b.instrs, i.label ∉ keep → i.Yields g.signature → ∀ u w,
      r.instrs.find? i.label = some ⟨.known u, .known w⟩ → u.stack.length ≤ 1 := by
    intro i hi hnot hyields u w hnote
    by_contra hcon
    exact hlevel ⟨b, i, u, w, hb, hi, hyields, hnot, hnote, Nat.lt_of_not_le hcon⟩
  obtain ⟨ht, hkept⟩ := h.follow hsup hfollows hlanded.runs (fun i hi => mem_instrs hb hi) hlanded.instrs hset.instrs
    hlanded.recorded hlevel' (fun i hi hnot => ⟨i, hi, hnot, rfl⟩) hloose
  refine ⟨{ ht with mates := fun p x y hp hx hy => Or.inl ?_ }, hkept⟩
  -- What was loose stands at the end of the block now.
  rcases ht.mates p x y hp hx hy with hmate | ⟨i, hi, hnot, rfl⟩
  · exact hmate
  · exact Or.inr ⟨v, b, t, t', p, p, hb, hset.exits, hlanded.lands, .cell hp, hx, hy, Or.inr ⟨hp, i, hi, hnot, rfl⟩⟩

end Sliced

/-- Every `return` leads to the exit, and nothing leads on from there. -/
def ReturnsLast (g : Graph) : Prop :=
  (∀ e ∈ g.blocks.entries, ∀ i ∈ e.2.instrs, i.isReturn = true → ∀ d ∈ g.edges.leaving e.1, d.target = g.exit) ∧
    g.edges.leaving g.exit = []

instance (g : Graph) : Decidable g.ReturnsLast := inferInstanceAs (Decidable (_ ∧ _))

namespace Sliced

/-- In front of a block that no buried result comes into, the slice is in step with the graph. -/
theorem inStep (h : g.Sliced r keep slice r') (hsup : g.Supports r keep) (hlast : g.ReturnsLast)
    (hv : g.hasBlock v = true) (hlevel : ∀ e ∈ g.predecessors v, ¬ g.Buries r keep e.target) :
    InStepBefore g slice r keep r' v := by
  refine h.exact.acyclic.induction h.exact.solved.connected (P := fun v =>
    (∀ e ∈ g.predecessors v, ¬ g.Buries r keep e.target) → InStepBefore g slice r keep r' v) ?_ hv hlevel
  intro v hv ih hlevel e he
  obtain ⟨bₑ, hbₑ⟩ := h.exact.block_of_predecessor he
  obtain ⟨inputs, s, t, notes, hset⟩ := h.exact.solved.settled e.target bₑ hbₑ
  obtain ⟨code, s', t', notes', hfollows, hlanded⟩ := h.landed hbₑ hset
  have hlevel' : ∀ e' ∈ g.predecessors e.target, ¬ g.Buries r keep e'.target := by
    -- such a block would lead to the exit, which leads nowhere
    rintro e' he' ⟨b, i, -, -, hb, hi, hyields, -⟩
    have hinverse := h.exact.solved.connected.inverse
    have hmem : (e'.target, b) ∈ g.blocks.entries := Table.find?_eq_some_iff_mem.mp hb
    have hexit := hlast.1 _ hmem i hi (Instr.isReturn_of_yields hyields) _ ((hinverse _ _ _).mpr he')
    have hedge := (hinverse _ _ _).mpr he
    rw [show e.target = g.exit from hexit, hlast.2] at hedge
    cases hedge
  have hs := h.enter hsup hbₑ hset hlanded (ih e.target (h.exact.solved.connected.before_of_predecessor he) hlevel')
  exact ⟨t, t', hset.exits, hlanded.lands, (h.leave hsup hbₑ hset hlanded hfollows (hlevel e he) hs).1⟩

end Sliced
end Graph
end Backslice
