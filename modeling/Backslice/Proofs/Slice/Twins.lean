import Backslice.Proofs.Slice.Landing
import Backslice.Proofs.Slice.Needs

/-! # Names of a graph and of its slice

The analysis of a slice numbers the names of its join points anew. A needed name of the graph has a twin in the slice:
itself, or what the slice makes at the place where a kept join point makes the name. No two names share a twin. A name
that is not needed has still a mate, which stands in its place behind the block where it is made. -/

namespace Backslice

set_option autoImplicit false

namespace Graph

variable {g slice : Graph} {r r' : Run} {keep : List Label} {w : Int} {b : Block} {t t' : State} {x x' y y' : Var}
  {p p' q q' : Place}

theorem origin_of_bornAt (h : g.BornAt w x) : g.origin x = some (.merge w) := by
  rcases h with ⟨n, rfl⟩ | ⟨rfl, rfl⟩ <;> rfl

theorem not_bornAt_pushed (g : Graph) (w : Int) (l : Label) : ¬ g.BornAt w (.pushed l) := by
  rintro (⟨n, h⟩ | ⟨-, h⟩) <;> cases h

/-! ## Twins -/

/-- The block `w` is a join point with `t` behind it in the graph and `t'` in the slice. -/
def Meets (g : Graph) (r r' : Run) (w : Int) (t t' : State) : Prop :=
  (∃ b, g.blocks.find? w = some b ∧ b.isMerge = true) ∧ r.Exits w t ∧ r'.Exits w t'

/-- The name `x` of the graph and the name `y` of the slice stand for the same value. -/
inductive Twin (g : Graph) (r : Run) (keep : List Label) (r' : Run) : Var → Var → Prop
  | start {x : Var} (hx : g.origin x = none) : Twin g r keep r' x x
  | kept {l : Label} (hl : l ∈ keep) : Twin g r keep r' (.pushed l) (.pushed l)
  | cell {w : Int} {t t' : State} {x y : Var} {p : Place} (hw : g.Meets r r' w t t') (hkeep : .merge w ∈ keep)
      (hx : g.BornAt w x) (hy : g.BornAt w y) (hp : p.IsCell) (hxp : t.nameAt p = some x)
      (hyp : t'.nameAt p = some y) : Twin g r keep r' x y
  | slot {w : Int} {t t' : State} {x y a a' : Var} {offset : Int} (hw : g.Meets r r' w t t') (hkeep : .merge w ∈ keep)
      (hx : g.BornAt w x) (hy : g.BornAt w y) (ha : Twin g r keep r' a a')
      (hxp : t.nameAt (.memory (a, offset)) = some x) (hyp : t'.nameAt (.memory (a', offset)) = some y) :
      Twin g r keep r' x y

/-- The place `q` of the slice corresponds to the place `p` of the graph. -/
inductive Aligned (g : Graph) (r : Run) (keep : List Label) (r' : Run) : Place → Place → Prop
  | cell {p : Place} (hp : p.IsCell) : Aligned g r keep r' p p
  | slot {a a' : Var} (ha : g.Twin r keep r' a a') (offset : Int) :
      Aligned g r keep r' (.memory (a, offset)) (.memory (a', offset))

theorem Twin.made (hw : g.Meets r r' w t t') (hkeep : .merge w ∈ keep) (hx : g.BornAt w x) (hy : g.BornAt w y)
    (hpq : g.Aligned r keep r' p q) (hxp : t.nameAt p = some x) (hyq : t'.nameAt q = some y) :
    g.Twin r keep r' x y := by
  cases hpq with
  | cell hp => exact .cell hw hkeep hx hy hp hxp hyq
  | slot ha => exact .slot hw hkeep hx hy ha hxp hyq

theorem Twin.of_bornAt (h : g.Twin r keep r' x y) (hx : g.BornAt w x) : ∃ t t' p q, g.Meets r r' w t t' ∧
    g.Aligned r keep r' p q ∧ t.nameAt p = some x ∧ t'.nameAt q = some y := by
  have horigin := origin_of_bornAt hx
  cases h with
  | start hnone => cases hnone.symm.trans horigin
  | kept => exact absurd hx (not_bornAt_pushed g w _)
  | cell hw _ hx' _ hp hxp hyp =>
    obtain rfl := bornAt_unique hx' hx
    exact ⟨_, _, _, _, hw, .cell hp, hxp, hyp⟩
  | slot hw _ hx' _ ha hxp hyp =>
    obtain rfl := bornAt_unique hx' hx
    exact ⟨_, _, _, _, hw, .slot ha _, hxp, hyp⟩

/-- A name with a twin is needed. -/
theorem Twin.needs (h : g.Twin r keep r' x y) : g.Needs keep x := by
  intro l hl
  cases h with
  | start hnone => cases hnone.symm.trans hl
  | kept hkeep =>
    cases hl
    exact hkeep
  | cell _ hkeep hx => exact Option.some.inj ((origin_of_bornAt hx).symm.trans hl) ▸ hkeep
  | slot _ hkeep hx => exact Option.some.inj ((origin_of_bornAt hx).symm.trans hl) ▸ hkeep

/-- What a join point makes stands at one place behind it. -/
def Distinguishes (g : Graph) (r : Run) : Prop :=
  ∀ w t v p q, (∃ b, g.blocks.find? w = some b ∧ b.isMerge = true) → r.Exits w t → g.BornAt w v →
    t.nameAt p = some v → t.nameAt q = some v → p = q

theorem Twin.symm (h : g.Twin r keep r' x y) : g.Twin r' keep r y x := by
  have hmeets : ∀ {w t t'}, g.Meets r r' w t t' → g.Meets r' r w t' t := fun ⟨hb, ht, ht'⟩ => ⟨hb, ht', ht⟩
  induction h with
  | start hx => exact .start hx
  | kept hl => exact .kept hl
  | cell hw hkeep hx hy hp hxp hyp => exact .cell (hmeets hw) hkeep hy hx hp hyp hxp
  | slot hw hkeep hx hy _ hxp hyp ih => exact .slot (hmeets hw) hkeep hy hx ih hyp hxp

theorem Twin.unique (hr : g.Distinguishes r) (h : g.Twin r keep r' x y) (h' : g.Twin r keep r' x y') : y = y' := by
  -- The cases that make the name at a join point go back to the one place where it stands.
  have hmade : ∀ {w t t' x y y' p}, g.Meets r r' w t t' → g.BornAt w x → t.nameAt p = some x →
      (∀ q, g.Aligned r keep r' p q → t'.nameAt q = some y) → g.Twin r keep r' x y' → y = y' := by
    intro w t t' x y y' p hw hx hxp hyp h'
    obtain ⟨t₁, t₁', p₁, q₁, hw₁, hpq, hxp₁, hyq⟩ := h'.of_bornAt hx
    obtain rfl := hw.2.1.unique hw₁.2.1
    obtain rfl := hw.2.2.unique hw₁.2.2
    obtain rfl := hr w t x p p₁ hw.1 hw.2.1 hx hxp hxp₁
    exact Option.some.inj ((hyp q₁ hpq).symm.trans hyq)
  induction h generalizing y' with
  | start hx => cases h' with
    | start => rfl
    | kept => cases hx
    | cell _ _ hx' => cases hx.symm.trans (origin_of_bornAt hx')
    | slot _ _ hx' => cases hx.symm.trans (origin_of_bornAt hx')
  | kept => cases h' with
    | start hx => cases hx
    | kept => rfl
    | cell _ _ hx' => exact absurd hx' (not_bornAt_pushed g _ _)
    | slot _ _ hx' => exact absurd hx' (not_bornAt_pushed g _ _)
  | cell hw _ hx _ hp hxp hyp =>
    refine hmade hw hx hxp (fun q hpq => ?_) h'
    cases hpq with
    | cell => exact hyp
    | slot => cases hp
  | slot hw _ hx _ _ hxp hyp ih =>
    refine hmade hw hx hxp (fun q hpq => ?_) h'
    cases hpq with
    | cell hp => cases hp
    | slot ha => exact ih ha ▸ hyp

theorem Twin.injective (hr' : g.Distinguishes r') (h : g.Twin r keep r' x y) (h' : g.Twin r keep r' x' y) : x = x' :=
  Twin.unique hr' h.symm h'.symm

theorem Aligned.unique (hr : g.Distinguishes r) (h : g.Aligned r keep r' p q) (h' : g.Aligned r keep r' p q') :
    q = q' := by
  cases h with
  | cell hp => cases h' with
    | cell => rfl
    | slot => cases hp
  | slot ha => cases h' with
    | cell hp => cases hp
    | slot ha' => rw [ha.unique hr ha']

theorem origin_entry (hx : g.signature.entryState.nameAt p = some x) : g.origin x = none := by
  obtain ⟨k, ⟨-, rfl⟩ | ⟨-, rfl⟩⟩ := State.nameAt_entry hx <;> rfl

theorem Exact.distinguishes (h : g.Exact r) : g.Distinguishes r := by
  rintro w t v p q ⟨b, hb, hm⟩ ht hv hp hq
  obtain ⟨inputs, s, t', notes, hset⟩ := h.solved.settled w b hb
  obtain rfl := hset.exit_eq_start hm
  obtain rfl := hset.exits.unique ht
  by_cases hw : w = g.entry
  · subst hw
    obtain ⟨-, rfl⟩ := h.solved.entry_start hset
    cases (origin_entry hp).symm.trans (origin_of_bornAt hv)
  · exact (h.joins hb hset hw).distinct p q v ⟨hm, hv⟩ hp hq

/-! ## Mates -/

/-- Behind the block where the name `x` is made the name `y` stands in its place in the slice. -/
def Stands (g slice : Graph) (r : Run) (keep : List Label) (r' : Run) (x y : Var) : Prop :=
  ∃ w b t t' p q, g.blocks.find? w = some b ∧ r.Exits w t ∧ g.Lands slice r' w t' ∧ g.Aligned r keep r' p q ∧
    t.nameAt p = some x ∧ t'.nameAt q = some y ∧
    ((b.isMerge = true ∧ g.BornAt w x) ∨ (p.IsCell ∧ ∃ i ∈ b.instrs, i.label ∉ keep ∧ x = .pushed i.label))

/-- The name `y` is the twin of `x`, or stands in its place where `x` is made. -/
def Mate (g slice : Graph) (r : Run) (keep : List Label) (r' : Run) (x y : Var) : Prop :=
  g.Twin r keep r' x y ∨ g.Stands slice r keep r' x y

namespace Sliced

theorem distinguishes' (h : g.Sliced r keep slice r') : g.Distinguishes r' := by
  rintro w t v p q ⟨b, hb, hm⟩ ht hv
  obtain ⟨b', hb'⟩ := hasBlock_iff.mp (h.hasBlock_of_isMerge hb hm)
  exact h.exact'.distinguishes w t v p q ⟨b', hb', (h.isMerge_eq hb hb').trans hm⟩ ht (h.bornAt w ▸ hv)

theorem exits_of_lands (h : g.Sliced r keep slice r') (hb : g.blocks.find? w = some b) (hm : b.isMerge = true)
    (ht : g.Lands slice r' w t) : r'.Exits w t := by
  cases ht with
  | stays _ ht => exact ht
  | passes hgone => exact absurd (hgone.2.symm.trans (h.hasBlock_of_isMerge hb hm)) Bool.false_ne_true

theorem twin_eq_stands (h : g.Sliced r keep slice r') (hx : g.Twin r keep r' x y)
    (hx' : g.Stands slice r keep r' x y') : y = y' := by
  obtain ⟨w, b, t, t', p, q, hb, ht, ht', hpq, hxp, hyq, ⟨hm, hborn⟩ | ⟨-, i, -, hi, rfl⟩⟩ := hx'
  · obtain ⟨t₁, t₁', p₁, q₁, ⟨-, ht₁, ht₁'⟩, hpq₁, hxp₁, hyq₁⟩ := hx.of_bornAt hborn
    obtain rfl := ht.unique ht₁
    obtain rfl := ht₁'.unique (h.exits_of_lands hb hm ht')
    obtain rfl := h.exact.distinguishes w t x p p₁ ⟨b, hb, hm⟩ ht hborn hxp hxp₁
    obtain rfl := hpq.unique h.exact.distinguishes hpq₁
    exact Option.some.inj (hyq₁.symm.trans hyq)
  · exact absurd (hx.needs i.label rfl) hi

theorem stands_unique (h : g.Sliced r keep slice r') (hx : g.Stands slice r keep r' x y)
    (hx' : g.Stands slice r keep r' x y') : y = y' := by
  obtain ⟨w, b, t, t', p, q, hb, ht, ht', hpq, hxp, hyq, hmade⟩ := hx
  obtain ⟨w₁, b₁, t₁, t₁', p₁, q₁, hb₁, ht₁, ht₁', hpq₁, hxp₁, hyq₁, hmade₁⟩ := hx'
  -- Both are behind the one block that makes the name, and at the one place where it stands there.
  have hsame : w = w₁ ∧ (w = w₁ → t = t₁ → p = p₁) := by
    rcases hmade with ⟨hm, hborn⟩ | ⟨hp, i, hi, -, rfl⟩
    · rcases hmade₁ with ⟨-, hborn₁⟩ | ⟨-, _, -, -, rfl⟩
      · refine ⟨bornAt_unique hborn hborn₁, ?_⟩
        rintro rfl rfl
        exact h.exact.distinguishes w t x p p₁ ⟨b, hb, hm⟩ ht hborn hxp hxp₁
      · exact absurd hborn (not_bornAt_pushed g w _)
    · rcases hmade₁ with ⟨-, hborn₁⟩ | ⟨hp₁, j, hj, -, heq⟩
      · exact absurd hborn₁ (not_bornAt_pushed g w₁ _)
      · refine ⟨?_, ?_⟩
        · by_contra hne
          refine h.exact.solved.labels.disjoint hb hb₁ hne (List.mem_map_of_mem hi) ?_
          exact Var.pushed.inj heq ▸ List.mem_map_of_mem hj
        · rintro rfl rfl
          exact (h.exact.exits_clean hb ht).apart p p₁ _ hp hp₁ hxp hxp₁
  obtain ⟨rfl, hplace⟩ := hsame
  obtain rfl := ht.unique ht₁
  obtain rfl := h.lands_unique ht' ht₁'
  obtain rfl := hplace rfl rfl
  obtain rfl := hpq.unique h.exact.distinguishes hpq₁
  exact Option.some.inj (hyq.symm.trans hyq₁)

theorem mate_unique (h : g.Sliced r keep slice r') (hx : g.Mate slice r keep r' x y)
    (hx' : g.Mate slice r keep r' x y') : y = y' := by
  rcases hx with hx | hx <;> rcases hx' with hx' | hx'
  · exact hx.unique h.exact.distinguishes hx'
  · exact h.twin_eq_stands hx hx'
  · exact (h.twin_eq_stands hx' hx).symm
  · exact h.stands_unique hx hx'

end Sliced
end Graph
end Backslice
