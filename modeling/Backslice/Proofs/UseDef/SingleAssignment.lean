import Backslice.Proofs.UseDef.Collect
import Backslice.Proofs.UseDef.Instruction

/-! # One definition for every name

When the analysis has converged, the annotated graph is readable, and every name in its annotations is defined: an
instruction defines what it adds to a state, and so does a join point. The definitions are then those of the names
in the annotations, each once, and every use is chained to the definition of its name. -/

namespace Backslice

set_option autoImplicit false

theorem Instr.Effect.annotate {sig : Signature} {c : Config} {i : Instr} {s t : State} (h : i.Effect sig c s t)
    (notes : Table Label Note) : (i.annotate notes).Effect sig c s t := by
  cases i with
  | data d => exact DataInstr.Effect.withNote h _
  | control k => exact ControlInstr.Effect.withNote h _

theorem Instr.InRange.annotate {sig : Signature} {i : Instr} (h : i.InRange sig) (notes : Table Label Note) :
    (i.annotate notes).InRange sig := by
  cases i <;> exact h

namespace Graph

variable {g : Graph} {c : Config} {r : Run} {i : Instr} {index : Int} {b : Block} {v : Var}

/-! ## What the annotations say -/

theorem Solved.blockNote_entry (h : g.Solved c r) :
    ∃ note, (g.withRun r).blockNote (g.withRun r).entry = .ok note ∧ note.before.state = g.signature.entryState := by
  obtain ⟨b, hb⟩ := hasBlock_iff.mp h.connected.entry_block
  obtain ⟨note, hnote, hbefore⟩ := h.enters_entry
  refine ⟨note, blockNote_eq_ok.mpr ⟨b.withRun r g.entry, ?_, note_withRun hnote⟩, by rw [hbefore]; rfl⟩
  exact find?_withRun_of_find? hb r

theorem Solved.readable (h : g.Solved c r) (ho : g.OrdinaryLabels)
    (hrange : ∀ i ∈ g.instrs, i.InRange g.signature) :
    (g.withRun r).Readable where
  labels := h.labels.withRun r
  ordinary := ho.withRun r
  entry := by
    obtain ⟨note, hnote, hbefore⟩ := h.blockNote_entry
    refine ⟨note, hnote, fun v hv => ?_⟩
    rw [hbefore] at hv
    rcases covers_entryState (g := g) v hv with hnames | ⟨_, hcon, _⟩
    · exact hnames
    · cases hcon
  merge index b hb hm := by
    rw [find?_withRun, Option.map_eq_some_iff] at hb
    obtain ⟨b₀, hb₀, rfl⟩ := hb
    rw [Block.isMerge_withRun] at hm
    obtain ⟨_, _, _, _, hset⟩ := h.settled index b₀ hb₀
    obtain ⟨pairs, hpairs, hborn, _⟩ := h.mergeUses_ok hb₀ hset hm
    exact ⟨pairs, hpairs, fun e he => (hborn e he).1⟩
  instr i hi := by
    obtain ⟨j, hj, rfl⟩ := mem_instrs_withRun.mp hi
    obtain ⟨u, w, hnote, he, _, hu, _⟩ := h.instr hj
    obtain ⟨hlocals, hglobals⟩ := h.lengths hu
    have hrequire := Instr.requireNote_annotate hnote
    obtain ⟨ds, hds, hone, _⟩ := Instr.defs_ok hrequire (he.annotate r.instrs)
    obtain ⟨vs, hvs, _⟩ := Instr.uses_ok hrequire (((hrange j hj).annotate r.instrs).finds hlocals hglobals)
    exact ⟨ds, vs, hds, hvs, hone⟩

/-! ## Every name is defined -/

theorem Defines.of_key_eq {w : Var} (h : g.Defines v) (hvw : v.key = w.key) : g.Defines w := by
  have hbeq : (v == w) = true := Var.beq_iff.mpr hvw
  rcases h with ⟨note, hnote, hv⟩ | ⟨index, b, hb, hm, pairs, hpairs, e, he, hev⟩ | ⟨i, hi, ds, hds, x, hx, hxv⟩
  · exact Or.inl ⟨note, hnote, (State.mentions_congr hvw).mp hv⟩
  · exact Or.inr (Or.inl ⟨index, b, hb, hm, pairs, hpairs, e, he, BEq.trans hev hbeq⟩)
  · exact Or.inr (Or.inr ⟨i, hi, ds, hds, x, hx, BEq.trans hxv hbeq⟩)

theorem Solved.defines (h : g.Solved c r) {s : State} (hs : g.Reached c r s) (hv : s.Mentions v) :
    (g.withRun r).Defines v := by
  refine h.invariant (fun s => ∀ v, s.Mentions v → (g.withRun r).Defines v) ?_ ?_ ?_ ?_ s hs v hv
  · intro v hv
    obtain ⟨note, hnote, hbefore⟩ := h.blockNote_entry
    exact Or.inl ⟨note, hnote, hbefore ▸ hv⟩
  · exact fun s t hst ht v hv => ht v (hv.of_beq hst)
  · rintro i u w hi hnote he hu v ⟨x, hx, hxv⟩
    obtain ⟨ds, hds, _, _, hall⟩ := Instr.defs_ok (Instr.requireNote_annotate hnote) (he.annotate r.instrs)
    rcases hall x hx with hold | hnew
    · exact (hu x (State.mentions_of_mem hold)).of_key_eq hxv
    · exact Or.inr (Or.inr ⟨_, mem_instrs_withRun.mpr ⟨i, hi, rfl⟩, ds, hds, x, hnew, Var.beq_iff.mpr hxv⟩)
  · intro index b inputs s t notes hb hset u hu hP v hv
    cases hset.starts with
    | entry => cases hu
    | join _ hjoined _ =>
      rcases hjoined.mentions hv with ⟨w, ⟨hm, hborn⟩, hwv⟩ | hall
      · have hw : s.Mentions w := (State.mentions_congr hwv).mpr hv
        obtain ⟨pairs, hpairs, _, hto⟩ := h.mergeUses_ok hb hset hm
        obtain ⟨e, he, rfl⟩ := hto w hw hborn
        refine Or.inr (Or.inl ⟨index, b.withRun r index, ?_, ?_, pairs, hpairs, e, he, Var.beq_iff.mpr hwv⟩)
        · rw [find?_withRun, hb]
          rfl
        · rw [Block.isMerge_withRun, hm]
      · exact hP v (hall u hu)

theorem Solved.defines_of_hasUse (h : g.Solved c r) (hreadable : (g.withRun r).Readable)
    (hrange : ∀ i ∈ g.instrs, i.InRange g.signature) {u : Use} (hu : (g.withRun r).HasUse u) :
    (g.withRun r).Defines u.var := by
  rcases hreadable.hasUse_iff.mp hu with ⟨index, b, hb, hm, pairs, hpairs, e, he, heu⟩ | ⟨i, hi, vs, hvs, x, hx, hxu⟩
  · rw [find?_withRun, Option.map_eq_some_iff] at hb
    obtain ⟨b₀, hb₀, rfl⟩ := hb
    rw [Block.isMerge_withRun] at hm
    obtain ⟨_, _, _, _, hset⟩ := h.settled index b₀ hb₀
    obtain ⟨pairs', hpairs', hfrom, _⟩ := h.mergeUses_ok hb₀ hset hm
    rw [hpairs, Except.ok.injEq] at hpairs'
    obtain ⟨_, _, t', ht', hmentions⟩ := hfrom e (hpairs' ▸ he)
    exact (h.defines ht' hmentions).of_key_eq (Var.beq_iff.mp (Use.var_beq heu))
  · obtain ⟨j, hj, rfl⟩ := mem_instrs_withRun.mp hi
    obtain ⟨w, _, hnote, _, _, hw, _⟩ := h.instr hj
    obtain ⟨hlocals, hglobals⟩ := h.lengths hw
    obtain ⟨vs', hvs', hsub⟩ :=
      Instr.uses_ok (Instr.requireNote_annotate hnote) (((hrange j hj).annotate r.instrs).finds hlocals hglobals)
    rw [hvs, Except.ok.injEq] at hvs'
    have hmentions := State.mentions_of_mem (hsub x (hvs' ▸ hx))
    exact (h.defines hw hmentions).of_key_eq (Var.beq_iff.mp (Use.var_beq hxu))

theorem Solved.chains_ok (h : g.Solved c r) (hreadable : (g.withRun r).Readable)
    (hrange : ∀ i ∈ g.instrs, i.InRange g.signature) :
    ∃ t cs, UseDef.collect (g.withRun r) = .ok t ∧ t.chains = .ok cs ∧
      (∀ v, t.defs.contains v = true ↔ (g.withRun r).Defines v) ∧
      (∀ u, cs.contains u = true ↔ (g.withRun r).HasUse u) ∧
      ∀ u, (g.withRun r).HasUse u → ∃ d, cs.find? u = some d ∧ t.defs.find? u.var = some d := by
  obtain ⟨t, hcollect, htidy, hdefs, huses⟩ := hreadable.collect_ok
  have hused : ∀ u, t.Uses u → t.defs.contains u.var = true :=
    fun u hu => (hdefs u.var).mpr (h.defines_of_hasUse hreadable hrange ((huses u).mp hu))
  obtain ⟨cs, hchains, hcontains, hfind⟩ := UseDef.chains_ok htidy hused
  refine ⟨t, cs, hcollect, hchains, hdefs, fun u => (hcontains u).trans (huses u), fun u hu => ?_⟩
  obtain ⟨d, hd⟩ := Table.contains_iff_find?.mp (((hcontains u).trans (huses u)).mpr hu)
  exact ⟨d, hd, hfind u d hd⟩

/-! ## The names in the annotations -/

theorem mem_notes {a : Note} : a ∈ g.notes ↔
    (∃ index b, g.blocks.find? index = some b ∧ b.note = some a) ∨ ∃ i ∈ g.instrs, i.note = some a := by
  simp only [notes, instrs, Table.values, List.mem_flatMap, List.mem_map, List.mem_append, Option.mem_toList,
    Table.find?_eq_some_iff_mem]
  constructor
  · rintro ⟨b, ⟨e, he, rfl⟩, ha | ⟨i, hi, ha⟩⟩
    · exact Or.inl ⟨e.1, e.2, he, ha⟩
    · exact Or.inr ⟨i, ⟨e.2, ⟨e, he, rfl⟩, hi⟩, ha⟩
  · rintro (⟨index, b, he, ha⟩ | ⟨i, ⟨b, he, hi⟩, ha⟩)
    · exact ⟨b, ⟨(index, b), he, rfl⟩, Or.inl ha⟩
    · exact ⟨b, he, Or.inr ⟨i, hi, ha⟩⟩

theorem contains_vars : g.vars.contains v = true ↔
    ∃ a ∈ g.notes, a.before.state.Mentions v ∨ a.after.state.Mentions v := by
  simp only [vars, contains_eraseDups, List.contains_iff_exists_mem_beq, List.mem_flatMap, List.mem_append,
    State.mentions_iff_contains]
  constructor
  · rintro ⟨w, ⟨a, ha, hw⟩, hvw⟩
    exact ⟨a, ha, hw.imp (fun hw => ⟨w, hw, hvw⟩) fun hw => ⟨w, hw, hvw⟩⟩
  · rintro ⟨a, ha, ⟨w, hw, hvw⟩ | ⟨w, hw, hvw⟩⟩
    · exact ⟨w, ⟨a, ha, Or.inl hw⟩, hvw⟩
    · exact ⟨w, ⟨a, ha, Or.inr hw⟩, hvw⟩

theorem Solved.reached_of_note (h : g.Solved c r) {a : Note} (ha : a ∈ (g.withRun r).notes)
    (hv : a.before.state.Mentions v ∨ a.after.state.Mentions v) : ∃ s, g.Reached c r s ∧ s.Mentions v := by
  rcases mem_notes.mp ha with ⟨index, b, hb, hnote⟩ | ⟨i, hi, hnote⟩
  · rw [find?_withRun, Option.map_eq_some_iff] at hb
    obtain ⟨b₀, hb₀, rfl⟩ := hb
    obtain ⟨inputs, s, t, notes, hset⟩ := h.settled index b₀ hb₀
    have hrecorded : ∀ {a'}, r.blocks.find? index = some a' → a' = a := fun hfind =>
      Option.some.inj ((note_withRun hfind).symm.trans hnote)
    rcases hv with hv | hv
    · cases hm : b₀.isMerge with
      | false =>
        obtain ⟨a', hfind, hbefore⟩ := hset.before hm
        rw [← hrecorded hfind, hbefore] at hv
        exact ⟨s, hset.reached_start hb₀, hv⟩
      | true =>
        obtain ⟨a', u, hfind, hbefore, hu⟩ := hset.before_merge hm
        rw [← hrecorded hfind, hbefore] at hv
        rcases hu with hu | ⟨-, rfl⟩
        · obtain ⟨t', ht', hut⟩ := h.reached_of_input hset hu
          exact ⟨t', ht', State.Mentions.of_beq (s := u) hut hv⟩
        · exact ⟨u, hset.reached_start hb₀, hv⟩
    · obtain ⟨a', hfind, hafter⟩ := hset.exits
      rw [← hrecorded hfind, hafter] at hv
      exact ⟨t, hset.reached_exit hb₀, hv⟩
  · obtain ⟨j, hj, rfl⟩ := mem_instrs_withRun.mp hi
    obtain ⟨u, w, hfind, _, _, hu, hw⟩ := h.instr hj
    rw [Instr.note_annotate hfind, Option.some.injEq] at hnote
    subst hnote
    exact hv.elim (fun hv => ⟨u, hu, hv⟩) fun hv => ⟨w, hw, hv⟩

/-- The names in the annotations are those that are defined. -/
theorem Solved.contains_vars_iff (h : g.Solved c r) :
    (g.withRun r).vars.contains v = true ↔ (g.withRun r).Defines v := by
  rw [contains_vars]
  constructor
  · rintro ⟨a, ha, hv⟩
    obtain ⟨s, hs, hsv⟩ := h.reached_of_note ha hv
    exact h.defines hs hsv
  · rintro (⟨a, ha, hv⟩ | ⟨index, b, hb, hm, pairs, hpairs, e, he, hev⟩ | ⟨i, hi, ds, hds, x, hx, hxv⟩)
    · obtain ⟨b, hb, hnote⟩ := blockNote_eq_ok.mp ha
      exact ⟨a, mem_notes.mpr (Or.inl ⟨_, b, hb, hnote⟩), Or.inl hv⟩
    · have hfound := hb
      rw [find?_withRun, Option.map_eq_some_iff] at hb
      obtain ⟨b₀, hb₀, rfl⟩ := hb
      rw [Block.isMerge_withRun] at hm
      obtain ⟨inputs, s, t, notes, hset⟩ := h.settled index b₀ hb₀
      obtain ⟨pairs', hpairs', hfrom, _⟩ := h.mergeUses_ok hb₀ hset hm
      rw [hpairs, Except.ok.injEq] at hpairs'
      obtain ⟨a, hfind, hafter⟩ := hset.exits
      refine ⟨a, mem_notes.mpr (Or.inl ⟨index, _, hfound, note_withRun hfind⟩), Or.inr ?_⟩
      rw [hafter, ← hset.exit_eq_start hm]
      exact ⟨e.2, (hfrom e (hpairs' ▸ he)).2.1, Var.beq_iff.mp hev⟩
    · obtain ⟨j, hj, rfl⟩ := mem_instrs_withRun.mp hi
      obtain ⟨u, w, hfind, heffect, _⟩ := h.instr hj
      obtain ⟨ds', hds', _, hsub, _⟩ :=
        Instr.defs_ok (Instr.requireNote_annotate hfind) (heffect.annotate r.instrs)
      rw [hds, Except.ok.injEq] at hds'
      refine ⟨_, mem_notes.mpr (Or.inr ⟨_, hi, Instr.note_annotate hfind⟩), Or.inr ?_⟩
      exact ⟨x, hsub x (hds' ▸ hx), Var.beq_iff.mp hxv⟩

end Graph

theorem Var.length_eq_of_contains {l l' : List Var} (hl : l.Pairwise fun a b => (a == b) = false)
    (hl' : l'.Pairwise fun a b => (a == b) = false)
    (h : ∀ v, l.contains v = true ↔ l'.contains v = true) : l.length = l'.length := by
  have hnodup : ∀ {l : List Var}, l.Pairwise (fun a b => (a == b) = false) → (l.map Var.key).Nodup :=
    fun h => List.pairwise_map.mpr (h.imp Var.beq_false_iff.mp)
  have hsub : ∀ {l l' : List Var}, (∀ v, l.contains v = true → l'.contains v = true) →
      l.map Var.key ⊆ l'.map Var.key := by
    intro l l' h k hk
    obtain ⟨v, hv, rfl⟩ := List.mem_map.mp hk
    obtain ⟨w, hw, hwv⟩ := Var.contains_iff.mp (h v (Var.contains_iff.mpr ⟨v, hv, rfl⟩))
    exact List.mem_map.mpr ⟨w, hw, hwv⟩
  have hperm : (l.map Var.key).Perm (l'.map Var.key) :=
    (List.perm_ext_iff_of_nodup (hnodup hl) (hnodup hl')).mpr fun k =>
      ⟨fun hk => hsub (fun v => (h v).mp) hk, fun hk => hsub (fun v => (h v).mpr) hk⟩
  simpa using hperm.length_eq

namespace Graph

variable {g : Graph} {c : Config} {r : Run}

/-- The tables of an annotated graph can be built. They define each name of the annotations once, and chain the
uses at instructions and join points, and no others, to the definitions of their names. -/
theorem useDef_total (hg : g.WellFormed) (hl : g.DistinctLabels) (ho : g.OrdinaryLabels) (hrange : g.IndicesInRange)
    (harity : g.ArityNonneg) {limit : Nat} (hr : g.solve c limit = .ok r) (hconv : r.converged = true) :
    ∃ t cs, (g.withRun r).useDef = .ok (t, cs) ∧
      (∀ v, t.defs.contains v = true ↔ (g.withRun r).vars.contains v = true) ∧
      t.defs.size = (g.withRun r).vars.length ∧
      (∀ l, (g.withRun r).IsSite l → ∃ vs, (g.withRun r).labelUses l = .ok vs) ∧
      (∀ u, cs.contains u = true ↔ (g.withRun r).HasUse u) ∧
      ∀ u, (g.withRun r).HasUse u → ∃ d, cs.find? u = some d ∧ t.defs.find? u.var = some d := by
  have h := solved_of_converged hg.connected hl hr hconv
  have hfits : ∀ i ∈ g.instrs, i.Fits g.signature := fun i hi => fits_of_legal hrange harity hi
  have hreadable := h.readable ho fun i hi => (hfits i hi).inRange
  obtain ⟨t, cs, hcollect, hchains, hdefs, huses, hfind⟩ :=
    h.chains_ok hreadable fun i hi => (hfits i hi).inRange
  have hvars : ∀ v, t.defs.contains v = true ↔ (g.withRun r).vars.contains v = true :=
    fun v => (hdefs v).trans h.contains_vars_iff.symm
  refine ⟨t, cs, ?_, hvars, ?_, fun l hl => hreadable.labelUses_ok hl, huses, hfind⟩
  · rw [useDef, hcollect, ok_bind, hchains]
    rfl
  · have hlength : t.defs.keys.length = (g.withRun r).vars.length :=
      Var.length_eq_of_contains t.defs.distinct (pairwise_eraseDups _) fun v => by
        rw [Table.contains_keys]
        exact hvars v
    rw [← hlength, Table.keys, List.length_map, Table.size]

theorem useDef_total_countdown : ∃ r, countdown.solve {} 20 = .ok r ∧ r.converged = true ∧
    ∃ t cs, (countdown.withRun r).useDef = .ok (t, cs) ∧ t.defs.size = (countdown.withRun r).vars.length ∧
      ∀ u, cs.contains u = true ↔ (countdown.withRun r).HasUse u := by
  obtain ⟨r, hr, hconv⟩ := converges_iff.mp (show countdown.converges {} 20 = true by decide +kernel)
  obtain ⟨t, cs, hok, _, hsize, _, hchained, _⟩ :=
    useDef_total countdown_wellFormed (by decide) (by decide) (by decide) (by decide) hr hconv
  exact ⟨r, hr, hconv, t, cs, hok, hsize, hchained⟩

end Graph
end Backslice
