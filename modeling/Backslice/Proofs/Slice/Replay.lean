import Backslice.Proofs.Visit
import Backslice.Slice.Build

/-! # Instructions that are run again

Whether an instruction can run, and the height of the stack behind it, depends on how many values the state in
front of it holds and not on their names, so what has run once runs again from any state of the same shape, with
whatever configuration. Placeholders stand in for a piece of code as far as the shape goes. -/

namespace Backslice

set_option autoImplicit false

/-! ## One instruction -/

theorem exists_cons_of_length {α β : Type} {l : List α} {a : α} {rest : List α} {l' : List β}
    (h : l'.length = l.length) (hl : l = a :: rest) : ∃ a' rest', l' = a' :: rest' ∧ rest'.length = rest.length := by
  subst hl
  cases l' with
  | nil => cases h
  | cons a' rest' => exact ⟨a', rest', rfl, Nat.succ.inj h⟩

theorem DataInstr.exists_reads {i : DataInstr} {places : List Var} (h : ∃ n : Nat, i.arg = .int n ∧ n < places.length)
    (propagate : Bool) : ∃ v, i.Reads propagate places v := by
  unfold DataInstr.Reads
  cases propagate with
  | false => exact ⟨i.fresh, rfl⟩
  | true =>
    obtain ⟨n, harg, hn⟩ := h
    refine ⟨places[n], n, harg, ?_⟩
    rw [Position.get?_ofNat, List.getElem?_eq_getElem hn]

/-- An instruction that has run from `s` to `t` runs from every state that is shaped like `s`, to one that is shaped
like `t`. -/
theorem DataInstr.Effect.again {c : Config} (c' : Config) {i : DataInstr} {s t s' : State} (h : i.Effect c s t)
    (hrange : i.InRange s.locals.length s.globals.length) (hs : s'.partLength = s.partLength) :
    ∃ t', i.Effect c' s' t' ∧ t'.partLength = t.partLength := by
  have hstack := State.length_stack_of_shape hs
  have hlocals := State.length_locals_of_shape hs
  have hglobals := State.length_globals_of_shape hs
  rw [← hlocals, ← hglobals] at hrange
  cases h with
  | nop hop => exact ⟨s', .nop hop, hs⟩
  | compute hop hn =>
    refine ⟨_, .compute hop (hstack ▸ hn), State.partLength_ext ?_ hlocals hglobals⟩
    simp [hstack]
  | drop hop hcons =>
    obtain ⟨v', rest', hcons', hlen⟩ := exists_cons_of_length hstack hcons
    exact ⟨_, .drop hop hcons', State.partLength_ext hlen hlocals hglobals⟩
  | localGet hop =>
    obtain ⟨v', hv'⟩ := DataInstr.exists_reads (hrange.1 (Or.inl hop)) c'.propagateLocals
    refine ⟨_, .localGet hop hv', State.partLength_ext ?_ hlocals hglobals⟩
    simp [State.push, hstack]
  | localSet hop hcons harg hn =>
    obtain ⟨v', rest', hcons', hlen⟩ := exists_cons_of_length hstack hcons
    refine ⟨_, .localSet hop hcons' harg (hlocals ▸ hn), State.partLength_ext hlen ?_ hglobals⟩
    simp [hlocals]
  | localTee hop hcons harg hn =>
    obtain ⟨v', rest', hcons', hlen⟩ := exists_cons_of_length hstack hcons
    refine ⟨_, .localTee hop hcons' harg (hlocals ▸ hn), State.partLength_ext hstack ?_ hglobals⟩
    simp [hlocals]
  | globalGet hop =>
    obtain ⟨v', hv'⟩ := DataInstr.exists_reads (hrange.2 (Or.inl hop)) c'.propagateGlobals
    refine ⟨_, .globalGet hop hv', State.partLength_ext ?_ hlocals hglobals⟩
    simp [State.push, hstack]
  | globalSet hop hcons harg hn =>
    obtain ⟨v', rest', hcons', hlen⟩ := exists_cons_of_length hstack hcons
    refine ⟨_, .globalSet hop hcons' harg (hglobals ▸ hn), State.partLength_ext hlen hlocals ?_⟩
    simp [hglobals]
  | const hop =>
    refine ⟨_, .const hop, State.partLength_ext ?_ hlocals hglobals⟩
    simp [State.push, hstack]
  | store hop hcons =>
    obtain ⟨v', rest', hcons', hlen⟩ := exists_cons_of_length hstack hcons
    obtain ⟨w', rest'', rfl, hlen'⟩ := exists_cons_of_length hlen rfl
    exact ⟨_, .store hop hcons', State.partLength_ext hlen' hlocals hglobals⟩

theorem Position.length_dropTo {α β : Type} {l : List α} {l' : List β} (h : l'.length = l.length) (i : Int) :
    (dropTo l' i).length = (dropTo l i).length := by
  rw [dropTo, dropTo, List.length_drop, List.length_drop, h]

theorem ControlInstr.Effect.again {sig : Signature} {i : ControlInstr} {s t s' : State} (h : i.Effect sig s t)
    (hs : s'.partLength = s.partLength) : ∃ t', i.Effect sig s' t' ∧ t'.partLength = t.partLength := by
  have hstack := State.length_stack_of_shape hs
  have hlocals := State.length_locals_of_shape hs
  have hglobals := State.length_globals_of_shape hs
  cases h with
  | call hop hn =>
    refine ⟨_, .call hop (hstack ▸ hn), State.partLength_ext ?_ hlocals hglobals⟩
    rw [List.length_append, List.length_append, Position.length_dropTo hstack]
  | br hop => exact ⟨s', .br hop, hs⟩
  | branch hop hcons =>
    obtain ⟨v', rest', hcons', hlen⟩ := exists_cons_of_length hstack hcons
    exact ⟨_, .branch hop hcons', State.partLength_ext hlen hlocals hglobals⟩
  | ret hop hr hcons =>
    obtain ⟨v', rest', hcons', _⟩ := exists_cons_of_length hstack hcons
    exact ⟨_, .ret hop hr hcons', State.partLength_ext rfl hlocals hglobals⟩
  | leave hop => exact ⟨_, .leave hop, State.partLength_ext rfl hlocals hglobals⟩

theorem Instr.Effect.again {sig : Signature} {c : Config} (c' : Config) {i : Instr} {s t s' : State}
    (h : i.Effect sig c s t) (hfits : i.Fits sig) (hlocals : s.locals.length = sig.localCount)
    (hglobals : s.globals.length = sig.globals.length) (hs : s'.partLength = s.partLength) :
    ∃ t', i.Effect sig c' s' t' ∧ t'.partLength = t.partLength := by
  cases i with
  | control k => exact ControlInstr.Effect.again h hs
  | data d =>
    have hrange : d.InRange s.locals.length s.globals.length := hlocals ▸ hglobals ▸ hfits
    exact DataInstr.Effect.again c' h hrange hs

/-! ## Several instructions -/

/-- Two annotations with as many values on the stack, before and after. -/
def Note.SameHeights (a b : Note) : Prop :=
  ∃ s t s' t', a = ⟨.known s, .known t⟩ ∧ b = ⟨.known s', .known t'⟩ ∧
    s'.stack.length = s.stack.length ∧ t'.stack.length = t.stack.length

/-- From a state that is shaped like `s` the instructions run to one that is shaped like `t`, and around those that
are no placeholders the stack has the heights that `notes` record. -/
def Replays (sig : Signature) (is : List Instr) (s t : State) (notes : List (Label × Note)) : Prop :=
  ∀ c' s', s'.partLength = s.partLength → ∃ notes' t', Steps sig c' is s' notes' t' ∧
    t'.partLength = t.partLength ∧
    ∀ e ∈ notes', e.1.isDummy = true ∨ ∃ a, (e.1, a) ∈ notes ∧ a.SameHeights e.2

section
variable {sig : Signature} {c : Config} {is is' : List Instr} {s t u : State} {notes notes' : List (Label × Note)}

theorem Replays.nil (h : s.partLength = t.partLength) : Replays sig [] s t notes :=
  fun _ s' hs => ⟨[], s', .nil s', hs.trans h, fun _ he => nomatch he⟩

theorem Replays.shape_eq (h : Replays sig [] s t notes) : s.partLength = t.partLength := by
  obtain ⟨_, _, hsteps, hshape, _⟩ := h {} s rfl
  cases hsteps
  exact hshape

theorem Replays.mono (h : Replays sig is s t notes) (hsub : notes ⊆ notes') : Replays sig is s t notes' := by
  intro c' s' hs
  obtain ⟨n, t', hsteps, hshape, hnotes⟩ := h c' s' hs
  refine ⟨n, t', hsteps, hshape, fun e he => (hnotes e he).imp_right ?_⟩
  rintro ⟨a, ha, hheights⟩
  exact ⟨a, hsub ha, hheights⟩

theorem Replays.append (h : Replays sig is s u notes) (h' : Replays sig is' u t notes') :
    Replays sig (is ++ is') s t (notes ++ notes') := by
  intro c' s' hs
  obtain ⟨n, u', hsteps, hshape, hnotes⟩ := h.mono (List.subset_append_left notes notes') c' s' hs
  obtain ⟨n', t', hsteps', hshape', hnotes'⟩ := h'.mono (List.subset_append_right notes notes') c' u' hshape
  refine ⟨n ++ n', t', hsteps.append hsteps', hshape', fun e he => ?_⟩
  rcases List.mem_append.mp he with he | he
  · exact hnotes e he
  · exact hnotes' e he

theorem Replays.instr {i : Instr} (h : i.Effect sig c s t) (hfits : i.Fits sig)
    (hlocals : s.locals.length = sig.localCount) (hglobals : s.globals.length = sig.globals.length) :
    Replays sig [i] s t [(i.label, ⟨.known s, .known t⟩)] := by
  intro c' s' hs
  obtain ⟨t', ht', hshape⟩ := h.again c' hfits hlocals hglobals hs
  refine ⟨_, t', .cons ht' (.nil t'), hshape, fun e he => Or.inr ?_⟩
  rw [List.mem_singleton.mp he]
  exact ⟨_, List.mem_singleton_self _, s, t, s', t', rfl, rfl, State.length_stack_of_shape hs,
    State.length_stack_of_shape hshape⟩

end

/-! ## Placeholders -/

theorem placeholder_effect (c : Config) {sinks : Bool} (id : Int) {s : State} (h : sinks = true → s.stack ≠ []) :
    ∃ t, (placeholder sinks id).Effect c s t ∧
      (t.stack.length : Int) = s.stack.length + (if sinks then -1 else 1) ∧
      t.locals = s.locals ∧ t.globals = s.globals := by
  cases sinks with
  | false => exact ⟨_, .const rfl, by simp [State.push], rfl, rfl⟩
  | true =>
    obtain ⟨v, rest, hs⟩ := List.exists_cons_of_ne_nil (h rfl)
    refine ⟨_, .drop rfl hs, ?_, rfl, rfl⟩
    rw [hs, List.length_cons, if_pos rfl]
    dsimp only
    omega

theorem label_placeholder (sinks : Bool) (id : Int) : (placeholder sinks id).label = .dummy id := by
  cases sinks <;> rfl

/-- So many placeholders can run as there are values for them to drop. -/
theorem steps_placeholders (sig : Signature) (c : Config) (sinks : Bool) (next : Int) (n : Nat) {s : State}
    (h : sinks = true → n ≤ s.stack.length) : ∃ notes t,
      Steps sig c (((List.range n).map fun (k : Nat) => placeholder sinks (next + k)).map .data) s notes t ∧
      (t.stack.length : Int) = s.stack.length + (if sinks then -(n : Int) else n) ∧
      t.locals = s.locals ∧ t.globals = s.globals := by
  induction n with
  | zero => exact ⟨[], s, .nil s, by simp, rfl, rfl⟩
  | succ n ih =>
    obtain ⟨notes, u, hsteps, hheight, hlocals, hglobals⟩ := ih fun hs => Nat.le_of_succ_le (h hs)
    have hne : sinks = true → u.stack ≠ [] := by
      intro hs hnil
      have hle := h hs
      rw [hs, hnil] at hheight
      simp at hheight
      omega
    obtain ⟨t, hi, hheight', hlocals', hglobals'⟩ := placeholder_effect c (next + n) hne
    have hsteps' := hsteps.append (.cons (i := .data (placeholder sinks (next + n))) hi (.nil t))
    rw [List.range_succ, List.map_append, List.map_append]
    refine ⟨_, t, hsteps', ?_, hlocals'.trans hlocals, hglobals'.trans hglobals⟩
    rw [hheight', hheight]
    cases sinks <;> simp <;> omega

/-- Placeholders for the difference in height lead from one shape to the other. -/
theorem Replays.placeholders (sig : Signature) {s t : State} (hlocals : t.locals.length = s.locals.length)
    (hglobals : t.globals.length = s.globals.length) (next : Int) (notes : List (Label × Note)) :
    Replays sig ((placeholders ((t.stack.length : Int) - s.stack.length) next).map .data) s t notes := by
  intro c' s' hs
  have hstack := State.length_stack_of_shape hs
  have hlow : decide ((t.stack.length : Int) - s.stack.length < 0) = true →
      ((t.stack.length : Int) - s.stack.length).natAbs ≤ s'.stack.length := by
    intro hneg
    rw [decide_eq_true_iff] at hneg
    omega
  obtain ⟨n, t', hsteps, hheight, hlocals', hglobals'⟩ := steps_placeholders sig c' _ next _ hlow
  refine ⟨n, t', hsteps, State.partLength_ext ?_ ?_ ?_, fun e he => Or.inl ?_⟩
  · by_cases hneg : (t.stack.length : Int) - s.stack.length < 0
    · rw [if_pos (decide_eq_true hneg)] at hheight
      omega
    · rw [if_neg (by simpa using hneg)] at hheight
      omega
  · rw [hlocals', State.length_locals_of_shape hs, hlocals]
  · rw [hglobals', State.length_globals_of_shape hs, hglobals]
  · have hmem : e.1 ∈ n.map (·.1) := List.mem_map_of_mem he
    rw [hsteps.labels, List.map_map, List.map_map, List.mem_map] at hmem
    obtain ⟨k, _, hk⟩ := hmem
    rw [← hk]
    show (placeholder _ _).label.isDummy = true
    rw [label_placeholder]
    rfl

/-! ## Labels -/

/-- The labels of `m` placeholders that are numbered from `next`. -/
def Label.dummies (next : Int) (m : Nat) : List Label := (List.range m).map fun (k : Nat) => .dummy (next + k)

theorem Label.nodup_dummies (next : Int) (m : Nat) : (dummies next m).Nodup := by
  refine List.nodup_range.map fun a b hab => ?_
  have heq := Label.dummy.inj hab
  omega

theorem labels_placeholders (net next : Int) :
    (placeholders net next).map DataInstr.label = Label.dummies next net.natAbs := by
  rw [placeholders, List.map_map, Label.dummies]
  exact List.map_congr_left fun k _ => label_placeholder _ _

/-- The labels are different; those that are no placeholders are from `old`, and the placeholders are numbered from
`next` to below `last`. -/
structure Renumbers (labels old : List Label) (next last : Int) : Prop where
  le : next ≤ last
  nodup : labels.Nodup
  kept : ∀ l ∈ labels, l.isDummy = false → l ∈ old
  fresh : ∀ k, .dummy k ∈ labels → next ≤ k ∧ k < last

theorem Renumbers.nil (old : List Label) (next : Int) : Renumbers [] old next next where
  le := Int.le_refl next
  nodup := .nil
  kept l hl := by cases hl
  fresh k hk := by cases hk

theorem Renumbers.mono {labels old old' : List Label} {next last : Int} (h : Renumbers labels old next last)
    (hsub : old ⊆ old') : Renumbers labels old' next last :=
  ⟨h.le, h.nodup, fun l hl hd => hsub (h.kept l hl hd), h.fresh⟩

theorem Renumbers.placeholders (net next : Int) (old : List Label) :
    Renumbers ((placeholders net next).map DataInstr.label) old next (next + net.natAbs) := by
  rw [labels_placeholders]
  refine ⟨by omega, Label.nodup_dummies next _, ?_, ?_⟩
  · intro l hl hdummy
    obtain ⟨k, _, rfl⟩ := List.mem_map.mp hl
    cases hdummy
  · intro k hk
    obtain ⟨n, hn, heq⟩ := List.mem_map.mp hk
    have hlt := List.mem_range.mp hn
    have heq := Label.dummy.inj heq
    omega

theorem Renumbers.append_cons {front back old : List Label} {l : Label} {next mid last : Int}
    (h : Renumbers front [] next mid) (h' : Renumbers back old mid last) (hl : l.isDummy = false) (hold : l ∉ old) :
    Renumbers (front ++ l :: back) (l :: old) next last := by
  have hfront : ∀ x ∈ front, ∃ k, x = .dummy k ∧ k < mid := by
    intro x hx
    match x with
    | .dummy k => exact ⟨k, rfl, (h.fresh k hx).2⟩
    | .code _ => exact absurd (h.kept _ hx rfl) List.not_mem_nil
    | .merge _ => exact absurd (h.kept _ hx rfl) List.not_mem_nil
  refine ⟨Int.le_trans h.le h'.le, ?_, ?_, ?_⟩
  · refine List.nodup_append.mpr ⟨h.nodup, List.nodup_cons.mpr ⟨fun hb => hold (h'.kept l hb hl), h'.nodup⟩, ?_⟩
    rintro x hx y hy rfl
    obtain ⟨k, rfl, hk⟩ := hfront x hx
    rcases List.mem_cons.mp hy with rfl | hy
    · cases hl
    · have hk' := (h'.fresh k hy).1
      omega
  · intro x hx hdummy
    rcases List.mem_append.mp hx with hx | hx
    · obtain ⟨k, rfl, _⟩ := hfront x hx
      cases hdummy
    · rcases List.mem_cons.mp hx with rfl | hx
      · exact List.mem_cons_self
      · exact List.mem_cons_of_mem l (h'.kept x hx hdummy)
  · intro k hk
    rcases List.mem_append.mp hk with hk | hk
    · have hfresh := h.fresh k hk
      have hle := h'.le
      omega
    · rcases List.mem_cons.mp hk with rfl | hk
      · cases hl
      · have hfresh := h'.fresh k hk
        have hle := h.le
        omega

/-! ## Straight-line code -/

section
variable {sig : Signature} {c : Config} {s t u : State}

theorem Steps.after_getLast {is : List Instr} {notes : List (Label × Note)} (h : Steps sig c is s notes t)
    {e : Label × Note} (he : notes.getLast? = some e) : e.2.after = .known t := by
  induction h with
  | nil => cases he
  | @cons i rest s u t notes _ hrest ih =>
    cases hrest with
    | nil =>
      cases he
      rfl
    | cons hi hrest =>
      rw [List.getLast?_cons_cons] at he
      exact ih he

theorem runEffect_eq {run : List DataInstr} {notes : List (Label × Note)} (h : Steps sig c (run.map .data) s notes t)
    (hnotes : run.map DataInstr.note = notes.map fun e => some e.2) :
    runEffect run = .ok ((t.stack.length : Int) - s.stack.length) := by
  cases run with
  | nil =>
    cases h
    rw [Int.sub_self]
    rfl
  | cons i rest =>
    obtain ⟨last, hlast⟩ : ∃ last, (i :: rest).getLast? = some last := ⟨_, List.getLast?_cons ..⟩
    have hnote := congrArg List.getLast? hnotes
    rw [List.getLast?_map, List.getLast?_map, hlast] at hnote
    obtain ⟨e, he, heq⟩ := Option.map_eq_some_iff.mp hnote.symm
    have hafter := h.after_getLast he
    cases h with
    | cons hi hrest =>
      have hfirst := (List.cons.inj hnotes).1
      unfold runEffect
      rw [List.head?_cons, hlast]
      dsimp only at hfirst ⊢
      rw [hfirst, ← heq]
      show Except.ok _ = _
      rw [Note.rise, hafter]
      rfl

/-- At the end stand the placeholders for what has been dropped. -/
theorem eq_of_sliceInstrs_nil {keep : List Label} {run sliced : List DataInstr} {next last : Int}
    (h : sliceInstrs keep run next [] = .ok (sliced, last)) :
    ∃ net, runEffect run = .ok net ∧ sliced = placeholders net next ∧ last = next + net.natAbs := by
  obtain ⟨net, hnet, h⟩ := bind_eq_ok.mp h
  obtain ⟨rfl, rfl⟩ := Prod.mk.inj (pure_eq_ok.mp h)
  exact ⟨net, hnet, rfl, rfl⟩

/-- A kept instruction comes behind the placeholders for what has been dropped, and another one is dropped with it. -/
theorem sliceInstrs_cons_cases {keep : List Label} {run rest sliced : List DataInstr} {i : DataInstr} {next last : Int}
    (h : sliceInstrs keep run next (i :: rest) = .ok (sliced, last)) :
    (i.label ∈ keep ∧ ∃ net tail, runEffect run = .ok net ∧
      sliceInstrs keep [] (next + net.natAbs) rest = .ok (tail, last) ∧
      sliced = placeholders net next ++ { i with note := none } :: tail) ∨
    (i.label ∉ keep ∧ sliceInstrs keep (run ++ [i]) next rest = .ok (sliced, last)) := by
  rw [sliceInstrs] at h
  split at h
  · rename_i hkeep
    obtain ⟨net, hnet, h⟩ := bind_eq_ok.mp h
    obtain ⟨⟨tail, last'⟩, htail, h⟩ := bind_eq_ok.mp h
    obtain ⟨rfl, rfl⟩ := Prod.mk.inj (pure_eq_ok.mp h)
    exact Or.inl ⟨List.contains_iff_mem.mp hkeep, net, tail, hnet, htail, rfl⟩
  · rename_i hdrop
    exact Or.inr ⟨fun hmem => hdrop (List.contains_iff_mem.mpr hmem), h⟩

theorem sliceInstrs_spec (keep : List Label) (run : List DataInstr) {is : List DataInstr}
    {n₁ n₂ : List (Label × Note)} (next : Int)
    (hrun : Steps sig c (run.map .data) s n₁ u) (hrunNotes : run.map DataInstr.note = n₁.map fun e => some e.2)
    (his : Steps sig c (is.map .data) u n₂ t) (hisNotes : is.map DataInstr.note = n₂.map fun e => some e.2)
    (hfits : ∀ i ∈ is, (Instr.data i).Fits sig) (hlocals : s.locals.length = sig.localCount)
    (hglobals : s.globals.length = sig.globals.length) (hnodup : (is.map DataInstr.label).Nodup)
    (hplain : ∀ i ∈ is, i.label.isDummy = false) :
    ∃ sliced last, sliceInstrs keep run next is = .ok (sliced, last) ∧ Replays sig (sliced.map .data) s t n₂ ∧
      Renumbers (sliced.map DataInstr.label) (is.map DataInstr.label) next last := by
  have hlengths : u.locals.length = s.locals.length ∧ u.globals.length = s.globals.length := hrun.lengths
  induction is generalizing run s u n₁ n₂ next with
  | nil =>
    cases his
    refine ⟨_, _, ?_, .placeholders sig hlengths.1 hlengths.2 next _, .placeholders _ next _⟩
    rw [sliceInstrs, runEffect_eq hrun hrunNotes]
    rfl
  | cons i rest ih =>
    cases his with
    | @cons _ _ _ w _ n hi hrest =>
      obtain ⟨hnote, hrestNotes⟩ := List.cons.inj hisNotes
      obtain ⟨hi', hnodup'⟩ := List.nodup_cons.mp hnodup
      obtain ⟨hifits, hrestFits⟩ := List.forall_mem_cons.mp hfits
      obtain ⟨hiplain, hrestPlain⟩ := List.forall_mem_cons.mp hplain
      rw [sliceInstrs]
      split
      · have hw := hi.lengths
        have hlocals' := hw.1.trans (hlengths.1.trans hlocals)
        have hglobals' := hw.2.trans (hlengths.2.trans hglobals)
        obtain ⟨sliced, last, hok, hreplays, hlabels⟩ := ih []
          (next + ((u.stack.length : Int) - s.stack.length).natAbs) (.nil w) rfl hrest hrestNotes hrestFits hlocals'
          hglobals' hnodup' hrestPlain ⟨rfl, rfl⟩
        have hkept : Replays sig [.data { i with note := none }] u w [(i.label, ⟨.known u, .known w⟩)] :=
          .instr (i := .data { i with note := none }) (DataInstr.Effect.withNote hi none) hifits
            (hlengths.1.trans hlocals) (hlengths.2.trans hglobals)
        refine ⟨placeholders ((u.stack.length : Int) - s.stack.length) next ++ { i with note := none } :: sliced,
          last, ?_, ?_, ?_⟩
        · rw [runEffect_eq hrun hrunNotes, ok_bind, hok]
          rfl
        · rw [List.map_append]
          exact (Replays.placeholders sig hlengths.1 hlengths.2 next []).append (hkept.append hreplays)
        · rw [List.map_append]
          exact (Renumbers.placeholders _ next []).append_cons hlabels hiplain hi'
      · have hsnoc : Steps sig c ((run ++ [i]).map .data) s (n₁ ++ [(i.label, ⟨.known u, .known w⟩)]) w := by
          rw [List.map_append]
          exact hrun.append (.cons (i := .data i) hi (.nil w))
        have hsnocNotes : (run ++ [i]).map DataInstr.note =
            (n₁ ++ [(i.label, (⟨.known u, .known w⟩ : Note))]).map fun e => some e.2 := by
          rw [List.map_append, List.map_append, hrunNotes, List.map_singleton, hnote]
          rfl
        obtain ⟨sliced, last, hok, hreplays, hlabels⟩ := ih (run ++ [i]) next hsnoc hsnocNotes hrest hrestNotes
          hrestFits hlocals hglobals hnodup' hrestPlain hsnoc.lengths
        exact ⟨sliced, last, hok, hreplays.mono (List.subset_cons_self ..), hlabels.mono (List.subset_cons_self ..)⟩

end

end Backslice
