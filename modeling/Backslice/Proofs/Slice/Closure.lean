import Backslice.Proofs.Data.Success
import Backslice.Proofs.Graph.Paths
import Backslice.Slice.Criterion
import Backslice.Solver
import Mathlib.Data.List.Perm.Subperm
import Mathlib.Data.List.TakeWhile
import Mathlib.Logic.Relation

/-! # The search keeps the closure of the dependences

A label leads to the definitions of the names it uses, to the branches that decide about those uses, and to the stores
behind the slots that it renames. The search from a criterion keeps all labels that are reached in this way and nothing
else, and it fails just where something that is looked up for one of them is missing. -/

namespace Backslice

set_option autoImplicit false

open Relation (ReflTransGen)

namespace Dependences

variable {d : Dependences} {g : Graph} {criterion l l' : Label} {kept stack rest next : List Label}

/-! ## Direct dependences -/

/-- `d.LeadsTo g l l'`: the label `l` depends on `l'` directly. -/
inductive LeadsTo (d : Dependences) (g : Graph) (l l' : Label) : Prop
  | source {vs : List Var} {v : Var} {source : Def} (huses : g.labelUses l = .ok vs) (hv : v ∈ vs)
      (hget : Chains.get d.chains (.ofLabel l v) = .ok source) (hlabel : source.label? = some l')
  | branch {vs : List Var} {v : Var} {branches : List Label} (huses : g.labelUses l = .ok vs) (hv : v ∈ vs)
      (hfind : g.governing d.control (.ofLabel l v) = .ok branches) (hmem : l' ∈ branches)
  | store {stores : List Label} (hstores : g.labelStores d.stores l = .ok stores) (hmem : l' ∈ stores)

/-- All that is looked up for a label is there: its uses, the definition and the branches of each, and its stores. -/
structure Resolves (d : Dependences) (g : Graph) (l : Label) : Prop where
  uses : ∃ vs, g.labelUses l = .ok vs ∧ ∀ v ∈ vs,
    (∃ source, Chains.get d.chains (.ofLabel l v) = .ok source) ∧
      ∃ branches, g.governing d.control (.ofLabel l v) = .ok branches
  stores : ∃ stores, g.labelStores d.stores l = .ok stores

theorem ofUse_eq_ok {u : Use} {ls : List Label} : d.ofUse g u = .ok ls ↔ ∃ source branches,
    Chains.get d.chains u = .ok source ∧ g.governing d.control u = .ok branches ∧
      source.label?.toList ++ branches = ls := by
  simp only [ofUse, bind_eq_ok, pure_eq_ok, exists_and_left]

theorem direct_eq_ok {ls : List Label} : d.direct g l = .ok ls ↔ ∃ vs sources stores, g.labelUses l = .ok vs ∧
    vs.mapM (fun v => d.ofUse g (.ofLabel l v)) = .ok sources ∧ g.labelStores d.stores l = .ok stores ∧
      sources.flatten ++ stores = ls := by
  simp only [direct, bind_eq_ok, pure_eq_ok, exists_and_left]

theorem exists_direct_iff : (∃ ls, d.direct g l = .ok ls) ↔ d.Resolves g l := by
  constructor
  · rintro ⟨ls, h⟩
    obtain ⟨vs, sources, stores, huses, hmap, hstores, -⟩ := direct_eq_ok.mp h
    refine ⟨⟨vs, huses, fun v hv => ?_⟩, stores, hstores⟩
    obtain ⟨ls, hls⟩ := succeeds_of_mapM hmap hv
    obtain ⟨source, branches, hget, hfind, -⟩ := ofUse_eq_ok.mp hls
    exact ⟨⟨source, hget⟩, branches, hfind⟩
  · rintro ⟨⟨vs, huses, hlook⟩, stores, hstores⟩
    have hmap : ∃ sources, vs.mapM (fun v => d.ofUse g (.ofLabel l v)) = .ok sources := by
      refine mapM_succeeds fun v hv => ?_
      obtain ⟨⟨source, hget⟩, branches, hfind⟩ := hlook v hv
      exact ⟨_, ofUse_eq_ok.mpr ⟨source, branches, hget, hfind, rfl⟩⟩
    obtain ⟨sources, hsources⟩ := hmap
    exact ⟨_, direct_eq_ok.mpr ⟨vs, sources, stores, huses, hsources, hstores, rfl⟩⟩

theorem mem_direct {ls : List Label} (h : d.direct g l = .ok ls) : l' ∈ ls ↔ d.LeadsTo g l l' := by
  obtain ⟨vs, sources, stores, huses, hmap, hstores, rfl⟩ := direct_eq_ok.mp h
  have huse : ∀ v ∈ vs, ∃ ls ∈ sources, d.ofUse g (.ofLabel l v) = .ok ls := by
    intro v hv
    obtain ⟨ls, hls⟩ := succeeds_of_mapM hmap hv
    exact ⟨ls, (mem_of_mapM hmap).mpr ⟨v, hv, hls⟩, hls⟩
  rw [List.mem_append, List.mem_flatten]
  constructor
  · rintro (⟨ls, hls, hmem⟩ | hmem)
    · obtain ⟨v, hv, hok⟩ := (mem_of_mapM hmap).mp hls
      obtain ⟨source, branches, hget, hfind, rfl⟩ := ofUse_eq_ok.mp hok
      rcases List.mem_append.mp hmem with hmem | hmem
      · exact .source huses hv hget (Option.mem_toList.mp hmem)
      · exact .branch huses hv hfind hmem
    · exact .store hstores hmem
  · intro hlead
    cases hlead with
    | @source vs' v source huses' hv hget hlabel =>
      cases huses.symm.trans huses'
      obtain ⟨ls, hls, hok⟩ := huse v hv
      obtain ⟨source', branches, hget', -, rfl⟩ := ofUse_eq_ok.mp hok
      cases hget.symm.trans hget'
      exact .inl ⟨_, hls, List.mem_append_left _ (Option.mem_toList.mpr hlabel)⟩
    | @branch vs' v branches huses' hv hfind hmem =>
      cases huses.symm.trans huses'
      obtain ⟨ls, hls, hok⟩ := huse v hv
      obtain ⟨source, branches', -, hfind', rfl⟩ := ofUse_eq_ok.mp hok
      cases hfind.symm.trans hfind'
      exact .inl ⟨_, hls, List.mem_append_right _ hmem⟩
    | store hstores' hmem =>
      cases hstores.symm.trans hstores'
      exact .inr hmem

/-! ## The number of labels that can be followed -/

/-- The labels of the instructions, and those that are meant for the blocks. -/
def places (g : Graph) : List Label := g.instrs.map Instr.label ++ g.blocks.keys.map Label.merge

theorem length_places (g : Graph) : (places g).length = g.instrs.length + g.blocks.size := by
  simp [places, Table.keys, Table.size]

theorem Resolves.mem_places (h : d.Resolves g l) : l ∈ places g := by
  obtain ⟨vs, huses, -⟩ := h.uses
  unfold Graph.labelUses at huses
  split at huses
  · rename_i index
    obtain ⟨b, hb, -⟩ := bind_eq_ok.mp huses
    unfold Graph.findBlock at hb
    split at hb
    · rename_i b' hfind
      refine List.mem_append_right _ (List.mem_map_of_mem ?_)
      exact Graph.hasBlock_iff_mem_keys.mp (Graph.hasBlock_iff.mpr ⟨b', hfind⟩)
    · exact absurd hb throw_ne_ok
  · obtain ⟨i, hi, -⟩ := bind_eq_ok.mp huses
    unfold Graph.findInstr at hi
    split at hi
    · rename_i j hfind
      have hlabel : j.label = l := by simpa using List.find?_some hfind
      refine List.mem_append_left _ (List.mem_map.mpr ⟨j, ?_, hlabel⟩)
      exact List.mem_reverse.mp (List.mem_of_find?_eq_some hfind)
    · exact absurd hi throw_ne_ok

/-! ## The search -/

/-- What is kept and what is waiting while the search from a criterion goes on. -/
structure Search (d : Dependences) (g : Graph) (criterion : Label) (kept stack : List Label) : Prop where
  nodup : kept.Nodup
  reached : ∀ l, l ∈ kept ∨ l ∈ stack → ReflTransGen (d.LeadsTo g) criterion l
  resolved : ∀ l ∈ kept, d.Resolves g l
  closed : ∀ l ∈ kept, ∀ l', d.LeadsTo g l l' → l' ∈ kept ∨ l' ∈ stack
  start : criterion ∈ kept ∨ criterion ∈ stack

/-- The list holds the labels that the criterion depends on, itself included, each of them once. -/
structure IsClosure (d : Dependences) (g : Graph) (criterion : Label) (keep : List Label) : Prop where
  nodup : keep.Nodup
  mem_iff : ∀ l, l ∈ keep ↔ ReflTransGen (d.LeadsTo g) criterion l
  resolved : ∀ l ∈ keep, d.Resolves g l

theorem search_start (d : Dependences) (g : Graph) (criterion : Label) : d.Search g criterion [] [criterion] where
  nodup := List.nodup_nil
  reached l hl := by
    rcases hl with hl | hl
    · cases hl
    · exact List.mem_singleton.mp hl ▸ .refl
  resolved l hl := by cases hl
  closed l hl := by cases hl
  start := .inr List.mem_cons_self

theorem Search.length_le (h : d.Search g criterion kept stack) : kept.length ≤ g.instrs.length + g.blocks.size := by
  rw [← length_places]
  exact (h.nodup.subperm fun l hl => (h.resolved l hl).mem_places).length_le

/-- What waits on the stack is kept already, or it is left by skipping the kept labels. -/
theorem mem_of_dropWhile (kept : List Label) (hl : l ∈ stack) : l ∈ kept ∨ l ∈ stack.dropWhile kept.contains := by
  rw [← List.takeWhile_append_dropWhile (p := kept.contains) (l := stack), List.mem_append] at hl
  exact hl.imp_left fun h => by simpa using List.mem_takeWhile_imp h

theorem Search.step (h : d.Search g criterion kept stack) (hdrop : stack.dropWhile kept.contains = l :: rest)
    (hnext : d.direct g l = .ok next) : d.Search g criterion (l :: kept) (next.reverse ++ rest) := by
  have hfresh : l ∉ kept := by
    have hhead := List.head?_dropWhile_not kept.contains stack
    rw [hdrop] at hhead
    simpa using hhead
  have hsub : ∀ x ∈ l :: rest, x ∈ stack := fun x hx => (List.dropWhile_sublist _).subset (hdrop ▸ hx)
  have hreached : ReflTransGen (d.LeadsTo g) criterion l := h.reached l (.inr (hsub l List.mem_cons_self))
  have hmoved : ∀ x, x ∈ kept ∨ x ∈ stack → x ∈ l :: kept ∨ x ∈ next.reverse ++ rest := by
    rintro x (hx | hx)
    · exact .inl (List.mem_cons_of_mem l hx)
    · rcases mem_of_dropWhile kept hx with hx | hx
      · exact .inl (List.mem_cons_of_mem l hx)
      · rw [hdrop] at hx
        rcases List.mem_cons.mp hx with rfl | hx
        · exact .inl List.mem_cons_self
        · exact .inr (List.mem_append_right _ hx)
  constructor
  · exact List.nodup_cons.mpr ⟨hfresh, h.nodup⟩
  · rintro x (hx | hx)
    · rcases List.mem_cons.mp hx with rfl | hx
      · exact hreached
      · exact h.reached x (.inl hx)
    · rcases List.mem_append.mp hx with hx | hx
      · exact hreached.tail ((mem_direct hnext).mp (List.mem_reverse.mp hx))
      · exact h.reached x (.inr (hsub x (List.mem_cons_of_mem l hx)))
  · intro x hx
    rcases List.mem_cons.mp hx with rfl | hx
    · exact exists_direct_iff.mp ⟨next, hnext⟩
    · exact h.resolved x hx
  · intro x hx y hxy
    rcases List.mem_cons.mp hx with rfl | hx
    · exact .inr (List.mem_append_left _ (List.mem_reverse.mpr ((mem_direct hnext).mpr hxy)))
    · exact hmoved y (h.closed x hx y hxy)
  · exact hmoved criterion h.start

/-- Where nothing is left to follow, the kept labels are the closure. -/
theorem Search.isClosure (h : d.Search g criterion kept stack) (hdrop : stack.dropWhile kept.contains = []) :
    d.IsClosure g criterion kept := by
  have hkept : ∀ x, x ∈ kept ∨ x ∈ stack → x ∈ kept := by
    rintro x (hx | hx)
    · exact hx
    · have hx := mem_of_dropWhile kept hx
      rw [hdrop] at hx
      exact hx.resolve_right List.not_mem_nil
  refine ⟨h.nodup, fun l => ⟨fun hl => h.reached l (.inl hl), fun hl => ?_⟩, h.resolved⟩
  induction hl with
  | refl => exact hkept criterion h.start
  | tail _ hstep ih => exact hkept _ (h.closed _ ih _ hstep)

/-- Followed to its end, a search finds the closure, or it stops at a label for which something is missing. The limit
is never met, since one label is kept for each step and only places are kept. -/
theorem Search.follow (h : d.Search g criterion kept stack) (limit : Nat)
    (hlimit : g.instrs.length + g.blocks.size < kept.length + limit) :
    (∃ keep, d.follow g limit kept stack = .ok keep ∧ d.IsClosure g criterion keep) ∨
      ∃ fault l, d.follow g limit kept stack = .error fault ∧ ReflTransGen (d.LeadsTo g) criterion l ∧
        ¬ d.Resolves g l := by
  induction limit generalizing kept stack with
  | zero =>
    have := h.length_le
    omega
  | succ limit ih =>
    rw [Dependences.follow]
    cases hdrop : stack.dropWhile kept.contains with
    | nil => exact .inl ⟨kept, rfl, h.isClosure hdrop⟩
    | cons l rest =>
      dsimp only
      cases hnext : d.direct g l with
      | error fault =>
        refine .inr ⟨fault, l, rfl, ?_, fun hres => ?_⟩
        · exact h.reached l (.inr ((List.dropWhile_sublist _).subset (hdrop ▸ List.mem_cons_self)))
        · obtain ⟨ls, hls⟩ := exists_direct_iff.mpr hres
          cases hnext.symm.trans hls
      | ok next =>
        rw [ok_bind]
        exact ih (h.step hdrop hnext) (by rw [List.length_cons]; omega)

theorem closure_cases (d : Dependences) (g : Graph) (criterion : Label) :
    (∃ keep, d.closure g criterion = .ok keep ∧ d.IsClosure g criterion keep) ∨
      ∃ fault l, d.closure g criterion = .error fault ∧ ReflTransGen (d.LeadsTo g) criterion l ∧ ¬ d.Resolves g l :=
  (search_start d g criterion).follow _ (by simp)

theorem isClosure_of_closure {keep : List Label} (h : d.closure g criterion = .ok keep) :
    d.IsClosure g criterion keep := by
  rcases closure_cases d g criterion with ⟨keep', hok, hclosure⟩ | ⟨fault, l, hfault, -⟩
  · cases h.symm.trans hok
    exact hclosure
  · cases h.symm.trans hfault

theorem exists_isClosure_iff : (∃ keep, d.closure g criterion = .ok keep ∧ d.IsClosure g criterion keep) ↔
    ∀ l, ReflTransGen (d.LeadsTo g) criterion l → d.Resolves g l := by
  constructor
  · rintro ⟨keep, -, h⟩ l hl
    exact h.resolved l ((h.mem_iff l).mpr hl)
  · intro hres
    rcases closure_cases d g criterion with h | ⟨fault, l, -, hl, hnot⟩
    · exact h
    · exact absurd (hres l hl) hnot

theorem ofGraph_eq_ok {chains : Option Chains} {control : Option BlockDeps}
    (h : ofGraph g chains control = .ok d) :
    g.storeSites = .ok d.stores ∧ d.control = control.getD g.blockDeps := by
  have hrest : ∀ cs, (do
      let stores ← g.storeSites
      return { chains := cs, control := control.getD g.blockDeps, stores }) = Except.ok d →
      g.storeSites = .ok d.stores ∧ d.control = control.getD g.blockDeps := by
    intro cs hok
    obtain ⟨stores, hstores, hd⟩ := bind_eq_ok.mp hok
    rw [← pure_eq_ok.mp hd]
    exact ⟨hstores, rfl⟩
  cases chains with
  | some cs => exact hrest cs h
  | none =>
    obtain ⟨useDef, -, h⟩ := bind_eq_ok.mp h
    exact hrest useDef.2 h

end Dependences

/-! ## The kept labels -/

namespace Graph

theorem keep_eq_closure {g : Graph} {d : Dependences} (hstores : g.storeSites = .ok d.stores) (criterion : Label) :
    g.keep criterion (some d.chains) (some d.control) = d.closure g criterion := by
  have hd : Dependences.ofGraph g (some d.chains) (some d.control) = .ok d := by
    rw [Dependences.ofGraph, hstores]
    rfl
  rw [keep, hd, ok_bind]

/-- What is kept with the control dependences of the graph is closed under dependence. -/
theorem exists_isClosure_of_keep {g : Graph} {criterion : Label} {chains : Option Chains} {keep : List Label}
    (h : g.keep criterion chains none = .ok keep) :
    ∃ d : Dependences, d.control = g.blockDeps ∧ d.IsClosure g criterion keep := by
  obtain ⟨d, hd, hclosure⟩ := bind_eq_ok.mp h
  exact ⟨d, (Dependences.ofGraph_eq_ok hd).2, Dependences.isClosure_of_closure hclosure⟩

/-- With any chains and control dependences, the search keeps the reflexive-transitive closure of the criterion. It
fails just if something is missing for a label of the closure. What a kept label depends on is kept. -/
theorem keep_exact (g : Graph) (d : Dependences) (hstores : g.storeSites = .ok d.stores) :
    (∀ criterion, (∀ l, ReflTransGen (d.LeadsTo g) criterion l → d.Resolves g l) →
      ∃ keep, g.keep criterion (some d.chains) (some d.control) = .ok keep ∧ keep.Nodup ∧
        ∀ l, l ∈ keep ↔ ReflTransGen (d.LeadsTo g) criterion l) ∧
    (∀ criterion, (∃ fault, g.keep criterion (some d.chains) (some d.control) = .error fault) ↔
      ∃ l, ReflTransGen (d.LeadsTo g) criterion l ∧ ¬ d.Resolves g l) ∧
    ∀ c₁ c₂ keep₁, g.keep c₁ (some d.chains) (some d.control) = .ok keep₁ → c₂ ∈ keep₁ →
      ∃ keep₂, g.keep c₂ (some d.chains) (some d.control) = .ok keep₂ ∧ keep₂ ⊆ keep₁ := by
  simp only [keep_eq_closure hstores]
  refine ⟨fun criterion hres => ?_, fun criterion => ⟨?_, ?_⟩, fun c₁ c₂ keep₁ hok hc₂ => ?_⟩
  · obtain ⟨keep, hok, h⟩ := Dependences.exists_isClosure_iff.mpr hres
    exact ⟨keep, hok, h.nodup, h.mem_iff⟩
  · rintro ⟨fault, hfault⟩
    rcases Dependences.closure_cases d g criterion with ⟨keep, hok, -⟩ | ⟨-, l, -, hl, hnot⟩
    · cases hfault.symm.trans hok
    · exact ⟨l, hl, hnot⟩
  · rintro ⟨l, hl, hnot⟩
    cases hok : d.closure g criterion with
    | error fault => exact ⟨fault, rfl⟩
    | ok keep =>
      have h := Dependences.isClosure_of_closure hok
      exact absurd (h.resolved l ((h.mem_iff l).mpr hl)) hnot
  · have h₁ := Dependences.isClosure_of_closure hok
    have hsub : ∀ l, ReflTransGen (d.LeadsTo g) c₂ l → l ∈ keep₁ := fun l hl =>
      (h₁.mem_iff l).mpr (((h₁.mem_iff c₂).mp hc₂).trans hl)
    obtain ⟨keep₂, hok₂, h₂⟩ :=
      Dependences.exists_isClosure_iff.mpr fun l hl => h₁.resolved l (hsub l hl)
    exact ⟨keep₂, hok₂, fun l hl => hsub l ((h₂.mem_iff l).mp hl)⟩

/-- The result of the countdown depends on the branch of its loop, and the branch does not depend on the result. -/
theorem keep_exact_countdown : ∃ (r : Run) (d : Dependences),
    countdown.solve {} 20 = .ok r ∧ (countdown.withRun r).storeSites = .ok d.stores ∧
    ReflTransGen (d.LeadsTo (countdown.withRun r)) (.code 6) (.code 5) ∧
    ¬ ReflTransGen (d.LeadsTo (countdown.withRun r)) (.code 5) (.code 6) := by
  have hrun : (do
      let r ← countdown.solve {} 20
      let d ← Dependences.ofGraph (countdown.withRun r) none none
      let result ← (countdown.withRun r).keep (.code 6) (some d.chains) (some d.control)
      let branch ← (countdown.withRun r).keep (.code 5) (some d.chains) (some d.control)
      return (result.contains (.code 5), branch.contains (.code 6))) = Except.ok (true, false) := by decide +kernel
  obtain ⟨r, hr, hrun⟩ := bind_eq_ok.mp hrun
  obtain ⟨d, hd, hrun⟩ := bind_eq_ok.mp hrun
  obtain ⟨result, hresult, hrun⟩ := bind_eq_ok.mp hrun
  obtain ⟨branch, hbranch, hrun⟩ := bind_eq_ok.mp hrun
  obtain ⟨hmem, hnot⟩ := Prod.mk.inj (pure_eq_ok.mp hrun)
  have hstores := (Dependences.ofGraph_eq_ok hd).1
  obtain ⟨hexact, hfault, -⟩ := keep_exact (countdown.withRun r) d hstores
  have hiff : ∀ criterion keep, (countdown.withRun r).keep criterion (some d.chains) (some d.control) = .ok keep →
      ∀ l, l ∈ keep ↔ ReflTransGen (d.LeadsTo (countdown.withRun r)) criterion l := by
    intro criterion keep hok
    have hres : ∀ l, ReflTransGen (d.LeadsTo (countdown.withRun r)) criterion l →
        d.Resolves (countdown.withRun r) l := by
      intro l hl
      by_contra hcon
      obtain ⟨fault, hfault⟩ := (hfault criterion).mpr ⟨l, hl, hcon⟩
      cases hok.symm.trans hfault
    obtain ⟨keep', hok', -, hmem'⟩ := hexact criterion hres
    cases hok.symm.trans hok'
    exact hmem'
  refine ⟨r, d, hr, hstores, ?_, fun hcon => ?_⟩
  · exact (hiff _ _ hresult _).mp (List.contains_iff_mem.mp hmem)
  · rw [← hiff _ _ hbranch, ← List.contains_iff_mem, hnot] at hcon
    cases hcon

end Graph
end Backslice
