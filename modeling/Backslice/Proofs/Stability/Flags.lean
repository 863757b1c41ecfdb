import Mathlib.Data.Set.Finite.Lemmas
import Mathlib.Order.Filter.AtTopBot.Basic
import Mathlib.Order.Filter.Finite

/-! # Flags that are brought up to date in a fixed order

Every block has a flag. A visit to a block sets its flag to what is computed from all the flags, in a monotone way, and
whenever a block is visited the flags of the blocks in front of it in a fixed order are up to date. Then every flag
changes only finitely often: after the last of the restless blocks has changed, no flag changes the other way round. -/

namespace Backslice

set_option autoImplicit false

open Filter

/-! ## Sequences that settle -/

/-- From some time on the sequence stays as it is. -/
def Settles {α : Type} (x : Nat → α) : Prop := ∀ᶠ k in atTop, x (k + 1) = x k

section
variable {α : Type} {x : Nat → α}

theorem settles_iff : Settles x ↔ ∃ K, ∀ k ≥ K, x k = x K := by
  unfold Settles
  rw [eventually_atTop]
  constructor
  · rintro ⟨K, hK⟩
    refine ⟨K, fun k hk => ?_⟩
    induction k, hk using Nat.le_induction with
    | base => rfl
    | succ k hk ih => exact (hK k hk).trans ih
  · rintro ⟨K, hK⟩
    exact ⟨K, fun k hk => (hK (k + 1) (Nat.le_succ_of_le hk)).trans (hK k hk).symm⟩

theorem settles_of_eventually_eq {a : α} (h : ∀ᶠ k in atTop, x k = a) : Settles x := by
  obtain ⟨K, hK⟩ := eventually_atTop.mp h
  exact settles_iff.mpr ⟨K, fun k hk => (hK k hk).trans (hK K le_rfl).symm⟩

theorem Settles.map {β : Type} (h : Settles x) (f : α → β) : Settles fun k => f (x k) :=
  h.mono fun _ heq => congrArg f heq

/-- What settles and holds again and again holds from some time on. -/
theorem Settles.eventually {x : Nat → Prop} (h : Settles x) (hx : ∃ᶠ k in atTop, x k) : ∀ᶠ k in atTop, x k := by
  obtain ⟨K, hK⟩ := settles_iff.mp h
  obtain ⟨k₀, hk₀, hx⟩ := frequently_atTop.mp hx K
  exact eventually_atTop.mpr ⟨K, fun k hk => by rwa [hK k hk, ← hK k₀ hk₀]⟩

/-- What holds at most finitely often settles. -/
theorem settles_of_not_frequently {x : Nat → Prop} (h : ¬ ∃ᶠ k in atTop, x k) : Settles x :=
  settles_of_eventually_eq ((not_frequently.mp h).mono fun _ hx => propext (iff_false_intro hx))

end

/-! ## Flags -/

/-- The blocks whose flags do not settle. -/
def Restless (x : Nat → Int → Prop) : Set Int := {m | ¬ Settles fun k => x k m}

/-- From the time `K` on a visit computes the flag of a restless block with `next`, the restless blocks with a lower
rank than the visited one are up to date, and no other flag changes. -/
structure Sweep (restless : Set Int) (rank : Int → Nat) (visited : Nat → Int) (next : (Int → Prop) → Int → Prop)
    (x : Nat → Int → Prop) (K : Nat) : Prop where
  other : ∀ k m, m ≠ visited k → x (k + 1) m = x k m
  calm : ∀ k ≥ K, ∀ m ∉ restless, x (k + 1) m = x k m
  step : ∀ k ≥ K, visited k ∈ restless → x (k + 1) (visited k) = next (x k) (visited k)
  current : ∀ k ≥ K, ∀ m ∈ restless, rank m < rank (visited k) → x k m = next (x k) m

namespace Sweep

variable {restless : Set Int} {rank : Int → Nat} {visited : Nat → Int} {next : (Int → Prop) → Int → Prop}
  {x : Nat → Int → Prop} {K : Nat}

/-- No flag of a restless block is up that would be computed to be down. -/
def Rising (restless : Set Int) (next : (Int → Prop) → Int → Prop) (y : Int → Prop) : Prop :=
  ∀ m ∈ restless, y m → next y m

theorem rises (h : Sweep restless rank visited next x K) (hnext : Monotone next) {k : Nat} (hk : K ≤ k)
    (hrising : Rising restless next (x k)) : x k ≤ x (k + 1) ∧ Rising restless next (x (k + 1)) := by
  have hle : x k ≤ x (k + 1) := by
    intro m hm
    by_cases hv : m = visited k
    · by_cases hr : m ∈ restless
      · subst hv
        rw [h.step k hk hr]
        exact hrising _ hr hm
      · exact (h.calm k hk m hr).symm ▸ hm
    · exact (h.other k m hv).symm ▸ hm
  refine ⟨hle, fun m hr hm => ?_⟩
  by_cases hv : m = visited k
  · subst hv
    rw [h.step k hk hr] at hm
    exact hnext hle _ hm
  · rw [h.other k m hv] at hm
    exact hnext hle m (hrising m hr hm)

/-- After the flag of the last restless block has gone up, it never goes down. -/
theorem stays_up (h : Sweep restless rank visited next x K) (hnext : Monotone next) {z : Int} (hz : z ∈ restless)
    (hlast : ∀ m ∈ restless, m ≠ z → rank m < rank z) {t : Nat} (ht : K ≤ t) (hvisit : visited t = z) (hdown : ¬ x t z)
    (hup : x (t + 1) z) : ∀ k ≥ t + 1, x k z := by
  have hle : x t ≤ x (t + 1) := by
    intro m hm
    by_cases hmz : m = z
    · exact absurd (hmz ▸ hm) hdown
    · exact (h.other t m (hvisit ▸ hmz)).symm ▸ hm
  have hstart : Rising restless next (x (t + 1)) := by
    intro m hr hm
    by_cases hmz : m = z
    · subst hmz
      have hstep := h.step t ht (hvisit.symm ▸ hr)
      rw [hvisit] at hstep
      rw [hstep] at hm
      exact hnext hle m hm
    · rw [h.other t m (hvisit ▸ hmz), h.current t ht m hr (hvisit ▸ hlast m hr hmz)] at hm
      exact hnext hle m hm
  suffices hall : ∀ k ≥ t + 1, x k z ∧ Rising restless next (x k) from fun k hk => (hall k hk).1
  intro k hk
  induction k, hk using Nat.le_induction with
  | base => exact ⟨hup, hstart⟩
  | succ k hk ih =>
    obtain ⟨hstay, hrising⟩ := h.rises hnext (by omega) ih.2
    exact ⟨hstay z ih.1, hrising⟩

theorem dual (h : Sweep restless rank visited next x K) :
    Sweep restless rank visited (fun y m => ¬ next (fun u => ¬ y u) m) (fun k m => ¬ x k m) K where
  other k m hm := by simp only [h.other k m hm]
  calm k hk m hm := by simp only [h.calm k hk m hm]
  step k hk hv := by simp only [h.step k hk hv, not_not]
  current k hk m hm hrank := by simp only [not_not, ← h.current k hk m hm hrank]

end Sweep

/-- Flags that are computed in a monotone way settle, if on every visit the blocks with a lower rank are up to date. The
rules need only hold from some time on, and for the blocks whose flags do not settle. -/
theorem settles_of_sweep {blocks : Set Int} {rank : Int → Nat} {visited : Nat → Int} {next : (Int → Prop) → Int → Prop}
    {x : Nat → Int → Prop} (hfinite : blocks.Finite) (hrank : Set.InjOn rank blocks) (hmem : ∀ k, visited k ∈ blocks)
    (hnext : Monotone next) (hother : ∀ k m, m ≠ visited k → x (k + 1) m = x k m)
    (hstep : ∀ᶠ k in atTop, visited k ∈ Restless x → x (k + 1) (visited k) = next (x k) (visited k))
    (hcurrent : ∀ᶠ k in atTop, ∀ m ∈ Restless x, rank m < rank (visited k) → x k m = next (x k) m)
    (m : Int) : Settles fun k => x k m := by
  by_contra hm
  have hsub : Restless x ⊆ blocks := by
    intro u hu
    by_contra hout
    exact hu (Eventually.of_forall fun k => hother k u fun heq => hout (heq ▸ hmem k))
  obtain ⟨z, hz, hmax⟩ := Set.exists_max_image (Restless x) rank (hfinite.subset hsub) ⟨m, hm⟩
  have hlast : ∀ u ∈ Restless x, u ≠ z → rank u < rank z := fun u hu hne =>
    lt_of_le_of_ne (hmax u hu) fun heq => hne (hrank (hsub hu) (hsub hz) heq)
  have hcalm : ∀ᶠ k in atTop, ∀ u ∈ blocks, u ∉ Restless x → x (k + 1) u = x k u := by
    refine (eventually_all_finite hfinite).mpr fun u _ => ?_
    by_cases hu : u ∈ Restless x
    · exact Eventually.of_forall fun _ hnot => absurd hu hnot
    · exact (not_not.mp hu).mono fun _ heq _ => heq
  obtain ⟨K, hK⟩ := eventually_atTop.mp (hstep.and (hcurrent.and hcalm))
  have hsweep : Sweep (Restless x) rank visited next x K := by
    refine ⟨hother, fun k hk u hu => ?_, fun k hk => (hK k hk).1, fun k hk u hu => (hK k hk).2.1 u hu⟩
    by_cases hin : u ∈ blocks
    · exact (hK k hk).2.2 u hin hu
    · exact hother k u fun heq => hin (heq ▸ hmem k)
  -- The last restless block changes once more, and from then on its flag stays.
  obtain ⟨t, ht, hchange⟩ := frequently_atTop.mp (not_eventually.mp hz) K
  have hvisit : visited t = z := by
    by_contra hne
    exact hchange (hother t z fun heq => hne heq.symm)
  by_cases hup : x (t + 1) z
  · have hdown : ¬ x t z := fun hcon => hchange (propext ⟨fun _ => hcon, fun _ => hup⟩)
    have hstays := hsweep.stays_up hnext hz hlast ht hvisit hdown hup
    have hconst : ∀ᶠ k in atTop, x k z = True :=
      eventually_atTop.mpr ⟨t + 1, fun k hk => propext (iff_true_intro (hstays k hk))⟩
    exact hz (settles_of_eventually_eq hconst)
  · have hbefore : x t z := by
      by_contra hcon
      exact hchange (propext ⟨fun h => absurd h hup, fun h => absurd h hcon⟩)
    have hdual : Monotone fun (y : Int → Prop) u => ¬ next (fun u => ¬ y u) u :=
      fun y y' hle u hnot hcon => hnot (hnext (fun v hv hy => hv (hle v hy)) u hcon)
    have hstays := hsweep.dual.stays_up hdual hz hlast ht hvisit (not_not.mpr hbefore) hup
    have hconst : ∀ᶠ k in atTop, x k z = False :=
      eventually_atTop.mpr ⟨t + 1, fun k hk => propext (iff_false_intro (hstays k hk))⟩
    exact hz (settles_of_eventually_eq hconst)

end Backslice
