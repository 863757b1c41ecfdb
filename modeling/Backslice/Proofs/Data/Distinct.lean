import Mathlib.Data.List.Basic

/-! # Lists without repetitions

`eraseDups` for an equality that may be coarser than `=`: it keeps the first of several equal elements. -/

namespace Backslice

set_option autoImplicit false

variable {α : Type} [BEq α]

/-- What a list inherits from its tail without the elements that equal its head holds of all lists. -/
theorem eraseDups_induction {P : List α → Prop} (nil : P [])
    (cons : ∀ b rest, P (rest.filter fun x => !x == b) → P (b :: rest)) (l : List α) : P l := by
  induction hn : l.length using Nat.strongRecOn generalizing l with
  | ind n ih => cases l with
    | nil => exact nil
    | cons b rest =>
      refine cons b rest (ih _ ?_ _ rfl)
      have hle := List.length_filter_le (fun x => !x == b) rest
      rw [← hn, List.length_cons]
      omega

theorem mem_of_mem_eraseDups {l : List α} {a : α} (h : a ∈ l.eraseDups) : a ∈ l := by
  induction l using eraseDups_induction with
  | nil => exact h
  | cons b rest ih =>
    rw [List.eraseDups_cons] at h
    rcases List.mem_cons.mp h with rfl | h
    · exact List.mem_cons_self ..
    · exact List.mem_cons_of_mem b (List.mem_of_mem_filter (ih h))

theorem exists_mem_eraseDups [EquivBEq α] {l : List α} {a : α} (h : a ∈ l) :
    ∃ b ∈ l.eraseDups, (b == a) = true := by
  induction l using eraseDups_induction with
  | nil => cases h
  | cons b rest ih =>
    rw [List.eraseDups_cons]
    by_cases hab : (a == b) = true
    · exact ⟨b, List.mem_cons_self .., BEq.symm hab⟩
    · have hrest : a ∈ rest.filter fun x => !x == b := by
        rcases List.mem_cons.mp h with rfl | h
        · exact absurd BEq.rfl hab
        · exact List.mem_filter.mpr ⟨h, by simpa using hab⟩
      obtain ⟨d, hd, hda⟩ := ih hrest
      exact ⟨d, List.mem_cons_of_mem b hd, hda⟩

theorem pairwise_eraseDups [EquivBEq α] (l : List α) : l.eraseDups.Pairwise fun a b => (a == b) = false := by
  induction l using eraseDups_induction with
  | nil => exact .nil
  | cons b rest ih =>
    rw [List.eraseDups_cons]
    refine List.pairwise_cons.mpr ⟨fun a ha => ?_, ih⟩
    have hkept := (List.mem_filter.mp (mem_of_mem_eraseDups ha)).2
    rw [← Bool.not_eq_true]
    intro hba
    rw [BEq.symm hba] at hkept
    cases hkept

theorem contains_eraseDups [EquivBEq α] (l : List α) (a : α) : l.eraseDups.contains a = l.contains a := by
  rw [Bool.eq_iff_iff, List.contains_iff_exists_mem_beq, List.contains_iff_exists_mem_beq]
  constructor
  · rintro ⟨b, hb, hab⟩
    exact ⟨b, mem_of_mem_eraseDups hb, hab⟩
  · rintro ⟨b, hb, hab⟩
    obtain ⟨d, hd, hdb⟩ := exists_mem_eraseDups hb
    exact ⟨d, hd, BEq.trans hab (BEq.symm hdb)⟩

end Backslice
