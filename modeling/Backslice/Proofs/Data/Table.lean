import Backslice.Data.Table
import Mathlib.Data.List.Perm.Subperm

/-! # Tables and their entries

Look-up against membership, tables built from lists, and when two tables are the same map. -/

namespace Backslice.Table

set_option autoImplicit false

variable {κ ν μ : Type} [BEq κ]

/-! ## Look-up and membership -/

theorem exists_mem_of_find? {t : Table κ ν} {k : κ} {v : ν} (h : t.find? k = some v) :
    ∃ k', (k', v) ∈ t.entries ∧ (k' == k) = true := by
  obtain ⟨e, he, hv⟩ := Option.map_eq_some_iff.mp h
  exact ⟨e.1, hv ▸ List.mem_of_find?_eq_some he, by simpa using List.find?_some he⟩

theorem find?_congr [EquivBEq κ] (t : Table κ ν) {k k' : κ} (h : (k == k') = true) : t.find? k = t.find? k' := by
  unfold find?
  refine congrArg (fun p => (t.entries.find? p).map (·.2)) (funext fun e => ?_)
  exact BEq.congr_right h

theorem find?_of_mem [EquivBEq κ] {t : Table κ ν} {e : κ × ν} (h : e ∈ t.entries) : t.find? e.1 = some e.2 := by
  obtain ⟨es, hd⟩ := t
  unfold find?
  dsimp only at h ⊢
  induction es with
  | nil => cases h
  | cons a rest ih =>
    rw [List.map_cons, List.pairwise_cons] at hd
    rcases List.mem_cons.mp h with rfl | h
    · simp
    · have hne : (a.1 == e.1) = false := hd.1 e.1 (List.mem_map_of_mem h)
      rw [List.find?_cons_of_neg (by simp [hne])]
      exact ih hd.2 h

theorem find?_eq_some_iff [EquivBEq κ] {t : Table κ ν} {k : κ} {v : ν} :
    t.find? k = some v ↔ ∃ k', (k', v) ∈ t.entries ∧ (k' == k) = true := by
  refine ⟨exists_mem_of_find?, fun ⟨k', hm, hk⟩ => ?_⟩
  rw [← find?_congr t hk]
  exact find?_of_mem hm

theorem find?_eq_some_iff_mem [LawfulBEq κ] {t : Table κ ν} {k : κ} {v : ν} :
    t.find? k = some v ↔ (k, v) ∈ t.entries := by
  rw [find?_eq_some_iff]
  constructor
  · rintro ⟨k', hm, hk⟩
    rwa [← eq_of_beq hk]
  · exact fun h => ⟨k, h, BEq.rfl⟩

theorem find?_map_of_lawful [LawfulBEq κ] (t : Table κ ν) (f : κ → ν → μ) (k : κ) :
    (t.map f).find? k = (t.find? k).map (f k) := by
  rw [find?_map, find?]
  cases h : t.entries.find? fun e => e.1 == k with
  | none => rfl
  | some e =>
    have he : e.1 = k := by simpa using List.find?_some h
    rw [← he]
    rfl

theorem pairwise_fst_ne [LawfulBEq κ] (t : Table κ ν) : t.entries.Pairwise fun a b => a.1 ≠ b.1 :=
  (List.pairwise_map.mp t.distinct).imp fun hab heq => by simp [heq] at hab

theorem contains_iff_exists_mem {t : Table κ ν} {k : κ} :
    t.contains k = true ↔ ∃ e ∈ t.entries, (e.1 == k) = true := List.any_eq_true

theorem contains_keys [EquivBEq κ] (t : Table κ ν) (k : κ) : t.keys.contains k = t.contains k := by
  rw [Bool.eq_iff_iff, List.contains_iff_exists_mem_beq, contains_iff_exists_mem, keys]
  simp [BEq.comm]

theorem contains_iff_find? {t : Table κ ν} {k : κ} : t.contains k = true ↔ ∃ v, t.find? k = some v := by
  rw [contains_eq_isSome_find?, Option.isSome_iff_exists]

theorem find?_eq_none_iff {t : Table κ ν} {k : κ} : t.find? k = none ↔ t.contains k = false := by
  rw [contains_eq_isSome_find?, Option.isSome_eq_false_iff, Option.isNone_iff_eq_none]

theorem contains_congr [EquivBEq κ] (t : Table κ ν) {k k' : κ} (h : (k == k') = true) :
    t.contains k = t.contains k' := by
  rw [contains_eq_isSome_find?, contains_eq_isSome_find?, find?_congr t h]

@[simp] theorem contains_insert [PartialEquivBEq κ] (t : Table κ ν) (k k' : κ) (v : ν) :
    (t.insert k v).contains k' = (k == k' || t.contains k') := by
  rw [contains_eq_isSome_find?, find?_insert, contains_eq_isSome_find?]
  cases k == k' <;> simp

/-- An entry after a key has been bound is an old one, or it has the new value, at the key or at an equal one that
was there before. -/
theorem mem_entries_insert {t : Table κ ν} {k : κ} {v : ν} {e : κ × ν} (h : e ∈ (t.insert k v).entries) :
    e ∈ t.entries ∨ (e.2 = v ∧ (e.1 = k ∨ ∃ old, (e.1, old) ∈ t.entries)) := by
  rw [entries_insert] at h
  generalize t.entries = es at h ⊢
  induction es with
  | nil =>
    rw [put, List.mem_singleton] at h
    exact Or.inr ⟨h ▸ rfl, Or.inl (h ▸ rfl)⟩
  | cons a rest ih =>
    rw [put] at h
    split at h
    · rcases List.mem_cons.mp h with rfl | h
      · exact Or.inr ⟨rfl, Or.inr ⟨a.2, List.mem_cons_self ..⟩⟩
      · exact Or.inl (List.mem_cons_of_mem a h)
    · rcases List.mem_cons.mp h with rfl | h
      · exact Or.inl (List.mem_cons_self ..)
      · rcases ih h with h | ⟨hv, hk | ⟨old, hold⟩⟩
        · exact Or.inl (List.mem_cons_of_mem a h)
        · exact Or.inr ⟨hv, Or.inl hk⟩
        · exact Or.inr ⟨hv, Or.inr ⟨old, List.mem_cons_of_mem a hold⟩⟩

/-! ## Values that are dropped or replaced -/

theorem find?_filterMap [EquivBEq κ] (t : Table κ ν) (f : κ → ν → Option μ)
    (hf : ∀ k k' v, (k == k') = true → f k v = f k' v) (k : κ) :
    (t.filterMap f).find? k = (t.find? k).bind (f k) := by
  cases h : t.find? k with
  | some v =>
    obtain ⟨k', hm, hk⟩ := exists_mem_of_find? h
    rw [Option.bind_some]
    cases hfv : f k v with
    | some w =>
      rw [find?_eq_some_iff]
      refine ⟨k', ?_, hk⟩
      exact List.mem_filterMap.mpr ⟨(k', v), hm, by simp [hf k' k v hk, hfv]⟩
    | none =>
      rw [find?_eq_none_iff, ← Bool.not_eq_true, contains_iff_exists_mem]
      rintro ⟨e, he, hek⟩
      obtain ⟨e', he', hmap⟩ := List.mem_filterMap.mp he
      obtain ⟨w, hw, rfl⟩ := Option.map_eq_some_iff.mp hmap
      have hval : e'.2 = v := by
        have hfind := find?_of_mem he'
        rw [find?_congr t hek, h] at hfind
        exact (Option.some.inj hfind).symm
      rw [hf e'.1 k e'.2 hek, hval, hfv] at hw
      cases hw
  | none =>
    rw [Option.bind_none, find?_eq_none_iff, ← Bool.not_eq_true, contains_iff_exists_mem]
    rintro ⟨e, he, hek⟩
    obtain ⟨e', he', hmap⟩ := List.mem_filterMap.mp he
    obtain ⟨w, _, rfl⟩ := Option.map_eq_some_iff.mp hmap
    rw [← find?_congr t hek, find?_of_mem he'] at h
    cases h

/-- Where the key of a table stands. -/
def position (t : Table κ ν) (k : κ) : Nat := t.keys.findIdx (· == k)

theorem find?_zip (ks : List κ) (vs : List ν) (h : ks.length = vs.length) (k : κ) :
    ((ks.zip vs).find? fun e => e.1 == k).map (·.2) = vs[ks.findIdx (· == k)]? := by
  induction ks generalizing vs with
  | nil =>
    rw [List.length_nil] at h
    simp [List.eq_nil_of_length_eq_zero h.symm]
  | cons a rest ih => cases vs with
    | nil => simp at h
    | cons v vs =>
      rw [List.zip_cons_cons, List.find?_cons, List.findIdx_cons]
      cases hak : a == k
      · simpa [hak] using ih vs (by simpa using h)
      · simp

theorem find?_withValues (t : Table κ ν) (vs : List μ) (h : t.size = vs.length) (k : κ) :
    (t.withValues vs).find? k = vs[t.position k]? :=
  find?_zip t.keys vs (by simpa [keys, size] using h) k

theorem zip_keys_values (t : Table κ ν) : t.keys.zip t.values = t.entries := by
  simp [keys, values, List.zip_map']

theorem find?_eq_getElem? (t : Table κ ν) (k : κ) : t.find? k = t.values[t.position k]? := by
  have h := find?_zip t.keys t.values (by simp [keys, values]) k
  rw [zip_keys_values] at h
  exact h

theorem map_find?_keys [EquivBEq κ] (t : Table κ ν) : t.keys.map t.find? = t.values.map some := by
  rw [keys, values, List.map_map, List.map_map]
  exact List.map_congr_left fun e he => find?_of_mem he

theorem ext_values {s t : Table κ ν} (hkeys : s.keys = t.keys) (hvalues : s.values = t.values) : s = t := by
  have hentries : s.entries = t.entries := by rw [← zip_keys_values, ← zip_keys_values, hkeys, hvalues]
  cases s
  cases t
  cases hentries
  rfl

theorem keys_filterMap (t : Table κ ν) (f : κ → ν → Option μ) (P : κ → Bool) (hf : ∀ k v, (f k v).isSome = P k) :
    (t.filterMap f).keys = t.keys.filter P := by
  show (t.entries.filterMap fun e => (f e.1 e.2).map (e.1, ·)).map (·.1) = (t.entries.map (·.1)).filter P
  induction t.entries with
  | nil => rfl
  | cons e rest ih =>
    have hP := hf e.1 e.2
    cases hfe : f e.1 e.2 with
    | none => simp_all
    | some w => simp_all

theorem keys_withValues (t : Table κ ν) {vs : List μ} (h : t.size = vs.length) : (t.withValues vs).keys = t.keys := by
  refine List.map_fst_zip (Nat.le_of_eq ?_)
  rw [← h, keys, List.length_map, size]

theorem getElem?_keys_position {t : Table κ ν} {k : κ} (hk : t.contains k = true) :
    ∃ a, t.keys[t.position k]? = some a ∧ (a == k) = true := by
  obtain ⟨e, he, hek⟩ := contains_iff_exists_mem.mp hk
  have hlt : t.position k < t.keys.length :=
    List.findIdx_lt_length_of_exists ⟨e.1, List.mem_map_of_mem he, hek⟩
  exact ⟨_, List.getElem?_eq_getElem hlt, List.findIdx_getElem (p := (· == k)) (w := hlt)⟩

theorem beq_of_position_eq [EquivBEq κ] {t : Table κ ν} {k k' : κ} (hk : t.contains k = true)
    (hk' : t.contains k' = true) (h : t.position k = t.position k') : (k == k') = true := by
  obtain ⟨a, ha, hak⟩ := getElem?_keys_position hk
  obtain ⟨b, hb, hbk⟩ := getElem?_keys_position hk'
  rw [h, hb, Option.some.injEq] at ha
  exact BEq.trans (BEq.symm hak) (ha ▸ hbk)

theorem position_of_getElem? [EquivBEq κ] {t : Table κ ν} {j : Nat} {k : κ} (h : t.keys[j]? = some k) :
    t.position k = j := by
  obtain ⟨hj, rfl⟩ := List.getElem?_eq_some_iff.mp h
  refine (List.findIdx_eq hj).mpr ⟨BEq.rfl, fun i hi => ?_⟩
  exact List.pairwise_iff_getElem.mp t.distinct i j (Nat.lt_trans hi hj) hj hi

/-! ## Tables from lists -/

theorem put_of_fresh (k : κ) (v : ν) (es : List (κ × ν)) (h : ∀ e ∈ es, (e.1 == k) = false) :
    put k v es = es ++ [(k, v)] := by
  induction es with
  | nil => rfl
  | cons a rest ih =>
    rw [put, h a (List.mem_cons_self ..), List.cons_append,
      ih fun e he => h e (List.mem_cons_of_mem a he)]
    rfl

theorem entries_insert_of_fresh {t : Table κ ν} {k : κ} (v : ν) (h : t.contains k = false) :
    (t.insert k v).entries = t.entries ++ [(k, v)] := by
  rw [entries_insert, put_of_fresh]
  intro e he
  exact Bool.eq_false_iff.mpr fun hek =>
    Bool.false_ne_true (h.symm.trans (contains_iff_exists_mem.mpr ⟨e, he, hek⟩))

theorem entries_ofList {es : List (κ × ν)} (h : (es.map (·.1)).Pairwise fun a b => (a == b) = false) :
    (ofList es).entries = es := by
  suffices hgen : ∀ (rest : List (κ × ν)) (t : Table κ ν),
      ((t.entries ++ rest).map (·.1)).Pairwise (fun a b => (a == b) = false) →
      (rest.foldl (fun t e => t.insert e.1 e.2) t).entries = t.entries ++ rest from hgen es ∅ (by simpa using h)
  intro rest
  induction rest with
  | nil => intro t _; simp
  | cons e rest ih =>
    intro t ht
    have hfresh : (t.insert e.1 e.2).entries = t.entries ++ [e] := by
      rw [entries_insert, put_of_fresh]
      intro a ha
      rw [List.map_append, List.pairwise_append] at ht
      exact ht.2.2 a.1 (List.mem_map_of_mem ha) e.1 (by simp)
    rw [List.foldl_cons, ih, hfresh, List.append_assoc]
    · rfl
    · rw [hfresh, List.append_assoc]
      exact ht

theorem find?_foldl_insert_of_not_mem [LawfulBEq κ] (es : List (κ × ν)) (t : Table κ ν) {k : κ}
    (h : ∀ e ∈ es, e.1 ≠ k) : (es.foldl (fun t e => t.insert e.1 e.2) t).find? k = t.find? k := by
  induction es generalizing t with
  | nil => rfl
  | cons e rest ih =>
    rw [List.foldl_cons, ih _ fun e' he' => h e' (List.mem_cons_of_mem e he'), find?_insert]
    have hne : (e.1 == k) = false := by simpa using h e (List.mem_cons_self ..)
    rw [hne]
    rfl

theorem find?_foldl_insert_of_mem [LawfulBEq κ] (es : List (κ × ν)) (t : Table κ ν) {e : κ × ν}
    (hd : (es.map (·.1)).Nodup) (h : e ∈ es) :
    (es.foldl (fun t e => t.insert e.1 e.2) t).find? e.1 = some e.2 := by
  induction es generalizing t with
  | nil => cases h
  | cons a rest ih =>
    rw [List.map_cons, List.nodup_cons] at hd
    rw [List.foldl_cons]
    rcases List.mem_cons.mp h with rfl | h
    · rw [find?_foldl_insert_of_not_mem, find?_insert]
      · simp
      · intro e' he' heq
        exact hd.1 (heq ▸ List.mem_map_of_mem he')
    · exact ih _ hd.2 h

theorem contains_foldl_insert [LawfulBEq κ] (es : List (κ × ν)) (t : Table κ ν) {k : κ} :
    (es.foldl (fun t e => t.insert e.1 e.2) t).contains k = true ↔ k ∈ es.map (·.1) ∨ t.contains k = true := by
  induction es generalizing t with
  | nil => simp
  | cons e rest ih =>
    rw [List.foldl_cons, ih, contains_insert, Bool.or_eq_true, beq_iff_eq, List.map_cons, List.mem_cons, or_left_comm,
      or_assoc, eq_comm]

theorem mem_of_find?_foldl_insert [LawfulBEq κ] (es : List (κ × ν)) (t : Table κ ν) {k : κ} {v : ν}
    (h : (es.foldl (fun t e => t.insert e.1 e.2) t).find? k = some v) : (k, v) ∈ es ∨ t.find? k = some v := by
  induction es generalizing t with
  | nil => exact Or.inr h
  | cons e rest ih =>
    rw [List.foldl_cons] at h
    rcases ih _ h with h | h
    · exact Or.inl (List.mem_cons_of_mem e h)
    · rw [find?_insert] at h
      split at h
      · rename_i hk
        have he : e = (k, v) := Prod.ext (eq_of_beq hk) (Option.some.inj h)
        exact Or.inl (he ▸ List.mem_cons_self ..)
      · exact Or.inr h

/-! ## Tables of lists -/

/-- The members of the lists in the table have the property `P`. -/
def Lists {α : Type} (P : α → Prop) (t : Table κ (List α)) : Prop := ∀ k l, t.find? k = some l → ∀ a ∈ l, P a

theorem lists_empty {α : Type} (P : α → Prop) : Lists P (∅ : Table κ (List α)) := by
  intro k l hfind
  cases hfind

theorem Lists.getD {α : Type} {P : α → Prop} {t : Table κ (List α)} (h : t.Lists P) {k : κ} {a : α}
    (ha : a ∈ (t.find? k).getD []) : P a := by
  cases hfind : t.find? k with
  | none =>
    rw [hfind] at ha
    cases ha
  | some l =>
    rw [hfind] at ha
    exact h k l hfind a ha

theorem Lists.alter [PartialEquivBEq κ] {α : Type} {P : α → Prop} {t : Table κ (List α)} (h : t.Lists P) (k : κ)
    {f : Option (List α) → List α} (hf : ∀ a ∈ f (t.find? k), a ∈ (t.find? k).getD [] ∨ P a) :
    (t.alter k f).Lists P := by
  intro k' l hfind a ha
  rw [Table.alter, find?_insert] at hfind
  split at hfind
  · rw [← Option.some.inj hfind] at ha
    exact (hf a ha).elim h.getD id
  · exact h k' l hfind a ha

/-! ## Tables as maps -/

/-- Every binding of `s` is one of `t`, up to equality of values. -/
def Within [BEq ν] (s t : Table κ ν) : Prop :=
  ∀ k v, s.find? k = some v → ∃ w, t.find? k = some w ∧ (v == w) = true

theorem same_iff_size [EquivBEq κ] [BEq ν] {s t : Table κ ν} :
    s.same t = true ↔ s.size = t.size ∧ s.Within t := by
  rw [same, Bool.and_eq_true, beq_iff_eq]
  refine and_congr_right fun _ => ?_
  rw [List.all_eq_true]
  constructor
  · intro h k v hk
    obtain ⟨k', hm, hkk⟩ := exists_mem_of_find? hk
    have hv := h (k', v) hm
    rw [← find?_congr t hkk]
    dsimp only at hv
    split at hv
    · rename_i w hw
      exact ⟨w, hw, hv⟩
    · cases hv
  · intro h e he
    obtain ⟨w, hw, hvw⟩ := h e.1 e.2 (find?_of_mem he)
    rw [hw]
    exact hvw

section Normal
variable {κ' : Type} {norm : κ → κ'} (hnorm : ∀ a b : κ, (a == b) = true ↔ norm a = norm b)
include hnorm

theorem nodup_keys_map (t : Table κ ν) : (t.keys.map norm).Nodup := by
  refine List.pairwise_map.mpr (t.distinct.imp fun {a b} hab heq => ?_)
  rw [(hnorm a b).mpr heq] at hab
  cases hab

theorem keys_map_subset [EquivBEq κ] {s : Table κ ν} {t : Table κ μ}
    (h : ∀ k, s.contains k = true → t.contains k = true) : s.keys.map norm ⊆ t.keys.map norm := by
  intro x hx
  obtain ⟨k, hk, rfl⟩ := List.mem_map.mp hx
  obtain ⟨e, he, rfl⟩ := List.mem_map.mp hk
  obtain ⟨e', he', hee⟩ := contains_iff_exists_mem.mp (h e.1 (contains_iff_exists_mem.mpr ⟨e, he, BEq.rfl⟩))
  exact List.mem_map.mpr ⟨e'.1, List.mem_map_of_mem he', (hnorm _ _).mp hee⟩

theorem size_le_of_contains [EquivBEq κ] {s : Table κ ν} {t : Table κ μ}
    (h : ∀ k, s.contains k = true → t.contains k = true) : s.size ≤ t.size := by
  have hle := ((nodup_keys_map hnorm s).subperm (keys_map_subset hnorm h)).length_le
  simpa [keys, size] using hle

/-- A table that has the keys of another one, and no more entries, has no other keys. -/
theorem contains_of_size_le [EquivBEq κ] {s : Table κ ν} {t : Table κ μ}
    (h : ∀ k, s.contains k = true → t.contains k = true) (hsize : t.size ≤ s.size) {k : κ}
    (hk : t.contains k = true) : s.contains k = true := by
  have hperm : (s.keys.map norm).Perm (t.keys.map norm) :=
    ((nodup_keys_map hnorm s).subperm (keys_map_subset hnorm h)).perm_of_length_le (by simpa [keys, size] using hsize)
  obtain ⟨e, he, hek⟩ := contains_iff_exists_mem.mp hk
  have hmem : norm e.1 ∈ s.keys.map norm := hperm.mem_iff.mpr (List.mem_map_of_mem (List.mem_map_of_mem he))
  obtain ⟨k', hk', hkk⟩ := List.mem_map.mp hmem
  obtain ⟨e', he', rfl⟩ := List.mem_map.mp hk'
  exact contains_iff_exists_mem.mpr ⟨e', he', BEq.trans ((hnorm _ _).mpr hkk) hek⟩

/-- Two tables are the same map if the second has the bindings of the first and no other keys. -/
theorem same_iff [EquivBEq κ] [BEq ν] {s t : Table κ ν} :
    s.same t = true ↔ s.Within t ∧ ∀ k, t.contains k = true → s.contains k = true := by
  have hkeys : s.Within t → ∀ k, s.contains k = true → t.contains k = true := by
    intro h k hk
    obtain ⟨v, hv⟩ := contains_iff_find?.mp hk
    obtain ⟨w, hw, _⟩ := h k v hv
    exact contains_iff_find?.mpr ⟨w, hw⟩
  rw [same_iff_size]
  constructor
  · rintro ⟨hsize, h⟩
    exact ⟨h, fun k hk => contains_of_size_le hnorm (hkeys h) (Nat.le_of_eq hsize.symm) hk⟩
  · rintro ⟨h, hback⟩
    exact ⟨Nat.le_antisymm (size_le_of_contains hnorm (hkeys h)) (size_le_of_contains hnorm hback), h⟩

end Normal
end Backslice.Table
