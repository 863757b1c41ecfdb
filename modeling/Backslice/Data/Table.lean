/-! # Tables: finite maps that remember the order of insertion

A table is a list of key-value pairs whose keys are pairwise different under `==`. Binding a key that is
already there keeps the key as it was first written, and its place, and replaces the value. The equality of
keys may be coarser than `=`, so which of two equal keys a table holds is part of its meaning. -/

namespace Backslice

set_option autoImplicit false

variable {κ ν μ : Type}

/-! ## First components of a list of pairs -/

theorem fst_filterMap_sublist (f : κ → ν → Option μ) (es : List (κ × ν)) :
    ((es.filterMap fun e => (f e.1 e.2).map (e.1, ·)).map (·.1)).Sublist (es.map (·.1)) := by
  induction es with
  | nil => simp
  | cons e rest ih => cases h : f e.1 e.2 <;> simp [h, ih, List.Sublist.cons]

theorem fst_zip_sublist (ks : List κ) (vs : List μ) : ((ks.zip vs).map (·.1)).Sublist ks := by
  induction ks generalizing vs with
  | nil => simp
  | cons k rest ih => cases vs with
    | nil => simp
    | cons v vs => simpa using ih vs

/-! ## Keys that are pairs -/

instance equivBEqPair [BEq κ] [BEq ν] [EquivBEq κ] [EquivBEq ν] : EquivBEq (κ × ν) where
  symm h := by
    obtain ⟨h₁, h₂⟩ := Bool.and_eq_true_iff.mp h
    exact Bool.and_eq_true_iff.mpr ⟨BEq.symm h₁, BEq.symm h₂⟩
  trans h h' := by
    obtain ⟨h₁, h₂⟩ := Bool.and_eq_true_iff.mp h
    obtain ⟨h₃, h₄⟩ := Bool.and_eq_true_iff.mp h'
    exact Bool.and_eq_true_iff.mpr ⟨BEq.trans h₁ h₃, BEq.trans h₂ h₄⟩
  rfl := Bool.and_eq_true_iff.mpr ⟨BEq.rfl, BEq.rfl⟩

/-! ## Tables -/

structure Table (κ ν : Type) [BEq κ] where
  entries : List (κ × ν)
  distinct : (entries.map (·.1)).Pairwise fun a b => (a == b) = false
deriving DecidableEq

namespace Table

variable [BEq κ]

/-! ## Binding one key in a list of entries -/

/-- Replaces the value of `k`, or appends the pair if no entry has that key. -/
def put (k : κ) (v : ν) : List (κ × ν) → List (κ × ν)
  | [] => [(k, v)]
  | e :: rest => if e.1 == k then (e.1, v) :: rest else e :: put k v rest

theorem keys_put (k : κ) (v : ν) (es : List (κ × ν)) :
    (put k v es).map (·.1) = es.map (·.1) ++ if es.any (·.1 == k) then [] else [k] := by
  induction es with
  | nil => simp [put]
  | cons e rest ih =>
    rw [put, List.any_cons]
    cases h : e.1 == k
    · simp only [Bool.false_or, Bool.false_eq_true, if_false, List.map_cons, ih, List.cons_append]
    · simp

theorem put_distinct (k : κ) (v : ν) {es : List (κ × ν)}
    (h : (es.map (·.1)).Pairwise fun a b => (a == b) = false) :
    ((put k v es).map (·.1)).Pairwise fun a b => (a == b) = false := by
  rw [keys_put]
  by_cases hk : es.any (·.1 == k) = true
  · simpa [hk] using h
  · rw [if_neg hk, List.pairwise_append]
    refine ⟨h, List.pairwise_singleton _ _, fun a ha b hb => ?_⟩
    obtain ⟨e, he, rfl⟩ := List.mem_map.mp ha
    rw [List.mem_singleton.mp hb]
    simp only [List.any_eq_true, not_exists, not_and] at hk
    simpa using hk e he

theorem find?_put [PartialEquivBEq κ] (k k' : κ) (v : ν) (es : List (κ × ν)) :
    ((put k v es).find? fun e => e.1 == k').map (·.2) =
      if k == k' then some v else (es.find? fun e => e.1 == k').map (·.2) := by
  induction es with
  | nil => by_cases h : (k == k') = true <;> simp [put, h]
  | cons d rest ih =>
    by_cases hd : (d.1 == k) = true
    · have hsame : (d.1 == k') = (k == k') := BEq.congr_left hd
      rw [put, if_pos hd, List.find?_cons, List.find?_cons]
      dsimp only
      rw [hsame]
      cases (k == k') <;> rfl
    · rw [put, if_neg hd, List.find?_cons, List.find?_cons]
      by_cases hk : (d.1 == k') = true
      · have hne : (k == k') = false := Bool.eq_false_iff.mpr fun hcon => hd (BEq.trans hk (BEq.symm hcon))
        rw [hk, hne]
        rfl
      · have hk' : (d.1 == k') = false := by simpa using hk
        rw [hk']
        exact ih

/-! ## The operations -/

def empty : Table κ ν := ⟨[], .nil⟩

instance : EmptyCollection (Table κ ν) := ⟨empty⟩

instance : Inhabited (Table κ ν) := ⟨empty⟩

def insert (t : Table κ ν) (k : κ) (v : ν) : Table κ ν := ⟨put k v t.entries, put_distinct k v t.distinct⟩

def ofList (es : List (κ × ν)) : Table κ ν := es.foldl (fun t e => t.insert e.1 e.2) ∅

def find? (t : Table κ ν) (k : κ) : Option ν := (t.entries.find? fun e => e.1 == k).map (·.2)

def contains (t : Table κ ν) (k : κ) : Bool := t.entries.any fun e => e.1 == k

def keys (t : Table κ ν) : List κ := t.entries.map (·.1)

def values (t : Table κ ν) : List ν := t.entries.map (·.2)

def size (t : Table κ ν) : Nat := t.entries.length

/-- Rebinds `k` to a value computed from the present one. -/
def alter (t : Table κ ν) (k : κ) (f : Option ν → ν) : Table κ ν := t.insert k (f (t.find? k))

def erase (t : Table κ ν) (k : κ) : Table κ ν :=
  ⟨t.entries.filter fun e => !(e.1 == k), t.distinct.sublist (List.filter_sublist.map _)⟩

def map (t : Table κ ν) (f : κ → ν → μ) : Table κ μ :=
  ⟨t.entries.map fun e => (e.1, f e.1 e.2), by simpa [Function.comp_def] using t.distinct⟩

/-- Maps the values and drops the keys whose value becomes `none`. -/
def filterMap (t : Table κ ν) (f : κ → ν → Option μ) : Table κ μ :=
  ⟨t.entries.filterMap fun e => (f e.1 e.2).map (e.1, ·),
    t.distinct.sublist (fst_filterMap_sublist f t.entries)⟩

/-- The same keys with new values, given in the order of the keys. -/
def withValues (t : Table κ ν) (vs : List μ) : Table κ μ :=
  ⟨t.keys.zip vs, t.distinct.sublist (fst_zip_sublist t.keys vs)⟩

/-- Equality as maps: the same keys with equal values, in whatever order. -/
def same [BEq ν] (s t : Table κ ν) : Bool :=
  s.size == t.size && s.entries.all fun e => match t.find? e.1 with
    | some v => e.2 == v
    | none => false

/-! ## What the operations do -/

@[simp] theorem entries_empty : (∅ : Table κ ν).entries = [] := rfl

@[simp] theorem entries_insert (t : Table κ ν) (k : κ) (v : ν) :
    (t.insert k v).entries = put k v t.entries := rfl

@[simp] theorem entries_map (t : Table κ ν) (f : κ → ν → μ) :
    (t.map f).entries = t.entries.map fun e => (e.1, f e.1 e.2) := rfl

@[simp] theorem find?_empty (k : κ) : (∅ : Table κ ν).find? k = none := rfl

@[simp] theorem find?_insert [PartialEquivBEq κ] (t : Table κ ν) (k k' : κ) (v : ν) :
    (t.insert k v).find? k' = if k == k' then some v else t.find? k' :=
  find?_put k k' v t.entries

theorem find?_map (t : Table κ ν) (f : κ → ν → μ) (k : κ) :
    (t.map f).find? k = (t.entries.find? fun e => e.1 == k).map fun e => f e.1 e.2 := by
  simp [find?, List.find?_map, Function.comp_def]

@[simp] theorem find?_erase [PartialEquivBEq κ] (t : Table κ ν) (k k' : κ) :
    (t.erase k).find? k' = if k == k' then none else t.find? k' := by
  show ((t.entries.filter fun e => !(e.1 == k)).find? fun e => e.1 == k').map (·.2) = _
  rw [List.find?_filter]
  split
  · rename_i hk
    rw [Option.map_eq_none_iff, List.find?_eq_none]
    intro e _
    rw [BEq.congr_right hk]
    simp
  · rename_i hk
    refine congrArg (fun p => (t.entries.find? p).map (·.2)) (funext fun e => ?_)
    cases hek : e.1 == k'
    · simp
    · have : (e.1 == k) = false := Bool.eq_false_iff.mpr fun hcon => hk (BEq.trans (BEq.symm hcon) hek)
      simp [this]

theorem contains_eq_isSome_find? (t : Table κ ν) (k : κ) : t.contains k = (t.find? k).isSome := by
  rw [Bool.eq_iff_iff]
  simp [contains, find?]

end Table
end Backslice
