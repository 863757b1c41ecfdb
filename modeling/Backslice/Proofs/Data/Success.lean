/-! # Computations that succeed

What the success of a computation says about its parts, and folds that carry an invariant to their end. -/

namespace Backslice

set_option autoImplicit false

variable {ε α β : Type}

theorem bind_eq_ok {x : Except ε α} {f : α → Except ε β} {b : β} :
    (x >>= f) = .ok b ↔ ∃ a, x = .ok a ∧ f a = .ok b := by
  cases x <;> simp [bind, Except.bind]

theorem pure_eq_ok {a b : α} : (pure a : Except ε α) = .ok b ↔ a = b := by
  simp [pure, Except.pure]

theorem throw_ne_ok {e : ε} {a : α} : (throw e : Except ε α) ≠ .ok a := by
  intro h
  cases h

theorem ok_bind (a : α) (f : α → Except ε β) : (Except.ok a >>= f) = f a := rfl

theorem map_eq_ok {x : Except ε α} {f : α → β} {b : β} : f <$> x = .ok b ↔ ∃ a, x = .ok a ∧ f a = b := by
  cases x <;> simp [Functor.map, Except.map]

theorem toOption_eq_some {x : Except ε α} {a : α} : x.toOption = some a ↔ x = .ok a := by
  cases x <;> simp [Except.toOption]

/-- A fold succeeds if every step does that starts from what the steps before it have established. -/
theorem foldlM_succeeds {f : β → α → Except ε β} (I : List α → β → Prop) (l : List α) {b : β} (start : I [] b)
    (step : ∀ done a rest b, l = done ++ a :: rest → I done b → ∃ b', f b a = .ok b' ∧ I (done ++ [a]) b') :
    ∃ r, l.foldlM f b = .ok r ∧ I l r := by
  suffices h : ∀ done rest b, l = done ++ rest → I done b → ∃ r, rest.foldlM f b = .ok r ∧ I l r from
    h [] l b rfl start
  intro done rest
  induction rest generalizing done with
  | nil =>
    intro b hl hb
    rw [List.append_nil] at hl
    exact ⟨b, rfl, hl ▸ hb⟩
  | cons a rest ih =>
    intro b hl hb
    obtain ⟨b', hf, hb'⟩ := step done a rest b hl hb
    obtain ⟨r, hr, hI⟩ := ih (done ++ [a]) b' (by rw [hl, List.append_assoc]; rfl) hb'
    exact ⟨r, by rw [List.foldlM_cons, hf]; exact hr, hI⟩

/-- What the steps of a successful fold establish, one after the other, holds at its end. -/
theorem foldlM_carries {f : β → α → Except ε β} (I : List α → β → Prop) {l : List α} {b r : β} (start : I [] b)
    (h : l.foldlM f b = .ok r)
    (step : ∀ done a rest b b', l = done ++ a :: rest → I done b → f b a = .ok b' → I (done ++ [a]) b') : I l r := by
  suffices hgen : ∀ done rest b, l = done ++ rest → I done b → rest.foldlM f b = .ok r → I l r from
    hgen [] l b rfl start h
  intro done rest
  induction rest generalizing done with
  | nil =>
    intro b hl hb hr
    rw [List.append_nil] at hl
    rw [List.foldlM_nil, pure_eq_ok] at hr
    exact hl ▸ hr ▸ hb
  | cons a rest ih =>
    intro b hl hb hr
    rw [List.foldlM_cons, bind_eq_ok] at hr
    obtain ⟨b', hb', hr⟩ := hr
    exact ih (done ++ [a]) b' (by rw [hl, List.append_assoc]; rfl) (step done a rest b b' hl hb hb') hr

theorem foldl_carries {f : β → α → β} (I : List α → β → Prop) (l : List α) {b : β} (start : I [] b)
    (step : ∀ done a rest b, l = done ++ a :: rest → I done b → I (done ++ [a]) (f b a)) : I l (l.foldl f b) := by
  have hfold : l.foldlM (fun b a => (pure (f b a) : Except Unit β)) b = .ok (l.foldl f b) := List.foldlM_pure
  refine foldlM_carries I start hfold fun done a rest b b' hl hb hb' => ?_
  obtain rfl := pure_eq_ok.mp hb'
  exact step done a rest b hl hb

/-- What every successful step of a fold keeps holds at its end. -/
theorem foldlM_keeps {f : β → α → Except ε β} (P : β → Prop) {l : List α} {b r : β} (start : P b)
    (h : l.foldlM f b = .ok r) (step : ∀ a ∈ l, ∀ b b', P b → f b a = .ok b' → P b') : P r :=
  foldlM_carries (fun _ => P) start h fun done a rest b b' hl => step a (by rw [hl]; simp) b b'

theorem forM_eq_ok {f : α → Except ε Unit} {l : List α} : l.forM f = .ok () ↔ ∀ a ∈ l, f a = .ok () := by
  induction l with
  | nil => exact iff_of_true rfl (by simp)
  | cons a rest ih =>
    rw [List.forall_mem_cons, ← ih]
    show (f a >>= fun _ => rest.forM f) = .ok () ↔ _
    rw [bind_eq_ok]
    exact ⟨fun ⟨_, h₁, h₂⟩ => ⟨h₁, h₂⟩, fun ⟨h₁, h₂⟩ => ⟨(), h₁, h₂⟩⟩

theorem forM_eq_error {f : α → Except ε Unit} {l : List α} {e : ε} (h : l.forM f = .error e) :
    ∃ a ∈ l, f a = .error e := by
  induction l with
  | nil => cases h
  | cons a rest ih =>
    change (f a >>= fun _ => rest.forM f) = .error e at h
    cases ha : f a with
    | error e' =>
      rw [ha] at h
      obtain rfl : e' = e := Except.error.inj h
      exact ⟨a, List.mem_cons_self, ha⟩
    | ok u =>
      rw [ha, ok_bind] at h
      obtain ⟨a', ha', heq⟩ := ih h
      exact ⟨a', List.mem_cons_of_mem a ha', heq⟩

theorem mapM_succeeds {f : α → Except ε β} {l : List α} (h : ∀ a ∈ l, ∃ b, f a = .ok b) :
    ∃ bs, l.mapM f = .ok bs := by
  induction l with
  | nil => exact ⟨[], rfl⟩
  | cons a rest ih =>
    obtain ⟨b, hb⟩ := h a (List.mem_cons_self ..)
    obtain ⟨bs, hbs⟩ := ih fun a' ha' => h a' (List.mem_cons_of_mem a ha')
    exact ⟨b :: bs, by rw [List.mapM_cons, hb, ok_bind, hbs, ok_bind]; rfl⟩

theorem succeeds_of_mapM {f : α → Except ε β} {l : List α} {bs : List β} (h : l.mapM f = .ok bs) {a : α}
    (ha : a ∈ l) : ∃ b, f a = .ok b := by
  induction l generalizing bs with
  | nil => cases ha
  | cons a' rest ih =>
    rw [List.mapM_cons, bind_eq_ok] at h
    obtain ⟨b, hb, h⟩ := h
    obtain ⟨bs', hbs', -⟩ := bind_eq_ok.mp h
    rcases List.mem_cons.mp ha with rfl | ha
    · exact ⟨b, hb⟩
    · exact ih hbs' ha

theorem mem_of_mapM {f : α → Except ε β} {l : List α} {bs : List β} (h : l.mapM f = .ok bs) {b : β} :
    b ∈ bs ↔ ∃ a ∈ l, f a = .ok b := by
  induction l generalizing bs with
  | nil =>
    rw [List.mapM_nil, pure_eq_ok] at h
    simp [← h]
  | cons a rest ih =>
    rw [List.mapM_cons, bind_eq_ok] at h
    obtain ⟨b₀, hb₀, h⟩ := h
    obtain ⟨bs₀, hbs₀, h⟩ := bind_eq_ok.mp h
    rw [pure_eq_ok] at h
    rw [← h, List.mem_cons, ih hbs₀]
    constructor
    · rintro (rfl | ⟨a', ha', hb⟩)
      · exact ⟨a, List.mem_cons_self .., hb₀⟩
      · exact ⟨a', List.mem_cons_of_mem a ha', hb⟩
    · rintro ⟨a', ha', hb⟩
      rcases List.mem_cons.mp ha' with rfl | ha'
      · left
        rw [hb₀] at hb
        exact (Except.ok.inj hb).symm
      · exact Or.inr ⟨a', ha', hb⟩

end Backslice
