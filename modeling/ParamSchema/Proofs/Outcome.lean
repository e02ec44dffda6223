import Mathlib.Data.List.Forall2

/-!
Computations that may fail: when a sequence, an image or a list of them succeeds, and with what.
-/

namespace ParamSchema.Outcome

variable {ε α β : Type}

theorem bind_eq_ok {x : Except ε α} {f : α → Except ε β} {b : β} :
    x >>= f = .ok b ↔ ∃ a, x = .ok a ∧ f a = .ok b := by
  constructor
  · intro h
    cases x with
    | error e => cases h
    | ok a => exact ⟨a, rfl, h⟩
  · rintro ⟨a, rfl, h⟩
    exact h

theorem bind_eq_error {x : Except ε α} {f : α → Except ε β} {e : ε} :
    x >>= f = .error e ↔ x = .error e ∨ ∃ a, x = .ok a ∧ f a = .error e := by
  constructor
  · intro h
    cases x with
    | error e' => exact .inl (Except.error.inj h ▸ rfl)
    | ok a => exact .inr ⟨a, rfl, h⟩
  · rintro (rfl | ⟨a, rfl, h⟩)
    · rfl
    · exact h

theorem bind_eq_error_of_ne {x : Except ε α} {f : α → Except ε β} {e : ε}
    (never : ∀ a, f a ≠ .error e) : x >>= f = .error e ↔ x = .error e := by
  rw [bind_eq_error]
  constructor
  · rintro (h | ⟨a, _, h⟩)
    · exact h
    · exact absurd h (never a)
  · exact .inl

theorem map_eq_ok {x : Except ε α} {f : α → β} {b : β} :
    f <$> x = .ok b ↔ ∃ a, x = .ok a ∧ f a = b := by
  constructor
  · intro h
    cases x with
    | error e => cases h
    | ok a => exact ⟨a, rfl, Except.ok.inj h⟩
  · rintro ⟨a, rfl, rfl⟩
    rfl

theorem map_eq_error {x : Except ε α} {f : α → β} {e : ε} :
    f <$> x = .error e ↔ x = .error e := by
  constructor
  · intro h
    cases x with
    | error e' => exact Except.error.inj h ▸ rfl
    | ok a => cases h
  · rintro rfl
    rfl

theorem pure_eq_ok {a b : α} : (pure a : Except ε α) = .ok b ↔ a = b :=
  ⟨Except.ok.inj, congrArg _⟩

/-- A list of computations succeeds when each does. -/
theorem mapM_eq_ok {f : α → Except ε β} {l : List α} {l' : List β} :
    l.mapM f = .ok l' ↔ List.Forall₂ (fun a b => f a = .ok b) l l' := by
  induction l generalizing l' with
  | nil => rw [List.mapM_nil, pure_eq_ok, List.forall₂_nil_left_iff, eq_comm]
  | cons a l ih =>
    simp only [List.mapM_cons, bind_eq_ok, pure_eq_ok, List.forall₂_cons_left_iff, ih]
    constructor
    · rintro ⟨b, hb, bs, hbs, rfl⟩
      exact ⟨b, bs, hb, hbs, rfl⟩
    · rintro ⟨b, bs, hb, hbs, rfl⟩
      exact ⟨b, hb, bs, hbs, rfl⟩

theorem mem_of_mapM_eq_ok {f : α → Except ε β} {l : List α} {l' : List β} (h : l.mapM f = .ok l')
    (b : β) : b ∈ l' ↔ ∃ a ∈ l, f a = .ok b := by
  have pairs := mapM_eq_ok.mp h
  clear h
  induction pairs with
  | nil => simp
  | cons first _ ih => simp [ih, first, eq_comm]

/-- Outcomes are all good when they are those of a list of values. -/
theorem mapM_id_eq_ok {l : List (Except ε α)} {l' : List α} :
    l.mapM id = .ok l' ↔ l = l'.map .ok := by
  rw [mapM_eq_ok]
  constructor
  · intro pairs
    induction pairs with
    | nil => rfl
    | cons first _ ih => rw [List.map_cons, ← ih, ← show _ = _ from first, id]
  · rintro rfl
    induction l' with
    | nil => exact .nil
    | cons a l' ih => exact .cons rfl ih

theorem exists_ok_of_mapM {f : α → Except ε β} {l : List α} {l' : List β} (h : l.mapM f = .ok l')
    {a : α} (ha : a ∈ l) : ∃ b ∈ l', f a = .ok b := by
  have pairs := mapM_eq_ok.mp h
  clear h
  induction pairs with
  | nil => cases ha
  | cons first _ ih =>
    rcases List.mem_cons.mp ha with rfl | ha
    · exact ⟨_, List.mem_cons_self, first⟩
    · obtain ⟨b, hb, found⟩ := ih ha
      exact ⟨b, List.mem_cons_of_mem _ hb, found⟩

theorem mapM_append_eq_ok {f : α → Except ε β} {xs ys : List α} {bs : List β}
    (h : (xs ++ ys).mapM f = .ok bs) :
    ∃ bs₁ bs₂, xs.mapM f = .ok bs₁ ∧ ys.mapM f = .ok bs₂ ∧ bs = bs₁ ++ bs₂ := by
  rw [List.mapM_append] at h
  obtain ⟨bs₁, h₁, h⟩ := bind_eq_ok.mp h
  obtain ⟨bs₂, h₂, h⟩ := bind_eq_ok.mp h
  exact ⟨bs₁, bs₂, h₁, h₂, (pure_eq_ok.mp h).symm⟩

/-- A list of computations fails as one of them does. -/
theorem exists_of_mapM_eq_error {f : α → Except ε β} {l : List α} {e : ε}
    (h : l.mapM f = .error e) : ∃ a ∈ l, f a = .error e := by
  induction l with
  | nil => cases h
  | cons a l ih =>
    rw [List.mapM_cons] at h
    rcases bind_eq_error.mp h with h | ⟨b, _, h⟩
    · exact ⟨a, List.mem_cons_self, h⟩
    · rcases bind_eq_error.mp h with h | ⟨bs, _, h⟩
      · obtain ⟨a', ha', h⟩ := ih h
        exact ⟨a', List.mem_cons_of_mem _ ha', h⟩
      · cases h

/-- A list of computations fails when one of them does. -/
theorem exists_mapM_eq_error_iff {f : α → Except ε β} {l : List α} :
    (∃ e, l.mapM f = .error e) ↔ ∃ a ∈ l, ∃ e, f a = .error e := by
  constructor
  · rintro ⟨e, h⟩
    obtain ⟨a, ha, failure⟩ := exists_of_mapM_eq_error h
    exact ⟨a, ha, e, failure⟩
  · rintro ⟨a, ha, e, failure⟩
    cases result : l.mapM f with
    | error e' => exact ⟨e', rfl⟩
    | ok l' =>
      obtain ⟨b, _, found⟩ := exists_ok_of_mapM result ha
      rw [failure] at found
      cases found

end ParamSchema.Outcome
