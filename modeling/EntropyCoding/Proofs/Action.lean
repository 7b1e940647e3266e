import EntropyCoding.Error

/-!
# Actions that succeed

Reading, writing, counting and decoding are actions on a state that give a result or an error.
The lemmas here take a successful action apart: `bind_eq_ok_iff` for one action after another,
`mapM_cons_eq_ok_iff` and `forM_cons_eq_ok_iff` for an action repeated along a list.  The first
ones do the same for a result or an error without a state.
-/

namespace EntropyCoding

variable {σ α β : Type}

/-! ## Results and errors -/

namespace Except

/-- One result after another is there if both are. -/
theorem bind_eq_ok_iff {x : Except Error α} {f : α → Except Error β} {b : β} :
    (x >>= f) = .ok b ↔ ∃ a, x = .ok a ∧ f a = .ok b := by
  cases x with
  | ok a =>
    constructor
    · exact fun h ↦ ⟨a, rfl, h⟩
    · rintro ⟨a, h, hf⟩
      cases h
      exact hf
  | error e =>
    constructor
    · intro h
      cases h
    · rintro ⟨a, h, -⟩
      cases h

theorem map_eq_ok_iff {f : α → β} {x : Except Error α} {b : β} :
    (f <$> x) = .ok b ↔ ∃ a, x = .ok a ∧ f a = b := by
  rw [← bind_pure_comp, bind_eq_ok_iff]
  exact exists_congr fun a ↦ and_congr_right' (Except.ok.injEq (f a) b ▸ Iff.rfl)

/-- One result after another fails if one of them does. -/
theorem bind_eq_error_iff {x : Except Error α} {f : α → Except Error β} {e : Error} :
    (x >>= f) = .error e ↔ x = .error e ∨ ∃ a, x = .ok a ∧ f a = .error e := by
  cases x with
  | ok a =>
    constructor
    · exact fun h ↦ .inr ⟨a, rfl, h⟩
    · rintro (h | ⟨a, ⟨⟩, hf⟩)
      · cases h
      · exact hf
  | error e' =>
    constructor
    · rintro ⟨⟩
      exact .inl rfl
    · rintro (⟨⟨⟩⟩ | ⟨a, h, -⟩)
      · rfl
      · cases h

/-- Results along a list: the first element, then the others. -/
theorem mapM_cons_eq_ok_iff {f : α → Except Error β} {a : α} {as : List α} {bs : List β} :
    (a :: as).mapM f = .ok bs ↔ ∃ b bs', f a = .ok b ∧ as.mapM f = .ok bs' ∧ bs = b :: bs' := by
  rw [List.mapM_cons, bind_eq_ok_iff]
  constructor
  · rintro ⟨b, hb, h⟩
    obtain ⟨bs', hbs, h⟩ := bind_eq_ok_iff.1 h
    cases h
    exact ⟨b, bs', hb, hbs, rfl⟩
  · rintro ⟨b, bs', hb, hbs, rfl⟩
    exact ⟨b, hb, bind_eq_ok_iff.2 ⟨bs', hbs, rfl⟩⟩

end Except

/-! ## Actions -/

theorem pure_eq_ok_iff {a b : α} {s s' : σ} :
    (pure a : EStateM Error σ α) s = .ok b s' ↔ a = b ∧ s = s' :=
  EStateM.Result.ok.injEq a s b s' ▸ Iff.rfl

/-- One action after another succeeds if both do. -/
theorem bind_eq_ok_iff {x : EStateM Error σ α} {f : α → EStateM Error σ β} {s s' : σ} {b : β} :
    (x >>= f) s = .ok b s' ↔ ∃ a s₁, x s = .ok a s₁ ∧ f a s₁ = .ok b s' := by
  show EStateM.bind x f s = _ ↔ _
  unfold EStateM.bind
  cases x s with
  | ok a s₁ =>
    constructor
    · exact fun h ↦ ⟨a, s₁, rfl, h⟩
    · rintro ⟨a, s₁, h, hf⟩
      cases h
      exact hf
  | error e s₁ =>
    constructor
    · intro h
      cases h
    · rintro ⟨a, s₁, h, -⟩
      cases h

theorem bind_of_ok {ε : Type} {x : EStateM ε σ α} {s s₁ : σ} {a : α} (h : x s = .ok a s₁)
    (f : α → EStateM ε σ β) : (x >>= f) s = f a s₁ := by
  show EStateM.bind x f s = _
  rw [EStateM.bind, h]

theorem bind_of_error {ε : Type} {x : EStateM ε σ α} {s s₁ : σ} {e : ε} (h : x s = .error e s₁)
    (f : α → EStateM ε σ β) : (x >>= f) s = .error e s₁ := by
  show EStateM.bind x f s = _
  rw [EStateM.bind, h]

/-- An action whose result is changed succeeds if the action does. -/
theorem map_eq_ok_iff {f : α → β} {x : EStateM Error σ α} {s s' : σ} {b : β} :
    (f <$> x) s = .ok b s' ↔ ∃ a, x s = .ok a s' ∧ f a = b := by
  rw [← bind_pure_comp, bind_eq_ok_iff]
  constructor
  · rintro ⟨a, s₁, hx, h⟩
    obtain ⟨rfl, rfl⟩ := pure_eq_ok_iff.1 h
    exact ⟨a, hx, rfl⟩
  · rintro ⟨a, hx, rfl⟩
    exact ⟨a, s', hx, rfl⟩

/-- A result or an error taken over: the state stays. -/
theorem ofExcept_eq_ok_iff {x : Except Error α} {s s' : σ} {a : α} :
    (ofExcept x : EStateM Error σ α) s = .ok a s' ↔ x = .ok a ∧ s = s' := by
  cases x with
  | ok b => exact pure_eq_ok_iff.trans (and_congr_left' (Except.ok.injEq b a ▸ Iff.rfl))
  | error e =>
    constructor
    · intro h
      cases h
    · rintro ⟨h, -⟩
      cases h

theorem mapM_nil_eq_ok_iff {f : α → EStateM Error σ β} {s s' : σ} {bs : List β} :
    ([].mapM f) s = .ok bs s' ↔ bs = [] ∧ s = s' := by
  rw [List.mapM_nil, pure_eq_ok_iff, eq_comm]

/-- An action repeated along a list: the first element, then the others. -/
theorem mapM_cons_eq_ok_iff {f : α → EStateM Error σ β} {a : α} {as : List α} {s s' : σ}
    {bs : List β} :
    ((a :: as).mapM f) s = .ok bs s' ↔
      ∃ b s₁ bs', f a s = .ok b s₁ ∧ (as.mapM f) s₁ = .ok bs' s' ∧ bs = b :: bs' := by
  rw [List.mapM_cons, bind_eq_ok_iff]
  constructor
  · rintro ⟨b, s₁, hb, h⟩
    obtain ⟨bs', s₂, hbs, h⟩ := bind_eq_ok_iff.1 h
    obtain ⟨rfl, rfl⟩ := pure_eq_ok_iff.1 h
    exact ⟨b, s₁, bs', hb, hbs, rfl⟩
  · rintro ⟨b, s₁, bs', hb, hbs, rfl⟩
    exact ⟨b, s₁, hb, bind_eq_ok_iff.2 ⟨bs', s', hbs, rfl⟩⟩

/-- An action repeated along a list succeeds at each element. -/
theorem exists_of_mapM_eq_ok {f : α → EStateM Error σ β} {as : List α} {bs : List β} {s s' : σ}
    (h : (as.mapM f) s = .ok bs s') {i : Nat} {a : α} (hget : as[i]? = some a) :
    ∃ b s₁ s₂, bs[i]? = some b ∧ f a s₁ = .ok b s₂ := by
  induction as generalizing bs s i with
  | nil => cases hget
  | cons a' as ih =>
    obtain ⟨b, s₁, bs, hb, hbs, rfl⟩ := mapM_cons_eq_ok_iff.1 h
    cases i with
    | zero =>
      cases hget
      exact ⟨b, s, s₁, rfl, hb⟩
    | succ i => exact ih hbs hget

/-- An action without result repeated along a list. -/
theorem forM_cons_eq_ok_iff {f : α → EStateM Error σ Unit} {a : α} {as : List α} {s s' : σ} :
    ((a :: as).forM f) s = .ok () s' ↔ ∃ s₁, f a s = .ok () s₁ ∧ (as.forM f) s₁ = .ok () s' := by
  show (f a >>= fun _ ↦ as.forM f) s = _ ↔ _
  rw [bind_eq_ok_iff]
  constructor
  · rintro ⟨_, s₁, h⟩
    exact ⟨s₁, h⟩
  · rintro ⟨s₁, h⟩
    exact ⟨(), s₁, h⟩

/-- An action repeated along two lists, one after the other. -/
theorem forM_append_eq_ok_iff {f : α → EStateM Error σ Unit} {as bs : List α} {s s' : σ} :
    ((as ++ bs).forM f) s = .ok () s' ↔
      ∃ s₁, (as.forM f) s = .ok () s₁ ∧ (bs.forM f) s₁ = .ok () s' := by
  rw [List.forM_eq_forM, List.forM_append, bind_eq_ok_iff]
  constructor
  · rintro ⟨_, s₁, h⟩
    exact ⟨s₁, h⟩
  · rintro ⟨s₁, h⟩
    exact ⟨(), s₁, h⟩

/-! ## Errors -/

/-- One action after another fails if one of them does. -/
theorem bind_eq_error_iff {x : EStateM Error σ α} {f : α → EStateM Error σ β} {s s' : σ}
    {e : Error} : (x >>= f) s = .error e s' ↔
      x s = .error e s' ∨ ∃ a s₁, x s = .ok a s₁ ∧ f a s₁ = .error e s' := by
  cases hx : x s with
  | ok a s₁ =>
    rw [bind_of_ok hx]
    constructor
    · exact fun h ↦ .inr ⟨a, s₁, rfl, h⟩
    · rintro (h | ⟨a, s₁, ⟨⟩, hf⟩)
      · cases h
      · exact hf
  | error e₁ s₁ =>
    rw [bind_of_error hx]
    constructor
    · rintro ⟨⟩
      exact .inl rfl
    · rintro (⟨⟨⟩⟩ | ⟨a, s₁, h, -⟩)
      · rfl
      · cases h

theorem map_eq_error_iff {f : α → β} {x : EStateM Error σ α} {s s' : σ} {e : Error} :
    (f <$> x) s = .error e s' ↔ x s = .error e s' := by
  rw [← bind_pure_comp, bind_eq_error_iff]
  constructor
  · rintro (h | ⟨a, s₁, -, h⟩)
    · exact h
    · cases h
  · exact fun h ↦ .inl h

/-- An error taken over: the state stays. -/
theorem ofExcept_eq_error_iff {x : Except Error α} {s s' : σ} {e : Error} :
    (ofExcept x : EStateM Error σ α) s = .error e s' ↔ x = .error e ∧ s = s' := by
  cases x with
  | ok a =>
    constructor
    · intro h
      cases h
    · rintro ⟨h, -⟩
      cases h
  | error e' =>
    constructor
    · rintro ⟨⟩
      exact ⟨rfl, rfl⟩
    · rintro ⟨⟨⟩, rfl⟩
      rfl

/-- An action repeated along a list fails at one of the elements. -/
theorem exists_of_mapM_eq_error {f : α → EStateM Error σ β} {as : List α} {s s' : σ} {e : Error}
    (h : (as.mapM f) s = .error e s') : ∃ a ∈ as, ∃ s₁, f a s₁ = .error e s' := by
  induction as generalizing s with
  | nil => cases h
  | cons a as ih =>
    rw [List.mapM_cons] at h
    rcases bind_eq_error_iff.1 h with h | ⟨b, s₁, -, h⟩
    · exact ⟨a, List.mem_cons_self, s, h⟩
    · rcases bind_eq_error_iff.1 h with h | ⟨bs, s₂, -, h⟩
      · obtain ⟨a', hmem, s₂, hone⟩ := ih h
        exact ⟨a', List.mem_cons_of_mem _ hmem, s₂, hone⟩
      · cases h

/-- Every error of the action is of one kind. -/
def FailsWith (P : Error → Prop) (action : EStateM Error σ α) : Prop :=
  ∀ ⦃s e s'⦄, action s = .error e s' → P e

variable {P : Error → Prop}

theorem failsWith_pure (a : α) : FailsWith P (pure a : EStateM Error σ α) :=
  fun _ _ _ h ↦ nomatch h

theorem failsWith_throw {e : Error} (h : P e) : FailsWith P (throw e : EStateM Error σ α) := by
  rintro s _ s' ⟨⟩
  exact h

theorem failsWith_ofExcept {x : Except Error α} (h : ∀ e, x = .error e → P e) :
    FailsWith P (ofExcept x : EStateM Error σ α) := by
  cases x with
  | ok a => exact failsWith_pure a
  | error e => exact failsWith_throw (h e rfl)

/-- One action after another. -/
theorem FailsWith.bind {x : EStateM Error σ α} {f : α → EStateM Error σ β} (hx : FailsWith P x)
    (hf : ∀ ⦃a s s₁⦄, x s = .ok a s₁ → FailsWith P (f a)) : FailsWith P (x >>= f) := by
  intro s e s' h
  rcases bind_eq_error_iff.1 h with h | ⟨a, s₁, hs, h⟩
  · exact hx h
  · exact hf hs h

end EntropyCoding
