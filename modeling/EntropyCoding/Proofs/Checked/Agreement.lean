import EntropyCoding.Proofs.Bits.Reader
import EntropyCoding.Proofs.Checked.Arithmetic

/-!
# Checked actions that agree

A checked action `Agrees` with one of the library if from every state that satisfies an invariant it
does the same: it gives the same result or the same error and leaves the same state, which again
satisfies the invariant, also after an error.  Since the library has no faults, a checked action that
agrees with one of its actions has none either, and neither has what is done next, whether the action
has failed or not.

Actions one after another agree if each does, `AgreesAt.bind`; what the first one gives may be used
for the second.  An operation on numbers that passes its test is left out, `AgreesAt.step`.
-/

namespace EntropyCoding

namespace Checked

variable {σ α β : Type}

/-- An action of the library as a checked one; it has no fault. -/
def embed (action : EStateM Error σ α) : Checked σ α := fun s ↦
  match action s with
  | .ok a s' => .ok a s'
  | .error e s' => .error (.error e) s'

theorem embed_of_ok {action : EStateM Error σ α} {s s' : σ} {a : α} (h : action s = .ok a s') :
    embed action s = .ok a s' := by
  rw [embed, h]

theorem embed_of_error {action : EStateM Error σ α} {s s' : σ} {e : Error}
    (h : action s = .error e s') : embed action s = .error (.error e) s' := by
  rw [embed, h]

/-- A result or an error of the library as one of a checked program. -/
def embedExcept (x : Except Error α) : Except Stop α :=
  x.mapError .error

theorem embedExcept_eq_ok_iff {x : Except Error α} {a : α} : embedExcept x = .ok a ↔ x = .ok a := by
  cases x with
  | ok b => exact ⟨fun h ↦ congrArg _ (Except.ok.inj h), fun h ↦ congrArg _ (Except.ok.inj h)⟩
  | error e => exact iff_of_false nofun nofun

theorem exists_of_embedExcept_eq_error {x : Except Error α} {stop : Stop}
    (h : embedExcept x = .error stop) : ∃ e, stop = .error e := by
  cases x with
  | ok a => cases h
  | error e => exact ⟨e, (Except.error.inj h).symm⟩

/-- From `s` the checked action does what the other one does, and the invariant holds afterwards. -/
structure AgreesAt (I : σ → Prop) (checked : Checked σ α) (action : EStateM Error σ α) (s : σ) :
    Prop where
  /-- Both actions do the same. -/
  eq : checked s = embed action s
  /-- A result leaves the invariant. -/
  of_ok : ∀ ⦃a s'⦄, action s = .ok a s' → I s'
  /-- So does an error. -/
  of_error : ∀ ⦃e s'⦄, action s = .error e s' → I s'

/-- The checked action does what the other one does wherever the invariant holds, and leaves it. -/
def Agrees (I : σ → Prop) (checked : Checked σ α) (action : EStateM Error σ α) : Prop :=
  ∀ ⦃s⦄, I s → AgreesAt I checked action s

variable {I : σ → Prop}

/-- Both actions give the same result. -/
theorem agreesAt_of_ok {checked : Checked σ α} {action : EStateM Error σ α} {s s' : σ} {a : α}
    (h' : checked s = .ok a s') (h : action s = .ok a s') (hs' : I s') :
    AgreesAt I checked action s where
  eq := h'.trans (embed_of_ok h).symm
  of_ok b s'' hb := by
    rw [h] at hb
    cases hb
    exact hs'
  of_error e s'' he := by
    rw [h] at he
    cases he

/-- Both actions give the same error. -/
theorem agreesAt_of_error {checked : Checked σ α} {action : EStateM Error σ α} {s s' : σ} {e : Error}
    (h' : checked s = .error (.error e) s') (h : action s = .error e s') (hs' : I s') :
    AgreesAt I checked action s where
  eq := h'.trans (embed_of_error h).symm
  of_ok a s'' ha := by
    rw [h] at ha
    cases ha
  of_error e' s'' he := by
    rw [h] at he
    cases he
    exact hs'

theorem agrees_pure (a : α) : Agrees I (pure a) (pure a) :=
  fun _ hs ↦ agreesAt_of_ok rfl rfl hs

theorem agrees_throw (e : Error) :
    Agrees I (throw (.error e) : Checked σ α) (throw e : EStateM Error σ α) :=
  fun _ hs ↦ agreesAt_of_error rfl rfl hs

theorem agrees_liftM {x' : Except Stop α} {x : Except Error α} (h : x' = embedExcept x) :
    Agrees I (liftM x' : Checked σ α) (ofExcept x) := by
  subst h
  cases x with
  | ok a => exact agrees_pure a
  | error e => exact agrees_throw e

theorem AgreesAt.of_eq {checked checked' : Checked σ α} {action action' : EStateM Error σ α}
    {s s' : σ} (hc : checked s = checked' s') (ha : action s = action' s')
    (h : AgreesAt I checked' action' s') : AgreesAt I checked action s where
  eq := by rw [hc, h.eq, embed, embed, ha]
  of_ok _ _ hok := h.of_ok (ha.symm.trans hok)
  of_error _ _ herror := h.of_error (ha.symm.trans herror)

/-- One action after another, the second where the first has led to. -/
theorem AgreesAt.bind {x' : Checked σ α} {x : EStateM Error σ α} {f' : α → Checked σ β}
    {f : α → EStateM Error σ β} {s : σ} (hx : AgreesAt I x' x s)
    (hf : ∀ ⦃a s₁⦄, x s = .ok a s₁ → I s₁ → AgreesAt I (f' a) (f a) s₁) :
    AgreesAt I (x' >>= f') (x >>= f) s := by
  cases h : x s with
  | ok a s₁ =>
    have heq := hx.eq.trans (embed_of_ok h)
    exact .of_eq (bind_of_ok heq f') (bind_of_ok h f) (hf h (hx.of_ok h))
  | error e s₁ =>
    have heq := hx.eq.trans (embed_of_error h)
    exact agreesAt_of_error (bind_of_error heq f') (bind_of_error h f) (hx.of_error h)

/-- One action after another. -/
theorem Agrees.bind {x' : Checked σ α} {x : EStateM Error σ α} {f' : α → Checked σ β}
    {f : α → EStateM Error σ β} (hx : Agrees I x' x)
    (hf : ∀ ⦃a s s₁⦄, I s → x s = .ok a s₁ → Agrees I (f' a) (f a)) :
    Agrees I (x' >>= f') (x >>= f) :=
  fun _ hs ↦ (hx hs).bind fun _ _ hok h₁ ↦ hf hs hok h₁

theorem Agrees.map {x' : Checked σ α} {x : EStateM Error σ α} (hx : Agrees I x' x) (f : α → β) :
    Agrees I (f <$> x') (f <$> x) := by
  rw [← bind_pure_comp, ← bind_pure_comp]
  exact hx.bind fun a _ _ _ _ ↦ agrees_pure (f a)

/-- One action after another, where the result of the first one has another form. -/
theorem Agrees.bind_map {γ : Type} {x' : Checked σ γ} {x : EStateM Error σ α} {view : α → γ}
    {f' : γ → Checked σ β} {f : α → EStateM Error σ β} (hx : Agrees I x' (view <$> x))
    (hf : ∀ ⦃a s s₁⦄, I s → x s = .ok a s₁ → Agrees I (f' (view a)) (f a)) :
    Agrees I (x' >>= f') (x >>= f) := by
  intro s hs
  have hxs := hx hs
  cases h : x s with
  | ok a s₁ =>
    have hview : (view <$> x) s = .ok (view a) s₁ := map_eq_ok_iff.2 ⟨a, h, rfl⟩
    have heq := hxs.eq.trans (embed_of_ok hview)
    exact .of_eq (bind_of_ok heq f') (bind_of_ok h f) (hf hs h (hxs.of_ok hview))
  | error e s₁ =>
    have hview : (view <$> x) s = .error e s₁ := by
      rw [← bind_pure_comp, bind_of_error h]
    have heq := hxs.eq.trans (embed_of_error hview)
    exact agreesAt_of_error (bind_of_error heq f') (bind_of_error h f) (hxs.of_error hview)

/-- A checked result that is there is handed on. -/
theorem AgreesAt.step {x : Except Stop α} {a : α} (h : x = .ok a) {f : α → Checked σ β}
    {action : EStateM Error σ β} {s : σ} (hf : AgreesAt I (f a) action s) :
    AgreesAt I (liftM x >>= f) action s :=
  ⟨(lift_bind h f s).trans hf.eq, hf.of_ok, hf.of_error⟩

/-- A checked result that is there is handed on. -/
theorem Agrees.step {x : Except Stop α} {a : α} (h : x = .ok a) {f : α → Checked σ β}
    {action : EStateM Error σ β} (hf : Agrees I (f a) action) :
    Agrees I (liftM x >>= f) action :=
  fun _ hs ↦ (hf hs).step h

end Checked

end EntropyCoding
