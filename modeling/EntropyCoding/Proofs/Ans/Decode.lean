import EntropyCoding.Proofs.Ans.State

/-!
# Decoding takes bits

A decoding action works on a state and a reader.  It `Takes` given bits from a given state if,
wherever it finds them, it passes exactly them, gives the same result and leaves the same state.
Taking a symbol off the state is such an action for each step of the coder, `takes_popSymbol`, and
whenever it succeeds there is such a step, `exists_step_of_popSymbol`.
-/

namespace EntropyCoding

namespace Decode

variable {α β : Type}

/-- From state `s` the action succeeds wherever it finds `bits`, passes them, gives `a` and leaves
state `s'`. -/
def Takes (action : Decode α) (s : Nat) (bits : List Bool) (a : α) (s' : Nat) : Prop :=
  ∀ ⦃r r' : BitReader⦄, r.Passes bits r' → action ⟨s, r⟩ = .ok a ⟨s', r'⟩

theorem takes_pure (a : α) (s : Nat) : Takes (pure a) s [] a s := by
  intro r r' h
  rw [h.eq_of_nil]
  rfl

theorem Takes.bind {x : Decode α} {f : α → Decode β} {s s₁ s₂ : Nat} {bits bits' : List Bool}
    {a : α} {b : β} (hx : Takes x s bits a s₁) (hf : Takes (f a) s₁ bits' b s₂) :
    Takes (x >>= f) s (bits ++ bits') b s₂ := by
  intro r r₂ h
  obtain ⟨r₁, h₁, h₂⟩ := h.split
  exact bind_eq_ok_iff.2 ⟨a, _, hx h₁, hf h₂⟩

theorem Takes.bind_nil {x : Decode α} {f : α → Decode β} {s s₁ s₂ : Nat} {bits : List Bool}
    {a : α} {b : β} (hx : Takes x s [] a s₁) (hf : Takes (f a) s₁ bits b s₂) :
    Takes (x >>= f) s bits b s₂ :=
  hx.bind hf

theorem Takes.mapM_cons {f : α → Decode β} {a : α} {as : List α} {s s₁ s₂ : Nat}
    {bits bits' : List Bool} {b : β} {bs : List β} (h : Takes (f a) s bits b s₁)
    (hs : Takes (as.mapM f) s₁ bits' bs s₂) :
    Takes ((a :: as).mapM f) s (bits ++ bits') (b :: bs) s₂ := by
  intro r r₂ hr
  obtain ⟨r₁, h₁, h₂⟩ := hr.split
  exact mapM_cons_eq_ok_iff.2 ⟨b, _, bs, h h₁, hs h₂, rfl⟩

theorem takes_ofExcept {x : Except Error α} {a : α} (h : x = .ok a) (s : Nat) :
    Takes (ofExcept x) s [] a s := by
  subst h
  exact takes_pure a s

/-- Reading succeeds if the reader does, and leaves the state alone. -/
theorem lift_eq_ok_iff {action : BitRead α} {c c' : Cursor} {a : α} :
    lift action c = .ok a c' ↔ action c.reader = .ok a c'.reader ∧ c'.state = c.state := by
  unfold lift
  obtain ⟨s', r'⟩ := c'
  cases action c.reader with
  | ok b r =>
    constructor
    · intro h
      cases h
      exact ⟨rfl, rfl⟩
    · rintro ⟨h, hs⟩
      cases h
      cases hs
      rfl
  | error e r =>
    constructor
    · intro h
      cases h
    · rintro ⟨h, -⟩
      cases h

theorem takes_lift {action : BitRead α} {bits : List Bool} {a : α}
    (h : BitRead.Takes action bits a) (s : Nat) : Takes (lift action) s bits a s :=
  fun _ _ hr ↦ lift_eq_ok_iff.2 ⟨h hr, rfl⟩

theorem Takes.runFrom {action : Decode α} {s s' : Nat} {bits : List Bool} {a : α}
    (h : Takes action s bits a s') : BitRead.Takes (runFrom s action) bits (a, s') := by
  intro r r' hr
  rw [Decode.runFrom, h hr]

/-- Decoding from a state succeeds if the action does. -/
theorem runFrom_eq_ok_iff {action : Decode α} {s s' : Nat} {a : α} {r r' : BitReader} :
    runFrom s action r = .ok (a, s') r' ↔ action ⟨s, r⟩ = .ok a ⟨s', r'⟩ := by
  unfold runFrom
  cases action ⟨s, r⟩ with
  | ok b c =>
    constructor
    · intro h
      cases h
      rfl
    · intro h
      cases h
      rfl
  | error e c =>
    constructor
    · intro h
      cases h
    · intro h
      cases h

/-! ## Symbols -/

/-- Refilling reads a chunk exactly if the state is too small. -/
theorem refill_apply (y : Nat) (r : BitReader) :
    refill ⟨y, r⟩ =
      if y < leastState then
        (lift (BitRead.read 16) >>= fun chunk ↦
          modify fun c ↦ { c with state := c.state * 2 ^ 16 + chunk } : Decode Unit) ⟨y, r⟩
      else .ok () ⟨y, r⟩ := by
  by_cases hy : y < leastState
  · rw [if_pos hy]
    exact congrFun (if_pos hy) (Cursor.mk y r)
  · rw [if_neg hy]
    exact congrFun (if_neg hy) (Cursor.mk y r)

theorem popSymbol_apply (t : AnsTable) (z : Nat) (r : BitReader) :
    popSymbol t ⟨z, r⟩ = (refill >>= fun _ ↦ pure (t.pop z).1 : Decode Nat) ⟨(t.pop z).2, r⟩ :=
  rfl

/-- The bits of a chunk are taken back if one is due. -/
theorem takes_refill {y : Nat} {chunk : Option Nat} (hsome : chunk.isSome ↔ y < leastState)
    (hlt : ∀ c ∈ chunk, c < 2 ^ 16) :
    Takes refill y (fieldBits (chunkFields chunk)) () (refilled y chunk) := by
  intro r r' h
  rw [refill_apply]
  cases chunk with
  | none =>
    have hge : ¬ y < leastState := fun hy ↦ by cases hsome.2 hy
    rw [if_neg hge, h.eq_of_nil]
    rfl
  | some c =>
    rw [if_pos (hsome.1 rfl)]
    have hc : c < 2 ^ 16 := hlt c rfl
    have hbits : fieldBits (chunkFields (some c)) = lowBits 16 c := by
      simp [chunkFields, Field.bits]
    rw [hbits] at h
    exact bind_eq_ok_iff.2 ⟨c, ⟨y, r'⟩, takes_lift (BitRead.takes_read hc) y h, rfl⟩

/-- Refilling succeeds only if the bits of the chunk due stand there. -/
theorem exists_chunk_of_refill {y x : Nat} {r r' : BitReader} (hr : r.pos ≤ r.length)
    (h : refill ⟨y, r⟩ = .ok () ⟨x, r'⟩) :
    ∃ chunk : Option Nat, (chunk.isSome ↔ y < leastState) ∧ (∀ c ∈ chunk, c < 2 ^ 16) ∧
      x = refilled y chunk ∧ r.Passes (fieldBits (chunkFields chunk)) r' := by
  rw [refill_apply] at h
  split at h
  · next hy =>
    obtain ⟨c, ⟨s, r₁⟩, hread, hmod⟩ := bind_eq_ok_iff.1 h
    obtain ⟨hread, hs⟩ := lift_eq_ok_iff.1 hread
    obtain ⟨hc, hpass⟩ := (BitRead.read_eq_ok_iff hr).1 hread
    cases hs
    cases hmod
    refine ⟨some c, ⟨fun _ ↦ hy, fun _ ↦ rfl⟩, ?_, rfl, ?_⟩
    · rintro _ ⟨⟩
      exact hc
    · simpa [chunkFields, Field.bits] using hpass
  · next hy =>
    cases h
    refine ⟨none, ?_, ?_, rfl, BitReader.Passes.refl hr⟩
    · constructor
      · intro h
        cases h
      · exact fun h ↦ absurd h hy
    · rintro _ ⟨⟩

/-- The symbol of a step is taken off, and its chunk is read. -/
theorem takes_popSymbol {t : AnsTable} (ht : t.Valid) {symbol y : Nat} {chunk : Option Nat}
    (h : t.Step symbol y chunk) :
    Takes (popSymbol t) (t.cover symbol y) (fieldBits (chunkFields chunk)) symbol
      (refilled y chunk) := by
  intro r r' hr
  rw [popSymbol_apply, h.toFits.pop_eq ht]
  exact bind_eq_ok_iff.2 ⟨(), _, takes_refill h.isSome_iff h.chunk_lt hr, rfl⟩

/-- Whenever a symbol is taken off a state there is a step with the bits passed. -/
theorem exists_step_of_popSymbol {t : AnsTable} (ht : t.Valid) {z x symbol : Nat}
    {r r' : BitReader} (hz : IsState z) (hr : r.pos ≤ r.length)
    (h : popSymbol t ⟨z, r⟩ = .ok symbol ⟨x, r'⟩) :
    ∃ y chunk, t.Step symbol y chunk ∧ z = t.cover symbol y ∧ x = refilled y chunk ∧
      r.Passes (fieldBits (chunkFields chunk)) r' := by
  rw [popSymbol_apply] at h
  obtain ⟨⟨⟩, c, hrefill, hpure⟩ := bind_eq_ok_iff.1 h
  obtain ⟨rfl, rfl⟩ := pure_eq_ok_iff.1 hpure
  obtain ⟨symbol, y, hfits, rfl⟩ := AnsTable.exists_fits_of_isState ht hz
  rw [hfits.pop_eq ht] at *
  obtain ⟨chunk, hsome, hlt, hx, hpass⟩ := exists_chunk_of_refill hr hrefill
  exact ⟨y, chunk, ⟨hfits, hsome, hlt⟩, rfl, hx, hpass⟩

end Decode

/-- The state that decoding starts from is read if its bits stand there. -/
theorem readState_eq_ok_iff {s : Nat} {r r' : BitReader} (hr : r.pos ≤ r.length) :
    readState r = .ok s r' ↔ IsState s ∧ r.Passes (fieldBits [⟨s, 32⟩]) r' := by
  have hbits : fieldBits [⟨s, 32⟩] = lowBits 32 s := by
    simp [Field.bits]
  rw [readState, bind_eq_ok_iff, hbits]
  constructor
  · rintro ⟨state, r₁, hread, h⟩
    split at h
    · cases h
    · next hge =>
      obtain ⟨rfl, rfl⟩ := pure_eq_ok_iff.1 h
      obtain ⟨hlt, hpass⟩ := (BitRead.read_eq_ok_iff hr).1 hread
      exact ⟨⟨Nat.not_lt.1 hge, hlt⟩, hpass⟩
  · rintro ⟨hs, hpass⟩
    refine ⟨s, r', (BitRead.read_eq_ok_iff hr).2 ⟨hs.lt, hpass⟩, ?_⟩
    rw [if_neg (Nat.not_lt.2 hs.le)]
    rfl

end EntropyCoding
