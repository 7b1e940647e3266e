import EntropyCoding.Proofs.Ans.Decode
import EntropyCoding.Proofs.Checked.Code
import EntropyCoding.Proofs.Checked.Split
import EntropyCoding.Segment.Decode

/-!
# Checked decoding

Taking a symbol off a state looks up its slot and then its first slot; the state below is not larger
than the one before, whatever that is, so it has 32 bits also if a chunk that was due could not be
read and the state has been left too small.  This is `Checked.pop_eq` and `Checked.agrees_popSymbol`.
-/

namespace EntropyCoding

namespace Checked

/-! ## The place of a decoder -/

/-- The state has 32 bits, and the reader has not passed the end. -/
structure Bounded (c : Cursor) : Prop where
  /-- The state has 32 bits. -/
  state_lt : c.state < 2 ^ 32
  /-- The reader has not passed the end. -/
  inside : c.reader.Inside

variable {α : Type}

def lift (action : Checked BitReader α) : Checked Cursor α := fun c ↦
  match action c.reader with
  | .ok a reader => .ok a { c with reader }
  | .error e reader => .error e { c with reader }

def runFrom (state : Nat) (action : Checked Cursor α) : Checked BitReader (α × Nat) := fun reader ↦
  match action { state, reader } with
  | .ok a c => .ok (a, c.state) c.reader
  | .error e c => .error e c.reader

/-- Reading leaves the state alone. -/
theorem agrees_lift {x' : Checked BitReader α} {x : BitRead α} (h : Agrees BitReader.Inside x' x) :
    Agrees Bounded (lift x') (Decode.lift x) := by
  intro c hc
  have hx := h hc.inside
  cases hread : x c.reader with
  | ok a r =>
    have hlift : Decode.lift x c = .ok a { c with reader := r } := by rw [Decode.lift, hread]
    refine agreesAt_of_ok ?_ hlift ⟨hc.state_lt, hx.of_ok hread⟩
    rw [lift, hx.eq, embed_of_ok hread]
  | error e r =>
    have hlift : Decode.lift x c = .error e { c with reader := r } := by rw [Decode.lift, hread]
    refine agreesAt_of_error ?_ hlift ⟨hc.state_lt, hx.of_error hread⟩
    rw [lift, hx.eq, embed_of_error hread]

/-- Decoding from a state of 32 bits. -/
theorem agrees_runFrom {x' : Checked Cursor α} {x : Decode α} (h : Agrees Bounded x' x) {state : Nat}
    (hstate : state < 2 ^ 32) :
    Agrees BitReader.Inside (runFrom state x') (Decode.runFrom state x) := by
  intro r hr
  have hx := h (Bounded.mk (c := ⟨state, r⟩) hstate hr)
  cases hrun : x ⟨state, r⟩ with
  | ok a c =>
    have hfrom : Decode.runFrom state x r = .ok (a, c.state) c.reader := by
      rw [Decode.runFrom, hrun]
    refine agreesAt_of_ok ?_ hfrom (hx.of_ok hrun).inside
    rw [runFrom, hx.eq, embed_of_ok hrun]
  | error e c =>
    have hfrom : Decode.runFrom state x r = .error e c.reader := by rw [Decode.runFrom, hrun]
    refine agreesAt_of_error ?_ hfrom (hx.of_error hrun).inside
    rw [runFrom, hx.eq, embed_of_error hrun]

/-! ## Symbols -/

/-- The symbol on top of a state, and the state below it before a chunk is taken back. -/
def pop (t : AnsTable) (state : Nat) : Except Stop (Nat × Nat) := do
  let size ← shiftLeft 32 1 t.precision
  let slot := state &&& (← sub size 1)
  let symbol ← item t.slots slot
  let quotient ← shiftRight 32 state t.precision
  let product ← mul 32 (t.freq symbol) quotient
  let below ← sub (← add 32 product slot) (← item t.starts symbol)
  .ok (symbol, below)

/-- Takes a chunk back if the state has become too small. -/
def refill : Checked Cursor Unit := do
  let c ← get
  if c.state < leastState then
    let high ← shiftLeft 32 c.state 16
    let chunk ← lift (read 16)
    modify fun c ↦ { c with state := high ||| chunk }

def popSymbol (t : AnsTable) : Checked Cursor Nat := do
  let (symbol, state) ← pop t (← get).state
  modify fun c ↦ { c with state }
  refill
  return symbol

def readState : Checked BitReader Nat := do
  let state ← read 32
  if state < leastState then throw (.error (.corruptState state))
  return state

theorem pop_le {t : AnsTable} (ht : t.Valid) (state : Nat) :
    t.freq (t.symbolAt (state % t.size)) * (state / t.size) + state % t.size ≤ state := by
  have hmul := Nat.mul_le_mul_right (state / t.size) (ht.freq_le (t.symbolAt (state % t.size)))
  have := Nat.div_add_mod state t.size
  omega

/-- A symbol is taken off a state of 32 bits. -/
theorem pop_eq {t : AnsTable} (ht : t.Valid) {state : Nat} (hs : state < 2 ^ 32) :
    pop t state = .ok (t.pop state) := by
  have hprecision : t.precision ≤ 15 := ht.precision_mem.2
  have hslot : state % t.size < t.size := Nat.mod_lt _ t.size_pos
  have hsymbol : item t.slots (state % t.size) = .ok (t.symbolAt (state % t.size)) :=
    item_eq_getD (ht.size_slots ▸ hslot)
  have hstart : item t.starts (t.symbolAt (state % t.size)) =
      .ok (t.start (t.symbolAt (state % t.size))) :=
    item_eq_getD (ht.size_starts ▸ ht.symbolAt_lt hslot)
  have hle := pop_le ht state
  have hstart_le := (ht.start_le_lt hslot).1
  have hmask : state &&& (2 ^ t.precision - 1) = state % t.size := Nat.and_two_pow_sub_one_eq_mod _ _
  rw [pop, bind_of_eq_ok (shiftLeft_one (by omega)),
    bind_of_eq_ok (sub_eq_ok (Nat.two_pow_pos _)), hmask, bind_of_eq_ok hsymbol,
    bind_of_eq_ok (shiftRight_eq_ok (by omega) _), show 2 ^ t.precision = t.size from rfl,
    bind_of_eq_ok (mul_eq_ok (by omega)), bind_of_eq_ok (add_eq_ok (by omega)),
    bind_of_eq_ok hstart, bind_of_eq_ok (sub_eq_ok (by omega))]
  rfl

/-- A chunk is taken back where there is room for it. -/
theorem agrees_refill : Agrees Bounded refill Decode.refill := by
  intro c hc
  by_cases hsmall : c.state < leastState
  · have hstep : Decode.refill c = (Decode.lift (BitRead.read 16) >>= fun chunk ↦
        modify fun c ↦ { c with state := c.state * 2 ^ 16 + chunk } : Decode Unit) c :=
      (Decode.refill_apply c.state c.reader).trans (if_pos hsmall)
    have hstate : c.state < 2 ^ 16 := hsmall
    refine .of_eq ((get_bind _ c).trans (congrFun (if_pos hsmall) c)) hstep ?_
    refine .step (shiftLeft_eq_ok (by decide) (by omega)) ?_
    refine (agrees_lift (agrees_read (by decide)) hc).bind fun chunk c₁ hread h₁ ↦ ?_
    obtain ⟨hread, hsame⟩ := Decode.lift_eq_ok_iff.1 hread
    have hchunk : chunk < 2 ^ 16 := BitRead.lt_of_read hread
    have hlt : c₁.state * 2 ^ 16 + chunk < 2 ^ 32 := by omega
    rw [or_eq_add hchunk, ← hsame]
    exact agreesAt_of_ok rfl rfl ⟨hlt, h₁.inside⟩
  · have hstep : Decode.refill c = .ok () c :=
      (Decode.refill_apply c.state c.reader).trans (if_neg hsmall)
    exact agreesAt_of_ok ((get_bind _ c).trans (congrFun (if_neg hsmall) c)) hstep hc

/-- Taking a symbol off. -/
theorem agrees_popSymbol {t : AnsTable} (ht : t.Valid) :
    Agrees Bounded (popSymbol t) (Decode.popSymbol t) := by
  intro c hc
  have hle : (t.pop c.state).2 ≤ c.state := Nat.le_trans (Nat.sub_le _ _) (pop_le ht c.state)
  have hbelow : Bounded ⟨(t.pop c.state).2, c.reader⟩ :=
    ⟨Nat.lt_of_le_of_lt hle hc.state_lt, hc.inside⟩
  have hpop : popSymbol t c = (refill >>= fun _ ↦ pure (t.pop c.state).1 : Checked Cursor Nat)
      ⟨(t.pop c.state).2, c.reader⟩ :=
    (get_bind _ c).trans (lift_bind (pop_eq ht hc.state_lt) _ c)
  exact .of_eq hpop (Decode.popSymbol_apply t c.state c.reader)
    ((agrees_refill hbelow).bind fun _ _ _ h ↦ agrees_pure (t.pop c.state).1 h)

theorem agrees_readState : Agrees BitReader.Inside readState EntropyCoding.readState := by
  refine (agrees_read (by decide)).bind fun state _ _ _ _ ↦ ?_
  split
  · exact agrees_throw _
  · exact agrees_pure _

end Checked

end EntropyCoding
