import EntropyCoding.Proofs.Ans.Decode
import EntropyCoding.Proofs.Checked.Arithmetic

/-!
# Pushes are undone by pops

Symbols that have been pushed from the last to the first are popped from the first to the last.  The
two coders pass through the same states in opposite order, and at each symbol the decoder takes back
just what the encoder has moved out, a chunk or nothing: `pushAll_popSymbols`.  Each symbol may have
a table of its own, with a precision of its own.

The encoder is looked at as a machine with a state of 32 bits, `Checked.push`.  With a symbol that
has slots none of its operations exceeds 32 bits, `Checked.push_eq`; with one that has none it fails
before it has touched the state, `Checked.push_of_freq_eq_zero`.
-/

namespace EntropyCoding

/-! ## A machine of 32 bits -/

namespace Checked

/-- The quotient of a 32-bit number and the frequency of a symbol, by its reciprocal; the product
has 128 bits. -/
def divide (t : AnsTable) (x symbol : Nat) : Except Stop Nat := do
  let product ← mul 128 x (← item t.inverses symbol)
  fit 32 (← shiftRight 128 product (← add 32 32 t.precision))

/-- Moves a chunk out if the state is too large for a symbol. -/
def makeRoom (t : AnsTable) (symbol : Nat) : Checked Nat (Option Nat) := do
  let x ← get
  let high ← shiftRight 32 x (← sub 32 t.precision)
  if t.freq symbol ≤ high then
    set (← shiftRight 32 x 16)
    return some (x % 2 ^ 16)
  else return none

/-- Puts a symbol on top of the state. -/
def cover (t : AnsTable) (symbol : Nat) : Checked Nat Unit := do
  let x ← get
  let quotient ← divide t x symbol
  let offset ← sub x (← mul 32 quotient (t.freq symbol))
  let sum ← add 32 (← shiftLeft 32 quotient t.precision) offset
  set (← add 32 sum (← item t.starts symbol))

/-- Pushes a symbol; gives the chunk moved out, if any. -/
def push (t : AnsTable) (symbol : Nat) : Checked Nat (Option Nat) := do
  if t.freq symbol = 0 then throw (.error (.zeroFrequency symbol))
  let chunk ← makeRoom t symbol
  cover t symbol
  return chunk

/-- Pushes symbols from the last to the first; gives the chunk of each, in the order of the
symbols. -/
def pushAll : List (AnsTable × Nat) → Checked Nat (List (Option Nat))
  | [] => pure []
  | (t, symbol) :: symbols => do
    let chunks ← pushAll symbols
    let chunk ← push t symbol
    return chunk :: chunks

/-- A symbol without slots is refused, and the state stays as it is. -/
theorem push_of_freq_eq_zero {t : AnsTable} {symbol : Nat} (h : t.freq symbol = 0) (x : Nat) :
    push t symbol x = .error (.error (.zeroFrequency symbol)) x := by
  unfold push
  rw [if_pos h]
  rfl

section

variable {t : AnsTable} (ht : t.Valid) {symbol y : Nat}
include ht

/-- The reciprocal gives the quotient, within 128 bits. -/
theorem divide_eq (hs : 0 < t.freq symbol) (hy : y < 2 ^ 32) :
    divide t y symbol = .ok (y / t.freq symbol) := by
  have hp : t.precision ≤ 15 := ht.precision_mem.2
  have hitem : item t.inverses symbol = .ok (t.inverse symbol) :=
    item_eq_getD (by rw [ht.size_inverses]; exact AnsTable.lt_alphabetSize_of_freq_pos hs)
  have hproduct : y * t.inverse symbol < 2 ^ 128 :=
    Nat.lt_of_le_of_lt (Nat.mul_le_mul (Nat.le_of_lt hy) (ht.inverse_le symbol)) (by decide)
  have hsum : 32 + t.precision < 2 ^ 32 := by omega
  have hquotient : y * t.inverse symbol / 2 ^ (32 + t.precision) = y / t.freq symbol := by
    have hfit : y * t.freq symbol ≤ 2 ^ (32 + t.precision) := by
      rw [Nat.pow_add]
      exact Nat.mul_le_mul (Nat.le_of_lt hy) (ht.freq_le symbol)
    rw [ht.inverse_eq, AnsTable.reciprocalBits, AnsTable.mul_reciprocal_div hs hfit]
  rw [divide, bind_of_eq_ok hitem, bind_of_eq_ok (mul_eq_ok hproduct),
    bind_of_eq_ok (add_eq_ok hsum), bind_of_eq_ok (shiftRight_eq_ok (by omega) _), hquotient]
  exact fit_eq_ok (Nat.lt_of_le_of_lt (Nat.div_le_self _ _) hy)

/-- Room is made within 32 bits. -/
theorem makeRoom_eq (symbol x : Nat) :
    makeRoom t symbol x = .ok (t.makeRoom symbol x).1 (t.makeRoom symbol x).2 := by
  have hp := ht.precision_mem
  have hp' : t.precision ≤ 15 := hp.2
  rw [makeRoom, get_bind, lift_bind (sub_eq_ok (by omega)),
    lift_bind (shiftRight_eq_ok (by omega) x), AnsTable.makeRoom]
  by_cases hroom : t.freq symbol ≤ x / 2 ^ (32 - t.precision)
  · rw [if_pos hroom, if_pos hroom, lift_bind (shiftRight_eq_ok (by decide) x)]
    rfl
  · rw [if_neg hroom, if_neg hroom]
    rfl

/-- A symbol is put on top within 32 bits. -/
theorem cover_eq (h : t.Fits symbol y) : cover t symbol y = .ok () (t.cover symbol y) := by
  have hp : t.precision ≤ 15 := ht.precision_mem.2
  have hy := h.lt_two_pow ht
  have hcover := (h.isState_cover ht).lt
  have hmod := Nat.div_add_mod' y (t.freq symbol)
  have hstart : item t.starts symbol = .ok (t.start symbol) :=
    item_eq_getD (by rw [ht.size_starts]; exact AnsTable.lt_alphabetSize_of_freq_pos h.freq_pos)
  have hoffset : y - y / t.freq symbol * t.freq symbol = y % t.freq symbol := by omega
  unfold AnsTable.cover AnsTable.size at hcover
  rw [cover, get_bind, lift_bind (divide_eq ht h.freq_pos hy), lift_bind (mul_eq_ok (by omega)),
    lift_bind (sub_eq_ok (by omega)), lift_bind (shiftLeft_eq_ok (by omega) (by omega)), hoffset,
    lift_bind (add_eq_ok (by omega)), lift_bind hstart, lift_bind (add_eq_ok hcover)]
  rfl

/-- The push of a step stays within 32 bits. -/
theorem push_eq {chunk : Option Nat} (h : t.Step symbol y chunk) :
    push t symbol (refilled y chunk) = .ok chunk (t.cover symbol y) := by
  have hroom := makeRoom_eq ht symbol (refilled y chunk)
  rw [h.makeRoom_eq ht] at hroom
  unfold push
  rw [if_neg (Nat.ne_of_gt h.freq_pos)]
  show (makeRoom t symbol >>= _) _ = _
  rw [bind_of_ok hroom, bind_of_ok (cover_eq ht h.toFits)]
  rfl

end

end Checked

/-! ## The two coders -/

/-- What the two coders do at a symbol, between a state `x` and the state `z` that has the symbol on
top: the encoder goes from `x` to `z` and moves `chunk` out, the decoder goes from `z` to `x` and
takes just this chunk back. -/
structure AnsTable.Exchange (t : AnsTable) (symbol x : Nat) (chunk : Option Nat) (z : Nat) :
    Prop where
  /-- The encoder starts from a state. -/
  isState_below : IsState x
  /-- It ends in a state. -/
  isState_above : IsState z
  /-- It gets there with a push. -/
  push_eq : t.push symbol x = .ok (chunk, z)
  /-- No operation of the push exceeds 32 bits. -/
  checked_push_eq : Checked.push t symbol x = .ok chunk z
  /-- The decoder reads the chunk, or nothing if there is none, and gets back. -/
  takes_popSymbol : Decode.Takes (Decode.popSymbol t) z (fieldBits (chunkFields chunk)) symbol x

/-- A symbol that has slots can be pushed on every state. -/
theorem AnsTable.exists_exchange {t : AnsTable} (ht : t.Valid) {symbol x : Nat}
    (hs : 0 < t.freq symbol) (hx : IsState x) : ∃ chunk z, t.Exchange symbol x chunk z := by
  obtain ⟨y, chunk, hstep, rfl⟩ := exists_step_of_push ht hs hx
  exact ⟨chunk, t.cover symbol y,
    { isState_below := hx
      isState_above := hstep.toFits.isState_cover ht
      push_eq := hstep.push_eq ht
      checked_push_eq := Checked.push_eq ht hstep
      takes_popSymbol := Decode.takes_popSymbol ht hstep }⟩

/-- The symbols popped one after another, each with its table. -/
def Decode.popSymbols (symbols : List (AnsTable × Nat)) : Decode (List Nat) :=
  symbols.mapM fun p ↦ popSymbol p.1

def chunksFields (chunks : List (Option Nat)) : List Field :=
  chunks.flatMap chunkFields

/-- What the two coders do with a list of symbols, between the empty stack and the state `z`. -/
structure Exchanges (symbols : List (AnsTable × Nat)) (chunks : List (Option Nat)) (z : Nat) :
    Prop where
  /-- The encoder ends in a state. -/
  isState : IsState z
  /-- It gets there with pushes, from the last symbol to the first. -/
  pushAll_eq : pushAll symbols = .ok (chunks, z)
  /-- No operation of a push exceeds 32 bits. -/
  checked_pushAll_eq : Checked.pushAll symbols initialState = .ok chunks z
  /-- There is a chunk, or nothing, for each symbol. -/
  length_eq : chunks.length = symbols.length

theorem exchanges_nil : Exchanges [] [] initialState :=
  ⟨isState_initialState, rfl, rfl, rfl⟩

/-- The first symbol comes on top of the others. -/
theorem Exchanges.cons {symbols : List (AnsTable × Nat)} {chunks : List (Option Nat)} {x : Nat}
    (h : Exchanges symbols chunks x) {t : AnsTable} {symbol z : Nat} {chunk : Option Nat}
    (ht : t.Exchange symbol x chunk z) : Exchanges ((t, symbol) :: symbols) (chunk :: chunks) z where
  isState := ht.isState_above
  pushAll_eq := pushAll_cons_eq_ok_iff.2 ⟨chunk, chunks, x, h.pushAll_eq, ht.push_eq, rfl⟩
  checked_pushAll_eq := by
    show (Checked.pushAll symbols >>= _) _ = _
    rw [bind_of_ok h.checked_pushAll_eq, bind_of_ok ht.checked_push_eq]
    rfl
  length_eq := congrArg (· + 1) h.length_eq

/-- Symbols can be pushed on others, and they are popped down to these. -/
theorem Exchanges.exists_append {after : List (AnsTable × Nat)} {rest : List (Option Nat)} {x : Nat}
    (h : Exchanges after rest x) {before : List (AnsTable × Nat)}
    (hvalid : ∀ p ∈ before, p.1.Valid) (hfreq : ∀ p ∈ before, 0 < p.1.freq p.2) :
    ∃ first z, first.length = before.length ∧ Exchanges (before ++ after) (first ++ rest) z ∧
      Decode.Takes (Decode.popSymbols before) z (fieldBits (chunksFields first))
        (before.map Prod.snd) x := by
  induction before with
  | nil => exact ⟨[], x, rfl, h, Decode.takes_pure [] x⟩
  | cons p before ih =>
    obtain ⟨t, symbol⟩ := p
    obtain ⟨ht, hts⟩ := List.forall_mem_cons.1 hvalid
    obtain ⟨hs, hss⟩ := List.forall_mem_cons.1 hfreq
    obtain ⟨first, y, hlength, hexchanges, htakes⟩ := ih hts hss
    obtain ⟨chunk, z, hexchange⟩ := AnsTable.exists_exchange ht hs hexchanges.isState
    refine ⟨chunk :: first, z, congrArg (· + 1) hlength, hexchanges.cons hexchange, ?_⟩
    rw [chunksFields, List.flatMap_cons, fieldBits_append]
    exact hexchange.takes_popSymbol.mapM_cons (f := fun p : AnsTable × Nat ↦ Decode.popSymbol p.1)
      (a := (t, symbol)) htakes

/-- Whatever symbols are pushed, each with its own table in which it has slots, the encoder gets
through, from the last symbol to the first, without an operation that exceeds 32 bits.  From the
state it ends in and the chunks it has moved out the decoder gets the symbols back, from the first
to the last, and ends with the empty stack.

At each symbol the decoder stands in the state that the encoder has reached with this symbol, goes
back to the state from which the encoder pushed it, and takes back the chunk that the encoder moved
out then, or nothing if there is none.

A symbol without slots is refused, and the state stays as it is. -/
theorem pushAll_popSymbols {symbols : List (AnsTable × Nat)} (hvalid : ∀ p ∈ symbols, p.1.Valid)
    (hfreq : ∀ p ∈ symbols, 0 < p.1.freq p.2) :
    (∃ chunks state, Exchanges symbols chunks state ∧
      Decode.Takes (Decode.popSymbols symbols) state (fieldBits (chunksFields chunks))
        (symbols.map Prod.snd) initialState ∧
      ∀ before t symbol after, symbols = before ++ (t, symbol) :: after →
        ∃ first chunk rest x z, chunks = first ++ chunk :: rest ∧ first.length = before.length ∧
          Exchanges after rest x ∧ t.Exchange symbol x chunk z ∧
          Decode.Takes (Decode.popSymbols before) state (fieldBits (chunksFields first))
            (before.map Prod.snd) z) ∧
      ∀ (t : AnsTable) symbol, t.freq symbol = 0 → ∀ x,
        t.push symbol x = .error (.zeroFrequency symbol) ∧
          Checked.push t symbol x = .error (.error (.zeroFrequency symbol)) x := by
  refine ⟨?_, fun t symbol h x ↦ ⟨if_pos h, Checked.push_of_freq_eq_zero h x⟩⟩
  obtain ⟨chunks, state, -, hall, htakes⟩ := exchanges_nil.exists_append hvalid hfreq
  rw [List.append_nil, List.append_nil] at hall
  refine ⟨chunks, state, hall, htakes, ?_⟩
  rintro before t symbol after rfl
  obtain ⟨hvalid, hothers⟩ := List.forall_mem_append.1 hvalid
  obtain ⟨ht, hvalid'⟩ := List.forall_mem_cons.1 hothers
  obtain ⟨hfreq, hothers⟩ := List.forall_mem_append.1 hfreq
  obtain ⟨hs, hfreq'⟩ := List.forall_mem_cons.1 hothers
  -- the coders run on the symbols from the last to the first, and what they do is determined
  obtain ⟨rest, x, -, hafter, -⟩ := exchanges_nil.exists_append hvalid' hfreq'
  rw [List.append_nil, List.append_nil] at hafter
  obtain ⟨chunk, z, hexchange⟩ := AnsTable.exists_exchange ht hs hafter.isState
  obtain ⟨first, state', hlength, hall', htakes'⟩ :=
    (hafter.cons hexchange).exists_append hvalid hfreq
  have heq := hall.pushAll_eq.symm.trans hall'.pushAll_eq
  cases heq
  exact ⟨first, chunk, rest, x, z, rfl, hlength, hafter, hexchange, htakes'⟩

/-- Three symbols with tables of 2 and of 4096 slots, and one that the larger table does not have. -/
theorem pushAll_popSymbols_three : ∃ coarse fine chunks state,
    AnsTable.ofFrequencies [1, 1] 1 = .ok coarse ∧
      AnsTable.ofFrequencies [1, 0, 4095] 12 = .ok fine ∧
      Exchanges [(coarse, 1), (fine, 0), (coarse, 0)] chunks state ∧
      Decode.Takes (Decode.popSymbols [(coarse, 1), (fine, 0), (coarse, 0)]) state
        (fieldBits (chunksFields chunks)) [1, 0, 0] initialState ∧
      fine.push 1 state = .error (.zeroFrequency 1) := by
  obtain ⟨coarse, fine, hcoarse, hfine, h₀, h₁, hf₀, hf₁⟩ : ∃ coarse fine,
      AnsTable.ofFrequencies [1, 1] 1 = .ok coarse ∧
        AnsTable.ofFrequencies [1, 0, 4095] 12 = .ok fine ∧
        coarse.freq 0 = 1 ∧ coarse.freq 1 = 1 ∧ fine.freq 0 = 1 ∧ fine.freq 1 = 0 :=
    ⟨_, _, rfl, rfl, rfl, rfl, rfl, rfl⟩
  have hvalid : ∀ p ∈ [(coarse, 1), (fine, 0), (coarse, 0)], p.1.Valid := by
    simp [AnsTable.valid_of_ofFrequencies hcoarse, AnsTable.valid_of_ofFrequencies hfine]
  have hfreq : ∀ p ∈ [(coarse, 1), (fine, 0), (coarse, 0)], 0 < p.1.freq p.2 := by
    simp [h₀, h₁, hf₀]
  obtain ⟨⟨chunks, state, hall, htakes, -⟩, hzero⟩ := pushAll_popSymbols hvalid hfreq
  exact ⟨coarse, fine, chunks, state, hcoarse, hfine, hall, htakes, (hzero fine 1 hf₁ state).1⟩

end EntropyCoding
