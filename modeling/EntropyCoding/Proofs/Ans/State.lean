import EntropyCoding.Ans.State
import EntropyCoding.Proofs.Ans.Table
import EntropyCoding.Proofs.Bits.Reader

/-!
# Pushing and popping

A push moves a chunk out of the state if need be and puts the symbol on top of what is left; a pop
takes the symbol off and the chunk back.  `AnsTable.Step` says for which remainders and chunks this
is the same step seen from its two ends: `AnsTable.Step.push_eq` and `AnsTable.Fits.pop_eq`.
Every state that a push can start from and every state that a pop can start from has such a step,
`AnsTable.exists_step_of_push` and `AnsTable.exists_fits_of_isState`, so push and pop are inverse to
each other and agree on which symbols a chunk belongs to.

The conditions under which the two sides exchange a chunk are different tests.  They agree because
a remainder lies between two multiples of the frequency, and what is below `2 ^ 16` came from a
state that was too large.
-/

namespace EntropyCoding

/-- A state between two symbols. -/
structure IsState (x : Nat) : Prop where
  /-- It is not too small. -/
  le : leastState ≤ x
  /-- It has 32 bits. -/
  lt : x < 2 ^ 32

theorem isState_initialState : IsState initialState :=
  ⟨by decide, by decide⟩

/-- What a state is before a chunk, if there is one, is moved out. -/
def refilled (y : Nat) : Option Nat → Nat
  | none => y
  | some chunk => y * 2 ^ 16 + chunk

@[simp] theorem refilled_none (y : Nat) : refilled y none = y := rfl

@[simp] theorem refilled_some (y chunk : Nat) : refilled y (some chunk) = y * 2 ^ 16 + chunk := rfl

def chunkFields (chunk : Option Nat) : List Field :=
  chunk.toList.map fun chunk ↦ ⟨chunk, 16⟩

namespace AnsTable

theorem size_pos (t : AnsTable) : 0 < t.size :=
  Nat.two_pow_pos t.precision

/-- The state that has `symbol` on top of `y`. -/
def cover (t : AnsTable) (symbol y : Nat) : Nat :=
  y / t.freq symbol * t.size + y % t.freq symbol + t.start symbol

/-- `symbol` can be put on top of `y`. -/
structure Fits (t : AnsTable) (symbol y : Nat) : Prop where
  /-- The symbol has slots. -/
  freq_pos : 0 < t.freq symbol
  /-- The remainder is not too small. -/
  le : t.freq symbol * 2 ^ (16 - t.precision) ≤ y
  /-- The remainder is not too large. -/
  lt : y < t.freq symbol * 2 ^ (32 - t.precision)

/-- `symbol` can be put on top of `y`, and `chunk` is what has been moved out to get there. -/
structure Step (t : AnsTable) (symbol y : Nat) (chunk : Option Nat) : Prop
    extends t.Fits symbol y where
  /-- A chunk has been moved out exactly if the remainder is below every state. -/
  isSome_iff : chunk.isSome ↔ y < leastState
  /-- A chunk has 16 bits. -/
  chunk_lt : ∀ c ∈ chunk, c < 2 ^ 16

namespace Valid

variable {t : AnsTable} (ht : t.Valid)
include ht

/-- The size of a table divides the number of states. -/
theorem two_pow_mul_size : 2 ^ (32 - t.precision) * t.size = 2 ^ 32 := by
  have hp := ht.precision_mem
  rw [size, ← Nat.pow_add, Nat.sub_add_cancel (Nat.le_trans hp.2 (by decide))]

/-- The size of a table divides the least state. -/
theorem two_pow_mul_size' : 2 ^ (16 - t.precision) * t.size = leastState := by
  have hp := ht.precision_mem
  rw [size, ← Nat.pow_add, Nat.sub_add_cancel (Nat.le_trans hp.2 (by decide)), leastState]

theorem two_pow_sub : 2 ^ (32 - t.precision) = 2 ^ (16 - t.precision) * 2 ^ 16 := by
  have hp : t.precision ≤ 15 := ht.precision_mem.2
  rw [← Nat.pow_add]
  congr 1
  omega

end Valid

namespace Fits

variable {t : AnsTable} (ht : t.Valid) {symbol y : Nat} (h : t.Fits symbol y)
include ht h

theorem lt_two_pow : y < 2 ^ 32 := by
  have := h.lt
  have hle := Nat.mul_le_mul_right (2 ^ (32 - t.precision)) (ht.freq_le symbol)
  rw [Nat.mul_comm t.size, ht.two_pow_mul_size] at hle
  omega

theorem mod_add_start_lt : y % t.freq symbol + t.start symbol < t.size := by
  have hmod := Nat.mod_lt y h.freq_pos
  have hend := ht.start_add_freq_le (lt_alphabetSize_of_freq_pos h.freq_pos)
  omega

/-- The state with the symbol on top is one. -/
theorem isState_cover : IsState (t.cover symbol y) := by
  have hmod := mod_add_start_lt ht h
  have hlow : 2 ^ (16 - t.precision) ≤ y / t.freq symbol := by
    rw [Nat.le_div_iff_mul_le h.freq_pos, Nat.mul_comm]
    exact h.le
  have hhigh : y / t.freq symbol + 1 ≤ 2 ^ (32 - t.precision) := by
    rw [Nat.succ_le_iff, Nat.div_lt_iff_lt_mul h.freq_pos, Nat.mul_comm]
    exact h.lt
  have hlow' := Nat.mul_le_mul_right t.size hlow
  have hhigh' := Nat.mul_le_mul_right t.size hhigh
  rw [ht.two_pow_mul_size'] at hlow'
  rw [ht.two_pow_mul_size, Nat.succ_mul] at hhigh'
  unfold cover
  exact ⟨by omega, by omega⟩

/-- A pop takes the symbol off. -/
theorem pop_eq : t.pop (t.cover symbol y) = (symbol, y) := by
  have hlt := mod_add_start_lt ht h
  have hslot : t.cover symbol y % t.size = y % t.freq symbol + t.start symbol := by
    rw [cover, Nat.add_assoc, Nat.mul_comm, Nat.mul_add_mod, Nat.mod_eq_of_lt hlt]
  have hquot : t.cover symbol y / t.size = y / t.freq symbol := by
    rw [cover, Nat.add_assoc, Nat.mul_comm, Nat.mul_add_div t.size_pos, Nat.div_eq_of_lt hlt,
      Nat.add_zero]
  have hsymbol : t.symbolAt (y % t.freq symbol + t.start symbol) = symbol :=
    ht.symbolAt_eq (Nat.le_add_left _ _) (by have := Nat.mod_lt y h.freq_pos; omega)
  have hrest : t.freq symbol * (y / t.freq symbol) + (y % t.freq symbol + t.start symbol)
      - t.start symbol = y := by
    have := Nat.div_add_mod y (t.freq symbol)
    omega
  rw [pop]
  simp only [hslot, hquot, hsymbol, hrest]

end Fits

namespace Step

variable {t : AnsTable} (ht : t.Valid) {symbol y : Nat} {chunk : Option Nat}
  (h : t.Step symbol y chunk)
include ht h

/-- The state before the chunk was moved out is one. -/
theorem isState_refilled : IsState (refilled y chunk) := by
  have hy := h.toFits.lt_two_pow ht
  have hsome := h.isSome_iff
  cases chunk with
  | none =>
    have hge : ¬ y < leastState := fun hlt ↦ by cases hsome.2 hlt
    exact ⟨Nat.not_lt.1 hge, hy⟩
  | some c =>
    have hlt : y < leastState := hsome.1 rfl
    have hc : c < 2 ^ 16 := h.chunk_lt c rfl
    have hpos : 1 ≤ y :=
      Nat.le_trans (Nat.mul_pos h.freq_pos (Nat.two_pow_pos _)) h.le
    rw [refilled_some]
    unfold leastState at hlt
    constructor
    · unfold leastState
      omega
    · omega

/-- Room is made by moving the chunk out. -/
theorem makeRoom_eq : t.makeRoom symbol (refilled y chunk) = (chunk, y) := by
  have hsome := h.isSome_iff
  unfold makeRoom
  cases chunk with
  | none =>
    have hroom : ¬ t.freq symbol ≤ y / 2 ^ (32 - t.precision) := by
      rw [Nat.not_le, Nat.div_lt_iff_lt_mul (Nat.two_pow_pos _)]
      exact h.lt
    exact if_neg hroom
  | some c =>
    have hc : c < 2 ^ 16 := h.chunk_lt c rfl
    have hroom : t.freq symbol ≤ (y * 2 ^ 16 + c) / 2 ^ (32 - t.precision) := by
      rw [Nat.le_div_iff_mul_le (Nat.two_pow_pos _), ht.two_pow_sub, ← Nat.mul_assoc]
      exact Nat.le_trans (Nat.mul_le_mul_right _ h.le) (Nat.le_add_right _ _)
    have hmod : (y * 2 ^ 16 + c) % 2 ^ 16 = c := by omega
    have hdiv : (y * 2 ^ 16 + c) / 2 ^ 16 = y := by omega
    rw [refilled_some, if_pos hroom, hmod, hdiv]

/-- A push moves the chunk out and puts the symbol on top. -/
theorem push_eq : t.push symbol (refilled y chunk) = .ok (chunk, t.cover symbol y) := by
  have hsub : y - y / t.freq symbol * t.freq symbol = y % t.freq symbol := by
    have := Nat.div_add_mod' y (t.freq symbol)
    omega
  rw [push, if_neg (Nat.pos_iff_ne_zero.1 h.freq_pos), makeRoom_eq ht h]
  simp only [ht.divide_eq (h.toFits.lt_two_pow ht) h.freq_pos, hsub]
  rfl

/-- The symbol that owns the whole table moves nothing out and leaves the state as it is. -/
theorem eq_self_of_whole (hwhole : t.freq symbol = t.size) :
    chunk = none ∧ t.cover symbol y = y := by
  have hend := ht.start_add_freq_le (lt_alphabetSize_of_freq_pos h.freq_pos)
  have hle := h.le
  rw [hwhole, Nat.mul_comm, ht.two_pow_mul_size'] at hle
  constructor
  · apply Option.not_isSome_iff_eq_none.1
    intro hsome
    exact absurd hle (Nat.not_le.2 (h.isSome_iff.1 hsome))
  · have hstart : t.start symbol = 0 := by omega
    rw [cover, hwhole, hstart, Nat.add_zero]
    exact Nat.div_add_mod' y t.size

end Step

section

variable {t : AnsTable} (ht : t.Valid)
include ht

/-- Every state that a symbol can be pushed on has a step above it. -/
theorem exists_step_of_push {symbol x : Nat} (hs : 0 < t.freq symbol) (hx : IsState x) :
    ∃ y chunk, t.Step symbol y chunk ∧ x = refilled y chunk := by
  have hle := hx.le
  have hlt := hx.lt
  have hfreq := Nat.mul_le_mul_right (2 ^ (16 - t.precision)) (ht.freq_le symbol)
  rw [Nat.mul_comm t.size, ht.two_pow_mul_size'] at hfreq
  by_cases hroom : t.freq symbol ≤ x / 2 ^ (32 - t.precision)
  · -- the low 16 bits go out, and what is left is below every state
    refine ⟨x / 2 ^ 16, some (x % 2 ^ 16), ⟨⟨hs, ?_, ?_⟩, ?_, ?_⟩, ?_⟩
    · rw [Nat.le_div_iff_mul_le (Nat.two_pow_pos _), Nat.mul_assoc, ← ht.two_pow_sub,
        ← Nat.le_div_iff_mul_le (Nat.two_pow_pos _)]
      exact hroom
    · have hpow : 2 ^ 16 ≤ 2 ^ (32 - t.precision) := by
        have hp : t.precision ≤ 15 := ht.precision_mem.2
        exact Nat.pow_le_pow_right (by decide) (by omega)
      have hmul := Nat.mul_le_mul hs hpow
      omega
    · refine ⟨fun _ ↦ ?_, fun _ ↦ rfl⟩
      unfold leastState
      omega
    · rintro c ⟨⟩
      exact Nat.mod_lt x (by decide)
    · rw [refilled_some]
      omega
  · refine ⟨x, none, ⟨⟨hs, Nat.le_trans hfreq hle, ?_⟩, ?_, ?_⟩, rfl⟩
    · rw [Nat.not_le, Nat.div_lt_iff_lt_mul (Nat.two_pow_pos _)] at hroom
      exact hroom
    · constructor
      · intro h
        cases h
      · intro h
        exact absurd hle (Nat.not_le.2 h)
    · rintro c ⟨⟩

/-- Every state has a symbol on top of a remainder. -/
theorem exists_fits_of_isState {z : Nat} (hz : IsState z) :
    ∃ symbol y, t.Fits symbol y ∧ z = t.cover symbol y := by
  obtain ⟨hstart, hend⟩ := ht.start_le_lt (Nat.mod_lt z t.size_pos)
  generalize t.symbolAt (z % t.size) = symbol at hstart hend
  have hs : 0 < t.freq symbol := by omega
  have hoffset : z % t.size - t.start symbol < t.freq symbol := by omega
  have hq : 2 ^ (16 - t.precision) ≤ z / t.size := by
    rw [Nat.le_div_iff_mul_le t.size_pos, ht.two_pow_mul_size']
    exact hz.le
  have hq' : z / t.size + 1 ≤ 2 ^ (32 - t.precision) := by
    rw [Nat.succ_le_iff, Nat.div_lt_iff_lt_mul t.size_pos, ht.two_pow_mul_size]
    exact hz.lt
  refine ⟨symbol, t.freq symbol * (z / t.size) + (z % t.size - t.start symbol),
    ⟨hs, ?_, ?_⟩, ?_⟩
  · exact Nat.le_trans (Nat.mul_le_mul_left _ hq) (Nat.le_add_right _ _)
  · have := Nat.mul_le_mul_left (t.freq symbol) hq'
    rw [Nat.mul_succ] at this
    omega
  · rw [cover, Nat.mul_add_div hs, Nat.mul_add_mod, Nat.div_eq_of_lt hoffset,
      Nat.mod_eq_of_lt hoffset, Nat.add_zero, Nat.add_assoc, Nat.sub_add_cancel hstart,
      Nat.div_add_mod']

/-- A push that succeeds is a step. -/
theorem exists_step_of_push_eq_ok {symbol x z : Nat} {chunk : Option Nat} (hx : IsState x)
    (h : t.push symbol x = .ok (chunk, z)) :
    ∃ y, t.Step symbol y chunk ∧ x = refilled y chunk ∧ z = t.cover symbol y := by
  have hs : 0 < t.freq symbol := by
    apply Nat.pos_of_ne_zero
    intro h0
    rw [push, if_pos h0] at h
    cases h
  obtain ⟨y, chunk', hstep, rfl⟩ := exists_step_of_push ht hs hx
  rw [hstep.push_eq ht] at h
  cases h
  exact ⟨y, hstep, rfl, rfl⟩

end

end AnsTable

/-! ## Stacks of symbols -/

/-- Pushing one symbol more. -/
theorem pushAll_cons_eq_ok_iff {table : AnsTable} {symbol state : Nat}
    {symbols : List (AnsTable × Nat)} {chunks : List (Option Nat)} :
    pushAll ((table, symbol) :: symbols) = .ok (chunks, state) ↔
      ∃ chunk chunks' x, pushAll symbols = .ok (chunks', x) ∧
        table.push symbol x = .ok (chunk, state) ∧ chunks = chunk :: chunks' := by
  rw [pushAll_cons, Except.bind_eq_ok_iff]
  constructor
  · rintro ⟨⟨chunks', x⟩, hall, h⟩
    obtain ⟨⟨chunk, z⟩, hpush, h⟩ := Except.bind_eq_ok_iff.1 h
    cases h
    exact ⟨chunk, chunks', x, hall, hpush, rfl⟩
  · rintro ⟨chunk, chunks', x, hall, hpush, rfl⟩
    exact ⟨(chunks', x), hall, Except.bind_eq_ok_iff.2 ⟨(chunk, state), hpush, rfl⟩⟩

end EntropyCoding
