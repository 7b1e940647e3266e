import EntropyCoding.Bits.Writer
import EntropyCoding.Error

/-!
# Reading bits

A `BitReader` is a position in a sequence of bytes.  `BitRead` is the type of a reading action:
it moves the reader and gives a result or an error, and an error leaves the reader where the
action had brought it.  `read n` takes the next `n` bits, or fails with `unexpectedEof` without
moving if there are fewer.
-/

namespace EntropyCoding

/-- A position in a sequence of bytes. -/
structure BitReader where
  /-- The bytes read from. -/
  data : Array UInt8
  /-- The number of bits read so far. -/
  pos : Nat := 0
  deriving DecidableEq

namespace BitReader

def ofBytes (data : Array UInt8) : BitReader :=
  { data }

def length (r : BitReader) : Nat :=
  8 * r.data.size

/-- The bits not read yet. -/
def remaining (r : BitReader) : List Bool :=
  (bytesToBits r.data.toList).drop r.pos

/-- The bit at position `i`; beyond the end every bit is zero. -/
def bitAt (data : Array UInt8) (i : Nat) : Bool :=
  match data[i / 8]? with
  | some b => b.toNat.testBit (i % 8)
  | none => false

/-- The number made of the `n` bits from position `i` on. -/
def bitsAt (data : Array UInt8) (i : Nat) : Nat → Nat
  | 0 => 0
  | n + 1 => (bitAt data i).toNat + 2 * bitsAt data (i + 1) n

theorem bitsAt_lt (data : Array UInt8) (i n : Nat) : bitsAt data i n < 2 ^ n := by
  induction n generalizing i with
  | zero => simp [bitsAt]
  | succ n ih =>
    have := ih (i + 1)
    have := (bitAt data i).toNat_le
    rw [bitsAt, Nat.pow_succ]
    omega

end BitReader

/-- An action that reads bits. -/
abbrev BitRead := EStateM Error BitReader

namespace BitRead

def read (n : Nat) : BitRead Nat := fun r ↦
  if r.pos + n ≤ r.length then .ok (BitReader.bitsAt r.data r.pos n) { r with pos := r.pos + n }
  else .error .unexpectedEof r

def readBool : BitRead Bool :=
  return (← read 1) == 1

def reject {α : Type} (fault : StreamFault) : BitRead α :=
  throw (.invalidStream fault)

/-- Fails on a stream with the given fault unless `ok` holds. -/
def require (ok : Bool) (fault : StreamFault) : BitRead Unit :=
  if ok then pure () else reject fault

/-- Reads `n` items after those in `done`, which is in the opposite order. -/
def manyAfter {α : Type} (item : BitRead α) : Nat → List α → BitRead (List α)
  | 0, done => pure done.reverse
  | n + 1, done => do
    let a ← item
    manyAfter item n (a :: done)

/-- Reads `n` items in order, and no further than the first that fails. -/
def many {α : Type} (n : Nat) (item : BitRead α) : BitRead (List α) :=
  manyAfter item n []

@[simp] theorem manyAfter_zero {α : Type} (item : BitRead α) (done : List α) :
    manyAfter item 0 done = pure done.reverse := rfl

theorem manyAfter_succ {α : Type} (item : BitRead α) (n : Nat) (done : List α) :
    manyAfter item (n + 1) done = item >>= fun a ↦ manyAfter item n (a :: done) := rfl

/-! ## Progress

A successful action stays in its data and does not move the reader back. -/

/-- The reader `r'` reads the data of `r`, from no earlier position, and not beyond the end
unless `r` was there. -/
structure After (r r' : BitReader) : Prop where
  /-- The data are the same. -/
  data_eq : r'.data = r.data
  /-- The position is not an earlier one. -/
  pos_le : r.pos ≤ r'.pos
  /-- The end is not passed. -/
  le_length : r.pos ≤ r.length → r'.pos ≤ r.length

theorem After.refl (r : BitReader) : After r r :=
  ⟨rfl, Nat.le_refl _, id⟩

theorem After.trans {r₁ r₂ r₃ : BitReader} (h : After r₁ r₂) (h' : After r₂ r₃) : After r₁ r₃ where
  data_eq := h'.data_eq.trans h.data_eq
  pos_le := Nat.le_trans h.pos_le h'.pos_le
  le_length hr := by
    have hl : r₂.length = r₁.length := by simp [BitReader.length, h.data_eq]
    exact hl ▸ h'.le_length (hl ▸ h.le_length hr)

/-- A successful action leaves the reader after where it was. -/
def Forward {α : Type} (action : BitRead α) : Prop :=
  ∀ ⦃r r' a⦄, action r = .ok a r' → After r r'

theorem forward_pure {α : Type} (a : α) : Forward (pure a : BitRead α) := by
  intro r r' b h
  cases h
  exact After.refl r

theorem forward_reject {α : Type} (fault : StreamFault) : Forward (reject fault : BitRead α) := by
  intro r r' a h
  cases h

theorem forward_require (ok : Bool) (fault : StreamFault) : Forward (require ok fault) := by
  unfold require
  split
  · exact forward_pure ()
  · exact forward_reject fault

theorem forward_read (n : Nat) : Forward (read n) := by
  intro r r' a h
  unfold read at h
  split at h
  · next hn =>
    cases h
    exact ⟨rfl, Nat.le_add_right _ _, fun _ ↦ hn⟩
  · cases h

theorem forward_bind {α β : Type} {x : BitRead α} {f : α → BitRead β} (hx : Forward x)
    (hf : ∀ a, Forward (f a)) : Forward (x >>= f) := by
  intro r r' b h
  cases hr : x r with
  | ok a r₁ =>
    have h' : f a r₁ = .ok b r' := by simpa only [bind, EStateM.bind, hr] using h
    exact (hx hr).trans (hf a h')
  | error e r₁ => simp only [bind, EStateM.bind, hr, reduceCtorEq] at h

end BitRead

end EntropyCoding
