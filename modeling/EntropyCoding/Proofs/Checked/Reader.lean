import EntropyCoding.Bits.Number
import EntropyCoding.Proofs.Checked.Agreement

/-!
# Checked reading

A read of bits goes through the bytes they are in, and puts the number together from the part that
each byte has of it: `Checked.gather`.  It touches no byte beyond the end, no shift is too wide, and
it gives the number that the bits make one by one, `Checked.gather_eq`.

Positions count bits that are in memory, so they are not given a width.
-/

namespace EntropyCoding

namespace BitReader

/-- The reader stands before the end, or there. -/
def Inside (r : BitReader) : Prop :=
  r.pos ≤ r.length

theorem bitsAt_add (data : Array UInt8) (i m n : Nat) :
    bitsAt data i (m + n) = bitsAt data i m + 2 ^ m * bitsAt data (i + m) n := by
  induction m generalizing i with
  | zero => simp [bitsAt]
  | succ m ih =>
    rw [Nat.succ_add, bitsAt, ih, bitsAt, Nat.pow_succ', Nat.add_right_comm i 1 m]
    simp only [Nat.mul_add, Nat.add_assoc, Nat.mul_assoc]

/-- The number made of bits of one byte. -/
theorem bitsAt_of_byte {data : Array UInt8} {i n : Nat} {byte : UInt8}
    (h : data[i / 8]? = some byte) (hn : i % 8 + n ≤ 8) :
    bitsAt data i n = byte.toNat / 2 ^ (i % 8) % 2 ^ n := by
  induction n generalizing i with
  | zero => simp [bitsAt, Nat.mod_one]
  | succ n ih =>
    have hbit : bitAt data i = byte.toNat.testBit (i % 8) := by rw [bitAt, h]
    rw [bitsAt, hbit, Nat.pow_succ', Nat.mod_mul, Nat.div_div_eq_div_mul, ← Nat.pow_succ,
      Nat.toNat_testBit]
    rcases Nat.eq_zero_or_pos n with rfl | hpos
    · simp [bitsAt, Nat.mod_one]
    · rw [ih (by rwa [show (i + 1) / 8 = i / 8 by omega]) (by omega),
        show (i + 1) % 8 = i % 8 + 1 by omega]

end BitReader

namespace Checked

open BitReader

/-! ## Bits -/

/-- The part of a number that the byte at `pos` has of it: `width` bits from there on, put behind the
first `got` bits of the number. -/
def part (data : Array UInt8) (pos width got : Nat) : Except Stop Nat := do
  let byte ← item data (pos / 8)
  let shifted ← shiftRight 64 byte.toNat (pos % 8)
  let mask ← sub (← shiftLeft 64 1 width) 1
  shiftLeft 64 (shifted &&& mask) got

/-- Puts together a number of `count` bits, of which `value` has the first `got`, from the bits at
`pos` on, one byte after another; gives it with the position behind it. -/
def gather (data : Array UInt8) (count : Nat) : Nat → Nat → Nat → Nat → Except Stop (Nat × Nat)
  | 0, pos, got, value => if got < count then .error (.fault .endless) else .ok (value, pos)
  | fuel + 1, pos, got, value =>
    if got < count then do
      let room ← sub 8 (pos % 8)
      let rest ← sub count got
      let width := min room rest
      let more ← part data pos width got
      gather data count fuel (pos + width) (← add 32 got width) (value ||| more)
    else .ok (value, pos)

def read (count : Nat) : Checked BitReader Nat := do
  let r ← get
  if 32 < count then fault .overflow
  else if count = 0 then return 0
  else if r.length < r.pos + count then throw (.error .unexpectedEof)
  else
    let (value, pos) ← gather r.data count count r.pos 0 0
    set { r with pos }
    fit 32 value

/-- The part of a byte is put in its place. -/
theorem part_eq {data : Array UInt8} {pos width got : Nat} (hpos : pos / 8 < data.size)
    (hwidth : pos % 8 + width ≤ 8) (hgot : got + width ≤ 32) :
    part data pos width got = .ok (2 ^ got * bitsAt data pos width) := by
  have hbyte := Array.getElem?_eq_getElem hpos
  have hmask : data[pos / 8].toNat / 2 ^ (pos % 8) &&& (2 ^ width - 1) =
      bitsAt data pos width := by
    rw [Nat.and_two_pow_sub_one_eq_mod, bitsAt_of_byte hbyte hwidth]
  have hfit : bitsAt data pos width * 2 ^ got < 2 ^ 64 := by
    calc bitsAt data pos width * 2 ^ got < 2 ^ width * 2 ^ got :=
          Nat.mul_lt_mul_of_pos_right (bitsAt_lt _ _ _) (Nat.two_pow_pos got)
      _ = 2 ^ (width + got) := (Nat.pow_add 2 width got).symm
      _ ≤ 2 ^ 64 := Nat.pow_le_pow_right (by decide) (by omega)
  rw [part, bind_of_eq_ok (item_eq_ok hbyte), bind_of_eq_ok (shiftRight_eq_ok (by omega) _),
    bind_of_eq_ok (shiftLeft_one (by omega)), bind_of_eq_ok (sub_eq_ok (Nat.two_pow_pos width)),
    hmask, shiftLeft_eq_ok (by omega) hfit, Nat.mul_comm]

/-- The bits are put together as they stand there. -/
theorem gather_eq {data : Array UInt8} {count fuel pos got value : Nat} (hcount : count ≤ 32)
    (hgot : got ≤ count) (hfuel : count ≤ fuel + got) (hpos : pos + (count - got) ≤ 8 * data.size)
    (hvalue : value < 2 ^ got) :
    gather data count fuel pos got value =
      .ok (value + 2 ^ got * bitsAt data pos (count - got), pos + (count - got)) := by
  induction fuel generalizing pos got value with
  | zero =>
    obtain rfl : got = count := by omega
    rw [gather, if_neg (Nat.lt_irrefl got), Nat.sub_self]
    rfl
  | succ fuel ih =>
    rw [gather]
    by_cases hlt : got < count
    · generalize hwidth : min (8 - pos % 8) (count - got) = width
      have hpart : part data pos width got = .ok (2 ^ got * bitsAt data pos width) :=
        part_eq (by omega) (by omega) (by omega)
      have hor : value ||| 2 ^ got * bitsAt data pos width =
          value + 2 ^ got * bitsAt data pos width := by
        rw [Nat.or_comm, ← Nat.two_pow_add_eq_or_of_lt hvalue, Nat.add_comm]
      have hvalue' : value + 2 ^ got * bitsAt data pos width < 2 ^ (got + width) := by
        calc value + 2 ^ got * bitsAt data pos width
            < 2 ^ got * (bitsAt data pos width + 1) := by rw [Nat.mul_succ]; omega
          _ ≤ 2 ^ got * 2 ^ width := Nat.mul_le_mul_left _ (bitsAt_lt data pos width)
          _ = 2 ^ (got + width) := (Nat.pow_add 2 got width).symm
      have hsplit : count - got = width + (count - (got + width)) := by omega
      have hbits := bitsAt_add data pos width (count - (got + width))
      rw [if_pos hlt, bind_of_eq_ok (sub_eq_ok (by omega)),
        bind_of_eq_ok (sub_eq_ok (Nat.le_of_lt hlt))]
      dsimp only
      rw [hwidth, bind_of_eq_ok hpart, bind_of_eq_ok (add_eq_ok (by omega)), hor,
        ih (by omega) (by omega) (by omega) hvalue', hsplit, hbits, Nat.mul_add, Nat.pow_add,
        Nat.mul_assoc, Nat.add_assoc, Nat.add_assoc]
    · obtain rfl : got = count := by omega
      rw [if_neg hlt, Nat.sub_self]
      rfl

/-- A read of 32 bits at most has no fault. -/
theorem agrees_read {count : Nat} (h : count ≤ 32) :
    Agrees Inside (read count) (BitRead.read count) := by
  intro r hr
  by_cases hfits : r.pos + count ≤ r.length
  · have hread : BitRead.read count r = .ok (bitsAt r.data r.pos count) (r.skip count) :=
      if_pos hfits
    refine agreesAt_of_ok ?_ hread hfits
    rw [read, get_bind, if_neg (Nat.not_lt.2 h)]
    by_cases hzero : count = 0
    · subst hzero
      rfl
    · have hgather : gather r.data count count r.pos 0 0 =
          .ok (0 + 2 ^ 0 * bitsAt r.data r.pos (count - 0), r.pos + (count - 0)) :=
        gather_eq h (Nat.zero_le _) (Nat.le_refl _) hfits Nat.zero_lt_one
      have hvalue : bitsAt r.data r.pos count < 2 ^ 32 :=
        Nat.lt_of_lt_of_le (bitsAt_lt _ _ _) (Nat.pow_le_pow_right (by decide) h)
      rw [Nat.zero_add, Nat.pow_zero, Nat.one_mul, Nat.sub_zero] at hgather
      rw [if_neg hzero, if_neg (Nat.not_lt.2 hfits), lift_bind hgather]
      dsimp only
      rw [set_bind, fit_eq_ok hvalue]
      rfl
  · refine agreesAt_of_error ?_ (if_neg hfits) hr
    have hzero : count ≠ 0 := by
      rintro rfl
      exact hfits hr
    rw [read, get_bind, if_neg (Nat.not_lt.2 h), if_neg hzero, if_pos (Nat.not_le.1 hfits)]
    rfl

/-! ## Checks and lists -/

def require (ok : Bool) (fault : StreamFault) : Checked BitReader Unit :=
  if ok then pure () else throw (.error (.invalidStream fault))

variable {α : Type}

/-- A check does the same on both sides, and what comes after it may use what it has checked. -/
theorem agrees_require {ok : Bool} {fault : StreamFault} {f' : Unit → Checked BitReader α}
    {f : Unit → BitRead α} (hf : ok → Agrees Inside (f' ()) (f ())) :
    Agrees Inside (require ok fault >>= f') (BitRead.require ok fault >>= f) := by
  cases ok with
  | true => exact hf rfl
  | false => exact fun r hr ↦ agreesAt_of_error rfl rfl hr

/-- Reads `n` items after those in `done`, which is in the opposite order. -/
def manyAfter (item : Checked BitReader α) : Nat → List α → Checked BitReader (List α)
  | 0, done => pure done.reverse
  | n + 1, done => do
    let a ← item
    manyAfter item n (a :: done)

theorem agrees_manyAfter {item' : Checked BitReader α} {item : BitRead α}
    (h : Agrees Inside item' item) (n : Nat) (done : List α) :
    Agrees Inside (manyAfter item' n done) (BitRead.manyAfter item n done) := by
  induction n generalizing done with
  | zero => exact agrees_pure done.reverse
  | succ n ih => exact h.bind fun a _ _ _ _ ↦ ih (a :: done)

/-! ## Numbers -/

def readBelowTop : Nat → Checked BitReader Nat
  | 0 => pure 0
  | 1 => pure 1
  | len + 2 => do
    let width ← sub (len + 2) 1
    let top ← shiftLeft 32 1 width
    let low ← read width
    return top ||| low

def readWord : Checked BitReader Nat := do
  let len ← read wordLengthWidth
  require (len ≤ 32) .numberLength
  readBelowTop len

/-- The bits below the top bit of a 32-bit number. -/
theorem agrees_readBelowTop {len : Nat} (h : len ≤ 32) :
    Agrees Inside (readBelowTop len) (BitRead.readBelowTop len) := by
  match len with
  | 0 => exact agrees_pure 0
  | 1 => exact agrees_pure 1
  | len + 2 =>
    have hwidth : len + 2 - 1 < 32 := by omega
    refine .step (sub_eq_ok (by omega)) (.step (shiftLeft_one hwidth) ?_)
    refine (agrees_read (show len + 1 ≤ 32 by omega)).bind fun low r r' hr hlow ↦ ?_
    have hor := Nat.two_pow_add_eq_or_of_lt ((BitRead.read_eq_ok_iff hr).1 hlow).1 1
    rw [Nat.mul_one] at hor
    show Agrees Inside (pure (2 ^ (len + 1) ||| low)) (pure (2 ^ (len + 1) + low))
    rw [← hor]
    exact agrees_pure _

theorem agrees_readWord : Agrees Inside readWord BitRead.readWord := by
  refine (agrees_read (by decide)).bind fun len _ _ _ _ ↦ ?_
  exact agrees_require fun hlen ↦ agrees_readBelowTop (of_decide_eq_true hlen)

end Checked

end EntropyCoding
