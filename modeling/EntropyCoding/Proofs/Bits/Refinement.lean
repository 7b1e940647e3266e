import EntropyCoding.Proofs.Checked.Reader
import Mathlib.Data.Fin.Tuple.Basic

/-!
# Writers and readers as lists of bits

A writer stands for the list of the bits written to it, and each of its operations appends to the
list, `WriterOp.toBits_apply`: so after a run of operations a writer holds the list that the same
operations make from the empty one, and its bytes are this list, filled up with zeros.  A reader
stands for a position in the list of the bits of its bytes.  A read gives the number made of the next
bits and moves behind them, or there are too few and it stays where it is, `BitReader.outcomes_read`.

`BitWriter.run_refines` says both of the same list, for a run of operations and any reads after it.
-/

namespace EntropyCoding

/-! ## Writing -/

/-- Bits, filled up with zeros to whole bytes. -/
def fillBytes (bits : List Bool) : List Bool :=
  bits ++ List.replicate ((8 - bits.length % 8) % 8) false

/-- The operations of a writer. -/
inductive WriterOp
  /-- Appends the low bits of a number. -/
  | field (f : Field) (h : f.width ≤ maxFieldWidth)
  /-- Appends a single bit. -/
  | flag (b : Bool)
  /-- Fills the last byte with zeros. -/
  | pad

namespace WriterOp

/-- What an operation does to a writer. -/
def apply (w : BitWriter) : WriterOp → BitWriter
  | field f _ => w.write f.value f.width
  | flag b => w.writeBool b
  | pad => w.padToByte

/-- What an operation does to a list of bits. -/
def append (bits : List Bool) : WriterOp → List Bool
  | field f _ => bits ++ f.bits
  | flag b => bits ++ [b]
  | pad => fillBytes bits

/-- The bits that a run of operations appends to the empty list. -/
def bits (ops : List WriterOp) : List Bool :=
  ops.foldl append []

end WriterOp

namespace BitWriter

def run (ops : List WriterOp) : BitWriter :=
  ops.foldl WriterOp.apply empty

variable {w : BitWriter} (hw : w.Valid)
include hw

/-- The bytes of a writer are its bits, filled up with zeros. -/
theorem bytesToBits_toBytes_eq : bytesToBits w.toBytes.toList = fillBytes w.toBits := by
  obtain ⟨n, hn, hbytes⟩ := bytesToBits_toBytes hw
  have hlen := congrArg List.length hbytes
  rw [length_bytesToBits, List.length_append, List.length_replicate] at hlen
  rw [hbytes, fillBytes, show (8 - w.toBits.length % 8) % 8 = n by omega]

theorem toBits_padToByte : w.padToByte.toBits = fillBytes w.toBits := by
  have hcount : w.padToByte.count = 0 := by
    unfold padToByte
    split
    · assumption
    · rfl
  rw [← bytesToBits_toBytes_eq hw, toBits, hcount, lowBits_zero, List.append_nil]
  rfl

end BitWriter

namespace WriterOp

variable {w : BitWriter} (hw : w.Valid) (op : WriterOp)
include hw

theorem valid_apply : (op.apply w).Valid := by
  cases op with
  | field f h => exact hw.write f.value h
  | flag b => exact hw.write b.toNat (Nat.succ_le_succ (Nat.zero_le 55))
  | pad => exact hw.padToByte

/-- An operation appends to the bits of a writer what it appends to a list. -/
theorem toBits_apply : (op.apply w).toBits = op.append w.toBits := by
  cases op with
  | field f h => exact BitWriter.toBits_write hw f.value h
  | flag b =>
    rw [append, ← Field.bits_flag b]
    exact BitWriter.toBits_write hw b.toNat (Nat.succ_le_succ (Nat.zero_le 55))
  | pad => exact BitWriter.toBits_padToByte hw

/-- A run of operations appends to the bits of a writer what it appends to a list. -/
theorem valid_foldl_apply (ops : List WriterOp) :
    (ops.foldl apply w).Valid ∧ (ops.foldl apply w).toBits = ops.foldl append w.toBits := by
  induction ops generalizing w with
  | nil => exact ⟨hw, rfl⟩
  | cons op ops ih =>
    rw [List.foldl_cons, List.foldl_cons, ← op.toBits_apply hw]
    exact ih (op.valid_apply hw)

end WriterOp

/-! ## Reading -/

/-- What reads of the given widths give, each with the position it leads to.  A read that fails is
followed by the next one all the same. -/
def BitReader.outcomes {ε : Type} (read : Nat → EStateM ε BitReader Nat) :
    BitReader → List Nat → List (Except ε Nat × Nat)
  | _, [] => []
  | r, n :: widths =>
    match read n r with
    | .ok v r' => (.ok v, r'.pos) :: outcomes read r' widths
    | .error e r' => (.error e, r'.pos) :: outcomes read r' widths

/-- What such reads give on a list of bits from a position on. -/
def slices (bits : List Bool) : Nat → List Nat → List (Except Error Nat × Nat)
  | _, [] => []
  | pos, n :: widths =>
    if pos + n ≤ bits.length then
      (.ok (ofBits ((bits.drop pos).take n)), pos + n) :: slices bits (pos + n) widths
    else (.error .unexpectedEof, pos) :: slices bits pos widths

namespace BitReader

/-- Reads one after another give slices of the bits of the bytes. -/
theorem outcomes_read (r : BitReader) (widths : List Nat) :
    outcomes BitRead.read r widths = slices (bytesToBits r.data.toList) r.pos widths := by
  induction widths generalizing r with
  | nil => rfl
  | cons n widths ih =>
    have hlength : (bytesToBits r.data.toList).length = r.length := length_bytesToBits _
    rw [outcomes, slices, BitRead.read_eq, hlength]
    by_cases hn : r.pos + n ≤ r.length
    · rw [if_pos hn, if_pos hn]
      exact congrArg (_ :: ·) (ih (r.skip n))
    · rw [if_neg hn, if_neg hn]
      exact congrArg (_ :: ·) (ih r)

/-- Reading byte by byte, with each operation checked, gives the same without a fault. -/
theorem outcomes_checked_read {r : BitReader} (hr : r.Inside) {widths : List Nat}
    (hwidths : ∀ n ∈ widths, n ≤ 32) :
    outcomes Checked.read r widths =
      (outcomes BitRead.read r widths).map (Prod.map Checked.embedExcept id) := by
  induction widths generalizing r with
  | nil => rfl
  | cons n widths ih =>
    obtain ⟨hn, hwidths⟩ := List.forall_mem_cons.1 hwidths
    have hagrees := Checked.agrees_read hn hr
    rw [outcomes, outcomes, hagrees.eq, Checked.embed]
    cases hread : BitRead.read n r with
    | ok v r' => exact congrArg (_ :: ·) (ih (hagrees.of_ok hread) hwidths)
    | error e r' => exact congrArg (_ :: ·) (ih (hagrees.of_error hread) hwidths)

end BitReader

/-! ## Both -/

namespace BitWriter

/-- After any run of operations less than a byte waits in the writer and nothing lies above the bits
that wait; a field that comes next is put above them without a bit shifted out of the accumulator; the
writer holds the list of bits that the operations make, counts them, and gives bytes with just these
bits, filled up with zeros.  Reads from these bytes, one bit or one byte at a time, give the slices
of the list. -/
theorem run_refines (ops : List WriterOp) {widths : List Nat} (hwidths : ∀ n ∈ widths, n ≤ 32) :
    (run ops).Valid ∧
      (∀ f : Field, f.width ≤ maxFieldWidth →
        ((run ops).accumulate f.value f.width).pending.toNat =
          (run ops).pending.toNat + f.value % 2 ^ f.width * 2 ^ (run ops).count) ∧
      (run ops).toBits = WriterOp.bits ops ∧
      (run ops).bitsWritten = (WriterOp.bits ops).length ∧
      bytesToBits (run ops).toBytes.toList = fillBytes (WriterOp.bits ops) ∧
      (BitReader.ofBytes (run ops).toBytes).outcomes BitRead.read widths =
        slices (fillBytes (WriterOp.bits ops)) 0 widths ∧
      (BitReader.ofBytes (run ops).toBytes).outcomes Checked.read widths =
        (slices (fillBytes (WriterOp.bits ops)) 0 widths).map (Prod.map Checked.embedExcept id) := by
  obtain ⟨hvalid, hbits⟩ := WriterOp.valid_foldl_apply valid_empty ops
  have hbytes : bytesToBits (run ops).toBytes.toList = fillBytes (WriterOp.bits ops) :=
    (bytesToBits_toBytes_eq hvalid).trans (congrArg fillBytes hbits)
  have hread : (BitReader.ofBytes (run ops).toBytes).outcomes BitRead.read widths =
      slices (fillBytes (WriterOp.bits ops)) 0 widths :=
    (BitReader.outcomes_read _ widths).trans (congrArg (slices · 0 widths) hbytes)
  refine ⟨hvalid, fun f hf ↦ toNat_pending_accumulate hvalid f.value hf, hbits, ?_, hbytes, hread, ?_⟩
  · rw [← length_toBits]
    exact congrArg List.length hbits
  · rw [BitReader.outcomes_checked_read (Nat.zero_le _) hwidths, hread]

/-- Fields that cross bytes, a padding between them, and reads of which one asks for too much. -/
theorem run_refines_three :
    let ops : List WriterOp := [.flag true, .field ⟨0x1234567, 25⟩ (by decide), .pad,
      .field ⟨0xFFFFFFFFFFFFFF, 56⟩ (by decide), .field ⟨5, 3⟩ (by decide)]
    (∀ n ∈ [26, 32, 6, 31, 0, 32], n ≤ 32) ∧
      (run ops).Valid ∧ (run ops).bitsWritten = 91 ∧
        (BitReader.ofBytes (run ops).toBytes).outcomes BitRead.read [26, 32, 6, 31, 0, 32] =
          [(.ok 0x2468acf, 26), (.ok 0xFFFFFFC0, 58), (.ok 0x3F, 64), (.ok 0x5FFFFFF, 95), (.ok 0, 95),
            (.error .unexpectedEof, 95)] := by
  intro ops
  have hwidths : ∀ n ∈ [26, 32, 6, 31, 0, 32], n ≤ 32 := by decide
  obtain ⟨hvalid, -, -, hlength, -, hread, -⟩ := run_refines ops hwidths
  exact ⟨hwidths, hvalid, hlength.trans (by decide), hread.trans (by cbv)⟩

end BitWriter

end EntropyCoding
