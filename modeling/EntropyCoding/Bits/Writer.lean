import EntropyCoding.Bits.Field
import EntropyCoding.Error

/-!
# Writing bits

A `BitWriter` packs fields into bytes, the first bit into bit 0 of the first byte.  Bits that do
not fill a byte wait in a 64-bit accumulator: fewer than 8 wait between two calls, so a field of
up to 56 bits always fits beside them.

`BitWriter.toBits` is the sequence of bits a writer stands for; whatever else is said about
writers is said through it.  `BitWrite` is the type of an action that writes, and one that fails
leaves behind what it had written.
-/

namespace EntropyCoding

/-- The bits of a byte, least significant first. -/
def byteBits (b : UInt8) : List Bool :=
  lowBits 8 b.toNat

@[simp] theorem length_byteBits (b : UInt8) : (byteBits b).length = 8 :=
  length_lowBits _ _

def bytesToBits (bytes : List UInt8) : List Bool :=
  bytes.flatMap byteBits

@[simp] theorem length_bytesToBits (bytes : List UInt8) :
    (bytesToBits bytes).length = 8 * bytes.length := by
  induction bytes with
  | nil => rfl
  | cons b bytes ih =>
    rw [bytesToBits, List.flatMap_cons, List.length_append, ← bytesToBits, ih]
    simp only [length_byteBits, List.length_cons]
    omega

/-- A sink for bits. -/
structure BitWriter where
  /-- The bytes that are full. -/
  bytes : Array UInt8 := #[]
  /-- The bits that wait for a byte to be filled, lowest first. -/
  pending : UInt64 := 0
  /-- How many bits wait. -/
  count : Nat := 0
  deriving DecidableEq

namespace BitWriter

def empty : BitWriter := {}

def toBits (w : BitWriter) : List Bool :=
  bytesToBits w.bytes.toList ++ lowBits w.count w.pending.toNat

def bitsWritten (w : BitWriter) : Nat :=
  w.bytes.size * 8 + w.count

@[simp] theorem length_toBits (w : BitWriter) : w.toBits.length = w.bitsWritten := by
  simp [toBits, bitsWritten, Nat.mul_comm]

@[simp] theorem toBits_empty : empty.toBits = [] := rfl

/-- Moves `k` full bytes out of the accumulator. -/
def moveBytes : Nat → BitWriter → BitWriter
  | 0, w => w
  | k + 1, w =>
    moveBytes k
      { bytes := w.bytes.push w.pending.toUInt8, pending := w.pending >>> 8, count := w.count - 8 }

/-- Appends the low `n` bits of `v`, for `n` up to 56. -/
def write (w : BitWriter) (v n : Nat) : BitWriter :=
  moveBytes ((w.count + n) / 8)
    { w with
      pending := w.pending ||| (UInt64.ofNat (v % 2 ^ n) <<< UInt64.ofNat w.count)
      count := w.count + n }

def writeBool (w : BitWriter) (b : Bool) : BitWriter :=
  w.write b.toNat 1

def writeFields (w : BitWriter) (fields : List Field) : BitWriter :=
  fields.foldl (fun w f ↦ w.write f.value f.width) w

@[simp] theorem writeFields_nil (w : BitWriter) : w.writeFields [] = w := rfl

@[simp] theorem writeFields_cons (w : BitWriter) (f : Field) (fields : List Field) :
    w.writeFields (f :: fields) = (w.write f.value f.width).writeFields fields := rfl

theorem writeFields_append (w : BitWriter) (fs gs : List Field) :
    w.writeFields (fs ++ gs) = (w.writeFields fs).writeFields gs :=
  List.foldl_append

def padToByte (w : BitWriter) : BitWriter :=
  if w.count = 0 then w
  else { bytes := w.bytes.push w.pending.toUInt8, pending := 0, count := 0 }

/-- The bytes written, the last one filled with zeros. -/
def toBytes (w : BitWriter) : Array UInt8 :=
  w.padToByte.bytes

end BitWriter

/-- An action that writes bits. -/
abbrev BitWrite := EStateM Error BitWriter

def BitWrite.put (fields : List Field) : BitWrite Unit :=
  modify (·.writeFields fields)

end EntropyCoding
