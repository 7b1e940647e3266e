import EntropyCoding.Bits.Reader

/-!
# Numbers of unknown size

A number is sent as its length in binary, in a field of fixed width, followed by the bits below
its top bit.  Zero and one have no such bits.  The length field is 6 bits wide for the numbers
that can take 32 bits, and 4 bits wide for the frequencies of a distribution.
-/

namespace EntropyCoding

/-- The fields of `v`, its length in a field of `lengthWidth` bits. -/
def numberFields (lengthWidth v : Nat) : List Field :=
  ⟨bitLength v, lengthWidth⟩ :: if bitLength v ≤ 1 then [] else [⟨v, bitLength v - 1⟩]

def wordLengthWidth : Nat := 6

def wordFields (v : Nat) : List Field :=
  numberFields wordLengthWidth v

namespace BitRead

/-- Reads the bits below the top bit of a number of length `len`. -/
def readBelowTop : Nat → BitRead Nat
  | 0 => pure 0
  | 1 => pure 1
  | len + 2 => return 2 ^ (len + 1) + (← read (len + 1))

def readWord : BitRead Nat := do
  let len ← read wordLengthWidth
  require (len ≤ 32) .numberLength
  readBelowTop len

theorem forward_readBelowTop (len : Nat) : Forward (readBelowTop len) := by
  unfold readBelowTop
  split
  · exact forward_pure _
  · exact forward_pure _
  · exact forward_bind (forward_read _) fun _ ↦ forward_pure _

theorem forward_readWord : Forward readWord :=
  forward_bind (forward_read _) fun _ ↦
    forward_bind (forward_require _ _) fun _ ↦ forward_readBelowTop _

end BitRead

end EntropyCoding
