import EntropyCoding.Bits.Reader
import EntropyCoding.Prefix.Code

/-!
# Decoding prefix codes

A decoder keeps the number of codewords of each depth and the symbols in the order of their
codewords.  It reads a codeword bit by bit: those of one depth are consecutive numbers, so at
each depth a comparison tells whether the bits read are a codeword, and if so which.

Symbols are stored in 16 bits each and sorted by the depth of the stored symbol.
-/

namespace EntropyCoding

/-- A prefix code in the form a reader needs. -/
structure PrefixDecoder where
  /-- The symbol of a degenerate code. -/
  single? : Option Nat
  /-- The number of codewords of each depth. -/
  counts : Array Nat
  /-- The symbols in the order of their codewords. -/
  symbols : Array Nat
  deriving DecidableEq, Repr

namespace PrefixDecoder

/-- The symbols with a codeword, as they are stored, in the order of their ids. -/
def storedSymbols (c : PrefixCode) : List Nat :=
  ((List.range c.alphabetSize).filter fun symbol ↦ 0 < c.depth symbol).map (· % 2 ^ 16)

def ofCode (c : PrefixCode) : PrefixDecoder where
  single? := c.single?
  counts := depthCounts c.depths.toList
  symbols := ((storedSymbols c).mergeSort fun a b ↦ c.depth a ≤ c.depth b).toArray

variable (d : PrefixDecoder)

/-- Reads on, for at most `n` bits, towards a codeword of `depth` bits or more: `code` is twice
the number made of the bits read so far, `first` is the first codeword of this depth, and `index`
is the number of symbols with shorter codewords. -/
def walk : Nat → Nat → Nat → Nat → Nat → BitRead Nat
  | 0, _, _, _, _ => BitRead.reject .unknownCodeword
  | n + 1, depth, code, first, index => do
    let code := code + (← BitRead.read 1)
    let count := d.counts.getD depth 0
    if code < first + count then
      match d.symbols[index + (code - first)]? with
      | some symbol => return symbol
      | none => BitRead.reject .unknownCodeword
    else walk n (depth + 1) (2 * code) (2 * (first + count)) (index + count)

def readSymbol : BitRead Nat :=
  match d.single? with
  | some symbol => pure symbol
  | none => d.walk maxDepth 1 0 0 0

end PrefixDecoder

end EntropyCoding
