import EntropyCoding.Histogram.Basic
import EntropyCoding.Prefix.Canonical

/-!
# Prefix codes

A prefix code has a depth and a codeword for each symbol of its alphabet.  A code in which no
symbol has a depth is degenerate: it stands for its last symbol alone, which takes no bits.
-/

namespace EntropyCoding

/-- A prefix code. -/
structure PrefixCode where
  /-- The length of the codeword of each symbol, zero if it has none. -/
  depths : Array Nat
  /-- The bit-reversed codeword of each symbol. -/
  codes : Array Nat
  deriving DecidableEq, Repr

namespace PrefixCode

def canonical (depths : List Nat) : PrefixCode where
  depths := depths.toArray
  codes := canonicalCodes depths

/-- The counts that a code for a histogram is built from: there is always a first symbol. -/
def countsOf (h : Histogram) : List Nat :=
  if h.trimmed.isEmpty then [0] else h.trimmed

/-- The code of least cost for a histogram, within the largest depth. -/
def ofHistogram (h : Histogram) : Except Error PrefixCode :=
  canonical <$> limitedDepths (countsOf h) maxDepth

/-- The canonical code with the given depths, if they describe a complete or a degenerate code. -/
def ofDepths (depths : List Nat) : Except Error PrefixCode :=
  if depths.isEmpty then .error (.invalidStream .emptyCode)
  else if depths.any (maxDepth < ·) then .error (.invalidStream .codeDepth)
  else if depths.any (0 < ·) && kraftSum depths != codeSpace then
    .error (.invalidStream .incompleteCode)
  else .ok (canonical depths)

variable (c : PrefixCode)

def alphabetSize : Nat := c.depths.size

def coded : Nat := c.depths.countP (0 < ·)

/-- The symbol that a degenerate code stands for. -/
def single? : Option Nat :=
  if c.coded = 0 ∧ 0 < c.alphabetSize then some (c.alphabetSize - 1) else none

/-- True if the codewords fill the code space. -/
def isComplete : Bool :=
  kraftSum c.depths.toList == codeSpace

/-- The depth of a symbol, zero outside the alphabet. -/
def depth (symbol : Nat) : Nat := c.depths.getD symbol 0

/-- The codeword of a symbol; the symbol of a degenerate code has the empty one. -/
def codeword (symbol : Nat) : Except Error Field :=
  if 0 < c.depth symbol then .ok ⟨c.codes.getD symbol 0, c.depth symbol⟩
  else if c.single? = some symbol then .ok ⟨0, 0⟩
  else .error (.zeroFrequency symbol)

/-- The bits that the data of a histogram takes with this code. -/
def estimateBits (h : Histogram) : Float :=
  let single := c.single?
  h.counts.toList.zipIdx.foldl (fun sum (count, symbol) ↦
    if count = 0 then sum
    else if 0 < c.depth symbol then
      sum + Histogram.toFloat count * Histogram.toFloat (c.depth symbol)
    else if single = some symbol then sum
    else sum + 1 / 0) 0

end PrefixCode

end EntropyCoding
