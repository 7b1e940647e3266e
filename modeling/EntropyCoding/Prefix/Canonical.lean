import EntropyCoding.Bits.Field
import EntropyCoding.Prefix.Depths

/-!
# Canonical codewords

Codewords are determined by their depths: shorter ones come first in numerical order, and those
of equal depth follow the order of symbols.  A reader can therefore rebuild the code from the
depths.  Codewords are kept bit-reversed, because a field goes out lowest bit first while a
codeword is read from its highest bit on.
-/

namespace EntropyCoding

/-- True for the depths of coded symbols. -/
def isCodeDepth (depth : Nat) : Bool :=
  1 ≤ depth && depth ≤ maxDepth

def depthCounts (depths : List Nat) : Array Nat :=
  depths.foldl (fun counts depth ↦ if isCodeDepth depth then counts.modify depth (· + 1) else counts)
    (Array.replicate (maxDepth + 1) 0)

/-- The first codeword of a depth, given how many codewords there are of each. -/
def firstCode (count : Nat → Nat) : Nat → Nat
  | 0 => 0
  | depth + 1 => 2 * (firstCode count depth + count depth)

/-- The low `n` bits of `code` in the opposite order. -/
def reverseBits (n code : Nat) : Nat :=
  ofBits (lowBits n code).reverse

def firstCodes (depths : List Nat) : Array Nat :=
  let counts := depthCounts depths
  (Array.range (maxDepth + 1)).map (firstCode fun depth ↦ counts.getD depth 0)

/-- Assigns codewords in order; `next` has the codeword to assign next of each depth. -/
def assignCodes (next : Array Nat) (depths : List Nat) : Array Nat :=
  (depths.foldl (fun (next, codes) depth ↦
    if isCodeDepth depth then
      (next.modify depth (· + 1), codes.push (reverseBits depth (next.getD depth 0)))
    else (next, codes.push 0)) (next, #[])).2

/-- The bit-reversed codewords of symbols with the given depths, zero for symbols without. -/
def canonicalCodes (depths : List Nat) : Array Nat :=
  assignCodes (firstCodes depths) depths

/-- The part of the code space that the codewords take, in units of `2 ^ -15`. -/
def kraftSum (depths : List Nat) : Nat :=
  ((depths.filter isCodeDepth).map fun depth ↦ 2 ^ (maxDepth - depth)).sum

/-- The whole code space, in the units of `kraftSum`. -/
def codeSpace : Nat := 2 ^ maxDepth

end EntropyCoding
