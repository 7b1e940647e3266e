import EntropyCoding.Error
import EntropyCoding.Prefix.Forest

/-!
# Codeword depths within a limit

The depths of a least-cost code can exceed the longest codeword allowed.  Then every weight below
a floor is lifted to it, and the floor is doubled until the depths fit: this flattens the tail of
rare symbols and leaves the frequent ones alone.  At a floor that no weight exceeds, all weights
are equal and the code is as flat as it can be, so the search ends there.
-/

namespace EntropyCoding

def maxDepth : Nat := 15

/-- The symbols that occur, with their counts. -/
def usedSymbols (counts : List Nat) : List (Nat × Nat) :=
  (counts.zipIdx.filter fun (count, _) ↦ 0 < count).map fun (count, symbol) ↦ (symbol, count)

/-- The weights of symbols, none below the floor. -/
def flooredWeights (floor : Nat) (used : List (Nat × Nat)) : List (Nat × Nat) :=
  used.map fun (symbol, count) ↦ (symbol, max count floor)

/-- The largest second component, zero for an empty list. -/
def largestSecond (pairs : List (Nat × Nat)) : Nat :=
  pairs.foldl (fun m p ↦ max m p.2) 0

/-- Depths found with a floor. -/
structure FlooredDepths where
  /-- The symbols with their depths. -/
  depths : List (Nat × Nat)
  /-- The floor of the weights. -/
  floor : Nat
  deriving DecidableEq, Repr

def FlooredDepths.deepest (d : FlooredDepths) : Nat :=
  largestSecond d.depths

/-- The depths of a least-cost code with the weights lifted to `2 ^ k`. -/
def depthsWithFloor (used : List (Nat × Nat)) (k : Nat) : FlooredDepths where
  depths := codeDepths (flooredWeights (2 ^ k) used)
  floor := 2 ^ k

/-- The depths with the first floor, from `2 ^ k` on, at which none exceeds the limit. -/
def depthsFromFloor (used : List (Nat × Nat)) (limit k : Nat) : FlooredDepths :=
  let found := depthsWithFloor used k
  if found.deepest ≤ limit then found
  else if largestSecond used ≤ 2 ^ k then found
  else depthsFromFloor used limit (k + 1)
termination_by largestSecond used - 2 ^ k
decreasing_by
  have := Nat.pow_lt_pow_right (by decide : 1 < 2) (Nat.lt_succ_self k)
  omega

/-- The depths with the first floor, a power of two, at which none exceeds the limit. -/
def depthsWithin (used : List (Nat × Nat)) (limit : Nat) : FlooredDepths :=
  depthsFromFloor used limit 0

/-- The number of codewords that a tree of limited depth has room for. -/
def codeCapacity (limit : Nat) : Nat :=
  2 ^ min limit 31

/-- The depths of `n` symbols, zero where none is given. -/
def spreadDepths (n : Nat) (depths : List (Nat × Nat)) : List Nat :=
  (depths.foldl (fun spread (symbol, depth) ↦ spread.setIfInBounds symbol depth)
    (Array.replicate n 0)).toList

/-- The depths of codewords for `counts`, none deeper than `limit`.  Symbols that do not occur
have depth zero, and so has a symbol that is the only one to occur. -/
def limitedDepths (counts : List Nat) (limit : Nat) : Except Error (List Nat) :=
  let used := usedSymbols counts
  if used.length ≤ 1 then .ok (List.replicate counts.length 0)
  else if codeCapacity limit < used.length then
    .error (.alphabetTooLarge used.length (codeCapacity limit))
  else .ok (spreadDepths counts.length (depthsWithin used limit).depths)

end EntropyCoding
