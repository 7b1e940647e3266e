import EntropyCoding.Prefix.Code

/-!
# Larger alphabets

A code is extended to a larger alphabet by way of populations.  A symbol of depth `d` stands for
`2 ^ (15 - d)` of the `2 ^ 15` members of a population, the new symbols join with one member
each, and a new code is built for the counts.  The old symbols nearly keep their share.
-/

namespace EntropyCoding

namespace PrefixCode

/-- The members that a symbol of the given depth stands for. -/
def population (depth : Nat) : Nat :=
  2 ^ (maxDepth - depth)

/-- The populations up to the first depth that has none. -/
def populations (c : PrefixCode) : List Nat :=
  (c.depths.toList.takeWhile (· ≤ maxDepth)).map population

/-- The counts that a code of `size` symbols is built from. -/
def extendedCounts (c : PrefixCode) (size : Nat) : List Nat :=
  c.populations ++ List.replicate (size - c.alphabetSize) 1

/-- The code extended to `size` symbols.  All of them are then in use, so there can be no more
than there are codewords. -/
def extend (c : PrefixCode) (size : Nat) : Except Error PrefixCode :=
  let old := c.populations
  if size ≤ c.alphabetSize then .error (.alphabetNotLarger size c.alphabetSize)
  else if old.length < c.alphabetSize ∨ old.sum ≠ codeSpace then
    .error (.invalidPopulation old.sum codeSpace)
  else if codeCapacity maxDepth < size then
    .error (.alphabetTooLarge size (codeCapacity maxDepth))
  else canonical <$> limitedDepths (c.extendedCounts size) maxDepth

end PrefixCode

end EntropyCoding
