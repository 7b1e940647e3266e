import EntropyCoding.Context.Clustering
import EntropyCoding.Token.Split

/-!
# Segment configurations

A configuration says how a segment is modelled: with range coding or prefix codes, at which
precision, with which split of values, and with how many models at most.
-/

namespace EntropyCoding

/-- The least precision that a segment can announce. -/
def leastStreamPrecision : Nat := 5

/-- The largest precision that a segment can announce. -/
def largestStreamPrecision : Nat := 12

/-- How a segment is modelled. -/
structure SegmentConfig where
  /-- True for prefix codes, false for range coding. -/
  usesPrefixCodes : Bool := false
  /-- The precision of the tables of range coding. -/
  precision : Nat := largestStreamPrecision
  /-- How values are split. -/
  split : TokenSplit := default
  /-- The largest number of models, if it is limited. -/
  clusterLimit? : Option Nat := none

namespace SegmentConfig

variable (c : SegmentConfig)

/-- The largest number of models. -/
def budget : Nat := c.clusterLimit?.getD maxClusters

/-- Fails unless every value is in range. -/
def validate : Except Error Unit :=
  if leastStreamPrecision ≤ c.precision ∧ c.precision ≤ largestStreamPrecision then
    if isClusterBudget c.budget then .ok () else .error (.invalidConfig .clusterBudget)
  else .error (.invalidConfig .streamPrecision)

end SegmentConfig

end EntropyCoding
