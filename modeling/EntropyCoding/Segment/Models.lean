import EntropyCoding.Model.Read
import EntropyCoding.Segment.Config

/-!
# The models of a segment

A segment has a header, which tells the family of its models, their precision and the split of
values, and then one model per cluster.  All models of a segment are of one family.
-/

namespace EntropyCoding

/-- Models of one family, one per cluster. -/
inductive ModelTable
  /-- Distributions for range coding. -/
  | ans (tables : Array AnsTable)
  /-- Prefix codes. -/
  | prefixCodes (codes : Array PrefixCode)
  deriving DecidableEq, Repr

/-- All that is needed to code the tokens of a segment. -/
structure SegmentModels where
  /-- The precision announced in the header. -/
  precision : Nat
  /-- The split announced in the header. -/
  split : TokenSplit
  /-- The models. -/
  table : ModelTable
  deriving DecidableEq, Repr

namespace ModelTable

def size : ModelTable → Nat
  | ans tables => tables.size
  | prefixCodes codes => codes.size

def isPrefixCodes : ModelTable → Bool
  | ans _ => false
  | prefixCodes _ => true

/-- The estimated bits that the data of histograms takes, each with its own model. -/
def estimates (table : ModelTable) (histograms : List Histogram) : List Float :=
  match table with
  | ans tables => tables.toList.zipWith AnsTable.estimateBits histograms
  | prefixCodes codes => codes.toList.zipWith PrefixCode.estimateBits histograms

end ModelTable

def headerFields (usesPrefixCodes : Bool) (precision : Nat) (split : TokenSplit) : List Field :=
  [Field.flag usesPrefixCodes, ⟨precision - leastStreamPrecision, 3⟩] ++ split.fields

/-! ## Writing -/

/-- Builds the distribution of a histogram and writes it. -/
def writeAnsTable (precision : Nat) (h : Histogram) : BitWrite AnsTable := do
  let table ← ofExcept (AnsTable.ofHistogram h precision)
  BitWrite.put table.fields
  return table

/-- Builds the prefix code of a histogram and writes it.  Alphabets that a reader would not
accept are refused. -/
def writePrefixCode (h : Histogram) : BitWrite PrefixCode := do
  if maxAlphabet < h.alphabetSize then throw (.alphabetSizeExceeded h.alphabetSize maxAlphabet)
  let code ← ofExcept (PrefixCode.ofHistogram h)
  BitWrite.put code.fields
  return code

/-- Builds the models of histograms and writes the header and the models. -/
def writeModels (config : SegmentConfig) (histograms : List Histogram) :
    BitWrite SegmentModels := do
  ofExcept config.validate
  BitWrite.put (headerFields config.usesPrefixCodes config.precision config.split)
  let table ←
    if config.usesPrefixCodes then do
      let codes ← histograms.mapM writePrefixCode
      pure (ModelTable.prefixCodes codes.toArray)
    else do
      let tables ← histograms.mapM (writeAnsTable config.precision)
      pure (ModelTable.ans tables.toArray)
  return { precision := config.precision, split := config.split, table }

/-! ## Reading -/

/-- Reads the header and `count` models. -/
def readModels (count : Nat) : BitRead SegmentModels := do
  let usesPrefixCodes ← BitRead.readBool
  let precision := (← BitRead.read 3) + leastStreamPrecision
  let split ← TokenSplit.read
  let table ←
    if usesPrefixCodes then do
      let codes ← BitRead.many count readPrefixCode
      pure (ModelTable.prefixCodes codes.toArray)
    else do
      let tables ← BitRead.many count (readAnsTable precision)
      pure (ModelTable.ans tables.toArray)
  return { precision, split, table }

end EntropyCoding
